import Ferryx.Rd.Framing

/-! The reader scans its buffer at an offset and compacts it once. Over whole streams this is a plain parse, and a parse can
be continued from what it left over. -/

namespace Ferryx.Rd
open Lib TcpFrameReader List
variable {s t rest frame payload : List UInt8} {n : Nat}

/-- The payloads of a stream, and the invalid length that ends it or what is left over. -/
def parse (s : List UInt8) : List (List UInt8) × (Nat ⊕ List UInt8) :=
  if s.length < 4 then ([], .inr s)
  else
    let length := leValue (s.take 4)
    if length = 0 ∨ length > maxTcpFrameSize then ([], .inl length)
    else if s.length < 4 + length then ([], .inr s)
    else (((s.drop 4).take length) :: (parse (s.drop (4 + length))).1, (parse (s.drop (4 + length))).2)
termination_by s.length

/-- Part of one frame: less than its length, or a valid length and less than that. -/
def Incomplete (s : List UInt8) : Prop :=
  s.length < 4 ∨ (0 < leValue (s.take 4) ∧ leValue (s.take 4) ≤ maxTcpFrameSize) ∧ s.length < 4 + leValue (s.take 4)

theorem parse_incomplete (h : Incomplete s) : parse s = ([], .inr s) := by
  rw [parse]
  rcases h with h | ⟨h, hlt⟩
  · rw [if_pos h]
  · split
    · rfl
    · rw [if_neg (by omega), if_pos hlt]

theorem incomplete_of_parse (h : (parse s).2 = .inr rest) : Incomplete rest := by
  fun_induction parse s with
  | case1 s hlt =>
    obtain rfl := Sum.inr.inj h
    exact .inl hlt
  | case2 => cases h
  | case3 s _ length hvalid hlt =>
    obtain rfl := Sum.inr.inj h
    exact .inr ⟨by omega, hlt⟩
  | case4 s _ _ _ _ ih => exact ih h

theorem parse_frame (hvalid : 0 < leValue (s.take 4) ∧ leValue (s.take 4) ≤ maxTcpFrameSize)
    (hle : 4 + leValue (s.take 4) ≤ s.length) :
    parse (s ++ t) = ((s.drop 4).take (leValue (s.take 4)) :: (parse (s.drop (4 + leValue (s.take 4)) ++ t)).1,
      (parse (s.drop (4 + leValue (s.take 4)) ++ t)).2) := by
  have htake : (s ++ t).take 4 = s.take 4 := take_append_of_le_length (by omega)
  rw [parse, htake, length_append, if_neg (by omega), if_neg (by omega), if_neg (by omega),
    drop_append_of_le_length (by omega), drop_append_of_le_length hle,
      take_append_of_le_length (by rw [length_drop]; omega)]

theorem parse_append_dropped (h : (parse s).2 = .inl n) : parse (s ++ t) = parse s := by
  fun_induction parse s with
  | case1 => cases h
  | case2 s hlt length hinvalid =>
    have htake : (s ++ t).take 4 = s.take 4 := take_append_of_le_length (by omega)
    rw [parse, if_neg (by rw [length_append]; omega), htake]
    exact if_pos hinvalid
  | case3 => cases h
  | case4 s hlt length hvalid hle ih => rw [parse_frame (by omega) (by omega), ih h]

theorem parse_append (h : (parse s).2 = .inr rest) :
    parse (s ++ t) = ((parse s).1 ++ (parse (rest ++ t)).1, (parse (rest ++ t)).2) := by
  fun_induction parse s with
  | case1 s hlt =>
    obtain rfl := Sum.inr.inj h
    rfl
  | case2 => cases h
  | case3 =>
    obtain rfl := Sum.inr.inj h
    rfl
  | case4 s hlt length hvalid hle ih =>
    rw [parse_frame (by omega) (by omega), ih h]
    rfl

/-- The frames and, where the stream breaks, the length that broke it. -/
def events (p : List (List UInt8) × (Nat ⊕ List UInt8)) : List TcpFrameEvent :=
  p.1.map .frame ++ p.2.elim (fun n => [.droppedInvalidLength n]) fun _ => []

theorem compact_eq (buffer : List UInt8) (offset : Nat) : compact buffer offset = buffer.drop offset := by
  unfold compact
  split
  next heq => simp [heq]
  · split
    · rfl
    next h0 => simp [Nat.eq_zero_of_not_pos h0]

variable {es : List TcpFrameEvent} {frames : List (List UInt8)} {r : TcpFrameReader} {input : List UInt8}

theorem scan_eq {buffer : List UInt8} {offset : Nat} :
    scan buffer offset es =
      (⟨(parse (buffer.drop offset)).2.elim (fun _ => []) id⟩, es ++ events (parse (buffer.drop offset))) := by
  have hlength : (buffer.drop offset).length = buffer.length - offset := length_drop
  fun_induction scan buffer offset es with
  | case1 offset es hlen length hinvalid =>
    have hparse : parse (buffer.drop offset) = ([], .inl length) := by
      rw [parse, if_neg (by omega)]
      exact if_pos hinvalid
    rw [hparse]
    rfl
  | case2 offset es hlen length hvalid frameEnd hlt =>
    rw [compact_eq, parse_incomplete (.inr ⟨by omega, by omega⟩)]
    simp [events]
  | case3 offset es hlen length hvalid frameEnd hlt ih =>
    have hframe := parse_frame (s := buffer.drop offset) (t := []) (by omega) (by omega)
    rw [ih length_drop]
    simp only [append_nil, drop_drop] at hframe
    rw [hframe]
    simp [events, frameEnd, length]
  | case4 offset es hlen =>
    rw [compact_eq, parse_incomplete (.inl (by omega))]
    simp [events]

def untilDropped : List TcpFrameEvent → List TcpFrameEvent
  | [] => []
  | .frame payload :: es => .frame payload :: untilDropped es
  | .droppedInvalidLength n :: _ => [.droppedInvalidLength n]

theorem untilDropped_append :
    untilDropped (frames.map .frame ++ es) = frames.map .frame ++ untilDropped es := by
  induction frames with
  | nil => rfl
  | cons payload frames ih => exact congrArg _ ih

theorem untilDropped_isPrefix (es : List TcpFrameEvent) : untilDropped es <+: es := by
  induction es with
  | nil => exact nil_prefix
  | cons e es ih =>
    cases e with
    | frame payload => exact cons_prefix_cons.mpr ⟨rfl, ih⟩
    | droppedInvalidLength n => exact cons_prefix_cons.mpr ⟨rfl, nil_prefix⟩

theorem push_eq :
    r.push input = (⟨(parse (r.buffer ++ input)).2.elim (fun _ => []) id⟩, events (parse (r.buffer ++ input))) :=
  scan_eq

theorem incomplete_push : Incomplete (r.push input).1.buffer := by
  rw [push_eq]
  cases h : (parse (r.buffer ++ input)).2 with
  | inl n => exact .inl (Nat.zero_lt_succ _)
  | inr rest => exact incomplete_of_parse h

theorem incomplete_pushes (h : Incomplete r.buffer) (inputs : List (List UInt8)) :
    Incomplete (r.pushes inputs).1.buffer := by
  induction inputs generalizing r with
  | nil => exact h
  | cons input inputs ih => exact ih incomplete_push

theorem untilDropped_pushes (h : Incomplete r.buffer) (inputs : List (List UInt8)) :
    untilDropped (r.pushes inputs).2 = events (parse (r.buffer ++ inputs.flatten)) := by
  induction inputs generalizing r with
  | nil =>
    rw [flatten_nil, append_nil, parse_incomplete h]
    rfl
  | cons input inputs ih =>
    rw [pushes, flatten_cons, ← append_assoc]
    cases hp : (parse (r.buffer ++ input)).2 with
    | inl n =>
      rw [parse_append_dropped hp, push_eq, events, append_assoc, untilDropped_append, hp]
      rfl
    | inr rest =>
      have hpush : r.push input = (⟨rest⟩, (parse (r.buffer ++ input)).1.map .frame) := by
        rw [push_eq, events, hp]
        simp
      rw [hpush, untilDropped_append, ih (incomplete_of_parse hp), parse_append hp, events, events, map_append,
        append_assoc]

theorem parse_encode (h : TcpFrameWriter.encode payload = .ok frame) :
    parse (frame ++ t) = (payload :: (parse t).1, (parse t).2) := by
  simp only [TcpFrameWriter.encode] at h
  split at h
  · cases h
  next hvalid =>
    obtain rfl := Except.ok.inj h
    have hlength : leValue ((leBytes 4 payload.length ++ payload).take 4) = payload.length := by
      rw [take_append_of_le_length (by simp), take_of_length_le (by simp), leValue_leBytes]
      exact Nat.mod_eq_of_lt (by simp [maxTcpFrameSize] at hvalid; omega)
    have hdrop : (leBytes 4 payload.length ++ payload).drop (4 + payload.length) = [] := drop_of_length_le (by simp)
    rw [parse_frame (by omega) (by rw [hlength]; simp), hlength, hdrop]
    simp

theorem parse_frames {payloads : List (List UInt8)}
    (h : List.Forall₂ (fun payload frame => TcpFrameWriter.encode payload = .ok frame) payloads frames) :
    (parse (frames.flatten ++ t)).1 = payloads ++ (parse t).1 := by
  induction h with
  | nil => rfl
  | cons hframe _ ih => rw [flatten_cons, append_assoc, parse_encode hframe, ih, cons_append]

/-- The frames of a stream do not depend on how it is cut. -/
theorem frames_survive_cuts (inputs : List (List UInt8)) :
    (∀ payloads frames tail, List.Forall₂ (fun payload frame => TcpFrameWriter.encode payload = .ok frame) payloads frames →
      inputs.flatten = frames.flatten ++ tail → payloads.map .frame <+: (pushes {} inputs).2) ∧
    (∀ inputs', inputs'.flatten = inputs.flatten → untilDropped (pushes {} inputs').2 = untilDropped (pushes {} inputs).2) ∧
    Incomplete (pushes {} inputs).1.buffer := by
  have hempty : Incomplete ({} : TcpFrameReader).buffer := .inl (Nat.zero_lt_succ _)
  have hall : ∀ inputs, untilDropped (pushes {} inputs).2 = events (parse inputs.flatten) := untilDropped_pushes hempty
  refine ⟨fun payloads frames tail hframes hflat => ?_, fun inputs' hflat => ?_, incomplete_pushes hempty inputs⟩
  · refine List.IsPrefix.trans ?_ (untilDropped_isPrefix _)
    rw [hall, hflat, events, parse_frames hframes, map_append, append_assoc]
    exact List.prefix_append _ _
  · rw [hall, hall, hflat]

end Ferryx.Rd
