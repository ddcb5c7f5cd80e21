import Ferryx.Lib.Lists
import Ferryx.Rd.Input

/-! Pointer input is applied at most once and in order. What the host applied is a prefix of what was sent, with the runs of
samples in a batch merged; the reliable packets on their way and the journal hold the rest. -/

namespace Ferryx.Rd
open Lib List InputOrder

section Batches
variable {F : Type} [Coordinate F] {o : InputOrder}

/-- A batch of the epoch whose journal is at `e`. -/
structure Fits (b : InputBatch F) (e : Nat × List (InputEvent F)) : Prop where
  samples : b.samples <+: e.2
  sequence : b.sequence ≤ e.1
  full : b.sequence = e.1 → b.samples = e.2

variable {b : InputBatch F} {g : List (InputEvent F)}

omit [Coordinate F] in
theorem Fits.grow {s : Nat} {p ss : List (InputEvent F)} (h : Fits b (s, p)) : Fits b (s + 1, p ++ ss) where
  samples := h.samples.trans (List.prefix_append p ss)
  sequence := h.sequence.trans (Nat.le_succ s)
  full heq := by
    have hle := h.sequence
    dsimp only at heq hle
    omega

/-- What the decoder of a batch asks for. -/
def Valid (samples : List (InputEvent F)) : Prop :=
  samples.length ≤ maxInputSamples ∧ ∀ e ∈ samples, isPointerMotion e = true ∧ e.finite = true

theorem check_iff (b : InputBatch F) : b.check = .ok () ↔ Valid b.samples := by
  unfold InputBatch.check Valid
  split
  next h => simp [Nat.not_le.mpr h]
  next h =>
    split
    next hany =>
      simp only [reduceCtorEq, false_iff, not_and]
      intro _ hall
      obtain ⟨e, he, hbad⟩ := any_eq_true.mp hany
      simp [hall e he] at hbad
    next hany =>
      simp only [true_iff]
      refine ⟨Nat.le_of_not_lt h, fun e he => ?_⟩
      have := hany
      simp only [any_eq_true, not_exists, not_and] at this
      simpa using this e he

theorem InputOrder.accept_fresh (hepoch : b.epoch = o.epoch) (hseq : o.sequence < b.sequence) :
    o.accept b false = (⟨o.epoch, b.sequence, b.samples.length⟩, mergeSamples (o.fresh b)) ∧
      o.fresh b = b.samples.drop o.applied := by
  simp [accept, fresh, hepoch, hseq]

theorem InputOrder.accept_stale (h : ¬(b.epoch = o.epoch ∧ o.sequence < b.sequence)) :
    o.accept b false = (o, mergeSamples (o.fresh b)) ∧ o.fresh b = [] := by
  have hfresh : o.fresh b = [] := if_neg h
  refine ⟨?_, hfresh⟩
  rw [hfresh, accept, hfresh]
  by_cases hepoch : b.epoch = o.epoch
  · have hseq : ¬o.sequence < b.sequence := fun hseq => h ⟨hepoch, hseq⟩
    simp [hepoch, hseq]
  · simp [hepoch, mergeSamples]

theorem InputOrder.accept_barrier (hepoch : b.epoch = o.epoch) (hseq : o.sequence ≤ b.sequence)
    (hfull : o.sequence = b.sequence → o.applied = b.samples.length) :
    o.accept b true = (⟨o.epoch + 1, b.sequence, 0⟩, mergeSamples (o.fresh b)) ∧ o.fresh b = b.samples.drop o.applied := by
  rcases Nat.lt_or_eq_of_le hseq with hlt | heq
  · simp [accept, fresh, hepoch, hlt]
  · simp [accept, fresh, hepoch, heq, hfull heq]

theorem fresh_motion (o : InputOrder) (hb : Valid b.samples) : ∀ e ∈ o.fresh b, isPointerMotion e = true := by
  intro e he
  unfold fresh at he
  split at he
  · exact (hb.2 e (mem_of_mem_drop he)).1
  · cases he

/-! ### Merging

A batch falls into runs of the same kind of motion with the same modifiers. Of a run the last absolute position is kept, or
its deltas are added. -/

def sameMotion (a b : InputEvent F) : Bool := a.eventType = b.eventType ∧ a.modifiers = b.modifiers

/-- The one event for a run of motion. -/
def runEvent (first : InputEvent F) (rest : List (InputEvent F)) : InputEvent F :=
  match first.eventType with
  | .relativeMove | .scrollWheel => { first with
      scrollDx := rest.foldl (fun sum e => sum + e.scrollDx) first.scrollDx
      scrollDy := rest.foldl (fun sum e => sum + e.scrollDy) first.scrollDy }
  | _ => rest.getLast?.getD first

def runEvents : List (InputEvent F) → List (InputEvent F)
  | [] => []
  | first :: rest => [runEvent first rest]

/-- The events for samples of one batch, run by run. -/
def merged (samples : List (InputEvent F)) : List (InputEvent F) := (samples.splitBy sameMotion).flatMap runEvents

/-- What the guest may do of the events of a group: merged, then masked. -/
def InputPolicy.applied (p : InputPolicy) (g : List (InputEvent F)) : List (InputEvent F) :=
  ((merged g).map p.masked).filter fun e => p.allows e.eventType

/-- What is left of a run that goes on with `e`. -/
def joined (cur e : InputEvent F) : InputEvent F :=
  match e.eventType with
  | .relativeMove | .scrollWheel =>
    { cur with scrollDx := cur.scrollDx + e.scrollDx, scrollDy := cur.scrollDy + e.scrollDy }
  | _ => e

theorem mergeSample_concat (out : List (InputEvent F)) (cur : InputEvent F) {e : InputEvent F}
    (he : isPointerMotion e = true) :
    mergeSample (out ++ [cur]) e = if sameMotion cur e then out ++ [joined cur e] else out ++ [cur, e] := by
  unfold mergeSample sameMotion joined
  rw [getLast?_append, getLast?_singleton, Option.some_or]
  dsimp only
  by_cases hsame : cur.eventType = e.eventType ∧ cur.modifiers = e.modifiers
  · rw [if_pos hsame, if_pos (decide_eq_true hsame), dropLast_concat]
    cases htype : e.eventType <;> simp_all [isPointerMotion]
  · rw [if_neg hsame, if_neg (by simpa using hsame), append_assoc]
    rfl

theorem runEvent_nil (e : InputEvent F) : runEvent e [] = e := by
  unfold runEvent
  split <;> rfl

theorem runEvent_concat (first : InputEvent F) (rest : List (InputEvent F)) {e : InputEvent F}
    (hsame : first.eventType = e.eventType) : runEvent first (rest ++ [e]) = joined (runEvent first rest) e := by
  unfold runEvent joined
  rw [hsame]
  cases e.eventType <;> simp

theorem runEvent_same {first e : InputEvent F} {rest : List (InputEvent F)}
    (h : ∀ x ∈ first :: rest, sameMotion x e = true) :
    sameMotion (runEvent first rest) e = true := by
  have hfirst := h first mem_cons_self
  unfold runEvent
  split
  · exact hfirst
  · exact hfirst
  · cases hlast : rest.getLast? with
    | none => exact hfirst
    | some last => exact h last (mem_cons_of_mem _ (mem_of_getLast? hlast))

omit [Coordinate F] in
theorem sameMotion_trans {a b c : InputEvent F} (h : sameMotion a b = true) (h' : sameMotion b c = true) :
    sameMotion a c = true := by
  simp only [sameMotion, decide_eq_true_eq] at *
  exact ⟨h.1.trans h'.1, h.2.trans h'.2⟩

/-- The merge goes on from the runs `done` and the run `first :: rest`, which `splitBy` holds in reverse. -/
theorem foldl_mergeSample {first last : InputEvent F} {rest earlier : List (InputEvent F)}
    (hg : ∀ e ∈ g, isPointerMotion e = true)
    (done : List (List (InputEvent F))) (hrun : (last :: earlier).reverse = first :: rest)
    (hsame : ∀ x ∈ first :: rest, sameMotion x last = true) :
    g.foldl mergeSample (done.reverse.flatMap runEvents ++ [runEvent first rest]) =
      (splitBy.loop sameMotion g last earlier done).flatMap runEvents := by
  induction g generalizing done first rest last earlier with
  | nil => rw [foldl_nil, splitBy.loop, reverse_cons, flatMap_append, flatMap_singleton, hrun, runEvents]
  | cons e g ih =>
    have hg' : ∀ x ∈ g, isPointerMotion x = true := fun x hx => hg x (mem_cons_of_mem _ hx)
    have hlast : last ∈ first :: rest := by simp [← hrun]
    rw [foldl_cons, mergeSample_concat _ _ (hg e mem_cons_self), splitBy.loop]
    cases hnext : sameMotion last e with
    | true =>
      -- The run goes on.
      have hall : ∀ x ∈ first :: rest, sameMotion x e = true := fun x hx => sameMotion_trans (hsame x hx) hnext
      have htype : first.eventType = e.eventType := by
        have hfirst := hall first mem_cons_self
        simp only [sameMotion, decide_eq_true_eq] at hfirst
        exact hfirst.1
      rw [if_pos (runEvent_same hall), ← runEvent_concat first rest htype]
      refine ih hg' done ?_ fun x hx => ?_
      · rw [reverse_cons, hrun, cons_append]
      · rw [← cons_append] at hx
        rcases mem_append.mp hx with hx | hx
        · exact hall x hx
        · rw [mem_singleton.mp hx]
          simp [sameMotion]
    | false =>
      have hother : sameMotion (runEvent first rest) e = false := by
        have hrun' := runEvent_same hsame
        simp only [sameMotion, decide_eq_true_eq, decide_eq_false_iff_not] at hrun' hnext ⊢
        exact fun hsame' => hnext ⟨hrun'.1.symm.trans hsame'.1, hrun'.2.symm.trans hsame'.2⟩
      have hflat : ((first :: rest) :: done).reverse.flatMap runEvents ++ [runEvent e []] =
          done.reverse.flatMap runEvents ++ [runEvent first rest, e] := by
        rw [reverse_cons, flatMap_append, flatMap_singleton, runEvents, append_assoc, runEvent_nil]
        rfl
      rw [if_neg (by simp [hother]), ← hflat, ← hrun]
      exact ih hg' _ rfl (by simp [sameMotion])

theorem mergeSamples_eq (hg : ∀ e ∈ g, isPointerMotion e = true) : mergeSamples g = merged g := by
  cases g with
  | nil => rfl
  | cons e g =>
    have hloop : g.foldl mergeSample ([runEvent e []]) = (splitBy.loop sameMotion g e [] []).flatMap runEvents :=
      foldl_mergeSample (fun x hx => hg x (mem_cons_of_mem _ hx)) [] rfl (by simp [sameMotion])
    rw [runEvent_nil] at hloop
    exact hloop

theorem mergeSample_motion {out : List (InputEvent F)} (hout : ∀ e ∈ out, isPointerMotion e = true) {event : InputEvent F}
    (h : isPointerMotion event = true) : ∀ e ∈ mergeSample out event, isPointerMotion e = true := by
  have hlast {x : InputEvent F} (hx : isPointerMotion x = true) : ∀ e ∈ out.dropLast ++ [x], isPointerMotion e = true := by
    intro e he
    rcases mem_append.mp he with he | he
    · exact hout e (dropLast_subset _ he)
    · exact mem_singleton.mp he ▸ hx
  have hmore : ∀ e ∈ out ++ [event], isPointerMotion e = true := by
    intro e he
    rcases mem_append.mp he with he | he
    · exact hout e he
    · exact mem_singleton.mp he ▸ h
  unfold mergeSample
  split
  · exact hmore
  next previous hprevious =>
    split
    · split
      iterate 3 exact hlast h
      iterate 2 exact hlast (hout previous (mem_of_getLast? hprevious))
      exact hmore
    · exact hmore

theorem mergeSamples_motion (hg : ∀ e ∈ g, isPointerMotion e = true) :
    ∀ e ∈ mergeSamples g, isPointerMotion e = true :=
  List.foldlRecOn g mergeSample (motive := fun out => ∀ e ∈ out, isPointerMotion e = true) nofun
    fun _ hout e he => mergeSample_motion hout (hg e he)

omit [Coordinate F] in
theorem allows_motion (p : InputPolicy) {e : InputEvent F} (h : isPointerMotion e = true) :
    p.allows e.eventType = p.mouse := by
  revert h
  unfold isPointerMotion InputPolicy.allows
  cases e.eventType <;> simp

omit [Coordinate F] in
theorem masked_eventType (p : InputPolicy) (e : InputEvent F) : (p.masked e).eventType = e.eventType := by
  unfold InputPolicy.masked
  split <;> rfl

theorem applied_motion (p : InputPolicy) (hg : ∀ e ∈ g, isPointerMotion e = true) :
    p.applied g = p.motions (mergeSamples g) := by
  have hallows : ∀ e ∈ (mergeSamples g).map p.masked, p.allows e.eventType = p.mouse := by
    intro e he
    obtain ⟨x, hx, rfl⟩ := mem_map.mp he
    rw [masked_eventType]
    exact allows_motion p (mergeSamples_motion hg x hx)
  unfold InputPolicy.applied InputPolicy.motions
  rw [← mergeSamples_eq hg, filter_congr hallows]
  cases p.mouse <;> simp

theorem applied_singleton (p : InputPolicy) (e : InputEvent F) :
    p.applied [e] = [p.masked e].filter fun e => p.allows e.eventType := by
  rw [InputPolicy.applied, merged, splitBy, splitBy.loop, reverse_singleton, flatMap_singleton, reverse_singleton,
    runEvents,
    runEvent_nil]
  rfl

theorem valid_nil : Valid ([] : List (InputEvent F)) := ⟨Nat.zero_le _, nofun⟩

end Batches

/-! ### What is on its way -/

namespace InputLink
variable {F : Type} [Coordinate F] {w : InputLink F} {p : InputPolicy}

/-- The epochs from the host's on: those of the reliable packets on their way, and that of the journal. -/
def line (w : InputLink F) : List (Nat × List (InputEvent F)) :=
  w.tcp.map (fun b => (b.batch.sequence, b.batch.samples)) ++ [(w.journal.sequence, w.journal.pending)]

/-- The barriers on their way are the epochs between the host's and the client's, in order. -/
structure Journaled (w : InputLink F) : Prop where
  epoch : w.host.order.epoch + w.tcp.length = w.journal.epoch
  barriers : ∀ {i b}, w.tcp[i]? = some b → b.batch.epoch = w.host.order.epoch + i
  ordered : w.line.IsChain fun a b => a.1 < b.1 ∨ a.1 = b.1 ∧ b.2 = []
  fits : ∀ {b i}, b ∈ w.udp → b.epoch = w.host.order.epoch + i → ∃ e, w.line[i]? = some e ∧ Fits b e
  longer : ∀ {b b'}, b ∈ w.udp → b' ∈ w.udp → b.epoch = b'.epoch → b.sequence ≤ b'.sequence →
    b.samples.length ≤ b'.samples.length
  head : ∀ {e}, w.line.head? = some e → w.host.order.sequence ≤ e.1 ∧ w.host.order.applied ≤ e.2.length ∧
    (w.host.order.sequence = e.1 → w.host.order.applied = e.2.length)
  ahead : ∀ {b}, b ∈ w.udp → b.epoch = w.host.order.epoch → w.host.order.sequence < b.sequence →
    w.host.order.applied ≤ b.samples.length
  valid : ∀ {e}, e ∈ w.line → Valid e.2
  sent : ∀ {b}, b ∈ w.udp → Valid b.samples

omit [Coordinate F] in
theorem line_ne_nil (w : InputLink F) : w.line ≠ [] := by simp [line]

omit [Coordinate F] in
theorem line_checkpoint (w : InputLink F) (event : Option (InputEvent F)) (events : List (InputEvent F)) :
    (w.emit w.journal.checkpoint.1 [.tcp ⟨w.journal.checkpoint.2, event⟩] events).line = w.line ++
      [(w.journal.sequence, [])] := by
  simp [line, emit, InputJournal.checkpoint]

theorem Journaled.checkpoint (J : Journaled w) (event : Option (InputEvent F)) (events : List (InputEvent F)) :
    Journaled (w.emit w.journal.checkpoint.1 [.tcp ⟨w.journal.checkpoint.2, event⟩] events) := by
  have htcp : (w.emit w.journal.checkpoint.1 [.tcp ⟨w.journal.checkpoint.2, event⟩] events).tcp =
      w.tcp ++ [⟨⟨w.journal.epoch, w.journal.sequence, w.journal.pending⟩, event⟩] := rfl
  have hudp : (w.emit w.journal.checkpoint.1 [.tcp ⟨w.journal.checkpoint.2, event⟩] events).udp = w.udp := append_nil _
  have hline := line_checkpoint w event events
  constructor
  · rw [htcp, length_append]
    show w.host.order.epoch + (w.tcp.length + 1) = w.journal.epoch + 1
    rw [← J.epoch]
    rfl
  · intro i b hb
    rw [htcp] at hb
    rcases getElem?_concat_cases hb with hb | ⟨rfl, rfl⟩
    · exact J.barriers hb
    · exact J.epoch.symm
  · rw [hline, isChain_append]
    refine ⟨J.ordered, by simp, fun a ha b hb => .inr ?_⟩
    have ha : a = (w.journal.sequence, w.journal.pending) := by simpa [line, eq_comm] using ha
    have hb : b = (w.journal.sequence, []) := by simpa [eq_comm] using hb
    rw [ha, hb]
    exact ⟨rfl, rfl⟩
  · intro b i hb hi
    rw [hudp] at hb
    obtain ⟨e, he, hfit⟩ := J.fits hb hi
    rw [hline]
    exact ⟨e, getElem?_concat_lt he _, hfit⟩
  · rw [hudp]
    exact J.longer
  · intro e he
    rw [hline, head?_append_of_ne_nil _ w.line_ne_nil] at he
    exact J.head he
  · rw [hudp]
    exact J.ahead
  · intro e he
    rw [hline] at he
    rcases mem_append.mp he with he | he
    · exact J.valid he
    · rw [mem_singleton.mp he]
      exact valid_nil
  · rw [hudp]
    exact J.sent

variable {samples events : List (InputEvent F)} {packets : List (InputPacket F)} {tcp rest : List (Barrier F)} {n k : Nat}
  {event : InputEvent F} {b : InputBatch F} {host : InputHost F}

theorem Journaled.grow (J : Journaled w)
    (hv : Valid (w.journal.pending ++ samples)) (hp : packets = [] ∨ packets = [.udp (w.journal.append samples).2])
    (events : List (InputEvent F)) : Journaled (w.emit (w.journal.append samples).1 packets events) := by
  let base := w.tcp.map fun b => (b.batch.sequence, b.batch.samples)
  let old := (w.journal.sequence, w.journal.pending)
  let new := (w.journal.sequence + 1, w.journal.pending ++ samples)
  have htcp : (w.emit (w.journal.append samples).1 packets events).tcp = w.tcp := by
    rcases hp with rfl | rfl <;> exact append_nil _
  have hudp : ∀ {b}, b ∈ (w.emit (w.journal.append samples).1 packets events).udp →
      b ∈ w.udp ∨ b = ⟨w.journal.epoch, w.journal.sequence + 1, w.journal.pending ++ samples⟩ := by
    intro b hb
    rcases hp with rfl | rfl
    · exact .inl (by simpa [emit] using hb)
    · simpa [emit, InputJournal.append] using hb
  have hline : (w.emit (w.journal.append samples).1 packets events).line = base ++ [new] := by
    rw [line, htcp]
    rfl
  have hold : w.line = base ++ [old] := rfl
  have hlen : base.length = w.tcp.length := length_map ..
  -- The snapshots of the journal so far are those of its epoch.
  have hlast : ∀ {b}, b ∈ w.udp → b.epoch = w.journal.epoch → Fits b old := by
    intro b hb he
    obtain ⟨e, he', hfit⟩ := J.fits hb (he.trans J.epoch.symm)
    rw [hold] at he'
    rcases getElem?_concat_cases he' with h | ⟨-, rfl⟩
    · rw [getElem?_eq_none hlen.le] at h
      cases h
    · exact hfit
  constructor
  · rw [htcp]
    exact J.epoch
  · rw [htcp]
    exact J.barriers
  · have hord := J.ordered
    rw [hold, isChain_append] at hord
    rw [hline, isChain_append]
    refine ⟨hord.1, by simp, fun a ha b hb => .inl ?_⟩
    obtain rfl : new = b := by simpa using hb
    have h := hord.2.2 a ha old (by simp)
    simp only [old, new] at h ⊢
    omega
  · intro b i hb hi
    rw [hline]
    rcases hudp hb with hb | rfl
    · obtain ⟨e, he, hfit⟩ := J.fits hb hi
      rw [hold] at he
      rcases getElem?_concat_cases he with he | ⟨rfl, rfl⟩
      · exact ⟨e, getElem?_concat_lt he _, hfit⟩
      · exact ⟨new, by simp, hfit.grow⟩
    · have hi : w.journal.epoch = w.host.order.epoch + i := hi
      have hi : i = base.length := by
        have := J.epoch
        omega
      exact ⟨new, by simp [hi], List.prefix_refl _, le_rfl, fun _ => rfl⟩
  · intro b b' hb hb' he hle
    rcases hudp hb with hb | rfl <;> rcases hudp hb' with hb' | rfl
    · exact J.longer hb hb' he hle
    · exact (hlast hb he).samples.length_le.trans (by simp [old])
    · have := (hlast hb' he.symm).sequence
      simp only [old] at this
      dsimp only at hle
      omega
    · exact le_rfl
  · intro e he
    rw [hline] at he
    cases hb : base with
    | nil =>
      rw [hb] at he
      obtain rfl : new = e := by simpa using he
      obtain ⟨h₁, h₂, -⟩ := J.head (show w.line.head? = some old by rw [hold, hb]; rfl)
      simp only [old] at h₁ h₂
      refine ⟨h₁.trans (Nat.le_succ _), h₂.trans (by simp [new]), fun h => ?_⟩
      have h : w.host.order.sequence = w.journal.sequence + 1 := h
      omega
    | cons a rest =>
      rw [hb] at he
      exact J.head (show w.line.head? = some e by rw [hold, hb]; exact he)
  · intro b hb he hlt
    rcases hudp hb with hb | rfl
    · exact J.ahead hb he hlt
    · have he : w.journal.epoch = w.host.order.epoch := he
      have hnil : base = [] := length_eq_zero_iff.mp (by have := J.epoch; omega)
      obtain ⟨-, h, -⟩ := J.head (show w.line.head? = some old by rw [hold, hnil]; rfl)
      exact h.trans (by simp [old])
  · intro e he
    rw [hline] at he
    rcases mem_append.mp he with he | he
    · exact J.valid (hold ▸ mem_append_left _ he)
    · rw [mem_singleton.mp he]
      exact hv
  · intro b hb
    rcases hudp hb with hb | rfl
    · exact J.sent hb
    · exact hv

/-! ### What is not applied yet -/

/-- What the host has not applied yet of the reliable packets on their way and of the journal. -/
def outstanding : List (Barrier F) → List (InputEvent F) → Nat → List (InputEvent F)
  | [], pending, applied => pending.drop applied
  | b :: rest, pending, applied => b.batch.samples.drop applied ++ b.event.toList ++ outstanding rest pending 0

omit [Coordinate F] in
theorem outstanding_concat (tcp : List (Barrier F)) (b : Barrier F) (applied : Nat) :
    outstanding (tcp ++ [b]) [] applied = outstanding tcp b.batch.samples applied ++ b.event.toList := by
  induction tcp generalizing applied with
  | nil => simp [outstanding]
  | cons c tcp ih => simp [outstanding, ih]

omit [Coordinate F] in
theorem outstanding_grow {pending : List (InputEvent F)} {applied : Nat}
    (h : tcp = [] → applied ≤ pending.length) :
    outstanding tcp (pending ++ samples) applied = outstanding tcp pending applied ++ samples := by
  induction tcp generalizing applied with
  | nil => rw [outstanding, outstanding, drop_append_of_le_length (h rfl)]
  | cons c tcp ih => simp [outstanding, ih fun _ => Nat.zero_le _]

/-- What was sent is what was applied, in groups, and what is still outstanding. -/
structure Faithful (p : InputPolicy) (w : InputLink F) : Prop where
  running : w.host.closed = false
  sent : w.sent = w.groups.flatten ++ outstanding w.tcp w.journal.pending w.host.order.applied
  injected : w.host.injected = w.groups.flatMap p.applied
  shape : ∀ {g}, g ∈ w.groups → (∀ e ∈ g, isPointerMotion e = true) ∨ ∃ e, g = [e] ∧ isPointerMotion e = false
  discrete : ∀ {b e}, b ∈ w.tcp → b.event = some e → isPointerMotion e = false

theorem Journaled.valid_pending (J : Journaled w) : Valid w.journal.pending :=
  J.valid (e := (w.journal.sequence, w.journal.pending)) (by simp [line])

/-- The link is in step and has lost nothing. -/
structure Kept (p : InputPolicy) (w : InputLink F) : Prop where
  journaled : Journaled w
  faithful : Faithful p w

theorem Kept.checkpoint (K : Kept p w) (event : Option (InputEvent F))
    (he : ∀ {e}, event = some e → isPointerMotion e = false) :
    Kept p (w.emit w.journal.checkpoint.1 [.tcp ⟨w.journal.checkpoint.2, event⟩] event.toList) where
  journaled := K.journaled.checkpoint event _
  faithful := {
    running := K.faithful.running
    sent := by
      show w.sent ++ event.toList = w.groups.flatten ++ outstanding (w.tcp ++ [⟨w.journal.checkpoint.2, event⟩]) [] _
      rw [outstanding_concat, K.faithful.sent, append_assoc]
      rfl
    injected := K.faithful.injected
    shape := K.faithful.shape
    discrete := by
      intro b e hb hbe
      rcases mem_append.mp hb with hb | hb
      · exact K.faithful.discrete hb hbe
      · obtain rfl : b = ⟨w.journal.checkpoint.2, event⟩ := by simpa using hb
        exact he hbe }

theorem Kept.grow (K : Kept p w) (samples : List (InputEvent F))
    (hv : Valid (w.journal.pending ++ samples)) (hp : packets = [] ∨ packets = [.udp (w.journal.append samples).2]) :
    Kept p (w.emit (w.journal.append samples).1 packets samples) where
  journaled := K.journaled.grow hv hp samples
  faithful := by
    have htcp : (w.emit (w.journal.append samples).1 packets samples).tcp = w.tcp := by
      rcases hp with rfl | rfl <;> exact append_nil _
    refine ⟨K.faithful.running, ?_, K.faithful.injected, K.faithful.shape, ?_⟩ <;> rw [htcp]
    · show w.sent ++ samples = w.groups.flatten ++ outstanding w.tcp (w.journal.pending ++ samples) w.host.order.applied
      rw [outstanding_grow fun hnil => ?_, K.faithful.sent, append_assoc]
      exact (K.journaled.head (show w.line.head? = _ by rw [line, hnil]; rfl)).2.1
    · exact K.faithful.discrete

omit [Coordinate F] in
theorem journal_emit (w : InputLink F) (j : InputJournal F) (ps : List (InputPacket F)) (es : List (InputEvent F)) :
    (w.emit j ps es).journal = j := by
  simp [emit]

omit [Coordinate F] in
theorem emit_emit (w : InputLink F) (j k : InputJournal F) (ps qs : List (InputPacket F)) (es fs : List (InputEvent F)) :
    (w.emit j ps es).emit k qs fs = w.emit k (ps ++ qs) (es ++ fs) := by
  simp [emit]

omit [Coordinate F] in
theorem mem_take_motion (hn : n ≤ (events.takeWhile isPointerMotion).length) {e : InputEvent F}
    (he : e ∈ events.take n) : isPointerMotion e = true := by
  have htaken : events.take n <+: events.takeWhile isPointerMotion := by
    rw [List.prefix_iff_eq_take.mp (List.takeWhile_prefix isPointerMotion (l := events)), List.prefix_take_iff]
    exact ⟨List.take_prefix _ _, (length_take_le _ _).trans hn⟩
  exact mem_takeWhile_imp (htaken.subset he)

theorem Kept.take (K : Kept p w) (hv : ∀ e ∈ events, isPointerMotion e = true → e.finite = true)
    (hn : n ≤ (events.takeWhile isPointerMotion).length) (hroom : n ≤ maxInputSamples - w.journal.pending.length) :
    Kept p (w.emit (w.journal.append (events.take n)).1 [.udp (w.journal.append (events.take n)).2] (events.take n)) := by
  obtain ⟨hlen, hpending⟩ : Valid w.journal.pending := K.journaled.valid_pending
  refine K.grow _ ⟨?_, fun e he => ?_⟩ (.inr rfl)
  · rw [length_append, length_take]
    omega
  · rcases mem_append.mp he with he | he
    · exact hpending e he
    · have hmotion := mem_take_motion hn he
      exact ⟨hmotion, hv e (mem_of_mem_take he) hmotion⟩

/-! ### Sending -/

theorem Kept.sendMotion (K : Kept p w) (hv : ∀ e ∈ events, isPointerMotion e = true → e.finite = true) :
    Kept p (w.emit (sendMotion w.journal events).1 (sendMotion w.journal events).2.1
      (events.take (sendMotion w.journal events).2.2)) := by
  by_cases hfull : w.journal.pending.length = maxInputSamples
  · have K' := (K.checkpoint none nofun).take hv (Nat.min_le_left _ _) (Nat.min_le_right _ _)
    rw [emit_emit] at K'
    simpa [Rd.sendMotion, hfull, journal_emit] using K'
  · have K' := K.take hv (Nat.min_le_left _ _) (Nat.min_le_right _ _)
    simpa [Rd.sendMotion, hfull] using K'

theorem sendMotion_takes (K : Kept p w) (rest : List (InputEvent F)) (h : isPointerMotion event = true) :
    (Rd.sendMotion w.journal (event :: rest)).2.2 ≠ 0 := by
  obtain ⟨hlen, -⟩ : Valid w.journal.pending := K.journaled.valid_pending
  by_cases hfull : w.journal.pending.length = maxInputSamples
  · simp [Rd.sendMotion, hfull, h, InputJournal.checkpoint, maxInputSamples]
  · simp [Rd.sendMotion, hfull, h]
    omega

theorem Kept.sendDiscrete (K : Kept p w) (h : isPointerMotion event = false) (echo : Bool) :
    Kept p (w.emit (sendDiscrete echo w.journal event).1 [(sendDiscrete echo w.journal event).2] [event]) := by
  have hpending : Valid w.journal.pending := K.journaled.valid_pending
  have hdiscrete {e : InputEvent F} (he : some event = some e) : isPointerMotion e = false := by
    obtain rfl := Option.some.inj he
    exact h
  cases echo with
  | false => exact K.checkpoint (some event) hdiscrete
  | true =>
    have K' := (K.grow [] (by simpa using hpending) (.inl rfl)).checkpoint (some event) hdiscrete
    rw [emit_emit] at K'
    exact K'

theorem Kept.sendInputs (K : Kept p w) (hv : ∀ e ∈ events, isPointerMotion e = true → e.finite = true)
    (echo : Bool) : Kept p (w.emit (sendInputs echo w.journal events).1 (sendInputs echo w.journal events).2 events) := by
  -- along the events left to send
  induction hn : events.length using Nat.strong_induction_on generalizing events w with
  | _ n ih =>
    cases events with
    | nil =>
      rw [Rd.sendInputs]
      simpa [emit] using K
    | cons event rest =>
      rw [Rd.sendInputs]
      by_cases hmotion : isPointerMotion event = true
      · have htakes := sendMotion_takes K rest hmotion
        have K' := ih (((event :: rest).drop (Rd.sendMotion w.journal (event :: rest)).2.2).length)
          (by rw [length_drop]; simp only [length_cons] at hn ⊢; omega) (K.sendMotion hv)
          (fun e he => hv e (mem_of_mem_drop he)) rfl
        rw [emit_emit, take_append_drop] at K'
        simpa [hmotion, htakes, journal_emit] using K'
      · have K' := ih rest.length (by simp at hn; omega) (K.sendDiscrete (by simpa using hmotion) echo)
          (fun e he => hv e (mem_cons_of_mem _ he)) rfl
        rw [emit_emit] at K'
        simpa [hmotion, journal_emit] using K'

/-! ### Deliveries -/

theorem Journaled.deliverUdp (J : Journaled w) (hb : b ∈ w.udp) (hepoch : b.epoch = w.host.order.epoch)
    (hhost : host.order = ⟨w.host.order.epoch, b.sequence, b.samples.length⟩) (groups : List (List (InputEvent F))) :
    Journaled { w with host, groups } := by
  obtain ⟨e, he, hfit⟩ := J.fits (i := 0) hb (by rw [hepoch, Nat.add_zero])
  have hline : line { w with host, groups } = w.line := rfl
  have hsame : host.order.epoch = w.host.order.epoch := by rw [hhost]
  refine ⟨?_, ?_, J.ordered, ?_, J.longer, ?_, ?_, J.valid, J.sent⟩
  · exact hsame ▸ J.epoch
  · exact hsame ▸ J.barriers
  · exact hsame ▸ J.fits
  · intro e' he'
    obtain rfl : e = e' := by
      rw [hline, head?_eq_getElem?, he] at he'
      exact Option.some.inj he'
    rw [hhost]
    exact ⟨hfit.sequence, hfit.samples.length_le, fun heq => by rw [hfit.full heq]⟩
  · intro b' hb' hepoch' hseq
    rw [hhost] at hepoch' hseq ⊢
    exact J.longer hb hb' (hepoch.trans hepoch'.symm) (Nat.le_of_lt hseq)

omit [Coordinate F] in
theorem outstanding_advance {e : Nat × List (InputEvent F)} (he : w.line[0]? = some e)
    (hs : samples <+: e.2) (hn : n ≤ samples.length) :
    outstanding w.tcp w.journal.pending n = samples.drop n ++ outstanding w.tcp w.journal.pending samples.length := by
  obtain ⟨more, hmore⟩ := hs
  have hdrop : e.2.drop n = samples.drop n ++ e.2.drop samples.length := by
    rw [← hmore, drop_append_of_le_length hn, drop_left]
  cases htcp : w.tcp with
  | nil =>
    obtain rfl : (w.journal.sequence, w.journal.pending) = e := by simpa [line, htcp] using he
    exact hdrop
  | cons b rest =>
    obtain rfl : (b.batch.sequence, b.batch.samples) = e := by simpa [line, htcp] using he
    rw [outstanding, outstanding, hdrop]
    simp only [append_assoc]

theorem Faithful.advance (f : Faithful p w) {gs : List (List (InputEvent F))}
    (hclosed : host.closed = false) (hinjected : host.injected = w.host.injected ++ gs.flatMap p.applied)
    (hout : outstanding w.tcp w.journal.pending w.host.order.applied = gs.flatten ++ outstanding tcp w.journal.pending
      host.order.applied)
    (hshape : ∀ {g}, g ∈ gs → (∀ e ∈ g, isPointerMotion e = true) ∨ ∃ e, g = [e] ∧ isPointerMotion e = false)
    (htcp : tcp ⊆ w.tcp) : Faithful p { w with host, tcp, groups := w.groups ++ gs } where
  running := hclosed
  sent := by
    show w.sent = (w.groups ++ gs).flatten ++ outstanding tcp w.journal.pending host.order.applied
    rw [f.sent, hout, flatten_append, append_assoc]
  injected := by
    show host.injected = (w.groups ++ gs).flatMap p.applied
    rw [hinjected, f.injected, flatMap_append]
  shape := by
    intro g hg
    rcases mem_append.mp hg with hg | hg
    · exact f.shape hg
    · exact hshape hg
  discrete hb he := f.discrete (htcp hb) he

theorem step_deliverUdp (hk : w.udp[k]? = some b) (hclosed : w.host.closed = false)
    (hvalid : Valid b.samples) (p : InputPolicy) : w.step p (.deliverUdp k) = { w with
        host := ⟨(w.host.order.accept b false).1, w.host.closed,
          w.host.injected ++ p.motions (w.host.order.accept b false).2⟩
        groups := w.groups ++ [w.host.order.fresh b] } := by
  simp [step, hk, hclosed, InputHost.receiveUdp, (check_iff b).mpr hvalid, Except.isOk, Except.toBool]

theorem Kept.deliverUdp (K : Kept p w) (k : Nat) : Kept p (w.step p (.deliverUdp k)) := by
  cases hk : w.udp[k]? with
  | none => simpa [step, hk] using K
  | some b =>
    have hb := mem_of_getElem? hk
    have hmotion := fresh_motion w.host.order (K.journaled.sent hb)
    have hshape {g} (hg : g ∈ [w.host.order.fresh b]) :
        (∀ e ∈ g, isPointerMotion e = true) ∨ ∃ e, g = [e] ∧ isPointerMotion e = false :=
          .inl (mem_singleton.mp hg ▸ hmotion)
    rw [step_deliverUdp hk K.faithful.running (K.journaled.sent hb)]
    by_cases hfresh : b.epoch = w.host.order.epoch ∧ w.host.order.sequence < b.sequence
    · obtain ⟨haccept, hgroup⟩ := accept_fresh hfresh.1 hfresh.2
      obtain ⟨e, he, hfit⟩ := K.journaled.fits (i := 0) hb hfresh.1
      rw [haccept]
      refine ⟨K.journaled.deliverUdp hb hfresh.1 rfl _, K.faithful.advance K.faithful.running ?_ ?_ hshape fun _ => id⟩
      · simp [applied_motion p hmotion]
      · rw [flatten_singleton, hgroup]
        exact outstanding_advance he hfit.samples (K.journaled.ahead hb hfresh.1 hfresh.2)
    · obtain ⟨haccept, hgroup⟩ := accept_stale hfresh
      rw [haccept]
      refine ⟨?_, K.faithful.advance K.faithful.running ?_ ?_ hshape fun _ => id⟩
      · exact ⟨K.journaled.epoch, K.journaled.barriers, K.journaled.ordered, K.journaled.fits, K.journaled.longer,
          K.journaled.head,
          K.journaled.ahead, K.journaled.valid, K.journaled.sent⟩
      · simp [applied_motion p hmotion]
      · rw [flatten_singleton, hgroup]
        rfl

theorem Journaled.deliverTcp (J : Journaled w) {b : Barrier F} (htcp : w.tcp = b :: rest)
    (hhost : host.order = ⟨w.host.order.epoch + 1, b.batch.sequence, 0⟩) (groups : List (List (InputEvent F))) :
    Journaled { w with host, tcp := rest, groups } := by
  have hline : w.line = (b.batch.sequence, b.batch.samples) :: line { w with host, tcp := rest, groups } := by
    simp [line, htcp]
  have hepoch : host.order.epoch = w.host.order.epoch + 1 := by rw [hhost]
  have hordered := J.ordered
  rw [hline, isChain_cons] at hordered
  refine ⟨?_, ?_, hordered.2, ?_, J.longer, ?_, ?_, ?_, J.sent⟩
  · show host.order.epoch + rest.length = w.journal.epoch
    rw [hepoch, ← J.epoch, htcp, length_cons]
    omega
  · intro i c hc
    have hb := J.barriers (i := i + 1) (b := c) (by simpa [htcp] using hc)
    show c.batch.epoch = host.order.epoch + i
    omega
  · intro c i hc hi
    obtain ⟨e, he, hfit⟩ := J.fits (i := i + 1) hc (by show c.epoch = _; rw [hi, hepoch]; omega)
    rw [hline, getElem?_cons_succ] at he
    exact ⟨e, he, hfit⟩
  · intro e he
    rw [hhost]
    rcases hordered.1 e he with hlt | ⟨heq, hnil⟩
    · exact ⟨Nat.le_of_lt hlt, Nat.zero_le _, fun h => absurd h (Nat.ne_of_lt hlt)⟩
    · exact ⟨Nat.le_of_eq heq, Nat.zero_le _, fun _ => by rw [hnil]; rfl⟩
  · intro c _ _ _
    rw [hhost]
    exact Nat.zero_le _
  · intro e he
    exact J.valid (hline ▸ mem_cons_of_mem _ he)

theorem step_deliverTcp {b : Barrier F} (htcp : w.tcp = b :: rest) (hclosed : w.host.closed = false)
    (hvalid : Valid b.batch.samples) (p : InputPolicy) : w.step p .deliverTcp = { w with
        host := ⟨(w.host.order.accept b.batch true).1, w.host.closed,
          w.host.injected ++ p.motions (w.host.order.accept b.batch true).2 ++
          (b.event.map p.masked).toList.filter fun e => p.allows e.eventType⟩
        tcp := rest
        groups := w.groups ++ ([w.host.order.fresh b.batch] ++ b.event.toList.map ([·])) } := by
  simp [step, htcp, hclosed, InputHost.receiveTcp, (check_iff b.batch).mpr hvalid, Except.isOk, Except.toBool]

theorem Kept.deliverTcp (K : Kept p w) : Kept p (w.step p .deliverTcp) := by
  cases htcp : w.tcp with
  | nil => simpa [step, htcp] using K
  | cons b rest =>
    have hhead : w.line.head? = some (b.batch.sequence, b.batch.samples) := by simp [line, htcp]
    have hvalid := K.journaled.valid (mem_of_mem_head? hhead)
    obtain ⟨hseq, -, hfull⟩ := K.journaled.head hhead
    obtain ⟨haccept, hgroup⟩ := accept_barrier (K.journaled.barriers (i := 0) (by simp [htcp])) hseq hfull
    have hmotion := fresh_motion w.host.order hvalid
    rw [step_deliverTcp htcp K.faithful.running hvalid, haccept]
    refine ⟨K.journaled.deliverTcp htcp rfl _, K.faithful.advance K.faithful.running ?_ ?_ ?_ ?_⟩
    · show w.host.injected ++ _ ++ _ = _
      rw [flatMap_append, flatMap_singleton, applied_motion p hmotion, append_assoc]
      cases b.event with
      | none => rfl
      | some e => simp [applied_singleton]
    · rw [flatten_append, flatten_singleton, hgroup, htcp, outstanding]
      cases b.event <;> simp
    · intro g hg
      rcases mem_append.mp hg with hg | hg
      · exact .inl (mem_singleton.mp hg ▸ hmotion)
      · obtain ⟨e, he, rfl⟩ := mem_map.mp hg
        exact .inr ⟨e, rfl, K.faithful.discrete (htcp ▸ mem_cons_self) (Option.mem_toList.mp he)⟩
    · intro c hc
      exact htcp ▸ mem_cons_of_mem _ hc

/-! ### Runs -/

/-- Every sample of pointer motion sent is finite. -/
def finiteMotion : InputLink F → InputAction F → Prop
  | _, .sendInputs events => ∀ e ∈ events, isPointerMotion e = true → e.finite = true
  | _, _ => True

instance : ∀ w : InputLink F, DecidablePred (finiteMotion w)
  | _, .sendInputs _ => List.decidableBAll _ _
  | _, .deliverUdp _ => isTrue trivial
  | _, .deliverTcp => isTrue trivial

theorem Kept.init (p : InputPolicy) : Kept p ({} : InputLink F) where
  journaled := {
    epoch := rfl
    barriers := nofun
    ordered := by simp [line]
    fits := nofun
    longer := nofun
    head := by
      intro e he
      obtain rfl : (0, []) = e := by simpa [line] using he
      simp
    ahead := nofun
    valid := by
      intro e he
      obtain rfl : e = (0, []) := by simpa [line] using he
      exact valid_nil
    sent := nofun }
  faithful := ⟨rfl, rfl, rfl, nofun, nofun⟩

theorem kept_reachable (h : (inputLink F p).Reachable finiteMotion w) : Kept p w := by
  refine h.inv (fun hinit => ?_) fun {w w' a} ha hs K => ?_
  · exact hinit ▸ .init p
  · obtain rfl := hs
    cases a with
    | sendInputs events => exact K.sendInputs ha p.echo
    | deliverUdp k => exact K.deliverUdp k
    | deliverTcp => exact K.deliverTcp

theorem Kept.complete (K : Kept p w) (htcp : w.tcp = []) (hseq : w.host.order.sequence = w.journal.sequence) :
    w.groups.flatten = w.sent := by
  have hhead : w.line.head? = some (w.journal.sequence, w.journal.pending) := by simp [line, htcp]
  have hnone : outstanding w.tcp w.journal.pending w.host.order.applied = [] := by
    rw [htcp, outstanding, (K.journaled.head hhead).2.2 hseq, drop_length]
  rw [K.faithful.sent, hnone, append_nil]

theorem Kept.sequence_deliverUdp (K : Kept p w) (htcp : w.tcp = []) (hk : w.udp[k]? = some b)
    (hepoch : b.epoch = w.journal.epoch) (hseq : b.sequence = w.journal.sequence) :
    (w.step p (.deliverUdp k)).host.order.sequence = w.journal.sequence := by
  have hb := mem_of_getElem? hk
  have hsame : b.epoch = w.host.order.epoch := by rw [hepoch, ← K.journaled.epoch, htcp, length_nil, Nat.add_zero]
  rw [step_deliverUdp hk K.faithful.running (K.journaled.sent hb)]
  by_cases hlt : w.host.order.sequence < b.sequence
  · rw [(accept_fresh hsame hlt).1]
    exact hseq
  · rw [(accept_stale fun h => hlt h.2).1]
    have hle := (K.journaled.head (e := (w.journal.sequence, w.journal.pending)) (by simp [line, htcp])).1
    exact Nat.le_antisymm hle (hseq ▸ Nat.le_of_not_lt hlt)

/-- The events that a reliable packet carries. -/
def carried (b : Barrier F) : List (InputEvent F) := b.batch.samples ++ b.event.toList

omit [Coordinate F] in
theorem outstanding_zero (tcp : List (Barrier F)) (pending : List (InputEvent F)) :
    outstanding tcp pending 0 = tcp.flatMap carried ++ pending := by
  induction tcp with
  | nil => rfl
  | cons b tcp ih => simp [outstanding, ih, carried]

/-- Once a reliable packet is handled, only what the later ones and the journal carry is missing. -/
theorem Kept.handled (K : Kept p w) {b : Barrier F} (htcp : w.tcp = b :: rest) :
    w.sent = (w.step p .deliverTcp).groups.flatten ++ (rest.flatMap carried ++ w.journal.pending) := by
  have hhead : w.line.head? = some (b.batch.sequence, b.batch.samples) := by simp [line, htcp]
  have hvalid := K.journaled.valid (mem_of_mem_head? hhead)
  obtain ⟨hseq, -, hfull⟩ := K.journaled.head hhead
  obtain ⟨-, hgroup⟩ := accept_barrier (K.journaled.barriers (i := 0) (by simp [htcp])) hseq hfull
  rw [step_deliverTcp htcp K.faithful.running hvalid, K.faithful.sent, htcp, outstanding, outstanding_zero, flatten_append,
    flatten_append, flatten_singleton, hgroup]
  cases b.event <;> simp

/-- What the host has applied is, group by group, a prefix of what was sent. A handled reliable packet leaves nothing
missing that was sent before it, and the last datagram leaves nothing missing at all. -/
theorem input_applied_in_order (h : (inputLink F p).Reachable finiteMotion w) :
    w.host.injected = w.groups.flatMap p.applied ∧
    (∀ g ∈ w.groups, (∀ e ∈ g, isPointerMotion e = true) ∨ ∃ e, g = [e] ∧ isPointerMotion e = false) ∧
      w.groups.flatten <+: w.sent ∧
    (∀ b rest, w.tcp = b :: rest →
      w.sent = (w.step p .deliverTcp).groups.flatten ++ (rest.flatMap carried ++ w.journal.pending)) ∧
    (w.tcp = [] → ∃ rest, rest <:+ w.journal.pending ∧ w.sent = w.groups.flatten ++ rest) ∧
    (∀ k b, w.tcp = [] → w.udp[k]? = some b → b.epoch = w.journal.epoch → b.sequence = w.journal.sequence →
      (w.step p (.deliverUdp k)).groups.flatten = w.sent) ∧
    (∀ b ∈ w.udp, b.samples.length ≤ maxInputSamples) ∧ ∀ b ∈ w.tcp, b.batch.samples.length ≤ maxInputSamples := by
  have K := kept_reachable h
  refine ⟨K.faithful.injected, fun g hg => K.faithful.shape hg, ?_, fun b rest htcp => K.handled htcp, fun htcp => ?_,
    fun k b htcp hk hepoch hseq => ?_, fun b hb => ?_, fun b hb => ?_⟩
  · exact ⟨_, K.faithful.sent.symm⟩
  · refine ⟨w.journal.pending.drop w.host.order.applied, drop_suffix _ _, ?_⟩
    rw [K.faithful.sent, htcp]
    rfl
  · have hstep := step_deliverUdp hk K.faithful.running (K.journaled.sent (mem_of_getElem? hk)) p
    have hlast := K.sequence_deliverUdp htcp hk hepoch hseq
    have hcomplete := (K.deliverUdp k).complete
    rw [hstep] at hlast hcomplete ⊢
    exact hcomplete htcp hlast
  · exact (K.journaled.sent hb).1
  · exact (K.journaled.valid (mem_append_left _ (mem_map_of_mem hb))).1

/-- Coordinates that are whole numbers or not finite. -/
@[reducible] def optionInt : Coordinate (Option Int) where
  add a b := do return (← a) + (← b)
  isFinite := Option.isSome

def wheel (dy : Option Int) : InputEvent (Option Int) := ⟨.scrollWheel, some 0, some 0, 0, 0, some 0, dy⟩

def click : InputEvent (Option Int) := ⟨.leftMouseDown, some 0, some 0, 0, 0, some 0, some 0⟩

def everything : InputPolicy := ⟨false, true, true, true⟩

def played (as : List (InputAction (Option Int))) : InputLink (Option Int) :=
  as.foldl (@step (Option Int) optionInt everything) {}

/-- Five steps of the wheel: datagrams come out of order and twice, and one is merged. -/
def scrolled : InputLink (Option Int) :=
  played [.sendInputs [wheel (some 1)], .sendInputs [wheel (some 2), wheel (some 3)], .deliverUdp 1, .deliverUdp 0,
    .deliverUdp 1,
    .sendInputs [wheel (some 4), wheel (some 5), click], .deliverTcp, .deliverUdp 2]

theorem input_applied_scrolled : scrolled.host.injected = [wheel (some 6), wheel (some 9), click] ∧
    scrolled.groups.flatten <+: scrolled.sent := by
  have hr : (@inputLink (Option Int) optionInt everything).Reachable (@finiteMotion (Option Int) optionInt) scrolled :=
    ⟨_, rfl, .of_admits (by decide +kernel)⟩
  exact ⟨by decide +kernel, (@input_applied_in_order (Option Int) optionInt _ _ hr).2.2.1⟩

def unanswered : InputLink (Option Int) := played [.sendInputs [wheel (some 1)]]

/-- A step that is not a number, and a click after it. -/
def notFinite : InputLink (Option Int) := played [.sendInputs [wheel none], .deliverUdp 0, .sendInputs [click], .deliverTcp]

/-- A sample whose datagram is lost is not applied unless a packet follows. A sample that is not finite is dropped with its
datagram, and the reliable packet that repeats it ends the session before its event is applied. -/
theorem sample_lost : ((@inputLink (Option Int) optionInt everything).Reachable System.anyAction unanswered ∧
      unanswered.tcp = [] ∧ unanswered.sent = [wheel (some 1)] ∧ unanswered.host.injected = []) ∧
    (@inputLink (Option Int) optionInt everything).Reachable System.anyAction notFinite ∧ notFinite.tcp = [] ∧
      notFinite.sent = [wheel none, click] ∧ notFinite.host.closed = true ∧ notFinite.host.injected = [] := by
  refine ⟨⟨⟨_, rfl, .of_admits (by decide +kernel)⟩, ?_, ?_, ?_⟩, ⟨_, rfl, .of_admits (by decide +kernel)⟩, ?_, ?_, ?_, ?_⟩
  all_goals decide +kernel

end InputLink
end Ferryx.Rd
