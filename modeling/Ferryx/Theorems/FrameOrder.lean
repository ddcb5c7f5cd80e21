import Ferryx.Rd.FrameQueue

/-! Every delivered frame is a keyframe or follows the frame delivered before, and after a decoding failure a keyframe comes
next, if no failure is reported while frames are suppressed and a keyframe is queued. -/

namespace Ferryx.Rd
open Lib List FrameQueue

/-- The queue as it was, or from one of its keyframes on. -/
def Trimmed (old new : List QueuedFrame) : Prop :=
  new = old ∨ ∃ pre f rest, old = pre ++ f :: rest ∧ new = f :: rest ∧ f.key = true

namespace FrameQueue
variable {q : FrameQueue} {f : QueuedFrame}

theorem trimmed_drop {frames : List QueuedFrame} {k : Nat} (hk : ∃ f, frames[k]? = some f ∧ f.key = true) :
    Trimmed frames (frames.drop k) := by
  obtain ⟨f, hf, hkey⟩ := hk
  obtain ⟨hlt, rfl⟩ := List.getElem?_eq_some_iff.mp hf
  have hdrop : frames.drop k = frames[k] :: frames.drop (k + 1) := List.drop_eq_getElem_cons hlt
  exact .inr ⟨frames.take k, frames[k], frames.drop (k + 1), by rw [← hdrop, List.take_append_drop], hdrop, hkey⟩

theorem trimmed_skipToLatestKey (q : FrameQueue) : Trimmed q.frames q.skipToLatestKey.frames := by
  unfold skipToLatestKey
  split
  next k hk =>
    obtain ⟨k', hk', rfl⟩ := Option.map_eq_some_iff.mp hk
    obtain ⟨hlt, hkey, -⟩ := findIdx?_eq_some_iff_getElem.mp hk'
    refine trimmed_drop ⟨_, ?_, hkey⟩
    rw [getElem_reverse]
    exact getElem?_eq_getElem _
  · exact .inl rfl

theorem skipToLatestKey_frame (q : FrameQueue) : q.skipToLatestKey.config = q.config ∧
    q.skipToLatestKey.lastFrameId = q.lastFrameId ∧ q.skipToLatestKey.recovering = q.recovering ∧
    q.skipToLatestKey.stopped = q.stopped ∧ q.skipToLatestKey.pendingRequestSince = q.pendingRequestSince := by
  unfold skipToLatestKey
  split <;> exact ⟨rfl, rfl, rfl, rfl, rfl⟩

theorem overflow_cases (q : FrameQueue) (f : QueuedFrame) : (q.overflow f).1.lastFrameId = q.lastFrameId ∧
    (q.overflow f).1.stopped = q.stopped ∧ (q.recovering = true → (q.overflow f).1.recovering = true) ∧
    (f.key = true ∧ (q.overflow f).1.frames = [] ∨ Trimmed q.frames (q.overflow f).1.frames) := by
  cases hkey : f.key with
  | true =>
    -- The backlog is superseded, and nothing overflows any more.
    have hmax : ¬q.config.maxBacklog ≤ 0 := by
      have := q.config.capacity_pos.trans_le q.config.capacity_le
      omega
    simp [overflow, hkey, hmax]
  | false =>
    obtain ⟨-, hlast, hrec, hstop, -⟩ := q.skipToLatestKey_frame
    have htrim := q.trimmed_skipToLatestKey
    rw [← hlast, ← hrec, ← hstop]
    simp only [overflow, hkey, Bool.false_eq_true, if_false]
    split
    · split
      · split
        · exact ⟨rfl, rfl, id, .inr htrim⟩
        · exact ⟨rfl, rfl, fun _ => rfl, .inr htrim⟩
      · exact ⟨rfl, rfl, id, .inr htrim⟩
    · exact ⟨rfl, rfl, id, .inr htrim⟩

theorem makeRoom_cases (q : FrameQueue) (f : QueuedFrame) (gap : Bool) :
    (q.makeRoom f gap).1.lastFrameId = q.lastFrameId ∧ (q.makeRoom f gap).1.stopped = q.stopped ∧
      ((q.makeRoom f gap).1.frames = [] ∧ (f.key = true ∨ (q.makeRoom f gap).1.recovering = true) ∨
        gap = false ∧ Trimmed q.frames (q.makeRoom f gap).1.frames ∧
          (q.recovering = true → (q.makeRoom f gap).1.recovering = true)) := by
  cases gap with
  | true => exact ⟨rfl, rfl, .inl ⟨rfl, .inr rfl⟩⟩
  | false =>
    by_cases hfull : q.frames.length ≥ q.config.capacity
    · obtain ⟨hlast, hstop, hrec, hframes⟩ := q.overflow_cases f
      simp only [makeRoom, hfull, Bool.not_false, decide_true, Bool.and_self, if_true]
      split
      · exact ⟨hlast, hstop, .inl ⟨rfl, .inr rfl⟩⟩
      · refine ⟨hlast, hstop, ?_⟩
        rcases hframes with ⟨hkey, hnil⟩ | htrim
        · exact .inl ⟨hnil, .inl hkey⟩
        · exact .inr ⟨trivial, htrim, hrec⟩
    · simp [makeRoom, hfull, Trimmed]

theorem push_eq (hs : q.stopped = false) (hl : q.late f.id = false) : (q.push f).1 =
    (((q.arrived f).makeRoom f (q.discontinuity f.id)).1.accept f ((q.arrived f).makeRoom f (q.discontinuity f.id)).2).1 ∧
    (q.push f).2 = .ok
      (((q.arrived f).makeRoom f (q.discontinuity f.id)).1.accept f
        ((q.arrived f).makeRoom f (q.discontinuity f.id)).2).2 := by
  unfold push
  rw [hs, hl]
  exact ⟨rfl, rfl⟩

theorem accept_cases (q : FrameQueue) (f : QueuedFrame) (request : Bool) :
    (q.accept f request).1.lastFrameId = q.lastFrameId ∧ (q.accept f request).1.stopped = q.stopped ∧
      ((q.accept f request).1.recovering = true ∧ f.key = false ∧ q.recovering = true ∧
        (q.accept f request).1.frames = q.frames ∨
        (q.accept f request).1.recovering = false ∧ (f.key = true ∨ q.recovering = false) ∧
          (q.accept f request).1.frames = q.frames ++ [f]) := by
  unfold accept
  dsimp only
  cases hkey : f.key <;> cases hrec : q.recovering <;> cases q.requestDue f <;> simp [hrec]

theorem push_cases (hs : q.stopped = false) (hl : q.late f.id = false) :
    (q.push f).1.stopped = false ∧ (q.push f).1.lastFrameId = some f.id ∧
      ((q.push f).1.recovering = false ∧ f.key = true ∧ (q.push f).1.frames = [f] ∨
        (q.push f).1.recovering = false ∧ (f.key = true ∨ q.recovering = false) ∧ q.discontinuity f.id = false ∧
          (∃ kept, Trimmed q.frames kept ∧ (q.push f).1.frames = kept ++ [f]) ∨
        (q.push f).1.recovering = true ∧ ((q.push f).1.frames = [] ∨ Trimmed q.frames (q.push f).1.frames)) := by
  rw [(push_eq hs hl).1]
  obtain ⟨hlast, hstop, hroom⟩ := (q.arrived f).makeRoom_cases f (q.discontinuity f.id)
  generalize ((q.arrived f).makeRoom f (q.discontinuity f.id)).1 = r at *
  generalize ((q.arrived f).makeRoom f (q.discontinuity f.id)).2 = request
  obtain ⟨hlast', hstop', hacc⟩ := r.accept_cases f request
  refine ⟨hstop'.trans (hstop.trans hs), hlast'.trans hlast, ?_⟩
  rcases hacc with ⟨hrec, -, -, hframes⟩ | ⟨hrec, hor, hframes⟩ <;> rw [hframes]
  · refine .inr (.inr ⟨hrec, ?_⟩)
    rcases hroom with ⟨hnil, -⟩ | ⟨-, htrim, -⟩
    · exact .inl hnil
    · exact .inr htrim
  · rcases hroom with ⟨hnil, hkey⟩ | ⟨hgap, htrim, himp⟩
    · refine .inl ⟨hrec, ?_, by rw [hnil]; rfl⟩
      rcases hkey with hkey | hkey
      · exact hkey
      · rcases hor with hor | hor
        · exact hor
        · cases hor.symm.trans hkey
    · refine .inr (.inl ⟨hrec, hor.imp_right fun hr => ?_, hgap, _, htrim, rfl⟩)
      by_contra hne
      cases (himp (Bool.eq_true_of_not_eq_false hne)).symm.trans hr

theorem forward_of_not_late (hl : q.late f.id = false) {last : UInt32} (hq : q.lastFrameId = some last) :
    Forward last f.id := by
  simp only [late, hq, Option.any_some, Bool.or_eq_false_iff, decide_eq_false_iff_not, ge_iff_le, UInt32.not_le] at hl
  refine ⟨Nat.pos_of_ne_zero fun h => hl.1 (UInt32.toNat_inj.mp h), ?_⟩
  exact UInt32.lt_iff_toNat_lt.mp hl.2

theorem next_of_continuous (hg : q.discontinuity f.id = false) {last : UInt32} (hq : q.lastFrameId = some last) :
    f.id = last + 1 := by
  have hg : f.id - last = 1 := by simpa [discontinuity, hq] using hg
  exact ahead_eq_one_iff.mp (congrArg UInt32.toNat hg)

theorem skipStale_frame (q : FrameQueue) : q.skipStale.config = q.config ∧ q.skipStale.lastFrameId = q.lastFrameId ∧
    q.skipStale.recovering = q.recovering ∧ q.skipStale.stopped = q.stopped ∧
    q.skipStale.pendingRequestSince = q.pendingRequestSince ∧ Trimmed q.frames q.skipStale.frames := by
  obtain ⟨hconf, hlast, hrec, hstop, hpend⟩ := q.skipToLatestKey_frame
  unfold skipStale
  split
  · exact ⟨hconf, hlast, hrec, hstop, hpend, q.trimmed_skipToLatestKey⟩
  · exact ⟨rfl, rfl, rfl, rfl, rfl, .inl rfl⟩

theorem poll_cases (q : FrameQueue) (now : Nat) : (q.poll now).1.lastFrameId = q.lastFrameId ∧
    (q.poll now).1.recovering = q.recovering ∧ (q.poll now).1.stopped = q.stopped ∧
    ((∃ f, (q.poll now).2 = .frame f ∧ Trimmed q.frames (f :: (q.poll now).1.frames) ∧ q.stopped = false) ∨
      (∀ f, (q.poll now).2 ≠ .frame f) ∧ Trimmed q.frames (q.poll now).1.frames) := by
  obtain ⟨-, hlast, hrec, hstop, -, htrim⟩ := q.skipStale_frame
  unfold poll
  split
  · exact ⟨rfl, rfl, rfl, .inr ⟨nofun, .inl rfl⟩⟩
  next hs =>
    unfold take
    dsimp only
    split
    · exact ⟨hlast, hrec, hstop, .inr ⟨nofun, htrim⟩⟩
    next head rest hframes =>
      split
      · exact ⟨hlast, hrec, hstop, .inr ⟨nofun, htrim⟩⟩
      · refine ⟨hlast, hrec, hstop, .inl ⟨head, rfl, ?_, Bool.eq_false_of_not_eq_true hs⟩⟩
        rw [← hframes]
        exact htrim

theorem decodeFailed_cases (hs : q.stopped = false) : q.decodeFailed.1.lastFrameId = q.lastFrameId ∧
    q.decodeFailed.1.stopped = false ∧
    ((∃ f ∈ q.frames, f.key = true) ∧
      (∃ f rest, Trimmed q.frames (f :: rest) ∧ f.key = true ∧ q.decodeFailed.1.frames = f :: rest) ∧
      q.decodeFailed.1.recovering = false ∨ q.decodeFailed.1.frames = [] ∧ q.decodeFailed.1.recovering = true) := by
  unfold decodeFailed
  rw [hs, if_neg Bool.false_ne_true]
  split
  next k hk =>
    obtain ⟨hlt, hkey, -⟩ := findIdx?_eq_some_iff_getElem.mp hk
    have hdrop : q.frames.drop k = q.frames[k] :: q.frames.drop (k + 1) := drop_eq_getElem_cons hlt
    refine ⟨rfl, rfl, .inl ⟨⟨_, getElem_mem hlt, hkey⟩, ⟨q.frames[k], q.frames.drop (k + 1), ?_, hkey, hdrop⟩, rfl⟩⟩
    rw [← hdrop]
    exact trimmed_drop ⟨_, getElem?_eq_getElem hlt, hkey⟩
  · exact ⟨rfl, rfl, .inr ⟨rfl, rfl⟩⟩

end FrameQueue

/-- The frame delivered last and the queued frames: their ids, and whether they are keyframes. What the one that was
    delivered is does not matter any more. -/
def line (d : Option UInt32) (frames : List QueuedFrame) : List (UInt32 × Bool) :=
  d.toList.map (fun d => (d, false)) ++ frames.map fun f => (f.id, f.key)

/-- Every frame is a keyframe or has its predecessor before it, and all are in forward order. -/
structure InLine (d : Option UInt32) (frames : List QueuedFrame) : Prop where
  linked : (line d frames).IsChain fun a b => b.2 = true ∨ b.1 = a.1 + 1
  forward : (line d frames).Pairwise fun a b => Forward a.1 b.1

/-- The id of the frame pushed last, or of the one delivered last. -/
def tip (d : Option UInt32) (frames : List QueuedFrame) : Option UInt32 := (frames.getLast?.map QueuedFrame.id).or d

section InLine
variable {d : Option UInt32} {frames old new rest : List QueuedFrame} {f : QueuedFrame}

theorem line_sublist (h : Trimmed old new) : (line d new).Sublist (line d old) := by
  rcases h with rfl | ⟨pre, f, rest, rfl, rfl, -⟩
  · exact List.Sublist.refl _
  · refine List.Sublist.append_left (List.Sublist.map _ ?_) _
    exact sublist_append_right pre (f :: rest)

theorem trimmed_nil (h : Trimmed old []) : old = [] := by
  rcases h with h | ⟨pre, f, rest, -, h, -⟩
  · exact h.symm
  · cases h

theorem tip_trimmed (h : Trimmed old new) : tip d new = tip d old := by
  rcases h with rfl | ⟨pre, f, rest, rfl, rfl, -⟩
  · rfl
  · simp [tip, getLast?_append, getLast?_cons]

theorem tip_eq (d : Option UInt32) (frames : List QueuedFrame) : tip d frames = (line d frames).getLast?.map Prod.fst := by
  unfold tip line
  cases hl : frames.getLast? with
  | none => cases d <;> simp [getLast?_eq_none_iff.mp hl]
  | some f => simp [getLast?_append, hl]

theorem InLine.trim (h : InLine d old) (ht : Trimmed old new) : InLine d new where
  forward := h.forward.sublist (line_sublist ht)
  linked := by
    rcases ht with rfl | ⟨pre, f, rest, rfl, rfl, hkey⟩
    · exact h.linked
    · have hlinked := h.linked
      simp only [line, map_append, ← append_assoc, isChain_append] at hlinked
      simp only [line, isChain_append]
      refine ⟨hlinked.1.1, hlinked.2.1, fun a _ b hb => .inl ?_⟩
      obtain rfl : (f.id, f.key) = b := by simpa using hb
      exact hkey

theorem InLine.clear (h : InLine d frames) : InLine d [] := by
  cases d <;> exact ⟨by simp [line], by simp [line]⟩

theorem InLine.deliver (h : InLine d (f :: rest)) : InLine (some f.id) rest := by
  have hlinked := h.linked
  have hforward := h.forward
  simp only [line, map_cons, isChain_append, pairwise_append] at hlinked hforward
  exact ⟨isChain_cons.mpr (isChain_cons.mp hlinked.2.1), pairwise_cons.mpr (pairwise_cons.mp hforward.2.1)⟩

theorem InLine.append (h : InLine d frames) (hk : f.key = true ∨ ∀ l, tip d frames = some l → f.id = l + 1)
    (hf : ∀ a ∈ line d frames, Forward a.1 f.id) : InLine d (frames ++ [f]) := by
  have hline : line d (frames ++ [f]) = line d frames ++ [(f.id, f.key)] := by simp [line]
  refine ⟨?_, ?_⟩ <;> rw [hline]
  · refine isChain_append.mpr ⟨h.linked, by simp, fun a ha b hb => ?_⟩
    obtain rfl : (f.id, f.key) = b := by simpa using hb
    refine hk.imp_right fun hnext => hnext a.1 ?_
    rw [tip_eq, Option.mem_def.mp ha]
    rfl
  · refine pairwise_append.mpr ⟨h.forward, by simp, ?_⟩
    simpa using hf

theorem mem_line_append {a : UInt32 × Bool} (h : a ∈ line d (frames ++ [f])) : a ∈ line d frames ∨ a = (f.id, f.key) := by
  simpa [line, or_assoc] using h

theorem mem_line_nil {a : UInt32 × Bool} (h : a ∈ line d []) : a ∈ line d frames := by
  simp only [line, map_nil, append_nil] at h
  exact mem_append_left _ h

theorem tip_append (d : Option UInt32) (frames : List QueuedFrame) (f : QueuedFrame) :
    tip d (frames ++ [f]) = some f.id := by
  simp [tip]

/-- After a decoding failure a keyframe is the next one in line. -/
def KeyFirst (frames : List QueuedFrame) : Prop := ∀ f ∈ frames.head?, f.key = true

theorem KeyFirst.trim (h : KeyFirst old) (ht : Trimmed old new) : KeyFirst new := by
  rcases ht with rfl | ⟨pre, f, rest, -, rfl, hkey⟩
  · exact h
  · intro g hg
    obtain rfl : f = g := by simpa using hg
    exact hkey

end InLine

/-- The frame delivered last, whether decoding has failed since, and the queue fit together. -/
structure Ordered (d : Option UInt32) (failed : Bool) (q : FrameQueue) : Prop where
  inLine : InLine d q.frames
  last : ∀ a ∈ line d q.frames, ∃ l, q.lastFrameId = some l ∧ ahead a.1 l < 2 ^ 31
  tip : q.recovering = false → tip d q.frames = q.lastFrameId
  keyFirst : failed = true → KeyFirst q.frames
  failed : failed = true → q.recovering = false → q.frames ≠ []

section Ordered
variable {d : Option UInt32} {failed : Bool} {q : FrameQueue} {f : QueuedFrame}

theorem Ordered.push (O : Ordered d failed q) (hs : q.stopped = false) (hl : q.late f.id = false)
    (hnear : ∀ a ∈ line d q.frames, ahead a.1 f.id < 2 ^ 31) : Ordered d failed (q.push f).1 := by
  obtain ⟨-, hlast, hcases⟩ := push_cases hs hl
  have hforward : ∀ a ∈ line d q.frames, Forward a.1 f.id := by
    intro a ha
    obtain ⟨l, hq, hlt⟩ := O.last a ha
    have hf := forward_of_not_late hl hq
    refine ⟨?_, hnear a ha⟩
    rw [ahead_of_forward hlt hf]
    exact Nat.add_pos_right _ hf.1
  have hnew : ∀ {frames}, (∀ a ∈ line d frames, a ∈ line d q.frames ∨ a = (f.id, f.key)) →
      ∀ a ∈ line d frames, ∃ l, (q.push f).1.lastFrameId = some l ∧ ahead a.1 l < 2 ^ 31 := by
    intro frames hsub a ha
    refine ⟨f.id, hlast, ?_⟩
    rcases hsub a ha with ha | rfl
    · exact hnear a ha
    · simp
  rcases hcases with ⟨hrec, hkey, hframes⟩ | ⟨hrec, hor, hgap, kept, htrim, hframes⟩ | ⟨hrec, hframes⟩
  · have hin : InLine d [f] := O.inLine.clear.append (.inl hkey) fun a ha => hforward a (mem_line_nil ha)
    constructor <;> rw [hframes]
    · exact hin
    · exact hnew fun a ha => (mem_line_append (show a ∈ line d ([] ++ [f]) from ha)).imp_left mem_line_nil
    · intro _
      rw [hlast]
      exact tip_append d [] f
    · intro _ g hg
      obtain rfl : f = g := by simpa using hg
      exact hkey
    · simp
  · have hsub := line_sublist (d := d) htrim
    constructor <;> rw [hframes]
    · refine (O.inLine.trim htrim).append (hor.imp_right fun hq l hl' => ?_) fun a ha => hforward a (hsub.mem ha)
      rw [tip_trimmed htrim, O.tip hq] at hl'
      exact next_of_continuous hgap hl'
    · exact hnew fun a ha => (mem_line_append ha).imp_left hsub.mem
    · intro _
      rw [hlast]
      exact tip_append d kept f
    · intro hfail g hg
      cases hk : kept with
      | nil =>
        -- Nothing is queued after a failure unless frames are suppressed.
        rw [hk] at hg htrim
        obtain rfl : f = g := by simpa using hg
        exact hor.resolve_right fun hq => O.failed hfail hq (trimmed_nil htrim)
      | cons k rest =>
        rw [hk] at hg htrim
        exact (O.keyFirst hfail).trim htrim g (by simpa using hg)
    · simp
  · constructor
    · rcases hframes with hframes | htrim
      · rw [hframes]
        exact O.inLine.clear
      · exact O.inLine.trim htrim
    · rcases hframes with hframes | htrim
      · rw [hframes]
        exact hnew fun a ha => .inl (mem_line_nil ha)
      · exact hnew fun a ha => .inl ((line_sublist htrim).mem ha)
    · intro h
      cases hrec.symm.trans h
    · intro hfail
      rcases hframes with hframes | htrim
      · rw [hframes]
        intro g hg
        cases hg
      · exact (O.keyFirst hfail).trim htrim
    · intro _ h
      cases hrec.symm.trans h

variable {r : FrameQueue} {rest : List QueuedFrame}

theorem Ordered.trim (O : Ordered d failed q) (ht : Trimmed q.frames r.frames)
    (hlast : r.lastFrameId = q.lastFrameId) (hrec : r.recovering = q.recovering) : Ordered d failed r where
  inLine := O.inLine.trim ht
  last a ha := by
    rw [hlast]
    exact O.last a ((line_sublist ht).mem ha)
  tip h := by
    rw [hlast, tip_trimmed ht]
    exact O.tip (hrec ▸ h)
  keyFirst h := (O.keyFirst h).trim ht
  failed h hr hnil := by
    rw [hnil] at ht
    exact O.failed h (hrec ▸ hr) (trimmed_nil ht)

theorem Ordered.deliver (O : Ordered d failed r) (hr : r.frames = f :: rest) :
    Ordered (some f.id) false { r with frames := rest } := by
  have hin := O.inLine
  have hlast := O.last
  have htip := O.tip
  rw [hr] at hin hlast htip
  refine ⟨hin.deliver, fun a ha => ?_, fun h => ?_, nofun, nofun⟩
  · have ha : a = (f.id, false) ∨ a ∈ rest.map fun f => (f.id, f.key) := by simpa [line] using ha
    rcases ha with rfl | ha
    · exact hlast (f.id, f.key) (by simp [line])
    · exact hlast a (by simp [line] at ha ⊢; tauto)
  · rw [← htip h]
    cases rest <;> simp [Ferryx.Rd.tip, getLast?_cons]

theorem Ordered.delivered (O : Ordered d failed q) (hq : q.frames = f :: rest) :
    (∀ d', d = some d' → Forward d' f.id ∧ (f.key = true ∨ f.id = d' + 1)) ∧ (failed = true → f.key = true) := by
  refine ⟨?_, fun h => O.keyFirst h f (by rw [hq]; rfl)⟩
  rintro d' rfl
  have hlinked := O.inLine.linked
  have hforward := O.inLine.forward
  rw [hq] at hlinked hforward
  simp only [line, Option.toList_some, map_cons, map_nil, cons_append, nil_append, isChain_cons_cons,
    pairwise_cons] at hlinked hforward
  exact ⟨hforward.1 _ (mem_cons_self), hlinked.1⟩

theorem Ordered.decodeFailed (O : Ordered d failed q) (hs : q.stopped = false)
    (hg : q.recovering = false ∨ ∀ f ∈ q.frames, f.key = false) : Ordered d true q.decodeFailed.1 := by
  obtain ⟨hlast, -, hcases⟩ := decodeFailed_cases hs
  rcases hcases with ⟨⟨g, hg', hgkey⟩, ⟨f, rest, htrim, hkey, hframes⟩, hrec⟩ | ⟨hframes, hrec⟩
  · have hq : q.recovering = false := by
      refine hg.resolve_right fun h => ?_
      cases hgkey.symm.trans (h g hg')
    rw [← hframes] at htrim
    have T := O.trim htrim hlast (hrec.trans hq.symm)
    refine ⟨T.inLine, T.last, T.tip, fun _ => ?_, fun _ _ => ?_⟩ <;> rw [hframes]
    · intro g hg
      obtain rfl : f = g := by simpa using hg
      exact hkey
    · nofun
  · constructor
    · rw [hframes]
      exact O.inLine.clear
    · rw [hframes, hlast]
      exact fun a ha => O.last a (mem_line_nil ha)
    · intro h
      cases hrec.symm.trans h
    · rw [hframes]
      intro _ g hg
      cases hg
    · intro _ h
      cases hrec.symm.trans h

end Ordered

namespace Playback
variable {w : Playback} {f : QueuedFrame} {now : Nat}

/-- No frame is half the ring ahead of one delivered last or queued, and no decoding failure is reported while frames are
suppressed and a keyframe is queued. -/
def prudent (w : Playback) : FrameQueueCall → Prop
  | .push f => w.queue.late f.id = true ∨ ∀ a ∈ line w.delivered w.queue.frames, ahead a.1 f.id < 2 ^ 31
  | .decodeFailed => w.queue.recovering = false ∨ ∀ f ∈ w.queue.frames, f.key = false
  | _ => True

instance (w : Playback) : DecidablePred w.prudent
  -- Not by trying every id.
  | .push _ => @instDecidableOr _ _ _ (List.decidableBAll _ _)
  | .decodeFailed => inferInstanceAs (Decidable (_ ∨ _))
  | .poll _ => isTrue trivial
  | .reconfigure _ => isTrue trivial
  | .setPlayoutMode _ => isTrue trivial
  | .stop => isTrue trivial

/-- A queue that runs is in order. -/
def Safe (w : Playback) : Prop := w.queue.stopped = true ∨ Ordered w.delivered w.failed w.queue

theorem step_push (w : Playback) (f : QueuedFrame) :
    w.step (.push f) = w.called (w.queue.push f).1 ((w.queue.push f).2.toOption.getD false) := by
  rcases hpush : w.queue.push f with ⟨q, answer⟩
  cases answer <;> simp only [step, hpush] <;> rfl

theorem safe_push (h : w.Safe) (hg : w.prudent (.push f)) : (w.step (.push f)).Safe := by
  rw [step_push]
  by_cases hs : w.queue.stopped = true
  · refine .inl ?_
    show (w.queue.push f).1.stopped = true
    rw [push, if_pos hs]
    exact hs
  · have O := h.resolve_left hs
    by_cases hl : w.queue.late f.id = true
    · refine .inr ?_
      show Ordered w.delivered w.failed (w.queue.push f).1
      rw [push, if_neg hs, if_pos hl]
      exact O
    · exact .inr (O.push (Bool.eq_false_of_not_eq_true hs) (Bool.eq_false_of_not_eq_true hl) (hg.resolve_left hl))

theorem step_poll (h : (w.queue.poll now).2 = .frame f) :
    w.step (.poll now) = { w with queue := (w.queue.poll now).1, delivered := some f.id, failed := false } := by
  rcases hpoll : w.queue.poll now with ⟨q, t⟩
  obtain rfl : t = .frame f := by rwa [hpoll] at h
  simp only [step, hpoll]

theorem step_poll_none (h : ∀ f, (w.queue.poll now).2 ≠ .frame f) :
    w.step (.poll now) = { w with queue := (w.queue.poll now).1 } := by
  rcases hpoll : w.queue.poll now with ⟨q, t⟩
  rw [hpoll] at h
  cases t with
  | frame f => exact (h f rfl).elim
  | _ => simp only [step, hpoll]

theorem safe_poll (h : w.Safe) (now : Nat) : (w.step (.poll now)).Safe := by
  obtain ⟨hlast, hrec, hstop, hcases⟩ := w.queue.poll_cases now
  rcases hcases with ⟨f, hf, htrim, hs⟩ | ⟨hf, htrim⟩
  · rw [step_poll hf]
    have O := h.resolve_left (by rw [hs]; nofun)
    have O' : Ordered w.delivered w.failed { (w.queue.poll now).1 with frames := f :: (w.queue.poll now).1.frames } :=
      O.trim htrim hlast hrec
    exact .inr (O'.deliver rfl)
  · rw [step_poll_none hf]
    exact h.imp hstop.trans fun O => O.trim htrim hlast hrec

theorem safe_step {call : FrameQueueCall} (h : w.Safe) (hg : w.prudent call) : (w.step call).Safe := by
  cases call with
  | push f => exact safe_push h hg
  | poll now => exact safe_poll h now
  | decodeFailed =>
    by_cases hs : w.queue.stopped = true
    · refine .inl ?_
      show w.queue.decodeFailed.1.stopped = true
      rw [decodeFailed, if_pos hs]
      exact hs
    · exact .inr ((h.resolve_left hs).decodeFailed (Bool.eq_false_of_not_eq_true hs) hg)
  | reconfigure c => exact h.imp_right fun O => O.trim (.inl rfl) rfl rfl
  | setPlayoutMode mode => exact h.imp_right fun O => O.trim (.inl rfl) rfl rfl
  | stop => exact .inl rfl

/-- A delivered frame can be decoded after those delivered before it. -/
theorem delivers_decodable (h : playback.Reachable prudent w) (hf : (w.queue.poll now).2 = .frame f) :
    (∀ d, w.delivered = some d → Forward d f.id ∧ (f.key = true ∨ f.id = d + 1)) ∧ (w.failed = true → f.key = true) := by
  have hsafe : w.Safe := by
    refine h.inv (P := Safe) ?_ ?_
    · rintro w ⟨c, rfl⟩
      exact .inr ⟨⟨by simp [line, FrameQueue.withConfig], by simp [line, FrameQueue.withConfig]⟩,
        by simp [line, FrameQueue.withConfig], fun _ => rfl, nofun, nofun⟩
    · rintro w _ call hg rfl h
      exact safe_step h hg
  obtain ⟨hlast, hrec, -, hcases⟩ := w.queue.poll_cases now
  rcases hcases with ⟨g, hg, htrim, hs⟩ | ⟨hnone, -⟩
  · obtain rfl : f = g := Take.frame.inj (hf.symm.trans hg)
    have O := hsafe.resolve_left (by rw [hs]; nofun)
    have O' : Ordered w.delivered w.failed { (w.queue.poll now).1 with frames := f :: (w.queue.poll now).1.frames } :=
      O.trim htrim hlast hrec
    exact O'.delivered rfl
  · exact (hnone f hf).elim

def small (id : UInt32) (key : Bool) (received : Nat) : QueuedFrame :=
  ⟨⟨⟨id, 2, 2, key, 1, 1⟩, [1], id⟩, received⟩

def shortQueue : Playback :=
  { queue := .withConfig { capacity := 2, maxBacklog := 4, retainPrefix := true, idrDefer := 100000000 } }

/-- A keyframe is delivered and five more frames come in. -/
def overloaded : List FrameQueueCall :=
  [.push (small 0 true 0), .poll 0, .push (small 1 true 1), .push (small 2 false 2), .push (small 3 false 3),
    .push (small 4 false 4),
    .push (small 5 false 5)]

theorem delivers_decodable_overloaded :
    ((overloaded.foldl step shortQueue).queue.poll 6).2 = .frame (small 1 true 1) ∧ Forward 0 (small 1 true 1).id := by
  have hr : playback.Reachable prudent (overloaded.foldl step shortQueue) :=
    ⟨_, ⟨_, rfl⟩, .of_admits (by decide)⟩
  have hf : ((overloaded.foldl step shortQueue).queue.poll 6).2 = .frame (small 1 true 1) := by decide
  exact ⟨hf, ((delivers_decodable hr hf).1 0 (by decide)).1⟩

/-- The decoder fails on the frame 0 while the frames from 1 to 4 are queued and 5 is lost. The failure ends the
    suppression, and the frame 6 is delivered after 4. -/
theorem delivers_after_lost_reference : ∃ w : Playback, playback.Reachable System.anyAction w ∧ w.delivered = some 4 ∧
    ∃ f, (w.queue.poll 20).2 = .frame f ∧ f.key = false ∧ f.id = 6 := by
  let calls := overloaded ++ [.decodeFailed, .poll 6, .poll 7, .push (small 6 false 8), .poll 9, .poll 10]
  have hr : playback.Reachable System.anyAction (calls.foldl step shortQueue) :=
    ⟨_, ⟨_, rfl⟩, .of_admits (by decide)⟩
  exact ⟨_, hr, by decide, small 6 false 8, by decide, rfl, rfl⟩

/-- The ids of skipped frames can add up to half the ring: the frame delivered here after 0 is not after it. -/
example : ∀ calls,
    calls = [.push (small 0 true 0), .poll 0, .push (small 0x7fffffff false 1), .push (small 0xfffffffe true 2)] →
    (calls.foldl step shortQueue).delivered = some 0 ∧
      ((calls.foldl step shortQueue).queue.poll 3).2 = .frame (small 0xfffffffe true 2) ∧ ¬Forward 0 0xfffffffe := by
  rintro _ rfl
  decide

end Playback
end Ferryx.Rd
