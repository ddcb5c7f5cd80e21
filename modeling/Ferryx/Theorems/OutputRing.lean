import Ferryx.Terminal.OutputHub

/-! The recovery ring is the end of what was stored. The gap test of an attach looks at the start of the retained history,
but the bytes come from the ring: it misses the chunks that only the history holds. An attach is right exactly if there is
no such chunk, or the test finds an older one missing (`Resumes`). -/

namespace Ferryx.Terminal
open List Option

namespace BoundedBuffer
variable {b : BoundedBuffer}

theorem evictChunks_suffix (capacity : Nat) (cs : List OutputChunk) (size : Nat) :
    (evictChunks capacity cs size).1 <:+ cs := by
  induction cs generalizing size with
  | nil => exact suffix_refl _
  | cons c cs ih =>
    unfold evictChunks
    split
    · exact (ih _).trans (suffix_cons c cs)
    · exact suffix_refl _

/-- The ring is the end of what was stored, in the order of the sequences. -/
structure Ordered (b : BoundedBuffer) (stored : List OutputChunk) : Prop where
  suffix : b.chunks <:+ stored
  ascending : stored.Pairwise (·.sequence < ·.sequence)
  issued : ∀ c ∈ stored, 0 < c.sequence ∧ c.sequence < b.nextSequence
  positive : 0 < b.nextSequence

variable {stored : List OutputChunk} {b' : BoundedBuffer}

theorem Ordered.pushChunk (h : Ordered b stored) {c : OutputChunk}
    (hc : c.sequence = b.nextSequence) (hchunks : b'.chunks = b.chunks) (hnext : b'.nextSequence = b.nextSequence + 1) :
    Ordered (b'.pushChunk c) (stored ++ [c]) where
  suffix := by
    refine (evictChunks_suffix ..).trans ?_
    rw [hchunks]
    obtain ⟨older, hstored⟩ := h.suffix
    exact ⟨older, by rw [← hstored, append_assoc]⟩
  ascending := by
    refine pairwise_append.mpr ⟨h.ascending, pairwise_singleton .., ?_⟩
    intro x hx y hy
    rw [mem_singleton.mp hy, hc]
    exact (h.issued x hx).2
  issued := by
    intro x hx
    have hn : (b'.pushChunk c).nextSequence = b.nextSequence + 1 := hnext
    rw [hn]
    rcases mem_append.mp hx with hx | hx
    · exact ⟨(h.issued x hx).1, (h.issued x hx).2.trans (Nat.lt_succ_self _)⟩
    · rw [mem_singleton.mp hx, hc]
      exact ⟨h.positive, Nat.lt_succ_self _⟩
  positive := by
    have hn : (b'.pushChunk c).nextSequence = b.nextSequence + 1 := hnext
    rw [hn]
    exact Nat.succ_pos _

theorem Ordered.congr (h : Ordered b stored) (hchunks : b'.chunks = b.chunks)
    (hnext : b.nextSequence ≤ b'.nextSequence) : Ordered b' stored where
  suffix := hchunks ▸ h.suffix
  ascending := h.ascending
  issued c hc := ⟨(h.issued c hc).1, (h.issued c hc).2.trans_le hnext⟩
  positive := h.positive.trans_le hnext

end BoundedBuffer

namespace Feed
variable {σ : Type} [ScreenMirror σ] {f : Feed σ}

/-- The ring is in order, and what was sent has the sequences of what was stored. After the last gap both are the same:
only the seam of a gap is stored and not sent. The gap that waits for the next attach is the last one. -/
structure InOrder (f : Feed σ) : Prop where
  ring : f.hub.buffer.Ordered f.stored
  sent : f.sent.map OutputChunk.sequence = f.stored.map OutputChunk.sequence
  same : f.sent.filter (f.hub.buffer.gapFloor ≤ ·.sequence) = f.stored.filter (f.hub.buffer.gapFloor ≤ ·.sequence)
  replay : ∀ gap ∈ f.hub.replayGap, gap.availableFromSequence = f.hub.buffer.gapFloor

omit [ScreenMirror σ] in
theorem InOrder.sent_issued (h : InOrder f) {c : OutputChunk} (hc : c ∈ f.sent) :
    0 < c.sequence ∧ c.sequence < f.hub.buffer.nextSequence := by
  have hmem : c.sequence ∈ f.stored.map OutputChunk.sequence := h.sent ▸ mem_map_of_mem hc
  obtain ⟨x, hx, hseq⟩ := mem_map.mp hmem
  exact hseq ▸ h.ring.issued x hx

theorem InOrder.step (h : InOrder f) (op : HubOp) : InOrder (f.step op) := by
  cases op with
  | publish bytes micros =>
    by_cases hb : bytes = []
    · simpa [Feed.step, SessionHub.publish, BoundedBuffer.pushWithReadTimestamp, hb] using h
    · simp only [Feed.step, SessionHub.publish, BoundedBuffer.pushWithReadTimestamp, hb, if_false, map_some]
      refine ⟨h.ring.pushChunk rfl rfl rfl, by simp [h.sent], ?_, by simp⟩
      rw [filter_append, filter_append]
      exact congrArg (· ++ _) h.same
  | publishGap =>
    refine ⟨h.ring.pushChunk rfl rfl rfl, by simp [Feed.step, SessionHub.publishGap, h.sent], ?_,
      by rintro _ ⟨⟩; rfl⟩
    -- Nothing has the sequence of the gap or a later one.
    have hnone : ∀ l : List OutputChunk, (∀ c ∈ l, c.sequence ≤ f.hub.buffer.nextSequence) →
        l.filter (f.hub.buffer.nextSequence + 1 ≤ ·.sequence) = [] := by
      intro l hl
      rw [filter_eq_nil_iff]
      intro c hc
      simpa using hl c hc
    refine (hnone _ ?_).trans (hnone _ ?_).symm
    · intro c hc
      rcases mem_append.mp hc with hc | hc
      · exact (h.sent_issued hc).2.le
      · rw [mem_singleton.mp hc]
    · intro c hc
      rcases mem_append.mp hc with hc | hc
      · exact (h.ring.issued c hc).2.le
      · rw [mem_singleton.mp hc]
  | recordInitialSize cols rows =>
    simp only [Feed.step, SessionHub.recordInitialSize]
    split <;> exact ⟨h.ring, h.sent, h.same, h.replay⟩
  | recordResize cols rows => exact ⟨h.ring.congr rfl (Nat.le_succ _), h.sent, h.same, h.replay⟩

theorem inOrder_run (capacity : Nat) (retention : RetentionBudget) (ops : List HubOp) :
    InOrder (run capacity retention ops : Feed σ) := by
  have h0 : InOrder (⟨.register capacity retention, [], []⟩ : Feed σ) :=
    ⟨⟨suffix_refl _, .nil, by simp, Nat.one_pos⟩, rfl, rfl, by rintro _ ⟨⟩⟩
  unfold run
  generalize (⟨.register capacity retention, [], []⟩ : Feed σ) = f at h0 ⊢
  induction ops generalizing f with
  | nil => exact h0
  | cons op ops ih => exact ih _ (h0.step op)

/-- Live readers and the ring agree: the sequences sent ascend, and what the ring keeps since the last gap is the end of
what was sent. -/
theorem ring_ends_sent (capacity : Nat) (retention : RetentionBudget) (ops : List HubOp) :
    let f : Feed σ := run capacity retention ops
    f.sent.Pairwise (·.sequence < ·.sequence) ∧ f.hub.buffer.chunks.filter (f.hub.buffer.gapFloor ≤ ·.sequence) <:+
      f.sent.filter (f.hub.buffer.gapFloor ≤ ·.sequence) := by
  intro f
  have h : InOrder f := inOrder_run capacity retention ops
  refine ⟨pairwise_map.mp ?_, ?_⟩
  · rw [h.sent]
    exact pairwise_map.mpr h.ring.ascending
  · rw [h.same]
    exact h.ring.suffix.filter _

end Feed

namespace BoundedBuffer
variable {b : BoundedBuffer} {stored : List OutputChunk}

/-- After `s` the ring has everything that was `published`; or output after `s` is older than the last gap or than the
retained history, and the attach says so. Of an empty ring every attach does. -/
def Resumes (b : BoundedBuffer) (published : List OutputChunk) (s : Nat) : Prop :=
  ∀ start ∈ b.startSequence, s < b.gapFloor ∨ (∃ first ∈ b.retainedStartSequence, s + 1 < first) ∨
    ∀ c ∈ published, s < c.sequence → start ≤ c.sequence

theorem retainedStart_of_start {start : Nat} (h : start ∈ b.startSequence) :
    ∃ first, b.retainedStartSequence = some first := by
  unfold retainedStartSequence
  rw [show b.startSequence = some start from h]
  cases b.retained.startSequence <;> simp

theorem Ordered.filter_of_no_gap (h : Ordered b stored) {s : Nat} (hs : 0 < s) (hresumes : b.Resumes stored s)
    (hgap : b.gapAfter (b.retainedStartSequence.map (max · b.gapFloor)) b.endSequence s = none) :
    b.chunks.filter (s < ·.sequence) = stored.filter (s < ·.sequence) := by
  obtain ⟨older, hstored⟩ := h.suffix
  have holder : ∀ c ∈ older, c.sequence ≤ s := by
    intro c hc
    have hmem : c ∈ stored := by simp [← hstored, hc]
    cases hchunks : b.chunks with
    | nil =>
      -- An empty ring has no end, and every attach reports a gap.
      exfalso
      have hnext := h.issued c hmem
      simp only [gapAfter, endSequence, hchunks, getLast?_nil, map_none, getD_none] at hgap
      split at hgap
      · cases hgap
      split at hgap <;> split at hgap
      all_goals first | omega | cases hgap
    | cons first rest =>
      have hstart : first.sequence ∈ b.startSequence := by simp [startSequence, hchunks]
      obtain ⟨lo, hlo⟩ := retainedStart_of_start hstart
      have hlt : c.sequence < first.sequence := by
        have hpair := h.ascending
        rw [← hstored, hchunks] at hpair
        exact (pairwise_append.mp hpair).2.2 c hc first mem_cons_self
      simp only [gapAfter, hlo, map_some] at hgap
      rcases hresumes first.sequence hstart with hfloor | ⟨lo', hlo', hlt'⟩ | hall
      · grind
      · obtain rfl : lo = lo' := by simpa [hlo] using hlo'
        grind
      · by_contra hafter
        exact absurd (hall c hmem (by omega)) (by omega)
  have hempty : older.filter (s < ·.sequence) = [] := by
    rw [filter_eq_nil_iff]
    intro c hc
    simpa using holder c hc
  rw [← hstored, filter_append, hempty, nil_append]

/-- Where the ring has lost a chunk after `s` and neither the last gap nor the retained history shows it, no gap is found.
-/
theorem Ordered.no_gap_of_not_resumes (h : Ordered b stored) {s : Nat} (hnot : ¬ b.Resumes stored s) :
    b.gapFloor ≤ s ∧ (∃ c ∈ stored, s < c.sequence ∧ c ∉ b.chunks) ∧
      b.gapAfter (b.retainedStartSequence.map (max · b.gapFloor)) b.endSequence s = none := by
  simp only [Resumes, not_forall, not_or, not_exists, not_and] at hnot
  obtain ⟨start, hstart, hfloor, hfirst, c, hc, hafter, hlost⟩ := hnot
  obtain ⟨first, hretained⟩ := retainedStart_of_start hstart
  obtain ⟨older, hstored⟩ := h.suffix
  have hpair : b.chunks.Pairwise (·.sequence < ·.sequence) := by
    have hall := h.ascending
    rw [← hstored] at hall
    exact (pairwise_append.mp hall).2.1
  cases hchunks : b.chunks with
  | nil => simp [startSequence, hchunks] at hstart
  | cons x rest =>
    obtain rfl : x.sequence = start := by simpa [startSequence, hchunks] using hstart
    rw [hchunks] at hpair
    obtain ⟨last, hlast⟩ : ∃ last, (x :: rest).getLast? = some last := ⟨_, getLast?_eq_some_getLast (by simp)⟩
    have hle : ∀ y ∈ x :: rest, x.sequence ≤ y.sequence := by
      intro y hy
      rcases mem_cons.mp hy with rfl | hy
      · exact le_rfl
      · exact ((pairwise_cons.mp hpair).1 y hy).le
    have hend := hle last (mem_of_getLast? hlast)
    refine ⟨by omega, ⟨c, hc, hafter, fun hmem => hlost (hle c hmem)⟩, ?_⟩
    have hnotFirst := hfirst first hretained
    simp only [gapAfter, hretained, map_some, endSequence, hchunks, hlast, getD_some]
    grind

theorem snapshot_gap (b : BoundedBuffer) (after : Option Nat) (ledger : List ResizePoint) :
    (b.snapshotAfterRanges after ledger).gap =
      after.bind (b.gapAfter (b.retainedStartSequence.map (max · b.gapFloor)) b.endSequence) := by
  simp only [snapshotAfterRanges, snapshotAfterRangesImpl, apply_ite RangedHistory.gap, if_true, ite_self]

theorem history_of_no_gap (b : BoundedBuffer) (ledger : List ResizePoint) {s : Nat}
    (hgap : (b.snapshotAfterRanges (some s) ledger).gap = none) :
    b.gapAfter (b.retainedStartSequence.map (max · b.gapFloor)) b.endSequence s = none ∧
    (b.snapshotAfterRanges (some s) ledger).history = (b.chunks.filter (s < ·.sequence)).flatMap OutputChunk.bytes := by
  have hgap' : b.gapAfter (b.retainedStartSequence.map (max · b.gapFloor)) b.endSequence s = none := by
    rwa [snapshot_gap, bind_some] at hgap
  refine ⟨hgap', ?_⟩
  simp only [snapshotAfterRanges, snapshotAfterRangesImpl, if_true, bind_some, hgap', isNone_some, isSome_none,
    Bool.or_self, Bool.and_false, Bool.false_eq_true, if_false, Bool.false_or, any_some, Bool.false_and]
  split
  next hnil =>
    rw [map_eq_nil_iff.mp hnil.1]
    rfl
  next => rw [nil_append, flatMap_map]

theorem gapFloor_le_of_no_gap {first last : Option Nat} {s : Nat} (h : b.gapAfter first last s = none) :
    b.gapFloor ≤ s := by
  unfold gapAfter at h
  split at h
  · cases h
  · omega

end BoundedBuffer

namespace Feed

section Attach
variable {σ : Type} [ScreenMirror σ]

theorem filter_after {floor s : Nat} (hle : floor ≤ s) (l : List OutputChunk) :
    (l.filter (floor ≤ ·.sequence)).filter (s < ·.sequence) = l.filter (s < ·.sequence) := by
  rw [List.filter_filter]
  apply List.filter_congr
  intro c _
  simp
  omega

omit [ScreenMirror σ] in
theorem InOrder.resumes_iff {f : Feed σ} (h : InOrder f) (s : Nat) :
    f.hub.buffer.Resumes f.stored s ↔ f.hub.buffer.Resumes f.sent s := by
  have hseqs : ∀ start, (∀ c ∈ f.stored, s < c.sequence → start ≤ c.sequence) ↔
      ∀ c ∈ f.sent, s < c.sequence → start ≤ c.sequence := by
    intro start
    have hmap : ∀ l : List OutputChunk, (∀ c ∈ l, s < c.sequence → start ≤ c.sequence) ↔
        ∀ q ∈ l.map OutputChunk.sequence, s < q → start ≤ q := by simp
    rw [hmap, hmap, h.sent]
  simp only [BoundedBuffer.Resumes, hseqs]

omit [ScreenMirror σ] in
theorem InOrder.filter_of_no_gap {f : Feed σ} (h : InOrder f) {s : Nat} (hresumes : f.hub.buffer.Resumes f.sent s)
    (hs : 0 < s)
    (hgap : (f.hub.subscribeWithSequenceRanges (some s)).1.gap = none) :
    (f.hub.subscribeWithSequenceRanges (some s)).1.history = (f.hub.buffer.chunks.filter (s < ·.sequence)).flatMap
      OutputChunk.bytes ∧
    f.hub.buffer.chunks.filter (s < ·.sequence) = f.sent.filter (s < ·.sequence) := by
  obtain ⟨hgap', hhistory⟩ := f.hub.buffer.history_of_no_gap f.hub.resizeLedger (or_eq_none_iff.mp hgap).1
  have hfloor := BoundedBuffer.gapFloor_le_of_no_gap hgap'
  refine ⟨hhistory, (h.ring.filter_of_no_gap hs ((h.resumes_iff s).mpr hresumes) hgap').trans ?_⟩
  rw [← filter_after hfloor f.stored, ← h.same, filter_after hfloor]

omit [ScreenMirror σ] in
theorem InOrder.lost_of_not_resumes {f : Feed σ} (h : InOrder f) {s : Nat} (hnot : ¬ f.hub.buffer.Resumes f.sent s) :
    (∃ c ∈ f.sent, s < c.sequence ∧ c ∉ f.hub.buffer.chunks) ∧ (f.hub.subscribeWithSequenceRanges (some s)).1.gap =
      none := by
  rw [← h.resumes_iff] at hnot
  obtain ⟨hfloor, ⟨c, hc, hafter, hring⟩, hgap⟩ := h.ring.no_gap_of_not_resumes hnot
  have hmem : c ∈ f.sent.filter (f.hub.buffer.gapFloor ≤ ·.sequence) := by
    rw [h.same, List.mem_filter]
    exact ⟨hc, by simp; omega⟩
  refine ⟨⟨c, (List.mem_filter.mp hmem).1, hafter, hring⟩, or_eq_none_iff.mpr ⟨?_, ?_⟩⟩
  · rw [BoundedBuffer.snapshot_gap]
    exact hgap
  · rw [Option.filter_eq_none_iff]
    intro gap hreplay
    simp only [any_some, decide_eq_true_eq, h.replay gap hreplay]
    omega

/-- What a client that has the chunks up to `s` needs of an attach: without a gap it gets all later chunks, and if one of
those is not in the ring any more, it gets a gap. -/
def ResumesCompletely (f : Feed σ) (s : Nat) : Prop :=
  let attached := f.hub.subscribeWithSequenceRanges (some s)
  (attached.1.gap = none → attached.1.history = (f.sent.filter (s < ·.sequence)).flatMap OutputChunk.bytes ∧
    ∀ hub : SessionHub σ, hub.substituteScreen (some s) attached = attached) ∧
  ((∃ c ∈ f.sent, s < c.sequence ∧ c ∉ f.hub.buffer.chunks) → attached.1.gap.isSome)

/-- A client that resumes gets all it has missed, or a gap, exactly under `Resumes`. -/
theorem resumed_history_complete (capacity : Nat) (retention : RetentionBudget) (ops : List HubOp) {s : Nat}
    (hs : s ∈ (run capacity retention ops : Feed σ).sent.map OutputChunk.sequence) :
      let f : Feed σ := run capacity retention ops
    f.ResumesCompletely s ↔ f.hub.buffer.Resumes f.sent s := by
  intro f
  have h : InOrder f := inOrder_run capacity retention ops
  have hpos : 0 < s := by
    obtain ⟨c, hc, rfl⟩ := List.mem_map.mp hs
    exact (h.sent_issued hc).1
  refine ⟨fun hright => ?_, fun hresumes => ⟨fun hgap => ?_, ?_⟩⟩
  · by_contra hnot
    obtain ⟨hlost, hgap⟩ := h.lost_of_not_resumes hnot
    have hsome := hright.2 hlost
    rw [hgap] at hsome
    cases hsome
  · obtain ⟨hhistory, hsame⟩ := h.filter_of_no_gap hresumes hpos hgap
    refine ⟨hhistory.trans (by rw [hsame]), fun hub => ?_⟩
    simp [SessionHub.substituteScreen, hgap]
  · rintro ⟨c, hc, hlt, hring⟩
    by_contra hgap
    have hsame := (h.filter_of_no_gap hresumes hpos (by simpa using hgap)).2
    have hmem : c ∈ f.sent.filter (s < ·.sequence) := List.mem_filter.mpr ⟨hc, by simpa using hlt⟩
    rw [← hsame] at hmem
    exact hring (List.mem_filter.mp hmem).1

end Attach

abbrev transcript : ScreenMirror (List UInt8) where
  create _ _ := some []
  feed shown bytes := shown ++ bytes
  feedReplay shown bytes := shown ++ bytes
  resize shown _ _ := shown
  isAlternateScreen _ := false
  seed shown := some ⟨80, 24, shown⟩

instance (b : BoundedBuffer) (published : List OutputChunk) (s : Nat) : Decidable (b.Resumes published s) := by
  unfold BoundedBuffer.Resumes
  infer_instance

/-- The second chunk does not fit in the ring with the first. -/
def twoChunks : List HubOp := [.publish (ascii "abcde") none, .recordResize 100 30, .publish (ascii "fghi") none]

theorem resumed_history_complete_twoChunks :
    ((@run _ transcript 8 (.fromTextCapacity 16) twoChunks).hub.subscribeWithSequenceRanges
      (some 1)).1.history = ascii "fghi" := by
  let := transcript
  have h := (resumed_history_complete (σ := List UInt8) 8 (.fromTextCapacity 16) twoChunks (s := 1) (by decide +kernel)).mpr
    (by decide +kernel)
  exact (h.1 (by decide +kernel)).1.trans (by decide +kernel)

def splitChunk : List HubOp :=
  [.publish (ascii "a") none, .publish (ascii "\x1b[mbb") none, .publish (ascii "cccccc") none]

/-- The ring has lost the second chunk, of which the retained history still holds the text. An attach after the first
chunk gets the third one and no gap. -/
theorem second_chunk_lost : let f := @run _ transcript 8 (.fromTextCapacity 8) splitChunk
    let attached := f.hub.subscribeWithSequenceRanges (some 1)
    f.sent.map (fun c => (c.sequence, c.bytes)) = [(1, ascii "a"), (2, ascii "\x1b[mbb"), (3, ascii "cccccc")] ∧
    attached.1.gap = none ∧ attached.1.history = ascii "cccccc" := by
  decide +kernel

end Feed
end Ferryx.Terminal
