import Ferryx.Terminal.Attach
import Ferryx.Theorems.AttachHistory

/-! An attach subscribes and takes its history in one section, so its receiver gets exactly what is published later
(`Joined`). An attach with a mirrored screen takes the screen in a second section: what is published in between is on
the screen and also in the receiver. -/

namespace Ferryx.Terminal
open Lib Function List BoundedBuffer Attachment
variable {capacity : Nat} {o : HubOp}

namespace HubOp

def isOutput : HubOp → Bool
  | .publish .. | .publishGap => true
  | .recordInitialSize .. | .recordResize .. => false

/-- A chunk is no larger than the buffer. -/
def Fits (capacity : Nat) : HubOp → Prop
  | .publish bytes _ => bytes.length ≤ capacity
  | .publishGap => gapSeam.length ≤ capacity
  | .recordInitialSize .. | .recordResize .. => True

end HubOp

namespace BoundedBuffer

/-- The buffer holds the last chunk stored. -/
structure Ends (capacity : Nat) (b : BoundedBuffer) (stored : List OutputChunk) : Prop where
  capacity_eq : b.capacity = capacity
  size : b.currentSize = (b.chunks.map (·.bytes.length)).sum
  last : b.chunks.getLast? = stored.getLast?

theorem evictChunks_spec {c : OutputChunk} (hc : c.bytes.length ≤ capacity) (cs : List OutputChunk) (size : Nat)
    (hsize : size = ((cs ++ [c]).map (·.bytes.length)).sum) : (evictChunks capacity (cs ++ [c]) size).1.getLast? = some c ∧
    (evictChunks capacity (cs ++ [c]) size).2 = ((evictChunks capacity (cs ++ [c]) size).1.map (·.bytes.length)).sum := by
  induction cs generalizing size with
  | nil =>
    have hfits : ¬capacity < size := by simp at hsize; omega
    simp only [nil_append, evictChunks, hfits, if_false]
    exact ⟨rfl, hsize⟩
  | cons x cs ih =>
    simp only [cons_append, evictChunks]
    split
    · apply ih
      simp at hsize
      simp [hsize]
    · exact ⟨by rw [← cons_append, getLast?_append]; rfl, hsize⟩

theorem Ends.pushChunk {b b' : BoundedBuffer} {stored : List OutputChunk} (h : Ends capacity b stored) {c : OutputChunk}
    (hc : c.bytes.length ≤ capacity) (hcap : b'.capacity = b.capacity) (hchunks : b'.chunks = b.chunks)
    (hsize : b'.currentSize = b.currentSize) : Ends capacity (b'.pushChunk c) (stored ++ [c]) := by
  have hcap' : b'.capacity = capacity := hcap.trans h.capacity_eq
  have hspec :=
    evictChunks_spec (hcap'.symm ▸ hc : c.bytes.length ≤ b'.capacity) b'.chunks (b'.currentSize + c.bytes.length)
    (by rw [hsize, h.size, hchunks]; simp)
  exact ⟨hcap', hspec.2, by rw [getLast?_append]; exact hspec.1⟩

end BoundedBuffer

namespace Feed
variable {σ : Type} [ScreenMirror σ] {f : Feed σ}

theorem ends_step (ho : o.Fits capacity) (h : f.hub.buffer.Ends capacity f.stored) :
    (f.step o).hub.buffer.Ends capacity (f.step o).stored := by
  cases o with
  | publish bytes micros =>
    by_cases hb : bytes = []
    · simpa [Feed.step, SessionHub.publish, pushWithReadTimestamp, hb] using h
    · simp only [Feed.step, SessionHub.publish, pushWithReadTimestamp, hb, if_false, Option.map_some]
      exact h.pushChunk ho rfl rfl rfl
  | publishGap => exact h.pushChunk ho rfl rfl rfl
  | recordInitialSize cols rows =>
    simp only [Feed.step, SessionHub.recordInitialSize]
    split <;> exact h
  | recordResize cols rows => exact ⟨h.capacity_eq, h.size, h.last⟩

theorem sent_step (f : Feed σ) (o : HubOp) : f.sent <+: (f.step o).sent := by
  cases o with
  | publish bytes micros =>
    simp only [Feed.step]
    split
    · exact List.prefix_append ..
    · exact List.prefix_refl _
  | publishGap => exact List.prefix_append ..
  | recordInitialSize cols rows => exact List.prefix_refl _
  | recordResize cols rows => exact List.prefix_refl _

theorem sent_step_of_not_output (f : Feed σ) (ho : o.isOutput = false) : (f.step o).sent = f.sent := by
  cases o <;> first | rfl | cases ho

theorem run_concat (capacity : Nat) (retention : RetentionBudget) (ops : List HubOp) (o : HubOp) :
    (run capacity retention (ops ++ [o]) : Feed σ) = (run capacity retention ops).step o := by
  simp [run]

omit [ScreenMirror σ] in
theorem endSequence_eq (h : InOrder f) (he : f.hub.buffer.Ends capacity f.stored) :
    f.hub.buffer.endSequence = f.sent.getLast?.map OutputChunk.sequence := by
  rw [endSequence, he.last, ← getLast?_map, ← h.sent, getLast?_map]

end Feed

namespace Attachment

def received (a : Attachment) : List OutputChunk := a.taken ++ a.queue

theorem received_recv (a : Attachment) : a.recv.received = a.received := by
  unfold recv
  split <;> simp_all [received]

theorem send_spec (a : Attachment) (c : OutputChunk) : ∃ queue lagged, a.send c = { a with queue, lagged } ∧
    (lagged = false → a.lagged = false ∧ a.taken ++ queue = a.received ++ [c]) := by
  unfold send
  split
  · exact ⟨_, _, rfl, fun h => ⟨h, by simp [received]⟩⟩
  · exact ⟨_, true, rfl, by simp⟩

theorem sends_spec (new : List OutputChunk) (a : Attachment) : ∃ queue lagged, new.foldl send a = { a with queue, lagged } ∧
    (lagged = false → a.lagged = false ∧ a.taken ++ queue = a.received ++ new) := by
  induction new generalizing a with
  | nil => exact ⟨a.queue, a.lagged, rfl, fun h => ⟨h, by simp [received]⟩⟩
  | cons c new ih =>
    obtain ⟨q₁, l₁, h₁, hr₁⟩ := a.send_spec c
    obtain ⟨q₂, l₂, h₂, hr₂⟩ := ih (a.send c)
    refine ⟨q₂, l₂, ?_, fun hl => ?_⟩
    · rw [foldl_cons, h₂, h₁]
    · rw [h₁] at hr₂
      obtain ⟨hlag, hq₂⟩ := hr₂ hl
      obtain ⟨ha, hq₁⟩ := hr₁ hlag
      refine ⟨ha, hq₂.trans ?_⟩
      simp only [received] at hq₁ ⊢
      rw [hq₁]
      simp

end Attachment

namespace SessionHub
variable {σ : Type} [ScreenMirror σ]

omit [ScreenMirror σ] in
theorem subscribe_endSequence (h : SessionHub σ) (after : Option Nat) :
    (h.subscribeWithSequenceRanges after).1.historyEndSequence = h.buffer.endSequence := by
  simp only [subscribeWithSequenceRanges, snapshotAfterRanges, snapshotAfterRangesImpl,
    apply_ite BoundedBuffer.RangedHistory.endSequence, ite_self]

theorem substitute_endSequence (h : SessionHub σ) (after : Option Nat) (attached : AttachmentSnapshot × List HistoryRange) :
    (h.substituteScreen after attached).1.historyEndSequence = attached.1.historyEndSequence := by
  unfold substituteScreen
  dsimp only
  split <;> [split; skip] <;> rfl

end SessionHub

namespace Attaching

section Sections
variable {σ ι : Type} [ScreenMirror σ] [DecidableEq ι] {capacity : Nat} {retention : RetentionBudget} {w w' : Attaching σ ι}
variable {attached : ι → Option Attachment} {a : Attachment} {k m : Nat}

/-- Every chunk fits in the ring, and nothing is published between the two sections of an attach. -/
def undisturbed (capacity : Nat) (w : Attaching σ ι) : AttachAction ι → Prop
  | .op o => o.Fits capacity ∧ (o.isOutput → ∀ i, ∀ a ∈ w.attached i, a.pending = false)
  | _ => True

/-- The history of a client that attached after `k` operations, joined after `m`. -/
def historyAt (capacity : Nat) (retention : RetentionBudget) (ops : List HubOp) (a : Attachment) (k m : Nat) :
    AttachmentSnapshot × List HistoryRange :=
  let attached := (Feed.run capacity retention (ops.take k) : Feed σ).hub.subscribeWithSequenceRanges a.after
  if a.mirrored ∧ a.pending = false then
    (Feed.run capacity retention (ops.take m) : Feed σ).hub.substituteScreen a.after attached
  else attached

/-- An attach has joined the stream after `k` operations and has seen the output of those. -/
structure Joined (capacity : Nat) (retention : RetentionBudget) (w : Attaching σ ι) (a : Attachment) (k m : Nat) :
    Prop where
  le : k ≤ m ∧ m ≤ w.ops.length
  quiet : (Feed.run capacity retention (w.ops.take m) : Feed σ).sent =
    (Feed.run capacity retention (w.ops.take k) : Feed σ).sent
  history : (a.snapshot, a.ranges) = historyAt (σ := σ) capacity retention w.ops a k m
  ends : a.snapshot.historyEndSequence = ((Feed.run capacity retention (w.ops.take k) : Feed σ).sent.getLast?).map
    OutputChunk.sequence
  waiting : a.pending = true → a.mirrored = true ∧ w.feed.sent = (Feed.run capacity retention (w.ops.take k) : Feed σ).sent
  live : a.lagged = false → w.feed.sent = (Feed.run capacity retention (w.ops.take k) : Feed σ).sent ++ a.received

/-- Each attachment joined the stream at one of its operations. -/
structure Kept (capacity : Nat) (retention : RetentionBudget) (w : Attaching σ ι) : Prop where
  feed : w.feed = .run capacity retention w.ops
  ends : w.feed.hub.buffer.Ends capacity w.feed.stored
  joined : ∀ {i a}, w.attached i = some a → ∃ k m, Joined capacity retention w a k m

omit [DecidableEq ι] in
theorem Joined.op (h : Joined capacity retention w a k m)
    (ho : o.isOutput → a.pending = false) {new : List OutputChunk} (hnew : (w.feed.step o).sent = w.feed.sent ++ new) :
    Joined capacity retention ⟨w.feed.step o, w.ops ++ [o], attached⟩ (new.foldl send a) k m := by
  obtain ⟨queue, lagged, ha, hreceived⟩ := sends_spec new a
  have hk : (w.ops ++ [o]).take k = w.ops.take k := take_append_of_le_length (h.le.1.trans h.le.2)
  have hm : (w.ops ++ [o]).take m = w.ops.take m := take_append_of_le_length h.le.2
  rw [ha]
  constructor
  case le => exact ⟨h.le.1, h.le.2.trans (by simp)⟩
  case quiet => simpa only [hk, hm] using h.quiet
  case history => simpa only [historyAt, hk, hm] using h.history
  case ends => simpa only [hk] using h.ends
  case waiting =>
    intro hp
    obtain ⟨hmir, hsent⟩ := h.waiting hp
    refine ⟨hmir, ?_⟩
    simp only [hk]
    rw [← hsent]
    apply w.feed.sent_step_of_not_output
    cases hout : o.isOutput with
    | false => rfl
    | true => exact absurd hp (by simp [ho hout])
  case live =>
    intro hl
    obtain ⟨hlag, hq⟩ := hreceived hl
    simp only [hk, hnew, received, hq]
    rw [h.live hlag, received]
    simp

omit [DecidableEq ι] in
theorem Kept.attach (K : Kept capacity retention w) (after : Option Nat) (mirrored : Bool) :
    Joined capacity retention { w with attached }
      ⟨after, mirrored, mirrored, (w.feed.hub.subscribeWithSequenceRanges after).1,
        (w.feed.hub.subscribeWithSequenceRanges after).2, [], [], false⟩
      w.ops.length w.ops.length := by
  have hnow : (Feed.run capacity retention (w.ops.take w.ops.length) : Feed σ) = w.feed := by rw [take_length, K.feed]
  have horder : w.feed.InOrder := K.feed ▸ Feed.inOrder_run ..
  constructor
  case le => simp
  case quiet => rfl
  case history => simp only [historyAt, hnow]; cases mirrored <;> simp
  case ends => simp only [hnow, SessionHub.subscribe_endSequence, Feed.endSequence_eq horder K.ends]
  case waiting =>
    intro hp
    exact ⟨hp, by rw [hnow]⟩
  case live =>
    intro _
    rw [hnow]
    simp [received]

omit [DecidableEq ι] in
theorem Joined.substitute (K : Kept capacity retention w) (h : Joined capacity retention w a k m) (hp : a.pending = true) :
    let substituted := w.feed.hub.substituteScreen a.after (a.snapshot, a.ranges)
    Joined capacity retention { w with attached }
      { a with pending := false, snapshot := substituted.1, ranges := substituted.2 }
      k w.ops.length := by
  have hnow : (Feed.run capacity retention (w.ops.take w.ops.length) : Feed σ) = w.feed := by rw [take_length, K.feed]
  obtain ⟨hmir, hsent⟩ := h.waiting hp
  have hhist := h.history
  simp only [historyAt, hp, Bool.true_eq_false, and_false, if_false] at hhist
  constructor
  case le => exact ⟨h.le.1.trans h.le.2, le_rfl⟩
  case quiet => rw [hnow, hsent]
  case history => simp only [historyAt, hnow, hmir, and_self, if_true, hhist]
  case ends => rw [SessionHub.substitute_endSequence]; exact h.ends
  case waiting => simp
  case live => exact h.live

omit [DecidableEq ι] in
theorem Joined.recv (h : Joined capacity retention w a k m) : Joined capacity retention { w with attached } a.recv k m := by
  have hframe : ∃ queue taken, a.recv = { a with queue, taken } := by
    unfold Attachment.recv
    split <;> exact ⟨_, _, rfl⟩
  have hreceived := a.received_recv
  obtain ⟨queue, taken, ha⟩ := hframe
  rw [ha] at hreceived ⊢
  refine ⟨h.le, h.quiet, h.history, h.ends, h.waiting, fun hl => ?_⟩
  rw [hreceived]
  exact h.live hl

theorem kept_step {a : AttachAction ι} (hok : undisturbed capacity w a) (hstep : w.step a = some w')
    (K : Kept capacity retention w) :
    Kept capacity retention w' := by
  -- An attach that the step does not touch stays joined.
  have hother : ∀ {attached : ι → Option Attachment} {a k m}, Joined capacity retention w a k m →
      Joined capacity retention { w with attached } a k m := fun h => ⟨h.le, h.quiet, h.history, h.ends, h.waiting, h.live⟩
  cases a with simp only [step] at hstep
  | op o =>
    cases hstep
    obtain ⟨new, hnew⟩ := w.feed.sent_step o
    refine ⟨by rw [Feed.run_concat, ← K.feed], Feed.ends_step hok.1 K.ends, ?_⟩
    intro i a ha
    obtain ⟨b, hb, rfl⟩ := Option.map_eq_some_iff.mp ha
    obtain ⟨k, m, hj⟩ := K.joined hb
    have hdrop : (w.feed.step o).sent.drop w.feed.sent.length = new := by rw [← hnew, drop_left]
    rw [hdrop]
    exact ⟨k, m, hj.op (fun ho => hok.2 ho i b hb) hnew.symm⟩
  | attach i after mirrored =>
    split at hstep <;> cases hstep
    refine ⟨K.feed, K.ends, ?_⟩
    intro j a ha
    by_cases hj : j = i
    · subst hj
      cases (update_self ..).symm.trans ha
      exact ⟨_, _, K.attach after mirrored⟩
    · obtain ⟨k, m, hjoined⟩ := K.joined ((update_of_ne hj ..).symm.trans ha)
      exact ⟨k, m, hother hjoined⟩
  | substitute i =>
    split at hstep
    next b hb =>
      split at hstep <;> cases hstep
      next hp =>
        refine ⟨K.feed, K.ends, ?_⟩
        intro j a ha
        by_cases hj : j = i
        · subst hj
          cases (update_self ..).symm.trans ha
          obtain ⟨k, m, hjoined⟩ := K.joined hb
          exact ⟨k, _, hjoined.substitute K hp⟩
        · obtain ⟨k, m, hjoined⟩ := K.joined ((update_of_ne hj ..).symm.trans ha)
          exact ⟨k, m, hother hjoined⟩
    next => cases hstep
  | recv i =>
    split at hstep <;> cases hstep
    next b hb =>
      refine ⟨K.feed, K.ends, ?_⟩
      intro j a ha
      by_cases hj : j = i
      · subst hj
        cases (update_self ..).symm.trans ha
        obtain ⟨k, m, hjoined⟩ := K.joined hb
        exact ⟨k, m, hjoined.recv⟩
      · obtain ⟨k, m, hjoined⟩ := K.joined ((update_of_ne hj ..).symm.trans ha)
        exact ⟨k, m, hother hjoined⟩

theorem kept_reachable (h : (attaching σ ι capacity retention).Reachable (undisturbed capacity) w) :
    Kept capacity retention w := by
  refine h.inv ?_ kept_step
  rintro _ rfl
  exact ⟨rfl, ⟨rfl, rfl, rfl⟩, by simp⟩

/-- The history of an attach in terms of what was published before it: `ops` up to where it subscribed, `shown` up to where
it took the screen. -/
structure Reflects (capacity : Nat) (retention : RetentionBudget) (ops shown : List HubOp) (a : Attachment) : Prop where
  /-- A client that has the chunks up to `s` and is told of no gap gets the later ones. -/
  delta : ∀ {s}, let f : Feed σ := .run capacity retention ops
    a.after = some s → a.snapshot.gap = none → s ∈ f.sent.map OutputChunk.sequence → f.hub.buffer.Resumes f.sent s →
      a.snapshot.history = (f.sent.filter (s < ·.sequence)).flatMap OutputChunk.bytes
  /-- Any other client gets the screen or the retained history of all that was published. -/
  full : a.after = none ∨ a.snapshot.gap ≠ none → a.snapshot.history = (historyAfter retention ops).shown ∨
    a.mirrored = true ∧ ∃ (screen : σ) (seed : ScreenSeed), screenAfter shown = some screen ∧
      ScreenMirror.seed screen = some seed ∧ a.snapshot.history = seed.bytes

omit [DecidableEq ι] in
theorem Joined.reflects (h : Joined capacity retention w a k m) (hdone : a.pending = false) :
    Reflects (σ := σ) capacity retention (w.ops.take k) (w.ops.take m) a := by
  have horder := Feed.inOrder_run (σ := σ) capacity retention (w.ops.take k)
  have hhist := h.history
  simp only [historyAt, hdone, and_true] at hhist
  have hcases : a.snapshot =
      ((Feed.run capacity retention (w.ops.take k) : Feed σ).hub.subscribeWithSequenceRanges a.after).1 ∨
      (a.mirrored = true ∧ (a.after = none ∨ a.snapshot.gap ≠ none) ∧ ∃ (screen : σ) (seed : ScreenSeed),
        screenAfter (w.ops.take m) = some screen ∧ ScreenMirror.seed screen = some seed ∧
        a.snapshot.history = seed.bytes) := by
    split at hhist
    next hmirrored =>
      have hsnapshot : a.snapshot = _ := congrArg Prod.fst hhist
      rcases SessionHub.substituteScreen_cases (Feed.run capacity retention (w.ops.take m) : Feed σ).hub a.after
        ((Feed.run capacity retention (w.ops.take k) : Feed σ).hub.subscribeWithSequenceRanges a.after) with
        hsame | ⟨hfull, screen, seed, hscreen, hseed, hsub⟩
      · exact .inl (hsnapshot.trans (congrArg Prod.fst hsame))
      · rw [Feed.screen_run] at hscreen
        have hsnapshot := hsnapshot.trans hsub
        exact .inr ⟨hmirrored, by rw [hsnapshot]; exact hfull, screen, seed, hscreen, hseed, by rw [hsnapshot]⟩
    next => exact .inl (congrArg Prod.fst hhist)
  constructor
  case delta =>
    intro s f hafter hgap hs hresumes
    rcases hcases with hsame | ⟨-, hfull, -⟩
    · obtain ⟨c, hc, rfl⟩ := mem_map.mp hs
      rw [hafter] at hsame
      rw [hsame] at hgap ⊢
      obtain ⟨hhistory, hring⟩ := horder.filter_of_no_gap hresumes (horder.sent_issued hc).1 hgap
      rw [hhistory, hring]
    · rcases hfull with hnone | hgap'
      · cases hafter.symm.trans hnone
      · exact absurd hgap hgap'
  case full =>
    intro hfull
    rcases hcases with hsame | ⟨hmirrored, -, hscreen⟩
    · rw [hsame] at hfull ⊢
      exact .inl ((horder.history_of_full hfull).trans (by rw [Feed.retained_run]))
    · exact .inr ⟨hmirrored, hscreen⟩

end Sections

instance {capacity : Nat} : DecidablePred (HubOp.Fits capacity)
  | .publish bytes _ => inferInstanceAs (Decidable (bytes.length ≤ capacity))
  | .publishGap => inferInstanceAs (Decidable (gapSeam.length ≤ capacity))
  | .recordInitialSize .. | .recordResize .. => isTrue trivial

instance {σ ι : Type} [Fintype ι] {capacity : Nat} {w : Attaching σ ι} : DecidablePred (undisturbed capacity w)
  | .op _ => by unfold undisturbed; infer_instance
  | .attach .. | .substitute _ | .recv _ => isTrue trivial

/-- Two chunks, the first of which retention drops. -/
def overflowing {ι : Type} : List (AttachAction ι) :=
  [.op (.publish (ascii "aaaa") none), .op (.publish (ascii "bbbbbbbb") none)]

/-- Two attaches, the first one with the screen, are done before the third chunk comes. -/
def thenPublished : List (AttachAction Bool) :=
  overflowing ++ [.attach true none true, .substitute true, .attach false none false, .op (.publish (ascii "cc") none),
    .recv true]

/-- The third chunk comes between the two sections of the attach. -/
def publishedBetween : List (AttachAction Unit) :=
  overflowing ++ [.attach () none true, .op (.publish (ascii "cc") none), .substitute (), .recv ()]

end Attaching
end Ferryx.Terminal
