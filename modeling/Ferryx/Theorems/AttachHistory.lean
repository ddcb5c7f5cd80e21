import Ferryx.Theorems.OutputRing

/-! What an attach returns in terms of what was published: the screen and the retained history are fed with every chunk and
with the seam of every gap, once and in order. -/

namespace Ferryx.Terminal
open List

section Published
variable {σ : Type} [ScreenMirror σ]

/-- A screen that is fed with what an operation publishes, and whether it has been given a size. -/
def HubOp.shown (screen : Option σ × Bool) : HubOp → Option σ × Bool
  | .publish bytes _ => (if bytes = [] then screen.1 else screen.1.map (ScreenMirror.feed · bytes), screen.2)
  | .publishGap => (screen.1.map (ScreenMirror.feedReplay · gapSeam), screen.2)
  | .recordInitialSize cols rows => (if screen.2 then screen.1 else screen.1.map (ScreenMirror.resize · cols rows), true)
  | .recordResize cols rows => (screen.1.map (ScreenMirror.resize · cols rows), true)

/-- The screen after a list of operations. -/
def screenAfter (ops : List HubOp) : Option σ := (ops.foldl HubOp.shown (ScreenMirror.create 80 24, false)).1

theorem Feed.screen_step (f : Feed σ) (o : HubOp) :
    ((f.step o).hub.screen, decide ((f.step o).hub.resizeLedger ≠ [])) =
      o.shown (f.hub.screen, decide (f.hub.resizeLedger ≠ [])) := by
  cases o with
  | publish bytes micros =>
    by_cases hb : bytes = [] <;>
      simp [Feed.step, SessionHub.publish, BoundedBuffer.pushWithReadTimestamp, HubOp.shown, hb]
  | publishGap => rfl
  | recordInitialSize cols rows =>
    by_cases hsize : f.hub.resizeLedger = [] <;> simp [Feed.step, SessionHub.recordInitialSize, HubOp.shown, hsize]
  | recordResize cols rows => simp [Feed.step, SessionHub.recordResize, HubOp.shown]

theorem Feed.screen_run (capacity : Nat) (retention : RetentionBudget) (ops : List HubOp) :
    (run capacity retention ops : Feed σ).hub.screen = screenAfter ops :=
  congrArg Prod.fst (foldl_hom (fun f : Feed σ => (f.hub.screen, decide (f.hub.resizeLedger ≠ [])))
    fun f o => (screen_step f o).symm).symm

/-- A history to which an operation adds its chunk, and the sequence of the next one. -/
def HubOp.kept (history : RetainedHistory × Nat) : HubOp → RetainedHistory × Nat
  | .publish bytes _ => if bytes = [] then history else (history.1.push history.2 bytes, history.2 + 1)
  | .publishGap => (history.1.push history.2 gapSeam, history.2 + 1)
  | .recordInitialSize .. => history
  | .recordResize .. => (history.1.sealText, history.2 + 1)

/-- The retained history after a list of operations. -/
def historyAfter (retention : RetentionBudget) (ops : List HubOp) : RetainedHistory :=
  (ops.foldl HubOp.kept (.new retention, 1)).1

theorem Feed.retained_step (f : Feed σ) (o : HubOp) :
    ((f.step o).hub.buffer.retained, (f.step o).hub.buffer.nextSequence) =
      o.kept (f.hub.buffer.retained, f.hub.buffer.nextSequence) := by
  cases o with
  | publish bytes micros =>
    by_cases hb : bytes = [] <;>
      simp [Feed.step, SessionHub.publish, BoundedBuffer.pushWithReadTimestamp, BoundedBuffer.pushChunk, HubOp.kept, hb]
  | publishGap => simp only [Feed.step, SessionHub.publishGap, BoundedBuffer.pushChunk, HubOp.kept]
  | recordInitialSize cols rows =>
    simp only [Feed.step, SessionHub.recordInitialSize, HubOp.kept]
    split <;> rfl
  | recordResize cols rows => rfl

theorem Feed.retained_run (capacity : Nat) (retention : RetentionBudget) (ops : List HubOp) :
    (run capacity retention ops : Feed σ).hub.buffer.retained = historyAfter retention ops :=
  congrArg Prod.fst (foldl_hom (fun f : Feed σ => (f.hub.buffer.retained, f.hub.buffer.nextSequence))
    fun f o => (retained_step f o).symm).symm

/-- The screen takes the place of a full history, or the attach stays as it was. -/
theorem SessionHub.substituteScreen_cases (h : SessionHub σ) (after : Option Nat)
    (attached : AttachmentSnapshot × List HistoryRange) : h.substituteScreen after attached = attached ∨
    ((after = none ∨ attached.1.gap ≠ none) ∧ ∃ screen seed, h.screen = some screen ∧ ScreenMirror.seed screen = some seed ∧
      (h.substituteScreen after attached).1 = { attached.1 with history := seed.bytes }) := by
  unfold substituteScreen
  dsimp only
  split
  next hfull =>
    simp only [Bool.and_eq_true, Bool.or_eq_true, Option.isNone_iff_eq_none, Option.isSome_iff_ne_none] at hfull
    cases hseed : h.screenSeed with
    | none => exact .inl rfl
    | some seed =>
      refine .inr ⟨hfull.1, ?_⟩
      unfold screenSeed at hseed
      split at hseed
      · cases hseed
      · obtain ⟨screen, hscreen, hshown⟩ := Option.bind_eq_some_iff.mp hseed
        split at hshown
        · cases hshown
        · exact ⟨screen, seed, hscreen, hshown, rfl⟩
  next => exact .inl rfl

end Published

/-- A retained history as it is returned: the state of what it has dropped, and its records in order. -/
def RetainedHistory.shown (h : RetainedHistory) : List UInt8 :=
  h.statePrelude ++ (h.recordsWithPending h.pending).flatMap Prod.snd

theorem BoundedBuffer.history_of_full (b : BoundedBuffer) (ledger : List ResizePoint) {after : Option Nat}
    (hfull : after = none ∨ (b.snapshotAfterRanges after ledger).gap ≠ none) :
    (b.snapshotAfterRanges after ledger).history = b.retained.shown := by
  rw [snapshot_gap, ← Option.isNone_iff_eq_none, ← Option.isSome_iff_ne_none, ← Bool.or_eq_true] at hfull
  simp only [snapshotAfterRanges, snapshotAfterRangesImpl, if_true, hfull, Bool.and_self, RetainedHistory.shown]
  split
  next hnil => simp [hnil.1, hnil.2]
  next => rfl

theorem Feed.InOrder.history_of_full {σ : Type} {f : Feed σ} {after : Option Nat} (h : InOrder f)
    (hfull : after = none ∨ (f.hub.subscribeWithSequenceRanges after).1.gap ≠ none) :
    (f.hub.subscribeWithSequenceRanges after).1.history = f.hub.buffer.retained.shown := by
  refine f.hub.buffer.history_of_full f.hub.resizeLedger (hfull.imp_right fun hgap => ?_)
  rw [BoundedBuffer.snapshot_gap]
  intro hnone
  -- A gap that waits for the next attach is one of the buffer too.
  obtain ⟨gap, hreplay⟩ : ∃ gap,
      f.hub.replayGap.filter (fun gap => after.any (· < gap.availableFromSequence - 1)) = some gap := by
    refine Option.ne_none_iff_exists'.mp fun hnil => hgap ?_
    simp [SessionHub.subscribeWithSequenceRanges, BoundedBuffer.snapshot_gap, hnone, hnil]
  obtain ⟨hmem, hafter⟩ := Option.filter_eq_some_iff.mp hreplay
  cases after with
  | none => cases hafter
  | some s =>
    simp only [Option.any_some, decide_eq_true_eq, h.replay gap hmem] at hafter
    simp only [Option.bind_some, BoundedBuffer.gapAfter] at hnone
    rw [if_pos (by omega)] at hnone
    cases hnone

end Ferryx.Terminal
