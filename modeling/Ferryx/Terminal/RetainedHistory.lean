import Ferryx.Terminal.VtState

/-! # The retained history (`terminal/retained_history.rs`)

Text and images have budgets of their own. What a budget does not cover is evicted from the front, a multi-part image
as a whole. -/

namespace Ferryx.Terminal

def imageRetentionRatio : Nat := 16
def maxRetainedGroupBytes : Nat := 8 * 1024 * 1024

structure RetentionBudget where
  textBytes : Nat
  imageBytes : Nat
  deriving DecidableEq

namespace RetentionBudget

def fromTextCapacity (textBytes : Nat) : RetentionBudget := ⟨textBytes, textBytes * imageRetentionRatio⟩

def maxUnitBytes (b : RetentionBudget) : Nat := min (max (max b.imageBytes b.textBytes) 64) maxRetainedGroupBytes

def textBlockBytes (b : RetentionBudget) : Nat := max (b.textBytes / 64) 1

end RetentionBudget

structure Record where
  order : Nat
  sequence : Nat
  bytes : List UInt8
  isOpen : Bool
  imageGroup : Option Nat
  deriving DecidableEq

structure RetainedHistory where
  budget : RetentionBudget
  splitter : VtUnitSplitter
  evictedState : TerminalStateRecorder := {}
  text : List Record := []
  images : List Record := []
  textBytes : Nat := 0
  imageBytes : Nat := 0
  deriving DecidableEq

namespace RetainedHistory

def new (budget : RetentionBudget) : RetainedHistory :=
  { budget, splitter := .new budget.maxUnitBytes budget.textBlockBytes }

def pending (h : RetainedHistory) : Pending := h.splitter.pending

def statePrelude (h : RetainedHistory) : List UInt8 := h.evictedState.prelude.encode

def cutParts (bytes : List UInt8) : List Part → List (Part × List UInt8)
  | [] => []
  | [p] => [(p, bytes.drop p.start)]
  | p :: q :: parts => (p, (bytes.take q.start).drop p.start) :: cutParts bytes (q :: parts)

def recordsWithPending (h : RetainedHistory) (pending : Pending) : List (Nat × List UInt8) :=
  let records := (h.text ++ h.images).map fun r => (r.order, r.sequence, r.bytes)
  let rest := if pending.parts = [] ∧ pending.bytes ≠ [] then
      [((records.map Prod.fst).max?.elim 0 (· + 1), pending.sequence.getD 0, pending.bytes)]
    else ((cutParts pending.bytes pending.parts).filter (·.2 ≠ [])).map fun (p, bytes) => (p.order, p.sequence, bytes)
  ((records ++ rest).mergeSort fun a b => a.1 ≤ b.1).map Prod.snd

def sealText (h : RetainedHistory) : RetainedHistory :=
  { h with text := h.text.modifyLast fun r => { r with isOpen := false } }

def startSequence (h : RetainedHistory) : Option Nat :=
  let records := match h.text.head?, h.images.head? with
    | some text, some image => some (if image.order < text.order then image.sequence else text.sequence)
    | some text, none => some text.sequence
    | none, some image => some image.sequence
    | none, none => none
  match records, h.pending.sequence with
  | some records, some pending => some (min records pending)
  | some records, none => some records
  | none, pending => pending

def retainUnit (h : RetainedHistory) (u : VtUnit) : RetainedHistory :=
  match u.kind with
  | .image =>
    let parts := if u.parts = [] then [⟨0, u.order, u.sequence⟩] else u.parts
    let records := (cutParts u.bytes parts).map fun (p, bytes) =>
        (⟨p.order, p.sequence, bytes, false, some u.order⟩ : Record)
    { h with imageBytes := h.imageBytes + u.bytes.length, images := h.images ++ records }.sealText
  | .text =>
    let joins (r : Record) : Bool := r.isOpen && r.bytes.length < h.budget.textBlockBytes && r.sequence == u.sequence &&
        r.order + 1 == u.order
    { h with
      textBytes := h.textBytes + u.bytes.length
      text := if h.text.getLast?.any joins then h.text.modifyLast fun r => { r with bytes := r.bytes ++ u.bytes }
        else h.text ++ [⟨u.order, u.sequence, u.bytes, true, none⟩] }

def evictText (budget : Nat) : List Record → Nat → TerminalStateRecorder → List Record × Nat × TerminalStateRecorder
  | [], bytes, state => ([], bytes, state)
  | r :: rs, bytes, state =>
    if budget < bytes then evictText budget rs (bytes - r.bytes.length) (state.observe r.bytes) else (r :: rs, bytes, state)

def dropGroup (group : Option Nat) : List Record → Nat → List Record × Nat
  | [], bytes => ([], bytes)
  | r :: rs, bytes => if r.imageGroup = group then dropGroup group rs (bytes - r.bytes.length) else (r :: rs, bytes)

theorem length_dropGroup_le (group : Option Nat) (rs : List Record) (bytes : Nat) :
    (dropGroup group rs bytes).1.length ≤ rs.length := by
  induction rs generalizing bytes with
  | nil => simp [dropGroup]
  | cons r rs ih =>
    unfold dropGroup
    split
    · exact (ih _).trans (Nat.le_succ _)
    · exact le_rfl

def evictImages (budget : Nat) (images : List Record) (bytes : Nat) : List Record × Nat :=
  match images with
  | [] => ([], bytes)
  | r :: rs =>
    if budget < bytes then
      let left := dropGroup r.imageGroup rs (bytes - r.bytes.length)
      evictImages budget left.1 left.2
    else (r :: rs, bytes)
termination_by images.length
decreasing_by exact Nat.lt_succ_of_le (length_dropGroup_le ..)

def evict (h : RetainedHistory) : RetainedHistory :=
  let (text, textBytes, evictedState) := evictText h.budget.textBytes h.text h.textBytes h.evictedState
  let (images, imageBytes) := evictImages h.budget.imageBytes h.images h.imageBytes
  { h with text, textBytes, evictedState, images, imageBytes }

def push (h : RetainedHistory) (sequence : Nat) (bytes : List UInt8) : RetainedHistory :=
  let (splitter, units) := h.splitter.push sequence bytes
  (units.foldl retainUnit { h with splitter }).evict

end RetainedHistory
end Ferryx.Terminal
