import Ferryx.Replica

/-! # The Resize lease of a session (`session-core/src/resize.rs`)

The host's side: which pane may set the size of the terminal, and the size it has. Epochs, sequence
numbers and request identifiers are unbounded naturals in place of `u64`; `H` names the panes. -/

namespace Ferryx

structure Applied where
  epoch : Nat := 0
  seq : Nat := 0
  cols : UInt16
  rows : UInt16
  deriving DecidableEq, Repr

inductive ResizeError where
  | staleLease (currentEpoch : Nat)
  | staleResize (applied : Applied)
  deriving DecidableEq, Repr

structure ResizeLease (H : Type) where
  epoch : Nat := 0
  holder : Option H := none
  applied : Applied
  /-- The panes that lost the lease, or asked for it, since it was last free. -/
  revokees : List H := []
  lastRequest : H → Nat := fun _ => 0

namespace ResizeLease
variable {H : Type} [DecidableEq H]

def new (cols rows : UInt16) : ResizeLease H :=
  let (cols, rows) := normalizeSize cols rows
  { applied := { cols, rows } }

def activeEpoch (l : ResizeLease H) : Nat := if l.holder.isSome then l.epoch else 0

def fresh (l : ResizeLease H) (who : H) (requestId : Nat) : ResizeLease H × Bool :=
  if requestId ≤ l.lastRequest who then (l, false)
  else ({ l with lastRequest := Function.update l.lastRequest who requestId }, true)

def acquire (l : ResizeLease H) (who : H) : ResizeLease H × Nat × Applied × Option (H × Nat) :=
  let revokees := l.revokees.filter fun h => h ≠ who
  let taken := { l with epoch := l.epoch + 1, holder := some who, revokees }
  match l.holder with
  | some h =>
    if h ≠ who then ({ taken with revokees := revokees ++ [h] }, taken.epoch, l.applied, some (h, l.epoch))
    else (taken, taken.epoch, l.applied, none)
  | none => (taken, taken.epoch, l.applied, none)

def release (l : ResizeLease H) (who : H) (epoch : Nat) : ResizeLease H × Bool × List H :=
  if (epoch = 0 ∨ epoch = l.epoch) ∧ l.holder = some who then
    ({ l with holder := none, revokees := [] }, true, l.revokees)
  else (l, false, [])

def waiting (l : ResizeLease H) (who : H) : List H :=
  if l.holder.any (fun h => h ≠ who) && !l.revokees.contains who then l.revokees ++ [who] else l.revokees

def reclaim (l : ResizeLease H) (who : H) (epoch : Nat) : ResizeLease H × Bool × Nat × Applied :=
  if epoch = l.epoch ∧ l.holder = some who then (l, true, epoch, l.applied)
  else ({ l with revokees := l.waiting who }, false, l.activeEpoch, l.applied)

def Stale (applied : Applied) (epoch seq : Nat) : Prop :=
  epoch < applied.epoch ∨ epoch = applied.epoch ∧ seq ≤ applied.seq

instance (applied : Applied) (epoch seq : Nat) : Decidable (Stale applied epoch seq) :=
  inferInstanceAs (Decidable (_ ∨ _))

def resize (l : ResizeLease H) (who : H) (epoch seq : Nat) (cols rows : UInt16) :
    ResizeLease H × Except ResizeError Applied :=
  if epoch ≠ l.epoch ∨ l.holder ≠ some who then (l, .error (.staleLease l.activeEpoch))
  else if Stale l.applied epoch seq then (l, .error (.staleResize l.applied))
  else
    let (cols, rows) := normalizeSize cols rows
    let applied : Applied := { epoch, seq, cols, rows }
    ({ l with applied }, .ok applied)

end ResizeLease
end Ferryx
