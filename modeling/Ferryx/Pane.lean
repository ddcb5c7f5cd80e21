import Ferryx.Replica

/-!
# The pane's side of the Resize lease (`session-core/src/pane_lease.rs`)

A pane that is shown and focused asks for the lease of its session, one request at a time, and sends the size it wants while
it has the lease. A session whose lease it may have without wanting it is disowned: the pane releases it when nothing else
is to be done. The numbers of the sizes have a type of their own: `UInt64`, as in the source, or `Nat` in a network whose
hosts only ever name a number that a pane has sent. The other counters and identifiers are unbounded.
-/

namespace Ferryx
open Std

namespace Pane

inductive PendingKind where
  | acquire | reclaim | probe | release
  deriving DecidableEq, Repr

structure Pending where
  id : Nat
  kind : PendingKind
  session : Nat
  generation : Nat
  requestedEpoch : Nat
  deriving DecidableEq, Repr

structure Lease where
  session : Nat
  generation : Nat
  epoch : Nat
  deriving DecidableEq, Repr

/-- What a pane sends. -/
inductive Out (σ : Type := Nat) where
  | acquire (id session : Nat)
  | reclaim (id session epoch : Nat)
  | release (id session epoch : Nat)
  | resize (session epoch : Nat) (seq : σ) (cols rows : UInt16)
  deriving DecidableEq, Repr

structure Policy where
  boundSession : Option Nat := none
  generation : Nat := 0
  visibleFocused : Bool := false
  visibleAppliedGeneration : Option Nat := none
  gpuReady : Bool := false
  tombstoned : Bool := false
  deriving DecidableEq, Repr

def PendingKind.out {σ : Type} (kind : PendingKind) (id session requestedEpoch : Nat) : Out σ :=
  match kind with
  | .acquire => .acquire id session
  | .reclaim | .probe => .reclaim id session requestedEpoch
  | .release => .release id session 0

end Pane

open Pane

structure PaneLease (σ : Type := Nat) where
  policy : Policy := {}
  lease : Option Lease := none
  needsReclaim : Bool := false
  needsProbe : Bool := false
  pending : Option Pane.Pending := none
  retryTimer : Bool := false
  /-- Another pane took the lease; this one does not ask for it on its own. -/
  suppressed : Bool := false
  suppressedEpoch : Nat := 0
  nextSeq : σ
  latestSent : Option (σ × UInt16 × UInt16) := none
  ptyAcked : Option σ := none
  ptyDesired : Option (UInt16 × UInt16) := none
  disowned : ExtTreeSet Nat := ∅
  nextRequestId : Nat := 0
  out : List (Pane.Out σ) := []

namespace PaneLease
variable {σ : Type}

/-- The initial state. -/
def new [OfNat σ 0] : PaneLease σ := { nextSeq := 0 }

def eligible (a : PaneLease σ) : Bool :=
  !a.policy.tombstoned && a.policy.boundSession.isSome && a.policy.visibleFocused && a.policy.gpuReady && !a.suppressed &&
    a.policy.visibleAppliedGeneration == some a.policy.generation

def push (a : PaneLease σ) (o : Pane.Out σ) : PaneLease σ := { a with out := a.out ++ [o] }

def takeId (a : PaneLease σ) : PaneLease σ := { a with nextRequestId := a.nextRequestId + 1 }

def invalidate (a : PaneLease σ) : PaneLease σ :=
  { a with
    pending := match a.lease, a.pending with
      | some l, some p => if p.kind = .reclaim ∧ p.requestedEpoch = l.epoch then none else some p
      | _, p => p
    lease := none, needsReclaim := false, latestSent := none, ptyAcked := none }

def suppress (a : PaneLease σ) (epoch : Nat) : PaneLease σ := { a with suppressed := true, suppressedEpoch := epoch }

def unsuppress (a : PaneLease σ) : PaneLease σ := { a with suppressed := false, needsProbe := false }

def releaseLease (a : PaneLease σ) : PaneLease σ :=
  match a.lease with
  | none => a
  | some l =>
    let a := a.takeId
    let a := a.push (.release a.nextRequestId l.session l.epoch)
    { a with disowned := a.disowned.insert l.session }.invalidate

def dropAcquire (a : PaneLease σ) : PaneLease σ :=
  match a.pending with
  | none => a
  | some p => if p.kind = .acquire then { a with disowned := a.disowned.insert p.session, pending := none } else a

def relinquish (a : PaneLease σ) : PaneLease σ := a.releaseLease.dropAcquire

def send (a : PaneLease σ) (kind : Pane.PendingKind) (session generation requestedEpoch : Nat) : PaneLease σ :=
  let a := a.takeId
  { a with pending := some ⟨a.nextRequestId, kind, session, generation, requestedEpoch⟩ }.push
    (kind.out a.nextRequestId session requestedEpoch)

def sendRelease (a : PaneLease σ) : PaneLease σ :=
  match a.disowned.toList.head? with
  | some session => a.send .release session a.policy.generation 0
  | none => a

def sendDue (a : PaneLease σ) : PaneLease σ :=
  match a.lease, a.policy.boundSession with
  | some l, _ => if a.needsReclaim then a.send .reclaim l.session l.generation l.epoch else a.sendRelease
  | none, some session =>
    if a.suppressed && a.needsProbe then a.send .probe session a.policy.generation a.suppressedEpoch
    else if a.eligible then a.send .acquire session a.policy.generation 0
    else a.sendRelease
  | none, none => a.sendRelease

def reevaluate (a : PaneLease σ) : PaneLease σ :=
  let a := if !a.eligible && a.lease.isSome then a.relinquish else a
  if a.pending.isSome || a.retryTimer then a else a.sendDue

section
variable [LinearOrder σ] [Add σ] [OfNat σ 1]

def ptySync (a : PaneLease σ) : PaneLease σ :=
  match a.lease, a.ptyDesired with
  | some l, some (cols, rows) =>
    if a.needsReclaim || !a.eligible || l.generation != a.policy.generation then a
    else if a.latestSent.any fun sent => sent.2 == (cols, rows) then a
    else
      let seq := a.nextSeq + 1
      { a with nextSeq := seq, latestSent := some (seq, cols, rows) }.push (.resize l.session l.epoch seq cols rows)
  | _, _ => a

def resend (a : PaneLease σ) (appliedSeq : σ) : PaneLease σ :=
  { a with nextSeq := max a.nextSeq appliedSeq, latestSent := none }.ptySync

def rebound (a : PaneLease σ) (p : Policy) : Bool :=
  p.boundSession != a.policy.boundSession || p.generation != a.policy.generation

def setPolicy (a : PaneLease σ) (p : Policy) (userIntent : Bool) : PaneLease σ :=
  let rebound := a.rebound p
  let a := { a with policy := p }
  let a := if userIntent then a.unsuppress else a
  let a := if rebound then a.relinquish else a
  a.reevaluate

def onVisibleApplied (a : PaneLease σ) (cols rows : UInt16) : PaneLease σ :=
  { a with
    policy := { a.policy with visibleAppliedGeneration := some a.policy.generation }
    ptyDesired := some (normalizeSize cols rows) }.ptySync.reevaluate

def onRetryTimer (a : PaneLease σ) : PaneLease σ := { a with retryTimer := false }.reevaluate

def requestFailed (a : PaneLease σ) (id : Nat) : PaneLease σ :=
  match a.pending with
  | some p => if p.id = id then { a.dropAcquire with pending := none, retryTimer := true } else a
  | none => a

def onRequestFailed (a : PaneLease σ) (id : Nat) : PaneLease σ := (a.requestFailed id).reevaluate

def releaseGrant (a : PaneLease σ) (session epoch : Nat) : PaneLease σ :=
  let a := a.takeId
  let a := a.push (.release a.nextRequestId session epoch)
  if a.lease.any fun l => l.session = session then a else { a with disowned := a.disowned.insert session }

def released (a : PaneLease σ) (id : Nat) : PaneLease σ :=
  match a.pending with
  | some p =>
    if p.id = id ∧ p.kind = .release then { a with pending := none, disowned := a.disowned.erase p.session } else a
  | none => a

def onReleased (a : PaneLease σ) (id : Nat) : PaneLease σ := (a.released id).reevaluate

def reconnected (a : PaneLease σ) : PaneLease σ :=
  let a := a.dropAcquire
  { a with
    pending := none, retryTimer := false
    needsReclaim := a.needsReclaim || a.lease.isSome
    needsProbe := a.needsProbe || a.suppressed }

def onReconnect (a : PaneLease σ) : PaneLease σ := a.reconnected.reevaluate

def adopt (a : PaneLease σ) (l : Lease) (appliedSeq : σ) : PaneLease σ :=
  let a := { a with lease := some l, disowned := a.disowned.erase l.session, needsReclaim := false }
  { a.unsuppress with nextSeq := appliedSeq, latestSent := none, ptyAcked := none }.ptySync

def granted (a : PaneLease σ) (id session epoch : Nat) (appliedSeq : σ) : PaneLease σ :=
  match a.pending with
  | some p =>
    if p.kind = .acquire ∧ p.id = id then
      let a := { a with pending := none }
      if p.session = session ∧ a.policy.boundSession = some p.session ∧ a.policy.generation = p.generation ∧ a.eligible then
        a.adopt ⟨session, p.generation, epoch⟩ appliedSeq
      else a.releaseGrant session epoch
    else a.releaseGrant session epoch
  | none => a.releaseGrant session epoch

def onGranted (a : PaneLease σ) (id session epoch : Nat) (appliedSeq : σ) : PaneLease σ :=
  (a.granted id session epoch appliedSeq).reevaluate

def probed (a : PaneLease σ) (currentEpoch : Nat) : PaneLease σ :=
  let a := { a with needsProbe := false }
  if currentEpoch = 0 then a.unsuppress else a

def reclaimed (a : PaneLease σ) (l : Lease) (ok : Bool) (currentEpoch : Nat) (appliedSeq : σ) (requestedEpoch : Nat) :
    PaneLease σ :=
  if ok ∧ currentEpoch = l.epoch then
    { a with needsReclaim := false }.resend appliedSeq
  else
    let a := a.invalidate
    if currentEpoch ≠ 0 then a.suppress requestedEpoch else a

def reclaimResult (a : PaneLease σ) (id : Nat) (ok : Bool) (currentEpoch : Nat) (appliedSeq : σ) : PaneLease σ :=
  match a.pending with
  | some p =>
    if p.id = id ∧ (p.kind = .reclaim ∨ p.kind = .probe) then
      let a := { a with pending := none }
      if p.kind = .probe then a.probed currentEpoch
      else match a.lease with
        | some l =>
          if l.epoch = p.requestedEpoch ∧ l.generation = p.generation ∧ l.session = p.session then
            a.reclaimed l ok currentEpoch appliedSeq p.requestedEpoch
          else a
        | none => a
    else a
  | none => a

def onReclaimResult (a : PaneLease σ) (id : Nat) (ok : Bool) (currentEpoch : Nat) (appliedSeq : σ) : PaneLease σ :=
  (a.reclaimResult id ok currentEpoch appliedSeq).reevaluate

/-- The lease with this epoch is gone; `newEpoch` is not zero if another pane has it. -/
def lose (a : PaneLease σ) (session epoch newEpoch : Nat) : PaneLease σ :=
  match a.lease with
  | some l =>
    if l.session = session ∧ l.epoch = epoch then
      let a := a.invalidate
      if newEpoch ≠ 0 then a.suppress epoch else a
    else a
  | none => a

def onRevoked (a : PaneLease σ) (session revokedEpoch newEpoch : Nat) : PaneLease σ :=
  (a.lose session revokedEpoch newEpoch).reevaluate

def onVacated (a : PaneLease σ) : PaneLease σ := a.unsuppress.reevaluate

def resizeAck (a : PaneLease σ) (session epoch : Nat) (seq : σ) : PaneLease σ :=
  if (a.lease.any fun l => l.session = session ∧ l.epoch = epoch) ∧ a.ptyAcked.all (· < seq) then
    { a with ptyAcked := some seq }
  else a

def onResizeAck (a : PaneLease σ) (session epoch : Nat) (seq : σ) : PaneLease σ :=
  (a.resizeAck session epoch seq).ptySync.reevaluate

def onStaleResize (a : PaneLease σ) (appliedEpoch : Nat) (appliedSeq : σ) : PaneLease σ :=
  (if a.lease.any fun l => l.epoch = appliedEpoch then a.resend appliedSeq else a).reevaluate

def onStaleLease (a : PaneLease σ) (session epoch currentEpoch : Nat) : PaneLease σ :=
  (a.lose session epoch currentEpoch).reevaluate

def onUnackedTimeout (a : PaneLease σ) : PaneLease σ :=
  (if a.latestSent.any fun sent => a.ptyAcked.all (· < sent.1) then { a with latestSent := none }.ptySync
    else a).reevaluate

end

end PaneLease
end Ferryx
