import Ferryx.Daemon.Handover

/-!
# The gate of a commit (`src-tauri/src/daemon/handover.rs`, `src-tauri/src/daemon/control.rs`)

Any number of threads call the manager. A section that holds the lock of the status is one step; a thread that keeps the
lock of the requests in flight over such a section has its place in `lock`. What a commit writes meanwhile is one outcome.
-/

namespace Ferryx.Daemon
open Lib

inductive OwnerStatus where
  | active | retiring | draining | prepared | retired
  deriving DecidableEq, Repr

def HandoverStatus.ownerStatus : HandoverStatus → OwnerStatus
  | .active => .active
  | .prepared | .committing => .prepared
  | .draining => .draining
  | .retired => .retired
  | .retiring => .retiring

def OwnerStatus.retiresByItself (s : OwnerStatus) : Bool := s = .draining ∨ s = .prepared ∨ s = .retired

inductive ShutdownDecision where
  | refuse (code : String)
  | countChanged (restore : OwnerStatus) (live : UInt32)
  | proceed (live : UInt32)
  deriving DecidableEq, Repr

def decideShutdown (status : OwnerStatus) (spawnOwners : Nat) (live confirmLiveSessions : UInt32) : ShutdownDecision :=
  if status.retiresByItself then .refuse "NOT_ACTIVE_OWNER"
  else if spawnOwners ≠ 0 then .refuse "SPAWN_IN_FLIGHT"
  else if live ≠ confirmLiveSessions then .countChanged status live
  else .proceed live

namespace HandoverManager

def shutdown (m : HandoverManager) (live confirmLiveSessions : UInt32) : HandoverManager × ShutdownDecision :=
  let prior := m.status
  let closed := (prior.ownerStatus = .active ∨ prior.ownerStatus = .retiring) ∧ m.spawnOwners = 0
  let decision := decideShutdown prior.ownerStatus m.spawnOwners live confirmLiveSessions
  match decision with
  | .countChanged _ _ => (m, decision)
  | _ => ({ m with status := if closed then .retiring else prior }, decision)

end HandoverManager

inductive InFlightSection where
  /-- `retain_request` has read the status. -/
  | retaining (status : HandoverStatus)
  /-- `check_retirement_locked` is to look at the status, whether the daemon is draining, and to retire it. -/
  | checkStatus
  | checkDraining
  | retire
  deriving DecidableEq, Repr

inductive CommitPhase where
  | closed
  | waiting
  | drained
  /-- An error will be returned, and the decision may be on disk all the same. -/
  | failed (decided : Bool)
  | reopened
  | returned
  deriving DecidableEq, Repr

inductive CommitOutcome where
  | failed
  | landed
  | decided
  deriving DecidableEq, Repr

structure CommitGate where
  manager : HandoverManager := {}
  spawnOwnerGuards : Nat := 0
  retirementGuards : Nat := 0
  lock : Option InFlightSection := none
  commits : List CommitPhase := []

inductive GateAction where
  | retainSpawnOwner
  | dropSpawnOwner
  | retainRequest
  | countRequest
  | dropRequest
  | checkRetirementIfEmpty
  | checkStatus
  | checkDraining (live : Bool)
  | retire
  | prepareHandover (legacy : String)
  | abortHandover (recorded : Bool)
  | controlRetireWhenIdle
  | controlShutdown (live confirmLiveSessions : UInt32)
  | commitHandoverV5
  | closeAccepts (i : Nat)
  | drained (i : Nat)
  | drainTimeout (i : Nat)
  | decide (i : Nat) (retained : Bool) (o : CommitOutcome)
  | reopen (i : Nat)
  | openAccepts (i : Nat)
  deriving DecidableEq

namespace CommitGate

def stands (w : CommitGate) (i : Nat) (phase : CommitPhase) : Bool := w.commits[i]? = some phase

def goOn (w : CommitGate) (i : Nat) (phase : CommitPhase) : CommitGate := { w with commits := w.commits.set i phase }

def closeGate (w : CommitGate) : CommitGate :=
  match w.manager.closeCommitGate with
  | .error _ => w
  | .ok m => { w with manager := { m with acceptGate := w.manager.acceptGate }, commits := w.commits ++ [.closed] }

def decideCommit (w : CommitGate) (i : Nat) (retained : Bool) (o : CommitOutcome) : CommitGate :=
  if w.manager.status ≠ .committing then w.goOn i (.failed false)
  else match o with
    | .failed => w.goOn i (.failed false)
    | .landed => w.goOn i (.failed true)
    | .decided => { w with manager := w.manager.handOver retained }.goOn i .returned

def reopenGate (w : CommitGate) (i : Nat) : CommitGate :=
  { w with manager := { w.manager.reopenCommitGate with acceptGate := w.manager.acceptGate } }.goOn i .reopened

def step (w : CommitGate) : GateAction → CommitGate
  | .retainSpawnOwner => match w.manager.retainSpawnOwner with
    | .error _ => w
    | .ok m => { w with manager := m, spawnOwnerGuards := w.spawnOwnerGuards + 1 }
  | .dropSpawnOwner =>
    if w.spawnOwnerGuards = 0 then w
    else { w with manager := { w.manager with spawnOwners := w.manager.spawnOwners - 1 }, spawnOwnerGuards :=
      w.spawnOwnerGuards - 1 }
  | .retainRequest => if w.lock.isSome then w else { w with lock := some (.retaining w.manager.status) }
  | .countRequest => match w.lock with
    | some (.retaining status) => match { w.manager with status }.retainRequest with
      | .error _ => { w with lock := none }
      | .ok m => { w with
          manager := { m with status := w.manager.status }, retirementGuards := w.retirementGuards + 1, lock := none }
    | _ => w
  | .dropRequest =>
    if w.lock.isSome ∨ w.retirementGuards = 0 then w
    else { w with
      manager := { w.manager with inFlight := w.manager.inFlight - 1 }, retirementGuards := w.retirementGuards - 1
      lock := if w.manager.inFlight - 1 = 0 then some .checkStatus else none }
  | .checkRetirementIfEmpty =>
    if w.lock.isSome then w else { w with lock := if w.manager.inFlight = 0 then some .checkStatus else none }
  | .checkStatus =>
    if w.lock = some .checkStatus then
      { w with lock := if w.manager.status = .retiring then none else some .checkDraining } else w
  | .checkDraining live =>
    if w.lock = some .checkDraining then
      { w with lock := if w.manager.isDraining ∧ ¬live then some .retire else none } else w
  | .retire => if w.lock = some .retire then { w with manager := w.manager.retire, lock := none } else w
  | .prepareHandover legacy => { w with manager := (w.manager.prepareHandover legacy).toOption.getD w.manager }
  | .abortHandover recorded =>
    if w.manager.status = .prepared ∧ recorded then { w with manager := w.manager.resume } else w
  | .controlRetireWhenIdle => { w with manager := w.manager.controlRetireWhenIdle }
  | .controlShutdown live confirmLiveSessions => { w with manager := (w.manager.shutdown live confirmLiveSessions).1 }
  | .commitHandoverV5 => w.closeGate
  | .closeAccepts i =>
    if w.stands i .closed then { w with manager := { w.manager with acceptGate := false } }.goOn i .waiting else w
  | .drained i => if w.stands i .waiting ∧ w.lock.isNone ∧ w.manager.inFlight = 0 then w.goOn i .drained else w
  | .drainTimeout i =>
    if w.stands i .waiting ∧ w.lock.isNone ∧ w.manager.inFlight ≠ 0 then w.goOn i (.failed false) else w
  | .decide i retained o => if w.stands i .drained then w.decideCommit i retained o else w
  | .reopen i => if w.stands i (.failed false) ∨ w.stands i (.failed true) then w.reopenGate i else w
  | .openAccepts i =>
    if w.stands i .reopened then { w with manager := { w.manager with acceptGate := true } }.goOn i .returned else w

end CommitGate

def commitGate : System CommitGate GateAction where
  init w := ∃ lease, w = { manager := { supervisorLease := lease } }
  step w a w' := w' = w.step a

end Ferryx.Daemon
