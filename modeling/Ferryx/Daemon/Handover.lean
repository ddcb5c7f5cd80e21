import Ferryx.Lib.System

/-!
# Daemon handover (`src-tauri/src/daemon/handover.rs`, and the candidate of `src-tauri/src/daemon/server.rs`)

One handover for one candidate; the next one has files of its own. A commit or an abort is a sequence of file steps, each of
which may fail before or after it takes effect, under the lock of the status except where a commit waits for the requests in
flight. The content of the route manifest, the callbacks of a commit and the listeners' descriptors are left out.
-/

namespace Ferryx.Daemon
open Lib

inductive HandoverState where
  | active | preparing | frozen | transferring | commitReady | retired
  deriving DecidableEq, Repr

structure SupervisorLeaseTransfer where
  machineId : String
  fence : Nat
  deadlineUnixMs : Nat
  deriving DecidableEq, Repr

structure HandoverTransaction where
  transferId : String
  state : HandoverState
  rollbackReason : Option String
  supervisorLease : Option SupervisorLeaseTransfer
  deriving DecidableEq, Repr

def recordedDecision (legacy : String) : Option HandoverTransaction → Except String (Option HandoverState)
  | none => .ok none
  | some transaction =>
    if transaction.transferId ≠ legacy then .error "Handover transaction identity mismatch"
    else match transaction.state with
      | .retired => .ok (some .retired)
      | .active => .ok (if transaction.rollbackReason.isSome then some .active else none)
      | _ => .ok none

inductive CommitResolution where
  | owner | abort
  deriving DecidableEq, Repr

def resolveCommit (replyConfirmed : Bool) (recorded : Option HandoverState) : CommitResolution :=
  if replyConfirmed ∨ recorded = some .retired then .owner else .abort

inductive HandoverStatus where
  | active | prepared | draining | retired | retiring | committing
  deriving DecidableEq, Repr

def HandoverStatus.name : HandoverStatus → String
  | .active => "Active"
  | .prepared => "Prepared"
  | .draining => "Draining"
  | .retired => "Retired"
  | .retiring => "Retiring"
  | .committing => "Committing"

structure LeaseClient where
  held : Option SupervisorLeaseTransfer
  frozen : Bool := false

structure HandoverManager where
  status : HandoverStatus := .active
  acceptGate : Bool := true
  listenersHandedOver : Bool := false
  spawnOwners : Nat := 0
  inFlight : Nat := 0
  legacySocketPath : Option String := none
  canonicalLockFiles : Bool := true
  isDraining : Bool := false
  supervisorLease : Option LeaseClient := none

def handoverBusy : String := "HANDOVER_BUSY"

namespace HandoverManager

def spawnGateRefusal (m : HandoverManager) : Option String :=
  if m.spawnOwners ≠ 0 then some s!"{handoverBusy}: {m.spawnOwners} in-flight spawn(s) hold the handover gate" else none

def retainSpawnOwner (m : HandoverManager) : Except String HandoverManager :=
  if m.status = .retiring then .error "DAEMON_RETIRING: daemon is retiring and does not accept new sessions"
  else if m.status ≠ .active then .error s!"{handoverBusy}: handover is {m.status.name} and does not accept new spawns"
  else .ok { m with spawnOwners := m.spawnOwners + 1 }

def retainRequest (m : HandoverManager) : Except String HandoverManager :=
  match m.status with
  | .retired => .error "HOST_UNAVAILABLE"
  | .committing => .error s!"{handoverBusy}: handover is committing"
  | _ => .ok { m with inFlight := m.inFlight + 1 }

def closeCommitGate (m : HandoverManager) : Except String HandoverManager :=
  match m.spawnGateRefusal with
  | some refusal => .error refusal
  | none =>
    if m.status ≠ .prepared ∧ m.status ≠ .active then .error s!"Cannot commit v5 handover in state {m.status.name}"
    else .ok { m with status := .committing, acceptGate := false }

def reopenCommitGate (m : HandoverManager) : HandoverManager :=
  { m with status := if m.status = .committing then .prepared else m.status, acceptGate := true }

def prepareHandover (m : HandoverManager) (legacy : String) : Except String HandoverManager :=
  match m.spawnGateRefusal with
  | some refusal => .error refusal
  | none =>
    if m.status ≠ .active then .error s!"Cannot prepare handover in state {m.status.name}"
    else .ok { m with legacySocketPath := some legacy, status := .prepared }

def controlRetireWhenIdle (m : HandoverManager) : HandoverManager :=
  if m.status = .active then { m with status := .retiring } else m

/-- `countChanged`: not the number of sessions that the caller confirmed is live. -/
def controlShutdown (m : HandoverManager) (countChanged : Bool) : HandoverManager :=
  if (m.status = .active ∨ m.status = .retiring) ∧ m.spawnOwners = 0 ∧
    ¬countChanged then { m with status := .retiring } else m

def retire (m : HandoverManager) : HandoverManager :=
  { m with status := .retired, isDraining := false, acceptGate := false, legacySocketPath := none }

def checkRetirementIfEmpty (m : HandoverManager) (live : Bool) : HandoverManager :=
  if m.inFlight ≠ 0 ∨ m.status = .retiring then m
  else if m.isDraining ∧ ¬live then m.retire
  else m

def freezeForHandover (m : HandoverManager) : HandoverManager :=
  { m with supervisorLease := m.supervisorLease.map ({ · with frozen := true }) }

def thawAfterFailedHandover (m : HandoverManager) : HandoverManager :=
  { m with supervisorLease := m.supervisorLease.map ({ · with frozen := false }) }

def drain (m : HandoverManager) : HandoverManager :=
  { m with canonicalLockFiles := false, status := .draining, isDraining := true }

def handOver (m : HandoverManager) (retained : Bool) : HandoverManager :=
  let m := { m with canonicalLockFiles := false, acceptGate := false, listenersHandedOver := true }
  if retained then { m with status := .draining, isDraining := true }
  else { m with status := .retired, isDraining := false, legacySocketPath := none }

def resume (m : HandoverManager) : HandoverManager := { m with legacySocketPath := none, status := .active }

end HandoverManager

inductive TaskKind where
  | commitV4 | commitV5 | abort
  deriving DecidableEq, Repr

inductive Phase where
  | waiting
  | persistRoute
  | readDecision
  | createTemporary
  | writeTemporary
  | renameTemporary
  | syncDirectory
  /-- After an error, whether the lease is thawed. -/
  | recheck (error : String)
  | removeCanonical
  deriving DecidableEq, Repr

structure Task where
  kind : TaskKind
  retained : Bool
  phase : Phase
  deriving DecidableEq, Repr

inductive FileOutcome where
  | done
  /-- An error, whether or not the step took effect. -/
  | failed (effect : Bool) (error : String)
  deriving DecidableEq, Repr

inductive Reply where
  | commitHandoverOk
  | failed (error : String)
  deriving DecidableEq, Repr

inductive Candidate where
  | idle
  | waiting
  /-- The exchange failed and the record decides. -/
  | unconfirmed
  | owner
  | relinquished
  | aborted
  | gone
  deriving DecidableEq, Repr

structure Handover where
  legacy : String
  manager : HandoverManager
  prepared : Bool := false
  /-- The record, its temporary file, and the canonical socket. -/
  transaction : Option HandoverTransaction := none
  pending : Bool := false
  canonicalSocket : Bool := true
  task : Option Task := none
  candidate : Candidate := .idle
  /-- Requests and a reply on their way. -/
  commitRequested : Bool := false
  abortRequested : Bool := false
  reply : Option Reply := none

def Task.committed (t : Task) : Bool := t.kind ≠ .abort

def Task.decision (t : Task) : HandoverState := if t.committed then .retired else .active

namespace Handover

def locked (w : Handover) : Bool :=
  match w.task with
  | none => false
  | some t => t.phase ≠ .waiting

def proceed (w : Handover) (t : Task) (phase : Phase) : Handover := { w with task := some { t with phase } }

def fail (w : Handover) (t : Task) (error : String) : Handover :=
  match t.kind with
  | .commitV4 => { w with task := none, reply := some (.failed error) }
  | .commitV5 => { w with task := none, reply := some (.failed error), manager := w.manager.reopenCommitGate }
  | .abort => { w with task := none }

def succeed (w : Handover) (t : Task) : Handover :=
  match t.kind with
  | .commitV4 => { w with task := none, reply := some .commitHandoverOk, manager := w.manager.drain }
  | .commitV5 => { w with task := none, reply := some .commitHandoverOk, manager := w.manager.handOver t.retained }
  | .abort => { w with task := none, manager := w.manager.resume }

def recorded (w : Handover) (t : Task) : Handover :=
  match t.kind with
  | .commitV4 => w.proceed t .removeCanonical
  | _ => w.succeed t

def recordDecision (w : Handover) (t : Task) : Handover :=
  match w.manager.legacySocketPath with
  | none => w.recorded t
  | some _ => w.proceed t .readDecision

def decisionError (t : Task) (error : String) : String :=
  match t.kind with
  | .commitV5 => s!"Handover decision write failed: {error}"
  | _ => error

def newTransaction (w : Handover) (t : Task) : HandoverTransaction where
  transferId := w.legacy
  state := t.decision
  rollbackReason := if t.committed then none else some "predecessor abort decision"
  supervisorLease := if t.committed then w.manager.supervisorLease.bind LeaseClient.held else none

def decide (w : Handover) (t : Task) : Handover :=
  match recordedDecision w.legacy w.transaction with
  | .error error => w.fail t (decisionError t error)
  | .ok (some decision) =>
    if decision = t.decision then w.recorded t
    else w.fail t (decisionError t "Handover transaction already has the opposite decision")
  | .ok none =>
    { w with manager := if t.committed then w.manager.freezeForHandover else w.manager }.proceed t .createTemporary

def install (w : Handover) (t : Task) : Handover := { w with transaction := some (w.newTransaction t), pending := false }

/-- The record is read after an error; one that cannot be read may still be a commit. -/
def thaw (w : Handover) (t : Task) : Handover :=
  match recordedDecision w.legacy w.transaction with
  | .ok none => { w with manager := if t.committed then w.manager.thawAfterFailedHandover else w.manager }
  | _ => w

def fileStep (w : Handover) (t : Task) (o : FileOutcome) : Handover :=
  match t.phase, o with
  | .waiting, _ => w
  | .persistRoute, .done => w.recordDecision t
  | .persistRoute, .failed _ error => w.fail t (match t.kind with
    | .commitV4 => s!"Failed to persist handover route: {error}"
    | _ => s!"Failed to persist the retained-session route: {error}")
  | .readDecision, .done => w.decide t
  | .readDecision, .failed _ error => w.fail t (decisionError t error)
  | .createTemporary, .done =>
    if w.pending then w.proceed t (.recheck "File exists") else { w with pending := true }.proceed t .writeTemporary
  | .createTemporary, .failed effect error => { w with pending := w.pending || effect }.proceed t (.recheck error)
  | .writeTemporary, .done => w.proceed t .renameTemporary
  | .writeTemporary, .failed _ error => w.proceed t (.recheck error)
  | .renameTemporary, .done => (w.install t).proceed t .syncDirectory
  | .renameTemporary, .failed effect error => (if effect then w.install t else w).proceed t (.recheck error)
  | .syncDirectory, .done => w.recorded t
  | .syncDirectory, .failed _ error => w.proceed t (.recheck error)
  | .recheck error, .done => (w.thaw t).fail t (decisionError t error)
  | .recheck error, .failed _ _ => w.fail t (decisionError t error)
  | .removeCanonical, .done => { w with canonicalSocket := false }.succeed t
  | .removeCanonical, .failed effect error =>
    { w with canonicalSocket := w.canonicalSocket && !effect }.fail t s!"Failed to remove old canonical socket: {error}"

/-- `commit_handover_v5` up to where it waits for the requests in flight. -/
def commitV5 (w : Handover) : Handover :=
  match w.manager.closeCommitGate with
  | .error error => { w with reply := some (.failed error) }
  | .ok manager => { w with manager, task := some ⟨.commitV5, false, .waiting⟩ }

def commitV4 (w : Handover) : Handover :=
  match w.manager.spawnGateRefusal with
  | some refusal => { w with reply := some (.failed refusal) }
  | none =>
    if w.manager.status ≠ .prepared ∧ w.manager.status ≠ .active then
      { w with reply := some (.failed s!"Cannot commit handover in state {w.manager.status.name}") }
    else match w.manager.legacySocketPath with
      | none => w.recordDecision ⟨.commitV4, false, .readDecision⟩
      | some _ => w.proceed ⟨.commitV4, false, .readDecision⟩ .persistRoute

/-- The wait is over: `retained` sessions stay with the predecessor. -/
def drained (w : Handover) (t : Task) (retained : Bool) : Handover :=
  if w.manager.status ≠ .committing then w.fail t s!"Commit gate was left in state {w.manager.status.name}"
  else if retained then
    match w.manager.legacySocketPath with
    | none => w.fail t "Retained sessions need a legacy socket"
    | some _ => w.proceed { t with retained } .persistRoute
  else w.recordDecision { t with retained }

def abortHandover (w : Handover) : Handover :=
  if w.manager.status ≠ .prepared then w else w.recordDecision ⟨.abort, false, .readDecision⟩

end Handover

inductive ManagerCall where
  | prepareHandover | retainSpawnOwner | dropSpawnOwner | retainRequest | controlRetireWhenIdle
  | controlShutdown (countChanged : Bool)
  | checkRetirementIfEmpty (live : Bool)
  deriving DecidableEq

inductive HandoverAction where
  | call (c : ManagerCall)
  | dropRequest
  | commitArrives
  | drained (retained : Bool)
  | drainTimeout
  | file (o : FileOutcome)
  | abortArrives
  /-- `abandon_prepared_handover`, for a handover that no candidate claims. -/
  | abandon
  | sendCommit
  | deliverReply
  | connectionLost (request : Bool)
  | readDecision (readable : Bool)
  | sendAbort
  | abortLost
  deriving DecidableEq

namespace Handover

def call (w : Handover) : ManagerCall → Handover
  | .prepareHandover =>
    if w.prepared then w
    else match w.manager.prepareHandover w.legacy with
      | .error _ => w
      | .ok manager => { w with manager, prepared := true }
  | .retainSpawnOwner => { w with manager := w.manager.retainSpawnOwner.toOption.getD w.manager }
  | .dropSpawnOwner => { w with manager := { w.manager with spawnOwners := w.manager.spawnOwners - 1 } }
  | .retainRequest => { w with manager := w.manager.retainRequest.toOption.getD w.manager }
  | .controlRetireWhenIdle => { w with manager := w.manager.controlRetireWhenIdle }
  | .controlShutdown countChanged => { w with manager := w.manager.controlShutdown countChanged }
  | .checkRetirementIfEmpty live => { w with manager := w.manager.checkRetirementIfEmpty live }

def resolve (w : Handover) (readable : Bool) : Candidate :=
  match readable, recordedDecision w.legacy w.transaction with
  | true, .ok decision => match resolveCommit false decision with
    | .owner => .owner
    | .abort => .relinquished
  | _, _ => .gone

def step (v5 : Bool) (w : Handover) : HandoverAction → Handover
  | .call c => if w.locked then w else w.call c
  | .dropRequest => { w with manager := { w.manager with inFlight := w.manager.inFlight - 1 } }
  | .commitArrives =>
    if w.locked || !w.commitRequested then w
    else if v5 then { w with commitRequested := false }.commitV5
    else { w with commitRequested := false }.commitV4
  | .drained retained => match w.task with
    | some t => if t.phase = .waiting ∧ w.manager.inFlight = 0 then w.drained t retained else w
    | none => w
  | .drainTimeout => match w.task with
    | some t =>
      if t.phase = .waiting ∧
        w.manager.inFlight ≠ 0 then w.fail t s!"{handoverBusy}: in-flight requests did not finish within 5s"
      else w
    | none => w
  | .file o => match w.task with
    | some t => w.fileStep t o
    | none => w
  | .abortArrives => if w.locked || !w.abortRequested then w else { w with abortRequested := false }.abortHandover
  | .abandon => if w.locked || w.candidate ≠ .idle then w else w.abortHandover
  | .sendCommit => if w.prepared ∧ w.candidate = .idle then { w with candidate := .waiting, commitRequested := true } else w
  | .deliverReply => match w.candidate, w.reply with
    | .waiting, some .commitHandoverOk => { w with candidate := .owner, reply := none }
    | .waiting, some (.failed _) => { w with candidate := .unconfirmed, reply := none }
    | _, _ => w
  | .connectionLost request =>
    if w.candidate = .waiting then
      { w with candidate := .unconfirmed, commitRequested := w.commitRequested && !request } else w
  | .readDecision readable => if w.candidate = .unconfirmed then { w with candidate := w.resolve readable } else w
  | .sendAbort => if w.candidate = .relinquished then { w with candidate := .aborted, abortRequested := true } else w
  | .abortLost => { w with abortRequested := false }

end Handover

def handover (v5 : Bool) : System Handover HandoverAction where
  init w := ∃ legacy lease, w = { legacy, manager := { supervisorLease := lease } }
  step w a w' := w' = w.step v5 a

/-- The handover that was prepared last, and the records that the ones before it left on disk. -/
structure Generations where
  handover : Handover
  earlier : List (Option HandoverTransaction) := []

inductive GenerationAction where
  /-- With the path that `generate_legacy_socket_path` counts up; `bound` unless its socket could not be bound or secured.
  -/
  | prepareHandover (legacy : String) (bound : Bool)
  | commitHandoverV5
  | abortHandover
  | retainSpawnOwner | dropSpawnOwner | retainRequest | dropRequest
  | drained (retained : Bool)
  | drainTimeout
  | file (o : FileOutcome)
  deriving DecidableEq

namespace Generations

def records (g : Generations) : List (Option HandoverTransaction) := g.handover.transaction :: g.earlier

def prepare (g : Generations) (legacy : String) : Generations :=
  match g.handover.manager.prepareHandover legacy with
  | .error _ => g
  | .ok manager => ⟨{ legacy, manager, prepared := true }, g.records⟩

def step (g : Generations) : GenerationAction → Generations
  | .prepareHandover legacy bound => if g.handover.locked || !bound then g else g.prepare legacy
  | .commitHandoverV5 => if g.handover.locked then g else { g with handover := g.handover.commitV5 }
  | .abortHandover => if g.handover.locked then g else { g with handover := g.handover.abortHandover }
  | .retainSpawnOwner => { g with handover := g.handover.step true (.call .retainSpawnOwner) }
  | .dropSpawnOwner => { g with handover := g.handover.step true (.call .dropSpawnOwner) }
  | .retainRequest => { g with handover := g.handover.step true (.call .retainRequest) }
  | .dropRequest => { g with handover := g.handover.step true .dropRequest }
  | .drained retained => { g with handover := g.handover.step true (.drained retained) }
  | .drainTimeout => { g with handover := g.handover.step true .drainTimeout }
  | .file o => { g with handover := g.handover.step true (.file o) }

end Generations

def generations : System Generations GenerationAction where
  init g := ∃ legacy lease, g = { handover := { legacy, manager := { supervisorLease := lease } } }
  step g a g' := g' = g.step a

end Ferryx.Daemon
