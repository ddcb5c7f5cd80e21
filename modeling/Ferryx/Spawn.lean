import Ferryx.Operations
import Ferryx.Fxsh.Frame
import Ferryx.Lib.System

/-! # Spawning on a host (`ferryx-host/src/host.rs`)

Handlers share the host behind one lock. A step is one section under it: the decision, the check of the number of sessions,
the insertion of the session, and the completion of the operation. -/

namespace Ferryx
open Std Fxsh Lib

def maxSessions : Nat := 1024
def maxSpawnArgs : Nat := 1024 * 1024

structure Entry where
  pid : UInt32
  incarnation : Uuid
  creationOp : OperationId
  createdTableRevision : UInt64
  deriving DecidableEq

structure HostInner where
  ops : OperationTable
  sessions : List (Uuid × Entry) := []
  tableRevision : UInt64 := 0

structure SpawnRequest where
  sessionId : Uuid
  requestId : UInt64
  spawn : Spawn
  deriving DecidableEq

namespace SpawnRequest

abbrev op (r : SpawnRequest) : OperationId := r.spawn.operationId

def hash [RequestHasher] (r : SpawnRequest) : Nat := requestHash 0x03 r.sessionId (Codec.enc r.spawn)

def argsLen (r : SpawnRequest) : Nat :=
  r.spawn.program.utf8ByteSize + r.spawn.cwd.utf8ByteSize + (r.spawn.args.map String.utf8ByteSize).sum
    + (r.spawn.env.map fun (k, v) => k.utf8ByteSize + v.utf8ByteSize).sum

end SpawnRequest

abbrev SpawnOutcome := Except (ErrorDetail × String) (Uuid × SpawnResult)

def SpawnOutcome.stored (r : SpawnRequest) : SpawnOutcome → Frame
  | .ok (sid, result) => ⟨sid, 0, flagResponse, .spawnResult { result with created := false }⟩
  | .error (detail, text) => ⟨r.sessionId, 0, flagResponse ||| flagError, .error (detail.toFrame text)⟩

/-- `encode_frame` of a frame the host builds. -/
def Fxsh.Frame.bytes (f : Frame) : List UInt8 := f.encode.getD []

def SpawnOutcome.session : SpawnOutcome → Option Uuid
  | .ok (sid, _) => some sid
  | .error _ => none

inductive SpawnReply where
  | executed (outcome : SpawnOutcome)
  | replayed (stored : List UInt8)
  | rejected (detail : ErrorDetail)

inductive SpawnPhase where
  | idle
  | deciding (r : SpawnRequest)
  | checking (r : SpawnRequest)
  | starting (r : SpawnRequest)
  | completing (r : SpawnRequest) (outcome : SpawnOutcome)
  | answered (r : SpawnRequest) (reply : SpawnReply)

namespace HostInner
variable [RequestHasher]

def decide (h : HostInner) (r : SpawnRequest) : SpawnPhase :=
  match h.ops.decide r.op .spawn r.hash with
  | .execute => .checking r
  | .replay stored => .answered r (.replayed stored)
  | .unknown => .answered r (.rejected (.operationUnknown r.op))
  | .expired => .answered r (.rejected (.operationExpired r.op))
  | .conflict => .answered r (.rejected (.operationConflict r.op))

omit [RequestHasher] in
def checkLimits (h : HostInner) (r : SpawnRequest) : SpawnPhase :=
  if maxSpawnArgs < r.argsLen then
    .completing r (.error (.limitExceeded 2 (.ofNat maxSpawnArgs), "spawn arguments too large"))
  else if maxSessions ≤ h.sessions.length then
    .completing r (.error (.limitExceeded 3 (.ofNat maxSessions), "too many sessions"))
  else .starting r

omit [RequestHasher] in
def startSession (h : HostInner) (r : SpawnRequest) (id incarnation : Uuid) (pid : UInt32) : HostInner × SpawnOutcome :=
  let revision := h.tableRevision + 1
  let entry : Entry := ⟨pid, incarnation, r.op, revision⟩
  ({ h with tableRevision := revision, sessions := h.sessions.filter (·.1 ≠ id) ++ [(id, entry)] },
    .ok (id, ⟨r.op, id, incarnation, pid, true, revision⟩))

def complete (h : HostInner) (r : SpawnRequest) (outcome : SpawnOutcome) (nowMs : Nat) : HostInner :=
  { h with ops := h.ops.complete r.op r.hash (outcome.stored r).bytes outcome.session nowMs }

end HostInner

structure SpawnHost (ι : Type) where
  inner : HostInner
  phase : ι → SpawnPhase := fun _ => .idle
  created : List (OperationId × Uuid) := []

inductive SpawnAction (ι : Type) where
  | reserve (kind : OperationKind) (nowMs : Nat)
  | receive (i : ι) (r : SpawnRequest)
  | decide (i : ι)
  | checkLimits (i : ι)
  | startFails (i : ι) (text : String)
  | startSession (i : ι) (id incarnation : Uuid) (pid : UInt32)
  | complete (i : ι) (nowMs : Nat)

namespace SpawnHost
variable {ι : Type} [DecidableEq ι] [RequestHasher]

def setPhase (w : SpawnHost ι) (i : ι) (p : SpawnPhase) : SpawnHost ι := { w with phase := Function.update w.phase i p }

def step (w : SpawnHost ι) : SpawnAction ι → Option (SpawnHost ι)
  | .reserve kind nowMs => some { w with inner.ops := (w.inner.ops.reserve kind nowMs).1 }
  | .receive i r => match w.phase i with
    | .idle => some (w.setPhase i (.deciding r))
    | _ => none
  | .decide i => match w.phase i with
    | .deciding r => some (w.setPhase i (w.inner.decide r))
    | _ => none
  | .checkLimits i => match w.phase i with
    | .checking r => some (w.setPhase i (w.inner.checkLimits r))
    | _ => none
  | .startFails i text => match w.phase i with
    | .starting r => some (w.setPhase i (.completing r (.error (.spawnFailed, text))))
    | _ => none
  | .startSession i id incarnation pid => match w.phase i with
    | .starting r =>
      let started := w.inner.startSession r id incarnation pid
      some { inner := started.1, phase := Function.update w.phase i (.completing r started.2), created := w.created ++
        [(r.op, id)] }
    | _ => none
  | .complete i nowMs => match w.phase i with
    | .completing r outcome =>
      some { w with
        inner := w.inner.complete r outcome nowMs
        phase := Function.update w.phase i (.answered r (.executed outcome)) }
    | _ => none

end SpawnHost

def spawnSystem (ι : Type) [DecidableEq ι] [RequestHasher] (host : Uuid) : System (SpawnHost ι) (SpawnAction ι) where
  init w := w = { inner := { ops := { host } } }
  step w a w' := w.step a = some w'

end Ferryx
