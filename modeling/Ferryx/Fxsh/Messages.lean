import Ferryx.Fxsh.Types

/-! # The messages of FXSH and the details of errors (`fxsh/src/messages.rs`) -/

namespace Ferryx.Fxsh
open Lib

structure Hello where
  major : UInt16
  minor : UInt16
  capabilities : UInt64
  clientKind : ClientKind
  clientInstanceId : Uuid
  deriving DecidableEq

instance : Codec Hello := .record (fun v => (v.major, v.minor, v.capabilities, v.clientKind, v.clientInstanceId))
  (fun (major, minor, caps, kind, id) => ⟨major, minor, caps, kind, id⟩) noCheck

structure HelloAck where
  major : UInt16
  minor : UInt16
  capabilities : UInt64
  hostInstanceId : Uuid
  supervisor : Supervisor
  pid : UInt32
  processStartTime : UInt64
  hostVersion : String
  deriving DecidableEq

instance : Codec HelloAck := .record
  (fun v => (v.major, v.minor, v.capabilities, v.hostInstanceId, v.supervisor, v.pid, v.processStartTime, v.hostVersion))
  (fun (major, minor, caps, host, supervisor, pid, start, version) =>
    ⟨major, minor, caps, host, supervisor, pid, start, version⟩)
  noCheck

structure Spawn where
  operationId : OperationId
  cols : UInt16
  rows : UInt16
  program : String
  args : List String
  env : List (String × String)
  cwd : String
  deriving DecidableEq

instance : Codec Spawn := .record (fun v => (v.operationId, v.cols, v.rows, v.program, v.args, v.env, v.cwd))
  (fun (op, cols, rows, program, args, env, cwd) => ⟨op, cols, rows, program, args, env, cwd⟩) noCheck

structure SpawnResult where
  operationId : OperationId
  sessionId : Uuid
  sessionIncarnation : Uuid
  pid : UInt32
  created : Bool
  createdTableRevision : UInt64
  deriving DecidableEq

instance : Codec SpawnResult := .record
  (fun v => (v.operationId, v.sessionId, v.sessionIncarnation, v.pid, v.created, v.createdTableRevision))
  (fun (op, session, incarnation, pid, created, revision) => ⟨op, session, incarnation, pid, created, revision⟩) noCheck

structure AcquireLease where
  clientInstanceId : Uuid
  leaseRequestId : UInt64
  scope : Scope
  deriving DecidableEq

instance : Codec AcquireLease := .record (fun v => (v.clientInstanceId, v.leaseRequestId, v.scope))
    (fun (c, l, s) => ⟨c, l, s⟩) noCheck

structure PriorEpoch where
  epoch : UInt64
  finalAccepted : UInt64
  committed : UInt64
  deriving DecidableEq

instance : Codec PriorEpoch := .record (fun v => (v.epoch, v.finalAccepted, v.committed))
    (fun (e, f, c) => ⟨e, f, c⟩) noCheck

structure ResizeApplied where
  epoch : UInt64
  seq : UInt64
  cols : UInt16
  rows : UInt16
  deriving DecidableEq

instance : Codec ResizeApplied := .record (fun v => (v.epoch, v.seq, v.cols, v.rows))
    (fun (e, s, c, r) => ⟨e, s, c, r⟩) noCheck

structure LeaseGranted where
  clientInstanceId : Uuid
  leaseRequestId : UInt64
  scope : Scope
  epoch : UInt64
  prior : Option PriorEpoch
  resizeApplied : Option ResizeApplied
  deriving DecidableEq

def LeaseGranted.check (g : LeaseGranted) : DResult Unit :=
  let input := g.scope == .input
  if (g.prior.isSome && !input) || g.resizeApplied.isSome == input then .error .optCondition else .ok ()

instance : Codec LeaseGranted := .record
  (fun v => (v.clientInstanceId, v.leaseRequestId, v.scope, v.epoch, v.prior, v.resizeApplied))
  (fun (client, request, scope, epoch, prior, applied) => ⟨client, request, scope, epoch, prior, applied⟩)
    LeaseGranted.check

structure ReleaseLease where
  clientInstanceId : Uuid
  leaseRequestId : UInt64
  scope : Scope
  epoch : UInt64
  deriving DecidableEq

instance : Codec ReleaseLease := .record (fun v => (v.clientInstanceId, v.leaseRequestId, v.scope, v.epoch))
  (fun (c, l, s, e) => ⟨c, l, s, e⟩) noCheck

structure LeaseReleased where
  clientInstanceId : Uuid
  leaseRequestId : UInt64
  scope : Scope
  epoch : UInt64
  released : Bool
  deriving DecidableEq

instance : Codec LeaseReleased := .record (fun v => (v.clientInstanceId, v.leaseRequestId, v.scope, v.epoch, v.released))
  (fun (c, l, s, e, r) => ⟨c, l, s, e, r⟩) noCheck

structure LeaseRevoked where
  holderInstanceId : Uuid
  scope : Scope
  revokedEpoch : UInt64
  newEpoch : UInt64
  deriving DecidableEq

instance : Codec LeaseRevoked := .record (fun v => (v.holderInstanceId, v.scope, v.revokedEpoch, v.newEpoch))
  (fun (h, s, r, n) => ⟨h, s, r, n⟩) noCheck

structure Reclaim where
  clientInstanceId : Uuid
  leaseRequestId : UInt64
  scope : Scope
  epoch : UInt64
  deriving DecidableEq

instance : Codec Reclaim := .record (fun v => (v.clientInstanceId, v.leaseRequestId, v.scope, v.epoch))
  (fun (c, l, s, e) => ⟨c, l, s, e⟩) noCheck

structure InputProgress where
  accepted : UInt64
  committed : UInt64
  deriving DecidableEq

instance : Codec InputProgress := .record (fun v => (v.accepted, v.committed)) (fun (a, c) => ⟨a, c⟩) noCheck

structure InputFinal where
  finalAccepted : UInt64
  committed : UInt64
  pendingDropped : UInt64
  deriving DecidableEq

instance : Codec InputFinal := .record (fun v => (v.finalAccepted, v.committed, v.pendingDropped))
    (fun (f, c, p) => ⟨f, c, p⟩) noCheck

structure ReclaimResult where
  clientInstanceId : Uuid
  leaseRequestId : UInt64
  scope : Scope
  requestedEpoch : UInt64
  ok : Bool
  currentEpoch : UInt64
  input : Option InputProgress
  inputFinal : Option InputFinal
  resize : Option ResizeApplied
  deriving DecidableEq

def ReclaimResult.check (r : ReclaimResult) : DResult Unit :=
  let input := r.scope == .input
  if r.input.isSome != (input && r.ok) || r.inputFinal.isSome != (input && !r.ok) || r.resize.isSome != !input then
    .error .optCondition
  else if r.ok && r.currentEpoch != r.requestedEpoch then .error .badShape
  else .ok ()

instance : Codec ReclaimResult := .record
  (fun v => (v.clientInstanceId, v.leaseRequestId, v.scope, v.requestedEpoch, v.ok, v.currentEpoch, v.input, v.inputFinal,
    v.resize))
  (fun (client, request, scope, epoch, ok, current, input, inputFinal, resize) =>
    ⟨client, request, scope, epoch, ok, current, input, inputFinal, resize⟩) ReclaimResult.check

structure WriteInput where
  clientInstanceId : Uuid
  epoch : UInt64
  start : UInt64
  bytes : Bytes
  crc32c : UInt32
  deriving DecidableEq

instance : Codec WriteInput := .record (fun v => (v.clientInstanceId, v.epoch, v.start, v.bytes, v.crc32c))
  (fun (c, e, s, b, crc) => ⟨c, e, s, b, crc⟩) noCheck

structure InputAck where
  clientInstanceId : Uuid
  epoch : UInt64
  accepted : UInt64
  committed : UInt64
  deriving DecidableEq

instance : Codec InputAck := .record (fun v => (v.clientInstanceId, v.epoch, v.accepted, v.committed))
  (fun (i, e, a, c) => ⟨i, e, a, c⟩) noCheck

structure GetEpochState where
  clientInstanceId : Uuid
  epoch : UInt64
  deriving DecidableEq

instance : Codec GetEpochState := .record (fun v => (v.clientInstanceId, v.epoch)) (fun (c, e) => ⟨c, e⟩) noCheck

structure EpochState where
  epoch : UInt64
  finalAccepted : UInt64
  committed : UInt64
  pendingDropped : UInt64
  fenced : Bool
  deriving DecidableEq

instance : Codec EpochState := .record (fun v => (v.epoch, v.finalAccepted, v.committed, v.pendingDropped, v.fenced))
  (fun (e, f, c, p, x) => ⟨e, f, c, p, x⟩) noCheck

structure Resize where
  resizeEpoch : UInt64
  resizeSeq : UInt64
  cols : UInt16
  rows : UInt16
  deriving DecidableEq

instance : Codec Resize := .record (fun v => (v.resizeEpoch, v.resizeSeq, v.cols, v.rows))
    (fun (e, s, c, r) => ⟨e, s, c, r⟩) noCheck

structure ResizeAck where
  epoch : UInt64
  seq : UInt64
  cols : UInt16
  rows : UInt16
  deriving DecidableEq

instance : Codec ResizeAck := .record (fun v => (v.epoch, v.seq, v.cols, v.rows)) (fun (e, s, c, r) => ⟨e, s, c, r⟩) noCheck

structure Subscribe where
  subscriberId : Uuid
  attachSeq : UInt64
  clientKnownRevision : Option UInt64
  clientKnownIncarnation : Option Uuid
  deriving DecidableEq

instance : Codec Subscribe :=
  .record (fun v => (v.subscriberId, v.attachSeq, v.clientKnownRevision, v.clientKnownIncarnation))
  (fun (s, a, r, i) => ⟨s, a, r, i⟩) noCheck

structure SubscribeAck where
  attachSeq : UInt64
  subscriptionId : UInt64
  sessionIncarnation : Uuid
  revision : UInt64
  snapshotFollows : Bool
  deriving DecidableEq

instance : Codec SubscribeAck := .record
  (fun v => (v.attachSeq, v.subscriptionId, v.sessionIncarnation, v.revision, v.snapshotFollows))
  (fun (a, s, i, r, f) => ⟨a, s, i, r, f⟩) noCheck

structure Resync where
  subscriptionId : UInt64
  deriving DecidableEq

instance : Codec Resync := .record Resync.subscriptionId Resync.mk noCheck

structure Unsubscribe where
  subscriptionId : UInt64
  deriving DecidableEq

instance : Codec Unsubscribe := .record Unsubscribe.subscriptionId Unsubscribe.mk noCheck

structure ListSessions where
  requestToken : Uuid × UInt64
  deriving DecidableEq

instance : Codec ListSessions := .record ListSessions.requestToken ListSessions.mk noCheck

structure Kill where
  operationId : OperationId
  signal : Signal
  deriving DecidableEq

instance : Codec Kill := .record (fun v => (v.operationId, v.signal)) (fun (o, s) => ⟨o, s⟩) noCheck

structure KillResult where
  operationId : OperationId
  delivered : Bool
  deriving DecidableEq

instance : Codec KillResult := .record (fun v => (v.operationId, v.delivered)) (fun (o, d) => ⟨o, d⟩) noCheck

structure ChildExited where
  sessionIncarnation : Uuid
  exitCode : Option Int32
  posixSignal : Option UInt8
  tableRevision : UInt64
  pendingDroppedByEpoch : List (UInt64 × UInt64)
  deriving DecidableEq

def ChildExited.check (c : ChildExited) : DResult Unit :=
  if 128 < c.pendingDroppedByEpoch.length then .error .badShape else .ok ()

instance : Codec ChildExited := .record
  (fun v => (v.sessionIncarnation, v.exitCode, v.posixSignal, v.tableRevision, v.pendingDroppedByEpoch))
  (fun (i, c, s, t, p) => ⟨i, c, s, t, p⟩) ChildExited.check

structure ErrorFrame where
  code : UInt16
  message : String
  detail : Bytes
  deriving DecidableEq

instance : Codec ErrorFrame := .record (fun v => (v.code, v.message, v.detail)) (fun (c, m, d) => ⟨c, m, d⟩) noCheck

structure ReserveOperation where
  kind : OperationKind
  deriving DecidableEq

instance : Codec ReserveOperation := .record ReserveOperation.kind ReserveOperation.mk noCheck

structure OperationReserved where
  operationId : OperationId
  deriving DecidableEq

instance : Codec OperationReserved := .record OperationReserved.operationId OperationReserved.mk noCheck

structure LeaseVacated where
  holderInstanceId : Uuid
  scope : Scope
  epoch : UInt64
  deriving DecidableEq

instance : Codec LeaseVacated := .record (fun v => (v.holderInstanceId, v.scope, v.epoch))
    (fun (h, s, e) => ⟨h, s, e⟩) noCheck

inductive Message where
  | hello (m : Hello)
  | helloAck (m : HelloAck)
  | spawn (m : Spawn)
  | spawnResult (m : SpawnResult)
  | acquireLease (m : AcquireLease)
  | leaseGranted (m : LeaseGranted)
  | releaseLease (m : ReleaseLease)
  | leaseReleased (m : LeaseReleased)
  | leaseRevoked (m : LeaseRevoked)
  | reclaim (m : Reclaim)
  | reclaimResult (m : ReclaimResult)
  | writeInput (m : WriteInput)
  | inputAck (m : InputAck)
  | getEpochState (m : GetEpochState)
  | epochState (m : EpochState)
  | resize (m : Resize)
  | resizeAck (m : ResizeAck)
  | subscribe (m : Subscribe)
  | subscribeAck (m : SubscribeAck)
  | snapshotFrame (m : SnapshotFrame)
  | delta (m : Delta)
  | resync (m : Resync)
  | unsubscribe (m : Unsubscribe)
  | getSessionState
  | sessionState (m : SessionState)
  | listSessions (m : ListSessions)
  | sessionList (m : SessionList)
  | kill (m : Kill)
  | killResult (m : KillResult)
  | childExited (m : ChildExited)
  | error (m : ErrorFrame)
  | reserveOperation (m : ReserveOperation)
  | operationReserved (m : OperationReserved)
  | leaseVacated (m : LeaseVacated)
  deriving DecidableEq

inductive PayloadError where
  | unknownCommand (command : UInt16)
  | violation (reason : Reason)
  deriving DecidableEq, Repr

namespace Message

def command : Message → UInt16
  | .hello _ => 0x01
  | .helloAck _ => 0x02
  | .spawn _ => 0x03
  | .spawnResult _ => 0x04
  | .acquireLease _ => 0x05
  | .leaseGranted _ => 0x06
  | .releaseLease _ => 0x07
  | .leaseReleased _ => 0x08
  | .leaseRevoked _ => 0x09
  | .reclaim _ => 0x0A
  | .reclaimResult _ => 0x0B
  | .writeInput _ => 0x0C
  | .inputAck _ => 0x0D
  | .getEpochState _ => 0x0E
  | .epochState _ => 0x0F
  | .resize _ => 0x10
  | .resizeAck _ => 0x11
  | .subscribe _ => 0x12
  | .subscribeAck _ => 0x13
  | .snapshotFrame _ => 0x14
  | .delta _ => 0x15
  | .resync _ => 0x16
  | .unsubscribe _ => 0x17
  | .getSessionState => 0x18
  | .sessionState _ => 0x19
  | .listSessions _ => 0x1A
  | .sessionList _ => 0x1B
  | .kill _ => 0x1C
  | .killResult _ => 0x1D
  | .childExited _ => 0x1E
  | .error _ => 0x1F
  | .reserveOperation _ => 0x20
  | .operationReserved _ => 0x21
  | .leaseVacated _ => 0x22

def encodePayload : Message → List UInt8
  | .hello m => enc m
  | .helloAck m => enc m
  | .spawn m => enc m
  | .spawnResult m => enc m
  | .acquireLease m => enc m
  | .leaseGranted m => enc m
  | .releaseLease m => enc m
  | .leaseReleased m => enc m
  | .leaseRevoked m => enc m
  | .reclaim m => enc m
  | .reclaimResult m => enc m
  | .writeInput m => enc m
  | .inputAck m => enc m
  | .getEpochState m => enc m
  | .epochState m => enc m
  | .resize m => enc m
  | .resizeAck m => enc m
  | .subscribe m => enc m
  | .subscribeAck m => enc m
  | .snapshotFrame m => enc m
  | .delta m => enc m
  | .resync m => enc m
  | .unsubscribe m => enc m
  | .getSessionState => []
  | .sessionState m => enc m
  | .listSessions m => enc m
  | .sessionList m => enc m
  | .kill m => enc m
  | .killResult m => enc m
  | .childExited m => enc m
  | .error m => enc m
  | .reserveOperation m => enc m
  | .operationReserved m => enc m
  | .leaseVacated m => enc m

def ok : Message → Bool
  | .hello m => Codec.ok m
  | .helloAck m => Codec.ok m
  | .spawn m => Codec.ok m
  | .spawnResult m => Codec.ok m
  | .acquireLease m => Codec.ok m
  | .leaseGranted m => Codec.ok m
  | .releaseLease m => Codec.ok m
  | .leaseReleased m => Codec.ok m
  | .leaseRevoked m => Codec.ok m
  | .reclaim m => Codec.ok m
  | .reclaimResult m => Codec.ok m
  | .writeInput m => Codec.ok m
  | .inputAck m => Codec.ok m
  | .getEpochState m => Codec.ok m
  | .epochState m => Codec.ok m
  | .resize m => Codec.ok m
  | .resizeAck m => Codec.ok m
  | .subscribe m => Codec.ok m
  | .subscribeAck m => Codec.ok m
  | .snapshotFrame m => Codec.ok m
  | .delta m => Codec.ok m
  | .resync m => Codec.ok m
  | .unsubscribe m => Codec.ok m
  | .getSessionState => true
  | .sessionState m => Codec.ok m
  | .listSessions m => Codec.ok m
  | .sessionList m => Codec.ok m
  | .kill m => Codec.ok m
  | .killResult m => Codec.ok m
  | .childExited m => Codec.ok m
  | .error m => Codec.ok m
  | .reserveOperation m => Codec.ok m
  | .operationReserved m => Codec.ok m
  | .leaseVacated m => Codec.ok m

def decodeAs {α : Type} [Codec α] (wrap : α → Message) (payload : List UInt8) : Except PayloadError Message :=
  match dec payload with
  | .ok (m, _) => .ok (wrap m)
  | .error reason => .error (.violation reason)

def decodePayload (command : UInt16) (payload : List UInt8) : Except PayloadError Message :=
  match command with
  | 0x01 => decodeAs .hello payload
  | 0x02 => decodeAs .helloAck payload
  | 0x03 => decodeAs .spawn payload
  | 0x04 => decodeAs .spawnResult payload
  | 0x05 => decodeAs .acquireLease payload
  | 0x06 => decodeAs .leaseGranted payload
  | 0x07 => decodeAs .releaseLease payload
  | 0x08 => decodeAs .leaseReleased payload
  | 0x09 => decodeAs .leaseRevoked payload
  | 0x0A => decodeAs .reclaim payload
  | 0x0B => decodeAs .reclaimResult payload
  | 0x0C => decodeAs .writeInput payload
  | 0x0D => decodeAs .inputAck payload
  | 0x0E => decodeAs .getEpochState payload
  | 0x0F => decodeAs .epochState payload
  | 0x10 => decodeAs .resize payload
  | 0x11 => decodeAs .resizeAck payload
  | 0x12 => decodeAs .subscribe payload
  | 0x13 => decodeAs .subscribeAck payload
  | 0x14 => decodeAs .snapshotFrame payload
  | 0x15 => decodeAs .delta payload
  | 0x16 => decodeAs .resync payload
  | 0x17 => decodeAs .unsubscribe payload
  | 0x18 => .ok .getSessionState
  | 0x19 => decodeAs .sessionState payload
  | 0x1A => decodeAs .listSessions payload
  | 0x1B => decodeAs .sessionList payload
  | 0x1C => decodeAs .kill payload
  | 0x1D => decodeAs .killResult payload
  | 0x1E => decodeAs .childExited payload
  | 0x1F => decodeAs .error payload
  | 0x20 => decodeAs .reserveOperation payload
  | 0x21 => decodeAs .operationReserved payload
  | 0x22 => decodeAs .leaseVacated payload
  | other => .error (.unknownCommand other)

end Message

inductive ErrorDetail where
  | staleLease (scope : Scope) (currentEpoch epochFinalAccepted : UInt64)
  | inputGap (accepted : UInt64)
  | inputDiverged (epoch accepted committed : UInt64)
  | inputUnverifiable (epoch accepted committed retainedStart : UInt64)
  | inputBackpressure (accepted : UInt64)
  | corruptFrame
  | staleResize (appliedEpoch appliedSeq : UInt64) (cols rows : UInt16)
  | sessionNotFound
  | operationConflict (id : OperationId)
  | operationExpired (id : OperationId)
  | operationUnknown (id : OperationId)
  | slowConsumer (subscriptionId : UInt64)
  | versionUnsupported (hostMajor hostMinor : UInt16)
  | unsupportedCapability (capabilityBit : UInt8)
  | unknownCommand (command : UInt16)
  | limitExceeded (limitKind : UInt8) (limit : UInt64)
  | protocolViolation (reason : Reason)
  | staleViewport
  | staleSubscribe (currentAttachSeq : UInt64)
  | epochUnknown (epoch : UInt64)
  | instanceRetired
  | ownerUnreachable
  | spawnFailed
  deriving DecidableEq

namespace ErrorDetail

def code : ErrorDetail → UInt16
  | .staleLease .. => 1
  | .inputGap _ => 2
  | .inputDiverged .. => 3
  | .inputUnverifiable .. => 4
  | .inputBackpressure _ => 5
  | .corruptFrame => 6
  | .staleResize .. => 7
  | .sessionNotFound => 8
  | .operationConflict _ => 9
  | .operationExpired _ => 10
  | .operationUnknown _ => 11
  | .slowConsumer _ => 12
  | .versionUnsupported .. => 13
  | .unsupportedCapability _ => 14
  | .unknownCommand _ => 15
  | .limitExceeded .. => 16
  | .protocolViolation _ => 17
  | .staleViewport => 18
  | .staleSubscribe _ => 19
  | .epochUnknown _ => 20
  | .instanceRetired => 21
  | .ownerUnreachable => 22
  | .spawnFailed => 23

def encodeDetail : ErrorDetail → List UInt8
  | .staleLease scope currentEpoch epochFinalAccepted => enc scope ++ putU64 currentEpoch ++ putU64 epochFinalAccepted
  | .inputGap accepted | .inputBackpressure accepted => putU64 accepted
  | .inputDiverged epoch accepted committed => putU64 epoch ++ putU64 accepted ++ putU64 committed
  | .inputUnverifiable epoch accepted committed retainedStart =>
    putU64 epoch ++ putU64 accepted ++ putU64 committed ++ putU64 retainedStart
  | .staleResize appliedEpoch appliedSeq cols rows => putU64 appliedEpoch ++ putU64 appliedSeq ++ putU16 cols ++ putU16 rows
  | .operationConflict id | .operationExpired id | .operationUnknown id => enc id
  | .slowConsumer subscriptionId => putU64 subscriptionId
  | .versionUnsupported hostMajor hostMinor => putU16 hostMajor ++ putU16 hostMinor
  | .unsupportedCapability capabilityBit => putU8 capabilityBit
  | .unknownCommand command => putU16 command
  | .limitExceeded limitKind limit => putU8 limitKind ++ putU64 limit
  | .protocolViolation reason => enc reason
  | .staleSubscribe currentAttachSeq => putU64 currentAttachSeq
  | .epochUnknown epoch => putU64 epoch
  | .corruptFrame | .sessionNotFound | .staleViewport | .instanceRetired | .ownerUnreachable | .spawnFailed => []

def reader (code : UInt16) : Reader ErrorDetail :=
  match code with
  | 1 => do
    let scope ← dec
    let currentEpoch ← Reader.u64
    let epochFinalAccepted ← Reader.u64
    pure (.staleLease scope currentEpoch epochFinalAccepted)
  | 2 => do
    let accepted ← Reader.u64
    pure (.inputGap accepted)
  | 3 => do
    let epoch ← Reader.u64
    let accepted ← Reader.u64
    let committed ← Reader.u64
    pure (.inputDiverged epoch accepted committed)
  | 4 => do
    let epoch ← Reader.u64
    let accepted ← Reader.u64
    let committed ← Reader.u64
    let retainedStart ← Reader.u64
    pure (.inputUnverifiable epoch accepted committed retainedStart)
  | 5 => do
    let accepted ← Reader.u64
    pure (.inputBackpressure accepted)
  | 6 => pure .corruptFrame
  | 7 => do
    let appliedEpoch ← Reader.u64
    let appliedSeq ← Reader.u64
    let cols ← Reader.u16
    let rows ← Reader.u16
    pure (.staleResize appliedEpoch appliedSeq cols rows)
  | 8 => pure .sessionNotFound
  | 9 => do
    let id ← dec
    pure (.operationConflict id)
  | 10 => do
    let id ← dec
    pure (.operationExpired id)
  | 11 => do
    let id ← dec
    pure (.operationUnknown id)
  | 12 => do
    let subscriptionId ← Reader.u64
    pure (.slowConsumer subscriptionId)
  | 13 => do
    let hostMajor ← Reader.u16
    let hostMinor ← Reader.u16
    pure (.versionUnsupported hostMajor hostMinor)
  | 14 => do
    let capabilityBit ← Reader.u8
    pure (.unsupportedCapability capabilityBit)
  | 15 => do
    let command ← Reader.u16
    pure (.unknownCommand command)
  | 16 => do
    let limitKind ← Reader.u8
    let limit ← Reader.u64
    pure (.limitExceeded limitKind limit)
  | 17 => do
    let reason ← dec
    pure (.protocolViolation reason)
  | 18 => pure .staleViewport
  | 19 => do
    let currentAttachSeq ← Reader.u64
    pure (.staleSubscribe currentAttachSeq)
  | 20 => do
    let epoch ← Reader.u64
    pure (.epochUnknown epoch)
  | 21 => pure .instanceRetired
  | 22 => pure .ownerUnreachable
  | 23 => pure .spawnFailed
  | _ => throw .badEnum

def decodeDetail (code : UInt16) (detail : List UInt8) : DResult ErrorDetail := (reader code detail).map Prod.fst

def toFrame (d : ErrorDetail) (message : String) : ErrorFrame := ⟨d.code, message, ⟨d.encodeDetail⟩⟩

end ErrorDetail

end Ferryx.Fxsh
