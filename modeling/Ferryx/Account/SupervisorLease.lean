import Ferryx.Lib.System
import Ferryx.Lib.TreeMap

/-!
# The supervisor lease of an account (`src-tauri/src/account/supervisor_lease.rs`, `remote/relay_server.rs`)

A writable relay over its three lease tables. Statements succeed; times are seconds of the relay's clock. The list of
machines that spoke to the relay lately is left out.
-/

namespace Ferryx.Account
open Lib Std

def ttlSecs : Nat := 120

def renewSecs : Nat := 20

def graceSecs : Nat := 30

def reservationSecs : Nat := ttlSecs

def counterMask : Nat := 0xFFFFFFFF

inductive LeaseError where
  | notEnrolled
  | held (holderMachineId : String) (expiresAt : Nat)
  | reserved (reservedFor : String) (expiry : Nat)
  | checkpointMismatch (expected : Option String)
  | notHolder
  | fenceExhausted
  deriving DecidableEq

def LeaseError.code : LeaseError → String
  | .notEnrolled => "LEASE_MACHINE_NOT_ENROLLED"
  | .held .. => "LEASE_HELD"
  | .reserved .. => "LEASE_RESERVED"
  | .checkpointMismatch _ => "LEASE_CHECKPOINT_MISMATCH"
  | .notHolder => "LEASE_NOT_HOLDER"
  | .fenceExhausted => "LEASE_FENCE_EXHAUSTED"

structure SupervisorLeaseRecord where
  holderMachineId : String
  fence : Nat
  expiresAt : Nat
  checkpointId : Option String
  checkpointAt : Option Nat
  released : Bool
  reservedFor : Option String
  reservedFence : Option Nat
  updatedAt : Nat
  deriving DecidableEq

structure LeaseTables where
  leases : ExtTreeMap String SupervisorLeaseRecord := ∅
  fences : ExtTreeMap String Nat := ∅
  epoch : Nat := 0

structure LeaseMachine where
  userId : String
  publicKey : String
  displayName : String
  deriving DecidableEq

abbrev Machines := ExtTreeMap String LeaseMachine

def fenceEpoch (fence : Nat) : Nat := fence >>> 32

def LeaseTables.bumpRelayEpoch (tables : LeaseTables) : LeaseTables := { tables with epoch := tables.epoch + 1 }

def LeaseTables.lastFence (tables : LeaseTables) (userId : String) : Nat := tables.fences[userId]?.getD 0

def Machines.enrolled (machines : Machines) (userId machineId : String) : Bool :=
  match machines[machineId]? with
  | some machine => machine.userId = userId
  | none => false

def nextFence (highWater epoch : Nat) : Except LeaseError Nat :=
  if epoch < fenceEpoch highWater then .error .fenceExhausted
  else
    let counter := if fenceEpoch highWater = epoch then highWater &&& counterMask else 0
    if counter ≥ counterMask ∨ epoch > (2 ^ 63 - 1) >>> 32 then .error .fenceExhausted
    else .ok (epoch <<< 32 ||| (counter + 1))

def LeaseTables.writeLease (tables : LeaseTables) (userId : String) (lease : SupervisorLeaseRecord) : LeaseTables where
  leases := tables.leases.insert userId lease
  fences := tables.fences.insert userId (max (tables.lastFence userId) lease.fence)
  epoch := tables.epoch

def granted (machineId : String) (fence now : Nat) (checkpoint : Option String) (previous : Option SupervisorLeaseRecord) :
    SupervisorLeaseRecord where
  holderMachineId := machineId
  fence := fence
  expiresAt := now + ttlSecs
  checkpointId := checkpoint <|> previous.bind (·.checkpointId)
  checkpointAt := if checkpoint.isSome then some now else previous.bind (·.checkpointAt)
  released := false
  reservedFor := none
  reservedFence := none
  updatedAt := now

namespace SupervisorLeaseRecord
variable (row : SupervisorLeaseRecord)

def reservation (machineId : String) (epoch now : Nat) : Option LeaseError :=
  match row.reservedFor with
  | some target =>
    if target ≠ machineId ∧ row.released ∧ row.reservedFence = some row.fence ∧ fenceEpoch row.fence = epoch ∧
        now < row.expiresAt + reservationSecs then
      some (.reserved target (row.expiresAt + reservationSecs))
    else none
  | none => none

def free (epoch now : Nat) : Bool := row.released ∨ now ≥ row.expiresAt + graceSecs ∨ fenceEpoch row.fence < epoch

def checkpointOk (machineId : String) (epoch : Nat) (candidateCheckpoint : Option String) (force : Bool) : Bool :=
  (row.holderMachineId = machineId ∧ fenceEpoch row.fence < epoch) ∨ row.checkpointId = none ∨
    candidateCheckpoint = row.checkpointId ∨
    (row.released ∧ row.reservedFor = some machineId ∧ row.reservedFence = some row.fence ∧ fenceEpoch row.fence = epoch) ∨
      force

end SupervisorLeaseRecord

def LeaseTables.mint (tables : LeaseTables) (userId machineId : String) (now : Nat) (candidateCheckpoint : Option String) :
    Except LeaseError (SupervisorLeaseRecord × LeaseTables) :=
  let existing := tables.leases[userId]?
  match nextFence (max (tables.lastFence userId) (existing.elim 0 (·.fence))) tables.epoch with
  | .error e => .error e
  | .ok fence =>
    let lease := granted machineId fence now candidateCheckpoint existing
    .ok (lease, tables.writeLease userId lease)

def acquire (machines : Machines) (tables : LeaseTables) (userId machineId : String) (now : Nat)
    (candidateCheckpoint : Option String) (force : Bool) : Except LeaseError (SupervisorLeaseRecord × LeaseTables) :=
  if !machines.enrolled userId machineId then .error .notEnrolled
  else match tables.leases[userId]? with
    | none => tables.mint userId machineId now candidateCheckpoint
    | some row =>
      match row.reservation machineId tables.epoch now with
      | some e => .error e
      | none =>
        if row.holderMachineId = machineId ∧ fenceEpoch row.fence = tables.epoch then
          -- the row's own holder: the same fence, extended and no longer released
          let lease := granted machineId row.fence now candidateCheckpoint (some row)
          .ok (lease, tables.writeLease userId lease)
        else if !row.free tables.epoch now then .error (.held row.holderMachineId row.expiresAt)
        else if !row.checkpointOk machineId tables.epoch candidateCheckpoint force then
          .error (.checkpointMismatch row.checkpointId)
        else tables.mint userId machineId now candidateCheckpoint

def renew (machines : Machines) (tables : LeaseTables) (userId machineId : String) (fence now : Nat)
    (checkpointId : Option String) :
    Except LeaseError (SupervisorLeaseRecord × LeaseTables) :=
  if !machines.enrolled userId machineId then .error .notEnrolled
  else match tables.leases[userId]? with
    | none => .error .notHolder
    | some row =>
      if row.holderMachineId ≠ machineId ∨ row.fence ≠ fence ∨ row.released ∨ fenceEpoch fence ≠ tables.epoch then
        .error .notHolder
      else
        let lease := granted machineId fence now checkpointId (some row)
        .ok (lease, tables.writeLease userId lease)

/-- `none` if the row is not of this holder and fence: the release is ignored. -/
def releaseInner (tables : LeaseTables) (userId machineId : String) (fence now : Nat)
    (checkpointId targetMachineId : Option String) :
    Option LeaseTables :=
  match tables.leases[userId]? with
  | none => none
  | some row =>
    if row.holderMachineId ≠ machineId ∨ row.fence ≠ fence then none
    else some (tables.writeLease userId
      { holderMachineId := row.holderMachineId
        fence := row.fence
        expiresAt := now
        checkpointId := checkpointId <|> row.checkpointId
        checkpointAt := if checkpointId.isSome then some now else row.checkpointAt
        released := true
        reservedFor := targetMachineId
        reservedFence := targetMachineId.map fun _ => row.fence
        updatedAt := now })

def release (tables : LeaseTables) (userId machineId : String) (fence now : Nat) (checkpointId : Option String) :
    Option LeaseTables :=
  releaseInner tables userId machineId fence now checkpointId none

def releaseTo (tables : LeaseTables) (userId machineId : String) (fence now : Nat) (checkpointId : Option String)
    (targetMachineId : String) : Option LeaseTables :=
  releaseInner tables userId machineId fence now checkpointId (some targetMachineId)

inductive SupervisorLeaseRequest where
  | acquire (checkpointId : Option String) (force : Bool)
  | renew (fence : Nat) (checkpointId : Option String)
  | release (fence : Nat) (checkpointId reservedFor : Option String)
  | query
  deriving DecidableEq

inductive SupervisorLeaseOutcome where
  | granted | renewed | released | refused | unavailable
  deriving DecidableEq

structure SupervisorLeaseAck where
  outcome : SupervisorLeaseOutcome
  fence : Option Nat := none
  holderMachineId : Option String := none
  holderLabel : Option String := none
  expiresInSecs : Option Nat := none
  previousExpiresInSecs : Option Nat := none
  checkpointId : Option String := none
  accountMachineCount : Option Nat := none
  reasonCode : Option String := none
  deriving DecidableEq

def leaseReservedForForeignMachine : String := "LEASE_RESERVED_FOR_FOREIGN_MACHINE"

def leaseErrorAck (error : LeaseError) : SupervisorLeaseAck where
  outcome := .refused
  reasonCode := some error.code

def leaseOwner (machines : Machines) (machineId publicKey : String) : Except LeaseError String :=
  match machines[machineId]? with
  | some machine => if machine.publicKey = publicKey then .ok machine.userId else .error .notEnrolled
  | none => .error .notEnrolled

def accountMachineCount (machines : Machines) (userId : String) : Nat :=
  min (machines.toList.countP fun entry => entry.2.userId = userId) (2 ^ 32 - 1)

def describeLease (machines : Machines) (userId : String) (ack : SupervisorLeaseAck) (row : Option SupervisorLeaseRecord)
    (expiresAt : Option Nat) (now : Nat) : SupervisorLeaseAck :=
  match row with
  | none => ack
  | some row =>
    { ack with
      fence := some row.fence
      holderMachineId := some row.holderMachineId
      holderLabel := (machines[row.holderMachineId]?.filter fun machine => machine.userId = userId).map (·.displayName)
      expiresInSecs := some (expiresAt.getD row.expiresAt - now)
      checkpointId := row.checkpointId }

def quarantinedExpiry (row : Option SupervisorLeaseRecord) (machineId : String) (quarantineUntil now : Nat) : Option Nat :=
  (row.filter fun row => !row.released ∧ row.holderMachineId ≠ machineId ∧ now < quarantineUntil).map fun row =>
    max row.expiresAt (quarantineUntil - graceSecs)

def queryOutcome (machineId : String) (row : Option SupervisorLeaseRecord) (expiresAt : Option Nat) (epoch now : Nat) :
    SupervisorLeaseOutcome × Option String :=
  match row with
  | some row =>
    if !row.released ∧ fenceEpoch row.fence = epoch ∧ now < expiresAt.getD row.expiresAt + graceSecs then
      if row.holderMachineId = machineId then (.granted, none) else (.refused, some "LEASE_HELD")
    else (.released, none)
  | none => (.released, none)

/-- How long the holder of the row that a new fence displaced may still believe in it. -/
def previousExpiresInSecs (previous : Option SupervisorLeaseRecord) (fence quarantineUntil now : Nat) : Option Nat :=
  (previous.filter fun row => row.fence ≠ fence).map fun row =>
    max (if row.released then 0 else row.expiresAt + graceSecs - now) (quarantineUntil - now)

def releaseFor (tables : LeaseTables) (userId machineId : String) (fence now : Nat) (checkpointId : Option String) :
    Option String → Option LeaseTables
  | some target => releaseTo tables userId machineId fence now checkpointId target
  | none => release tables userId machineId fence now checkpointId

/-- The answer of a writable relay in one transaction; an error rolls the transaction back. -/
def primaryLeaseStep (machines : Machines) (tables : LeaseTables) (machineId publicKey : String)
    (request : SupervisorLeaseRequest)
    (now quarantineUntil : Nat) : Except LeaseError (SupervisorLeaseAck × LeaseTables) :=
  match leaseOwner machines machineId publicKey with
  | .error e => .error e
  | .ok userId =>
    let previous := tables.leases[userId]?
    let base : SupervisorLeaseAck :=
      { outcome := .refused, accountMachineCount := some (accountMachineCount machines userId) }
    let refuse := fun (code : String) =>
      (describeLease machines userId { base with reasonCode := some code } previous none now, tables)
    match request with
    | .acquire checkpointId force =>
      match quarantinedExpiry previous machineId quarantineUntil now with
      | some expiresAt =>
        .ok (describeLease machines userId { base with reasonCode := some "LEASE_HELD" } previous (some expiresAt)
          now, tables)
      | none =>
        match acquire machines tables userId machineId now checkpointId force with
        | .ok (lease, tables') =>
          let ack := { base with
            outcome := .granted
            previousExpiresInSecs := previousExpiresInSecs previous lease.fence quarantineUntil now }
          .ok (describeLease machines userId ack (some lease) none now, tables')
        | .error .notEnrolled => .error .notEnrolled
        | .error .notHolder => .error .notHolder
        | .error e => .ok (refuse e.code)
    | .renew fence checkpointId =>
      match renew machines tables userId machineId fence now checkpointId with
      | .ok (lease, tables') =>
        .ok (describeLease machines userId { base with outcome := .renewed } (some lease) none now, tables')
      | .error .notHolder => .ok (refuse LeaseError.notHolder.code)
      | .error e => .error e
    | .release fence checkpointId reservedFor =>
      if reservedFor.any fun target => !machines.enrolled userId target then .ok (refuse leaseReservedForForeignMachine)
      else
        match releaseFor tables userId machineId fence now checkpointId reservedFor with
        | none => .ok (refuse LeaseError.notHolder.code)
        | some tables' =>
          .ok (describeLease machines userId { base with outcome := .released } tables'.leases[userId]? none now, tables')
    | .query =>
      let quarantined := quarantinedExpiry previous machineId quarantineUntil now
      let (outcome, code) := match quarantined with
        | some _ => (SupervisorLeaseOutcome.refused, some "LEASE_HELD")
        | none => queryOutcome machineId previous none tables.epoch now
      .ok (describeLease machines userId { base with outcome := outcome, reasonCode := code } previous quarantined
        now, tables)

/-- The answer to a machine whose socket proved `publicKey`, if it proved any. -/
def answerSupervisorLease (machines : Machines) (tables : LeaseTables) (machineId : String) (publicKey : Option String)
    (request : SupervisorLeaseRequest) (now quarantineUntil : Nat) : SupervisorLeaseAck × LeaseTables :=
  match publicKey with
  | none => (leaseErrorAck .notEnrolled, tables)
  | some publicKey =>
    match primaryLeaseStep machines tables machineId publicKey request now quarantineUntil with
    | .ok result => result
    | .error e => (leaseErrorAck e, tables)

end Ferryx.Account
