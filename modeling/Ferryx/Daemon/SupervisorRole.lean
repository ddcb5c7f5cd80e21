import Ferryx.Account.SupervisorLease

/-! # The role machine of a lease client (`src-tauri/src/daemon/supervisor_lease_role.rs`)

Every entry point takes the time on both clocks, in nanoseconds, and appends its actions to those of the turn. -/

namespace Ferryx.Daemon
open Account

def relayLeaseUnsupported : String := "RELAY_LEASE_UNSUPPORTED"

def leaseUnsupported : String := "LEASE_UNSUPPORTED"

def leaseAckMissingFence : String := "LEASE_ACK_MISSING_FENCE"

def leaseRefused : String := "LEASE_REFUSED"

def standDownMarginSecs : Nat := 15

def wallJumpSlackSecs : Nat := 5

def nanos (secs : Nat) : Nat := secs * 1000000000

structure Now where
  mono : Nat
  wall : Nat
  deriving DecidableEq

structure RoleConfig where
  ttl : Nat := nanos ttlSecs
  renewEvery : Nat := nanos renewSecs
  margin : Nat := nanos standDownMarginSecs
  deriving DecidableEq

def RoleConfig.validFor (cfg : RoleConfig) : Nat := cfg.ttl - cfg.margin

def RoleConfig.jumpThreshold (cfg : RoleConfig) : Nat := cfg.renewEvery + nanos wallJumpSlackSecs

inductive Role where
  /-- Fence 0 is the mode without a lease. -/
  | holder (fence : Nat)
  | provisional
  | standby (holderMachineId holderLabel : Option String) (fence : Option Nat)
  | unleased (reason : String)
  deriving DecidableEq

namespace Role

def standbyUnknown : Role := .standby none none none

def runsHub : Role → Bool
  | .holder _ | .provisional => true
  | .standby .. | .unleased _ => false

def isStandby : Role → Bool
  | .standby .. => true
  | _ => false

def isUnleased : Role → Bool
  | .unleased _ => true
  | _ => false

end Role

inductive LeaseAck where
  | granted (fence : Nat) (accountMachineCount : Option Nat)
  | refused (reasonCode : String) (holderMachineId holderLabel : Option String) (fence accountMachineCount : Option Nat)
  | unavailable (reasonCode : String)
  | released
  deriving DecidableEq

/-- A grant without a positive fence is no grant. -/
def LeaseAck.fromWire (ack : SupervisorLeaseAck) : LeaseAck :=
  let grant := match ack.fence with
    | some fence => if 0 < fence then .granted fence ack.accountMachineCount else .unavailable leaseAckMissingFence
    | none => .unavailable leaseAckMissingFence
  match ack.outcome with
  | .granted => grant
  | .renewed => grant
  | .refused =>
    .refused (ack.reasonCode.getD leaseRefused) ack.holderMachineId ack.holderLabel ack.fence ack.accountMachineCount
  | .unavailable => .unavailable (ack.reasonCode.getD leaseUnsupported)
  | .released => .released

inductive Event where
  | relayUnreachableAtBoot
  | sessionOpened (leaseCapable : Bool)
  | sessionClosed
  | acquireAck (sentAt : Now) (ack : LeaseAck)
  | renewAck (sentAt : Now) (ack : LeaseAck)
  | queryAck (ack : LeaseAck)
  | tick
  | acquireRequested (force : Bool)
  | releaseRequested
  | releaseAcknowledged
  | capabilityReset
  deriving DecidableEq

inductive StandDownReason where
  | deadlineReached | wallClockJump | refused | released | relayLeaseUnsupported
  deriving DecidableEq

inductive LastRole where
  | holder | standby | unleased
  deriving DecidableEq

structure PersistedLease where
  lastRole : LastRole := .standby
  lastFence : Nat := 0
  accountMachineCount : Option Nat := none
  holderMachineId : Option String := none
  leaseCapable : Bool := false
  deriving DecidableEq

inductive Action where
  | startHub
  | stopHub (reason : StandDownReason)
  | sendAcquire (force : Bool)
  | sendRenew (fence : Nat)
  | sendRelease (fence : Nat)
  | sendQuery
  | persist (snapshot : PersistedLease)
  deriving DecidableEq

/-- A request of the machine's own cadence, which a release takes out of its turn. -/
def Action.isAttempt : Action → Bool
  | .sendRenew _ | .sendAcquire _ | .sendQuery => true
  | _ => false

def clockSkew (prev now : Now) : Nat :=
  let mono := now.mono - prev.mono
  if prev.wall ≤ now.wall then
    let wall := now.wall - prev.wall
    if mono ≤ wall then wall - mono else mono - wall
  else mono + (prev.wall - now.wall)

def passed (deadline now : Now) : Bool := now.mono ≥ deadline.mono ∨ now.wall ≥ deadline.wall

def bootUnreachableRole (persisted : PersistedLease) : Role :=
  if persisted.lastRole = .holder ∧ persisted.accountMachineCount = some 1 then .provisional else .standbyUnknown

structure RoleMachine where
  cfg : RoleConfig
  selfMachineId : String
  accountBound : Bool
  snapshot : PersistedLease
  role : Role
  deadline : Option Now := none
  heldFence : Option Nat
  lastObs : Now
  nextAttempt : Option Nat := none
  sessionOpen : Bool := false
  sessionCapable : Bool := false
  seenSession : Bool := false
  autoAcquire : Bool := true
  releasedAt : Option Nat := none
  releasedFence : Option Nat := none
  lastGrantSent : Option Nat := none
  provisionalUntil : Option Nat := none
  deriving DecidableEq

abbrev Turn := RoleMachine × List Action

namespace RoleMachine

def new (cfg : RoleConfig) (selfMachineId : String) (accountBound : Bool) (persisted : Option PersistedLease)
    (now : Now) : Turn :=
  let snapshot := persisted.getD {}
  let leased := accountBound && snapshot.leaseCapable
  ({ cfg := cfg
     selfMachineId := selfMachineId
     accountBound := accountBound
     snapshot := snapshot
     role := if leased then .standbyUnknown else .holder 0
     heldFence := if leased ∧ snapshot.lastRole = .holder ∧ 0 < snapshot.lastFence then some snapshot.lastFence else none
     lastObs := now },
   if leased then [] else [.startHub])

def leased (m : RoleMachine) : Bool := m.accountBound && m.snapshot.leaseCapable

def canSend (m : RoleMachine) : Bool := m.sessionOpen && m.sessionCapable

def isHolderNow (m : RoleMachine) (now : Now) : Bool :=
  match m.role with
  | .holder 0 => true
  | .holder _ => clockSkew m.lastObs now ≤ m.cfg.jumpThreshold ∧ m.deadline.any fun deadline => !passed deadline now
  | _ => false

def releasableFence (m : RoleMachine) (now : Now) : Option Nat :=
  if !m.leased ∨ !m.canSend ∨ !m.isHolderNow now then none else m.heldFence

def setSnapshot (snapshot : PersistedLease) : Turn → Turn
  | (m, out) => if snapshot ≠ m.snapshot then ({ m with snapshot := snapshot }, out ++ [.persist snapshot]) else (m, out)

/-- The grant of the client before it, until the same time on the wall clock. -/
def resumeGrant (m : RoleMachine) (fence deadlineWall : Nat) (now : Now) : Option Turn :=
  if deadlineWall ≤ now.wall ∨ !m.accountBound ∨ fence = 0 ∨ m.cfg.validFor < deadlineWall - now.wall then none
  else setSnapshot
    { m.snapshot with lastRole := .holder, lastFence := fence, holderMachineId := some m.selfMachineId, leaseCapable := true
      }
    ({ m with
      role := .holder fence
      deadline := some ⟨now.mono + (deadlineWall - now.wall), deadlineWall⟩
      heldFence := some fence
      lastObs := now }, [])

def standDown (role : Role) (reason : StandDownReason) : Turn → Turn
  | (m, out) => ({ m with role := role, deadline := none }, if m.role.runsHub then out ++ [.stopHub reason] else out)

def observeClocks (now : Now) : Turn → Turn
  | (m, out) =>
    let jumped := clockSkew m.lastObs now > m.cfg.jumpThreshold
    let m := { m with lastObs := now }
    match m.role with
    | .holder (_ + 1) =>
      if jumped then
        let (m, out) := standDown .standbyUnknown .wallClockJump (m, out)
        match m.heldFence, m.canSend with
        | some fence, true => ({ m with nextAttempt := some (now.mono + m.cfg.renewEvery) }, out ++ [.sendRenew fence])
        | _, _ => (m, out)
      else (m, out)
    | _ => (m, out)

def expired (m : RoleMachine) (now : Now) : Bool :=
  match m.role with
  | .holder (_ + 1) => m.deadline.all (passed · now)
  | .provisional => m.provisionalUntil.any (now.mono ≥ ·)
  | _ => false

def checkDeadline (now : Now) : Turn → Turn
  | (m, out) =>
    let m := if m.role ≠ .provisional then { m with provisionalUntil := none } else m
    if m.expired now then standDown .standbyUnknown .deadlineReached (m, out) else (m, out)

def attempt (now : Now) (force : Bool) : Turn → Turn
  | (m, out) =>
    if !m.canSend then (m, out)
    else
      let action := match m.heldFence, force with
        | some fence, false => .sendRenew fence
        | _, _ => if m.autoAcquire ∨ force then .sendAcquire force else .sendQuery
      ({ m with nextAttempt := some (now.mono + m.cfg.renewEvery) }, out ++ [action])

def onUnreachableAtBoot : Turn → Turn
  | (m, out) =>
    if !m.leased ∨ m.seenSession ∨ m.role ≠ .standbyUnknown then (m, out)
    else if bootUnreachableRole m.snapshot = .provisional then ({ m with role := .provisional }, out ++ [.startHub])
    else (m, out)

def latch : Turn → Turn
  | (m, out) =>
    if !m.snapshot.leaseCapable then
      let (m, out) := setSnapshot { m.snapshot with leaseCapable := true } (m, out)
      (if m.role = .holder 0 then { m with role := .provisional } else m, out)
    else if m.role.isUnleased then ({ m with role := .standbyUnknown }, out)
    else (m, out)

def onSessionOpened (leaseCapable : Bool) (now : Now) : Turn → Turn
  | (m, out) =>
    let m := { m with sessionOpen := true, sessionCapable := leaseCapable, seenSession := true }
    if !m.accountBound then (m, out)
    else if !leaseCapable then
      if m.snapshot.leaseCapable then standDown (.unleased relayLeaseUnsupported) .relayLeaseUnsupported (m, out)
        else (m, out)
    else
      let (m, out) := latch (m, out)
      let m := if m.role = .provisional ∧ m.provisionalUntil = none then
          { m with provisionalUntil := some (now.mono + m.cfg.validFor) } else m
      attempt now false ({ m with nextAttempt := none }, out)

def grantDeadline (m : RoleMachine) (sentAt : Now) : Now := ⟨sentAt.mono + m.cfg.validFor, sentAt.wall + m.cfg.validFor⟩

def onGranted (sentAt : Now) (fence : Nat) (accountMachineCount : Option Nat) (renew : Bool) (now : Now) : Turn → Turn
  | (m, out) =>
    -- requests of before a release, and a renew of its very instant
    if m.releasedAt.any fun at_ => sentAt.mono < at_ ∨ renew ∧ sentAt.mono ≤ at_ then (m, out)
    else
      let deadline := m.grantDeadline sentAt
      let m := { m with heldFence := some fence }
      if passed deadline now then (m, out)
      else if m.role = .holder fence ∧ m.deadline.any fun current => current.mono ≥ deadline.mono then (m, out)
      else
        let out := if m.role.runsHub then out else out ++ [.startHub]
        setSnapshot
          { lastRole := .holder
            lastFence := fence
            accountMachineCount := accountMachineCount <|> m.snapshot.accountMachineCount
            holderMachineId := some m.selfMachineId
            leaseCapable := true }
          ({ m with role := .holder fence, deadline := some deadline, lastGrantSent := some sentAt.mono }, out)

def onRefused (sentAt : Now) (holderMachineId holderLabel : Option String) (fence accountMachineCount : Option Nat) :
    Turn → Turn
  | (m, out) =>
    if m.lastGrantSent.any fun at_ => sentAt.mono < at_ then (m, out)
    else
      let snapshot : PersistedLease :=
        { lastRole := .standby
          lastFence := fence.getD m.snapshot.lastFence
          accountMachineCount := accountMachineCount <|> m.snapshot.accountMachineCount
          holderMachineId := holderMachineId
          leaseCapable := true }
      setSnapshot snapshot
        (standDown (.standby holderMachineId holderLabel fence) .refused ({ m with heldFence := none }, out))

def onAck (sentAt : Now) (ack : LeaseAck) (renew : Bool) (now : Now) (t : Turn) : Turn :=
  if !t.1.leased ∨ t.1.role.isUnleased then t
  else match ack with
    | .granted fence accountMachineCount => onGranted sentAt fence accountMachineCount renew now t
    | .refused _ holderMachineId holderLabel fence accountMachineCount =>
      onRefused sentAt holderMachineId holderLabel fence accountMachineCount t
    | .unavailable reasonCode =>
      if reasonCode = leaseUnsupported then standDown (.unleased relayLeaseUnsupported) .relayLeaseUnsupported t else t
    | .released => t

def onQueryAck (ack : LeaseAck) : Turn → Turn
  | (m, out) =>
    if m.autoAcquire ∨ !m.leased ∨ !m.role.isStandby then (m, out)
    else match ack with
      | .refused _ (some holder) holderLabel (some fence) accountMachineCount =>
        if holder = m.selfMachineId ∨ m.releasedFence.any (fence ≤ ·) then (m, out)
        else setSnapshot
          { lastRole := .standby
            lastFence := fence
            accountMachineCount := accountMachineCount <|> m.snapshot.accountMachineCount
            holderMachineId := some holder
            leaseCapable := true }
          ({ m with autoAcquire := true, releasedFence := none, role := .standby (some holder) holderLabel (some fence) },
            out)
      | _ => (m, out)

/-- `send`: the relay has not released the lease yet. -/
def onRelease (send : Bool) (now : Now) : Turn → Turn
  | (m, out) =>
    if !m.leased then (m, out)
    else
      let out := out.filter fun action => !action.isAttempt
      let held := m.heldFence
      let m := { m with
        autoAcquire := false
        releasedAt := some now.mono
        heldFence := none
        releasedFence := some (held.getD m.snapshot.lastFence) }
      let out := match held, send && m.canSend with
        | some fence, true => out ++ [.sendRelease fence]
        | _, _ => out
      let (m, out) := if m.role.runsHub then standDown .standbyUnknown .released (m, out) else (m, out)
      setSnapshot { m.snapshot with lastRole := .standby, holderMachineId := none } (m, out)

def onCapabilityReset (now : Now) : Turn → Turn
  | (m, out) =>
    let (m, out) := setSnapshot
        { m.snapshot with lastRole := .holder, lastFence := 0, holderMachineId := none, leaseCapable := false } (m, out)
    let out := if m.role.runsHub then out else out ++ [.startHub]
    let m := { m with heldFence := none, deadline := none, lastGrantSent := none, role := .holder 0 }
    if m.canSend then onSessionOpened true now (m, out) else (m, out)

def onTick (now : Now) (t : Turn) : Turn :=
  if t.1.leased ∧ !t.1.role.isUnleased ∧ t.1.nextAttempt.all (now.mono ≥ ·) then attempt now false t else t

def onAcquireRequested (force : Bool) (now : Now) : Turn → Turn
  | (m, out) => if m.leased then attempt now force ({ m with autoAcquire := true }, out) else (m, out)

def react (event : Event) (now : Now) (t : Turn) : Turn :=
  match event with
  | .relayUnreachableAtBoot => onUnreachableAtBoot t
  | .sessionOpened leaseCapable => onSessionOpened leaseCapable now t
  | .sessionClosed => ({ t.1 with sessionOpen := false, sessionCapable := false }, t.2)
  | .acquireAck sentAt ack => onAck sentAt ack false now t
  | .renewAck sentAt ack => onAck sentAt ack true now t
  | .queryAck ack => onQueryAck ack t
  | .tick => onTick now t
  | .acquireRequested force => onAcquireRequested force now t
  | .releaseRequested => onRelease true now t
  | .releaseAcknowledged => onRelease false now t
  | .capabilityReset => onCapabilityReset now t

def handle (m : RoleMachine) (event : Event) (now : Now) : Turn :=
  react event now (checkDeadline now (observeClocks now (m, [])))

end RoleMachine
end Ferryx.Daemon
