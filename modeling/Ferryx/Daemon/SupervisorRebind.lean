import Ferryx.Daemon.SupervisorRole

/-! # The grant that a rebound client resumes (`src-tauri/src/daemon/supervisor_lease_client.rs`)

A client keeps the wall-clock deadline of its grant beside its machine. A client bound to a replaced relay starts a machine
of its own and resumes that grant. -/

namespace Ferryx.Daemon
open Lib

def RoleMachine.currentFence (m : RoleMachine) : Nat :=
  match m.role with
  | .holder fence => fence
  | _ => 0

/-- The fence of a granted answer, and when its request was sent. -/
def Event.granted? : Event → Option (Nat × Now)
  | .acquireAck sentAt (.granted fence _) => some (fence, sentAt)
  | .renewAck sentAt (.granted fence _) => some (fence, sentAt)
  | _ => none

structure SupervisorLeaseState where
  machine : RoleMachine
  /-- The fence of the newest grant and its deadline on the wall clock. -/
  grant : Option (Nat × Nat) := none

namespace SupervisorLeaseState

def handle (self : SupervisorLeaseState) (event : Event) (now : Now) : SupervisorLeaseState × List Action :=
  let (machine, actions) := self.machine.handle event now
  let grant := match event.granted? with
    | some (fence, sentAt) =>
      let deadline := sentAt.wall + machine.cfg.validFor
      if machine.role = .holder fence ∧ self.grant.all fun g => g.1 ≠ fence ∨ g.2 < deadline then some (fence, deadline)
        else self.grant
    | none => self.grant
  ({ machine, grant }, actions)

def liveGrant (self : SupervisorLeaseState) (now : Now) : Option (Nat × Nat) :=
  if self.machine.currentFence = 0 ∨ !self.machine.isHolderNow now then
    none else self.grant.filter (·.1 = self.machine.currentFence)

/-- `booted` and `now`: when the machine is made, and when it is given the grant. -/
def spawn (cfg : RoleConfig) (machineId : String) (accountBound : Bool) (persisted : Option PersistedLease)
    (resumed : Option (Nat × Nat))
    (booted now : Now) : SupervisorLeaseState × List Action :=
  let (machine, initial) := RoleMachine.new cfg machineId accountBound persisted booted
  match resumed.bind fun grant => machine.resumeGrant grant.1 grant.2 now with
  | some (machine, actions) => ({ machine, grant := resumed }, initial ++ actions)
  | none => ({ machine }, initial)

end SupervisorLeaseState

structure Rebound where
  client : SupervisorLeaseState
  /-- The last reading of the monotonic clock. -/
  time : Nat
  /-- The fences and the send times, on the monotonic clock, of the grants whose fence was held when they were answered. -/
  granted : List (Nat × Nat)

inductive ReboundAction where
  | handle (event : Event) (time : Nat)
  /-- The old client is asked at `given`. -/
  | rebind (accountBound : Bool) (persisted : Option PersistedLease) (given booted time : Nat)

namespace Rebound

def handle (w : Rebound) (event : Event) (now : Now) : Rebound where
  client := (w.client.handle event now).1
  time := now.mono
  granted := match event.granted? with
    | some (fence, sentAt) =>
      if (w.client.handle event now).1.machine.role = .holder fence then (fence, sentAt.mono) :: w.granted else w.granted
    | none => w.granted

def rebind (w : Rebound) (cfg : RoleConfig) (machineId : String) (accountBound : Bool) (persisted : Option PersistedLease)
    (given booted now : Now) : Rebound :=
  { w with
    client := (SupervisorLeaseState.spawn cfg machineId accountBound persisted (w.client.liveGrant given) booted now).1
    time := now.mono }

end Rebound

/-- `wall`: what the wall clock shows at each monotonic time. -/
def rebinding (cfg : RoleConfig) (machineId : String) (wall : Nat → Nat) : System Rebound ReboundAction where
  init := fun w => ∃ accountBound persisted time,
    w = ⟨(SupervisorLeaseState.spawn cfg machineId accountBound persisted none ⟨time, wall time⟩ ⟨time, wall time⟩).1,
      time, []⟩
  step := fun w a w' => match a with
    | .handle event time => w.time ≤ time ∧ (∀ g ∈ event.granted?, g.2.mono ≤ time ∧ g.2.wall = wall g.2.mono) ∧
        w' = w.handle event ⟨time, wall time⟩
    | .rebind accountBound persisted given booted time => w.time ≤ given ∧ given ≤ booted ∧ booted ≤ time ∧
        w' = w.rebind cfg machineId accountBound persisted ⟨given, wall given⟩ ⟨booted, wall booted⟩ ⟨time, wall time⟩

end Ferryx.Daemon
