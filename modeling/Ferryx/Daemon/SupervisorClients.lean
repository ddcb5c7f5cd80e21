import Ferryx.Daemon.SupervisorRole

/-!
# Lease clients and their relay (`src-tauri/src/daemon/supervisor_lease_client.rs`)

Any number of drivers with one call each at a time, and one relay. All clocks run with `time`, in nanoseconds, each from its
own offset. A request in flight may be handled at any time and in any order, also after its caller gave up, or be lost. No
handover, so no client is frozen, and no reset of the capability.
-/

namespace Ferryx.Daemon
open Lib Std Account

def maxSendsPerEvent : Nat := 4

structure Call where
  id : Nat
  request : SupervisorLeaseRequest
  sentAt : Now
  deriving DecidableEq

structure Client where
  machine : RoleMachine
  queue : List Action := []
  explicit : Bool := false
  sends : Nat := 0
  call : Option Call := none
  monoOffset : Nat
  wallOffset : Nat
  deriving DecidableEq

structure Flight where
  id : Nat
  machineId : String
  request : SupervisorLeaseRequest
  deriving DecidableEq

structure Supervisors where
  time : Nat
  relayOffset : Nat
  quarantineUntil : Nat
  machines : Machines
  tables : LeaseTables
  clients : ExtTreeMap String Client := ∅
  flights : List Flight := []
  answers : List (Nat × SupervisorLeaseAck) := []
  nextId : Nat := 0

def Action.request (checkpoint : Option String) : Action → Option SupervisorLeaseRequest
  | .startHub | .stopHub _ | .persist _ => none
  | .sendQuery => some .query
  | .sendRelease fence => some (.release fence checkpoint none)
  | .sendAcquire force => some (.acquire checkpoint force)
  | .sendRenew fence => some (.renew fence checkpoint)

def Action.limited : Action → Bool
  | .sendAcquire _ | .sendRenew _ => true
  | _ => false

namespace Client

def now (c : Client) (time : Nat) : Now := ⟨time + c.monoOffset, time + c.wallOffset⟩

def idle (c : Client) : Bool := c.queue.isEmpty && c.call.isNone

def feedWith (c : Client) (event : Event) (explicit : Bool) (time : Nat) : Client :=
  let (machine, out) := c.machine.handle event (c.now time)
  { c with machine := machine, queue := out, explicit := explicit, sends := 0 }

def extend (c : Client) (event : Event) (time : Nat) : Client :=
  let (machine, out) := c.machine.handle event (c.now time)
  { c with machine := machine, queue := c.queue ++ out }

def withheld (c : Client) (action : Action) (hubStopped autoAcquireAllowed : Bool) : Bool :=
  match action, c.explicit, c.machine.role with
  | .sendAcquire force, false, .standby holderMachineId _ _ =>
    hubStopped || (!force && holderMachineId.isSome && !autoAcquireAllowed)
  | _, _, _ => false

def onAnswer (c : Client) (call : Call) (ack : SupervisorLeaseAck) (time : Nat) : Client :=
  let c := { c with call := none }
  match call.request with
  | .acquire .. => c.extend (.acquireAck call.sentAt (.fromWire ack)) time
  | .renew .. => c.extend (.renewAck call.sentAt (.fromWire ack)) time
  | .release _ _ none => c
  -- the release of a move: only its acknowledgement stands the hub down
  | .release _ _ (some _) => if ack.outcome = .released then c.feedWith .releaseAcknowledged true time else c
  | .query => c.extend (.queryAck (.fromWire ack)) time

end Client

inductive SupervisorsAction where
  | elapse (nanos : Nat)
  | start (machineId : String) (accountBound : Bool) (persisted : Option PersistedLease) (monoOffset wallOffset : Nat)
  | unreachableAtBoot (machineId : String)
  | capability (machineId : String) (advertised : Option Bool)
  | tick (machineId : String)
  | acquire (machineId : String) (force : Bool)
  | release (machineId : String)
  | releaseTo (machineId target : String) (published : Option String)
  | execute (machineId : String) (hubStopped autoAcquireAllowed : Bool) (checkpoint : Option String)
  | answered (machineId : String)
  | failed (machineId : String)
  | handle (place : Nat) (publicKey : Option String)

namespace Supervisors

def relayNow (w : Supervisors) : Nat := (w.time + w.relayOffset) / nanos 1

def put (w : Supervisors) (machineId : String) (c : Client) : Supervisors :=
  { w with clients := w.clients.insert machineId c }

def feed (w : Supervisors) (machineId : String) (event : Event) (explicit : Bool) : Supervisors :=
  match w.clients[machineId]? with
  | some c => if c.idle then w.put machineId (c.feedWith event explicit w.time) else w
  | none => w

def send (w : Supervisors) (machineId : String) (c : Client) (request : SupervisorLeaseRequest) : Supervisors :=
  { w.put machineId { c with call := some ⟨w.nextId, request, c.now w.time⟩ } with
    flights := ⟨w.nextId, machineId, request⟩ :: w.flights
    nextId := w.nextId + 1 }

def execute (w : Supervisors) (machineId : String) (hubStopped autoAcquireAllowed : Bool) (checkpoint : Option String) :
    Supervisors :=
  match w.clients[machineId]? with
  | none => w
  | some c =>
    match c.call, c.queue with
    | none, action :: queue =>
      let rest := { c with queue := queue }
      if c.withheld action hubStopped autoAcquireAllowed ∨ (action.limited ∧ c.sends ≥ maxSendsPerEvent) then
        w.put machineId rest
      else match action.request checkpoint with
        | some request => w.send machineId { rest with sends := if action.limited then c.sends + 1 else c.sends } request
        | none => w.put machineId rest
    | _, _ => w

def releaseTo (w : Supervisors) (machineId target : String) (published : Option String) : Supervisors :=
  match w.clients[machineId]? with
  | none => w
  | some c =>
    match c.idle, c.machine.releasableFence (c.now w.time) with
    | true, some fence => w.send machineId c (.release fence published (some target))
    | _, _ => w

def answered (w : Supervisors) (machineId : String) : Supervisors :=
  match w.clients[machineId]? with
  | none => w
  | some c =>
    match c.call with
    | none => w
    | some call =>
      match w.answers.lookup call.id with
      | some ack => w.put machineId (c.onAnswer call ack w.time)
      | none => w

def handle (w : Supervisors) (place : Nat) (publicKey : Option String) : Supervisors :=
  match w.flights[place]? with
  | none => w
  | some flight =>
    let (ack, tables) :=
      answerSupervisorLease w.machines w.tables flight.machineId publicKey flight.request w.relayNow w.quarantineUntil
    { w with
      tables := tables
      flights := w.flights.eraseIdx place
      answers := (flight.id, ack) :: w.answers }

def step (w : Supervisors) : SupervisorsAction → Supervisors
  | .elapse nanos => { w with time := w.time + nanos }
  | .start machineId accountBound persisted monoOffset wallOffset =>
    let (machine, out) := RoleMachine.new {} machineId accountBound persisted ⟨w.time + monoOffset, w.time + wallOffset⟩
    w.put machineId { machine := machine, queue := out, monoOffset := monoOffset, wallOffset := wallOffset }
  | .unreachableAtBoot machineId => w.feed machineId .relayUnreachableAtBoot false
  | .capability machineId (some leaseCapable) => w.feed machineId (.sessionOpened leaseCapable) false
  -- a session that never opened does not close
  | .capability machineId none =>
    if w.clients[machineId]?.any (·.machine.seenSession) then w.feed machineId .sessionClosed false else w
  | .tick machineId => w.feed machineId .tick false
  | .acquire machineId force => w.feed machineId (.acquireRequested force) true
  | .release machineId => w.feed machineId .releaseRequested true
  | .releaseTo machineId target published => w.releaseTo machineId target published
  | .execute machineId hubStopped autoAcquireAllowed checkpoint =>
    w.execute machineId hubStopped autoAcquireAllowed checkpoint
  | .answered machineId => w.answered machineId
  | .failed machineId =>
    match w.clients[machineId]? with
    | some c => w.put machineId { c with call := none }
    | none => w
  | .handle place publicKey => w.handle place publicKey

def Supervises (w : Supervisors) (machineId : String) (fence : Nat) : Prop :=
  ∃ c, w.clients[machineId]? = some c ∧ c.machine.role = .holder fence ∧ 0 < fence ∧
    c.machine.isHolderNow (c.now w.time) = true

end Supervisors

def supervisors (userId : String) : System Supervisors SupervisorsAction where
  init := fun w => (∀ (machineId : String) (machine : LeaseMachine), w.machines[machineId]? = some machine →
    machine.userId = userId) ∧
    w.clients = ∅ ∧ w.flights = [] ∧ w.answers = []
  step := fun w a w' => w' = w.step a

end Ferryx.Daemon
