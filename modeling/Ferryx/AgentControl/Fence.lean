import Ferryx.Account.SupervisorLease

/-! # The fence ratchet of an executing daemon (`src-tauri/src/agent_control/fence.rs`)

The highest fence seen for each account, in memory and in a file. A store that fails may have replaced the file before it
failed. Below it the relay that mints the fences and one daemon, with the grants and the admitted requests so far. -/

namespace Ferryx.AgentControl
open Lib Std Account

structure SupervisorFence where
  account : String
  fence : Nat
  deriving DecidableEq

inductive FenceRefusal where
  | stale (fence max : Nat)
  | notHolder
  | invalid (why : String)
  | notPersisted (why : String)
  | unreadable (why : String)
  deriving DecidableEq

def isWhitespace (c : Char) : Bool :=
  (0x09 ≤ c.toNat ∧ c.toNat ≤ 0x0D) ∨ c.toNat = 0x20 ∨ c.toNat = 0x85 ∨ c.toNat = 0xA0 ∨ c.toNat = 0x1680 ∨
    (0x2000 ≤ c.toNat ∧ c.toNat ≤ 0x200A) ∨ c.toNat = 0x2028 ∨ c.toNat = 0x2029 ∨ c.toNat = 0x202F ∨ c.toNat = 0x205F ∨
    c.toNat = 0x3000

def trim (s : String) : String := String.ofList (s.toList.dropWhile isWhitespace |>.rdropWhile isWhitespace)

abbrev MaxFence := ExtTreeMap String Nat

structure Fences where
  max : MaxFence
  unreadable : Option String := none

structure FenceRatchet where
  /-- Whether there is a file; without one the maximum is in memory only. -/
  path : Bool
  /-- The content of the file; a missing file reads as no fences. -/
  file : MaxFence
  fences : Fences

/-- How `write_private_json` ends. -/
inductive Stored where
  | written
  /-- With the file replaced already, or not. -/
  | failed (why : String) (replaced : Bool)
  deriving DecidableEq

namespace FenceRatchet

/-- `failure`: why the file could not be read or parsed. -/
def load (path : Bool) (file : MaxFence) (failure : Option String) : FenceRatchet where
  path := path
  file := file
  fences := match path, failure with
    | true, some why => { max := ∅, unreadable := some why }
    | true, none => { max := file }
    | false, _ => { max := ∅ }

def maxFor (ratchet : FenceRatchet) (account : String) : Nat := ratchet.fences.max[account]?.getD 0

def ratchet (self : FenceRatchet) (fence : SupervisorFence) (push : Bool) (stored : Stored) :
    Except FenceRefusal Unit × FenceRatchet :=
  let account := trim fence.account
  if account = "" then (.error (.invalid "a supervisor fence names its account"), self)
  else match self.fences.unreadable.filter fun _ => !push with
    | some why => (.error (.unreadable why), self)
    | none =>
      let current := self.maxFor account
      let rewrite := self.fences.unreadable.isSome
      if !rewrite ∧ fence.fence < current then (.error (.stale fence.fence current), self)
      else if !rewrite ∧ fence.fence = current then (.ok (), self)
      else
        let next := self.fences.max.insert account (max fence.fence current)
        let written : FenceRatchet := { self with file := next }
        match self.path, stored with
        | true, .failed why replaced => (.error (.notPersisted why), if replaced then written else self)
        | true, .written => (.ok (), { written with fences := { max := next } })
        | false, _ => (.ok (), { self with fences := { max := next } })

def admitRequest (self : FenceRatchet) (fence : SupervisorFence) (stored : Stored) := self.ratchet fence false stored

def admitPush (self : FenceRatchet) (fence : SupervisorFence) (stored : Stored) := self.ratchet fence true stored

end FenceRatchet

structure Grant where
  userId : String
  machineId : String
  fence : Nat
  deriving DecidableEq

structure Fencing where
  tables : LeaseTables
  earlier : List LeaseTables
  grants : List Grant
  daemon : FenceRatchet
  admitted : List SupervisorFence

inductive FencingAction where
  | acquire (machines : Machines) (userId machineId : String) (now : Nat) (candidateCheckpoint : Option String)
      (force : Bool)
  | renew (machines : Machines) (userId machineId : String) (fence now : Nat) (checkpointId : Option String)
  | release (userId machineId : String) (fence now : Nat) (checkpointId : Option String)
  | releaseTo (userId machineId : String) (fence now : Nat) (checkpointId : Option String) (targetMachineId : String)
  /-- A standby restored from a replica that may lag, made the relay. -/
  | promote (lag : Nat)
  | request (fence : SupervisorFence) (stored : Stored)
  | push (fence : SupervisorFence) (stored : Stored)
  | restart (failure : Option String)

namespace Fencing

def write (w : Fencing) (tables : LeaseTables) : Fencing := { w with tables := tables, earlier := w.tables :: w.earlier }

def grantTo (w : Fencing) (userId machineId : String) : Except LeaseError (SupervisorLeaseRecord × LeaseTables) → Fencing
  | .ok (lease, tables) => { w.write tables with grants := { userId, machineId, fence := lease.fence } :: w.grants }
  | .error _ => w

def answered (w : Fencing) (fence : SupervisorFence) : Except FenceRefusal Unit × FenceRatchet → Fencing
  | (.ok (), daemon) => { w with daemon := daemon, admitted := fence :: w.admitted }
  | (.error _, daemon) => { w with daemon := daemon }

def step (w : Fencing) : FencingAction → Fencing
  | .acquire machines userId machineId now candidateCheckpoint force =>
    w.grantTo userId machineId (Account.acquire machines w.tables userId machineId now candidateCheckpoint force)
  | .renew machines userId machineId fence now checkpointId =>
    w.grantTo userId machineId (Account.renew machines w.tables userId machineId fence now checkpointId)
  | .release userId machineId fence now checkpointId =>
    (Account.release w.tables userId machineId fence now checkpointId).elim w w.write
  | .releaseTo userId machineId fence now checkpointId targetMachineId =>
    (Account.releaseTo w.tables userId machineId fence now checkpointId targetMachineId).elim w w.write
  | .promote lag =>
    match (w.tables :: w.earlier)[lag]? with
    | some tables => { w with tables := tables.bumpRelayEpoch, earlier := [] }
    | none => w
  | .request fence stored => w.answered fence (w.daemon.admitRequest fence stored)
  | .push fence stored => w.answered fence (w.daemon.admitPush fence stored)
  | .restart failure => { w with daemon := .load w.daemon.path w.daemon.file failure }

def start (tables : LeaseTables) (file : MaxFence) : Fencing where
  tables := tables
  earlier := []
  grants := []
  daemon := .load true file none
  admitted := []

end Fencing

def fencing : System Fencing FencingAction where
  init := fun w => ∃ tables file, w = Fencing.start tables file
  step := fun w a w' => w' = w.step a

end Ferryx.AgentControl
