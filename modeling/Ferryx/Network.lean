import Ferryx.Input
import Ferryx.Lib.Channels
import Ferryx.Lib.System

/-!
# Authors and sessions joined by connections (`session-core/tests/input_sim.rs`)

Any number of authors with one live connection each, and of sessions, each one `InputLedger`. A connection is a queue in
each direction. A reply travels on the connection of its request, all else on the live one. What reaches an author on a
dropped connection is lost; what reaches the host on one may be lost or handled late.

A typed byte carries its author and position, which nobody reads. The last fields of `Net` record the past of a run.
-/

namespace Ferryx
open Std Lib

structure TypedByte (H : Type) where
  author : H
  index : Nat
  val : UInt8
  deriving DecidableEq

instance {H : Type} : WireByte (TypedByte H) := ⟨TypedByte.val⟩

inductive ToClient where
  | granted (id session epoch : Nat)
  | released (id : Nat)
  | ack (attempt : Option Nat) (session epoch accepted committed : Nat)
  | retry (attempt session epoch : Nat) (gap : Option Nat)
  | lost (session epoch other : Nat)
  | reclaimed (id : Nat) (ok : Bool) (current accepted committed : Nat) (finals : Option (Nat × Nat × Nat))
  | reclaimUnknown (id : Nat)
  | epoch (id session epoch fa cm pd : Nat) (fenced : Bool)
  | epochUnknown (session epoch : Nat)
  | failed (id : Nat)
  | vacated (session : Nat)
  deriving DecidableEq, Repr

def Out.isMessage {β : Type} : Out β → Bool
  | .classified .. => false
  | _ => true

structure Net (H : Type) where
  hosts : Nat → InputLedger H (TypedByte H)
  authors : H → Author (TypedByte H)
  conn : H → Nat
  toHost : H → Nat → List (Out (TypedByte H))
  toClient : H → Nat → List ToClient
  typedFor : H → List Nat
  /-- The bytes a PTY was given, each with the epoch it was queued in. -/
  tap : Nat → List (Nat × TypedByte H)
  sent : H → List (Out (TypedByte H))
  /-- The bytes an author assigned to an epoch, by offset. -/
  assigned : H → EpochKey → List (TypedByte H)
  /-- The accepted counter a session has for an epoch, or had when it forgot the epoch. -/
  counter : EpochKey → Nat
  grant : EpochKey → Option (H × Nat)

inductive Action (H : Type) where
  | typeBytes (i : H) (vals : List UInt8)
  | setFocus (i : H) (focused : Bool)
  | rebind (i : H) (session : Nat)
  | reconnect (i : H)
  | deliverToHost (i : H) (conn : Nat) (lose fail : Bool)
  | deliverToClient (i : H) (conn : Nat)
  | requestFailed (i : H) (id : Nat)
  | retryTimer (i : H)
  | sendTimer (i : H)
  | ptyWrite (session n : Nat)
  | ownerLost (i : H) (session : Nat)

def TypedByte.tag {H : Type} (i : H) (start : Nat) (vals : List UInt8) : List (TypedByte H) :=
  vals.mapIdx fun j v => ⟨i, start + j, v⟩

def Author.recordCur {β : Type} (a : Author β) (assigned : EpochKey → List β) : EpochKey → List β :=
  match a.cur with
  | none => assigned
  | some c =>
    Function.update assigned (c.session, c.epoch) ((assigned (c.session, c.epoch)).take c.seg.base ++ c.seg.bytes)

namespace Net
variable {H : Type}

def start (bound : H → Nat) : Net H where
  hosts _ := .new
  authors i := .new (bound i)
  conn _ := 0
  toHost _ _ := []
  toClient _ _ := []
  typedFor _ := []
  tap _ := []
  sent _ := []
  assigned _ _ := []
  counter _ := 0
  grant _ := none

def setHost (n : Net H) (s : Nat) (l : InputLedger H (TypedByte H)) : Net H :=
  { n with
    hosts := Function.update n.hosts s l
    counter := fun k => if k.1 = s then (l.epochs[k.2]?.map (·.accepted)).getD (n.counter k) else n.counter k }

variable [DecidableEq H]

def flush (n : Net H) (i : H) (a : Author (TypedByte H)) : Net H :=
  { n with
    authors := Function.update n.authors i { a with out := [] }
    toHost := enqueue n.toHost i (n.conn i) (a.out.filter Out.isMessage)
    sent := Function.update n.sent i (n.sent i ++ a.out)
    assigned := Function.update n.assigned i (a.recordCur (n.assigned i)) }

def reply (n : Net H) (i : H) (c : Nat) (m : ToClient) : Net H :=
  { n with toClient := enqueue n.toClient i c [m] }

def event (n : Net H) (i : H) (m : ToClient) : Net H := n.reply i (n.conn i) m

def vacate (n : Net H) (s : Nat) (revokees : List H) : Net H :=
  revokees.foldl (fun n h => n.event h (.vacated s)) n

def admitRequest (n : Net H) (i : H) (c s id : Nat) (fail : Bool) (handle : Net H → Net H) : Net H :=
  match (n.hosts s).fresh i id with
  | (_, false) => n
  | (l, true) =>
    let n := n.setHost s l
    if fail then n.reply i c (.failed id) else handle n

def handleAcquire (i : H) (c id s : Nat) (n : Net H) : Net H :=
  match (n.hosts s).acquire i with
  | none => n.reply i c (.failed id)
  | some (l, g) =>
    let n := { n.setHost s l with grant := Function.update n.grant (s, g.epoch) (some (i, id)) }
    let n := match g.revoked with
      | some r => n.event r.holder (.lost s r.revokedEpoch r.newEpoch)
      | none => n
    n.reply i c (.granted id s g.epoch)

def handleRelease (i : H) (c id s epoch : Nat) (n : Net H) : Net H :=
  let r := (n.hosts s).release i epoch
  ((n.setHost s r.1).vacate s r.2.2).reply i c (.released id)

def handleReclaim (i : H) (c id s epoch : Nat) (n : Net H) : Net H :=
  let r := (n.hosts s).reclaim i epoch
  (n.setHost s r.1).reply i c (match r.2 with
    | .epochUnknown => .reclaimUnknown id
    | .ok accepted committed => .reclaimed id true epoch accepted committed none
    | .lost current fa cm pd => .reclaimed id false current 0 0 (some (fa, cm, pd)))

def handleGet (i : H) (c id s epoch : Nat) (fail : Bool) (n : Net H) : Net H :=
  if fail then n.reply i c (.failed id)
  else n.reply i c (match (n.hosts s).epochState epoch with
    | some (fa, cm, pd, fenced) => .epoch id s epoch fa cm pd fenced
    | none => .epochUnknown s epoch)

variable [InputCrc]

def handleWrite (i : H) (c attempt s epoch start : Nat) (bytes : List (TypedByte H)) (n : Net H) : Net H :=
  let r := (n.hosts s).write i epoch start bytes (inputCrc32c bytes)
  let n := n.setHost s r.1
  match r.2 with
  | .ok a => n.reply i c (.ack (some attempt) s epoch a.accepted a.committed)
  | .error (.staleLease current _, _) => n.reply i c (.lost s epoch current)
  | .error (.gap accepted, _) => n.reply i c (.retry attempt s epoch (some accepted))
  | .error (.backpressure _, _) => n.reply i c (.retry attempt s epoch none)
  | .error (.diverged .., revoke) => (n.vacate s ((revoke.map (·.2)).getD [])).reply i c (.lost s epoch 0)
  | .error (.unverifiable .., revoke) => (n.vacate s ((revoke.map (·.2)).getD [])).reply i c (.lost s epoch 0)
  -- `input_sim` stops with an error here: the author never sends such a chunk.
  | .error (_, _) => n

def hostHandle (n : Net H) (i : H) (c : Nat) (fail : Bool) : Out (TypedByte H) → Net H
  | .acquire id s => n.admitRequest i c s id fail (handleAcquire i c id s)
  | .release id s epoch => n.admitRequest i c s id fail (handleRelease i c id s epoch)
  | .reclaim id s epoch => n.admitRequest i c s id fail (handleReclaim i c id s epoch)
  | .write attempt s epoch start bytes => n.handleWrite i c attempt s epoch start bytes
  | .getEpochState id s epoch => n.handleGet i c id s epoch fail
  | .classified .. => n

end Net

def Author.handle {β : Type} (a : Author β) : ToClient → Author β
  | .granted id s epoch => a.onGranted id s epoch
  | .released id => a.onReleased id
  | .ack attempt s epoch accepted committed => a.onInputAck attempt s epoch accepted committed
  | .retry attempt s epoch gap => a.onWriteRetryable attempt s epoch gap
  | .lost s epoch other => a.onLeaseLost s epoch other
  | .reclaimed id ok current accepted committed finals => a.onReclaimResult id ok current accepted committed finals
  | .reclaimUnknown id => a.onReclaimEpochUnknown id
  | .epoch id s epoch fa cm pd fenced => a.onEpochState id s epoch fa cm pd fenced
  | .epochUnknown s epoch => a.onEpochUnknown s epoch
  | .failed id => a.onRequestFailed id
  | .vacated s => a.onVacated s

namespace Net
variable {H : Type} [DecidableEq H]

def deliverToHost [InputCrc] (n : Net H) (i : H) (c : Nat) (lose fail : Bool) : Net H :=
  match n.toHost i c with
  | [] => n
  | m :: rest =>
    let n := { n with toHost := setAt n.toHost i c rest }
    if c ≠ n.conn i ∧ lose = true then n else n.hostHandle i c fail m

def deliverToClient (n : Net H) (i : H) (c : Nat) : Net H :=
  match n.toClient i c with
  | [] => n
  | m :: rest =>
    let n := { n with toClient := setAt n.toClient i c rest }
    if c ≠ n.conn i then n else n.flush i ((n.authors i).handle m)

def ptyWrite (n : Net H) (s k : Nat) : Net H :=
  match (n.hosts s).head with
  | none => n
  | some head =>
    let take := min k head.length
    let epoch := ((n.hosts s).queue.head?.bind Item.epoch?).getD 0
    let r := (n.hosts s).onWritten take
    let n := { n.setHost s r.1 with
      tap := Function.update n.tap s (n.tap s ++ (head.take take).map fun b => (epoch, b)) }
    match r.2 with
    | some ack => n.event ack.holder (.ack none s ack.epoch ack.accepted ack.committed)
    | none => n

def typeBytes (n : Net H) (i : H) (vals : List UInt8) : Net H :=
  let bytes := TypedByte.tag i (n.typedFor i).length vals
  let a := n.authors i
  { n with typedFor := Function.update n.typedFor i (n.typedFor i ++ vals.map fun _ => a.session) }.flush i
    (a.typeBytes bytes)

def reconnect (n : Net H) (i : H) : Net H :=
  { n with conn := Function.update n.conn i (n.conn i + 1) }.flush i (n.authors i).onReconnect

def step [InputCrc] (n : Net H) : Action H → Net H
  | .typeBytes i vals => n.typeBytes i vals
  | .setFocus i focused => n.flush i ((n.authors i).setFocus focused)
  | .rebind i s => n.flush i ((n.authors i).rebind s)
  | .reconnect i => n.reconnect i
  | .deliverToHost i c lose fail => n.deliverToHost i c lose fail
  | .deliverToClient i c => n.deliverToClient i c
  | .requestFailed i id => n.flush i ((n.authors i).onRequestFailed id)
  | .retryTimer i => n.flush i (n.authors i).onRetryTimer
  | .sendTimer i => n.flush i (n.authors i).onSendTimer
  | .ptyWrite s k => n.ptyWrite s k
  | .ownerLost i s => n.flush i ((n.authors i).onOwnerLost s)

end Net

def network (H : Type) [DecidableEq H] [InputCrc] : System (Net H) (Action H) where
  init n := ∃ bound, n = Net.start bound
  step n a n' := n' = n.step a

end Ferryx
