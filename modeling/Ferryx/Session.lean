import Ferryx.Input
import Ferryx.Fxsh.Types
import Ferryx.Lib.KeyedLog
import Ferryx.Lib.System

/-!
# The session actor and its writer thread (`ferryx-host/src/session.rs`)

The events that reach the actor's input ledger or its writer thread; its answers are in `Network`. The thread takes one
buffer, writes a part of it and says how much, or says that it failed and ends; a buffer sent to a failed thread is never
answered. The last fields of `Hosted` record the past of a run.
-/

namespace Ferryx
open Lib

inductive SessionEvent (H β : Type) where
  | acquireLease (who : H) (requestId : Nat)
  | releaseLease (who : H) (requestId epoch : Nat)
  | reclaim (who : H) (requestId epoch : Nat)
  | writeInput (who : H) (epoch start : Nat) (bytes : List β) (crc : UInt32)
  | ptyOutput (vtReplies : List (List β))
  | ptyEof
  | written (n : Nat)
  | writeFailed
  | childExited (info : Fxsh.ExitInfo)
  | drainDone
  deriving DecidableEq

structure Session (H β : Type) where
  ledger : InputLedger H β := .new
  writeInflight : Bool := false
  exit : Option Fxsh.ExitInfo := none
  pendingExit : Option Fxsh.ExitInfo := none

namespace Session
variable {H β : Type}

/-- Hands the head of the queue to the writer thread, if none is in flight and the thread still takes
    buffers. -/
def pumpWrite (s : Session H β) (receiving : Bool) : Session H β × Option (List β) :=
  if s.writeInflight then (s, none)
  else match s.ledger.head with
    | some head => if receiving then ({ s with writeInflight := true }, some head) else (s, none)
    | none => (s, none)

def finishChild (s : Session H β) (info : Option Fxsh.ExitInfo) : Session H β :=
  if s.exit.isSome then s
  else match info <|> s.pendingExit with
    | none => s
    | some info => { s with exit := some info, ledger := s.ledger.onDead }

def publish (s : Session H β) (receiving : Bool) (vtReplies : List (List β)) : Session H β × Option (List β) :=
  { s with ledger := vtReplies.foldl (fun l reply => (l.pushVtReply reply).1) s.ledger }.pumpWrite receiving

variable [DecidableEq H]

def acquire (s : Session H β) (who : H) (requestId : Nat) : Session H β :=
  match s.ledger.fresh who requestId with
  | (l, false) => { s with ledger := l }
  | (l, true) =>
    match l.acquire who with
    | some (l, _) => { s with ledger := l }
    | none => { s with ledger := l }

def release (s : Session H β) (who : H) (requestId epoch : Nat) : Session H β :=
  match s.ledger.fresh who requestId with
  | (l, false) => { s with ledger := l }
  | (l, true) => { s with ledger := (l.release who epoch).1 }

def reclaim (s : Session H β) (who : H) (requestId epoch : Nat) : Session H β :=
  match s.ledger.fresh who requestId with
  | (l, false) => { s with ledger := l }
  | (l, true) => { s with ledger := (l.reclaim who epoch).1 }

variable [WireByte β] [InputCrc]

def writeInput (s : Session H β) (receiving : Bool) (who : H) (epoch start : Nat) (bytes : List β) (crc : UInt32) :
    Session H β × Option (List β) :=
  match s.ledger.write who epoch start bytes crc with
  | (l, .ok _) => { s with ledger := l }.pumpWrite receiving
  | (l, .error _) => ({ s with ledger := l }, none)

def onEvent (s : Session H β) (receiving : Bool) : SessionEvent H β → Session H β × Option (List β)
  | .acquireLease who requestId => (s.acquire who requestId, none)
  | .releaseLease who requestId epoch => (s.release who requestId epoch, none)
  | .reclaim who requestId epoch => (s.reclaim who requestId epoch, none)
  | .writeInput who epoch start bytes crc => s.writeInput receiving who epoch start bytes crc
  | .ptyOutput vtReplies => s.publish receiving vtReplies
  | .ptyEof => (s.finishChild none, none)
  | .written n => { s with writeInflight := false, ledger := (s.ledger.onWritten n).1 }.pumpWrite receiving
  | .writeFailed => ({ s with writeInflight := false, ledger := s.ledger.onDead }, none)
  | .childExited info => ({ s with pendingExit := some info }, none)
  | .drainDone => (s.finishChild none, none)

end Session

def InputLedger.queuedOf {H β : Type} (l : InputLedger H β) (e : Nat) : List β := entriesAt e (l.queue.flatMap Item.log)

structure Hosted (H β : Type) where
  session : Session H β := {}
  /-- The buffer of the writer thread, and the epoch it is from; there is none if it is a reply of the terminal. -/
  flight : Option (Option Nat × List β) := none
  stopped : Bool := false
  receiving : Bool := true
  accepted : Nat → List β := fun _ => []
  reported : Nat → List β := fun _ => []
  dropped : Nat → List β := fun _ => []

inductive HostedAction (H β : Type) where
  | event (ev : SessionEvent H β)
  /-- A thread that has failed closes its end of the channel. -/
  | writerGone
  deriving DecidableEq

namespace Hosted
variable {H β : Type}

def recordDrop (w : Hosted H β) : Hosted H β :=
  { w with dropped := fun e => w.dropped e ++ w.session.ledger.queuedOf e }

variable [DecidableEq H] [WireByte β] [InputCrc]

def record (w : Hosted H β) : SessionEvent H β → Hosted H β
  | .writeInput who epoch start bytes crc =>
    match w.session.ledger.epochs[epoch]?, (w.session.ledger.write who epoch start bytes crc).2 with
    | some x, .ok _ =>
      { w with accepted := Function.update w.accepted epoch (w.accepted epoch ++ bytes.drop (x.accepted - start)) }
    | _, _ => w
  | .written n =>
    match w.flight with
    | some (some e, buffer) => { w with reported := Function.update w.reported e (w.reported e ++ buffer.take n) }
    | _ => w
  | .writeFailed => w.recordDrop
  | .ptyEof | .drainDone => if w.session.exit.isNone ∧ w.session.pendingExit.isSome then w.recordDrop else w
  | _ => w

def flightAfter (w : Hosted H β) : SessionEvent H β → Option (Option Nat × List β)
  | .written _ | .writeFailed => none
  | _ => w.flight

def handle (w : Hosted H β) (ev : SessionEvent H β) : Hosted H β :=
  let r := w.session.onEvent w.receiving ev
  { w.record ev with
    session := r.1
    flight := match r.2 with
      | some buffer => some (r.1.ledger.queue.head?.bind Item.epoch?, buffer)
      | none => w.flightAfter ev
    stopped := match ev with
      | .writeFailed => true
      | _ => w.stopped }

def step (w : Hosted H β) : HostedAction H β → Hosted H β
  | .event ev => w.handle ev
  | .writerGone => { w with receiving := false }

def Enabled (w : Hosted H β) : HostedAction H β → Prop
  | .event (.written n) => w.stopped = false ∧ ∃ f ∈ w.flight, 1 ≤ n ∧ n ≤ f.2.length
  | .event .writeFailed => w.stopped = false ∧ w.flight.isSome
  | .event _ => True
  | .writerGone => w.stopped = true

end Hosted

def hosted (H β : Type) [DecidableEq H] [WireByte β] [InputCrc] : System (Hosted H β) (HostedAction H β) where
  init w := w = {}
  step w a w' := w.Enabled a ∧ w' = w.step a

end Ferryx
