import Ferryx.Author

/-!
# The input ledger of a session (`session-core/src/input.rs`)

Who holds the input lease, what was accepted in each epoch, and the queue of bytes for the PTY. The type `H` of holders is
left open. The table of each holder's last request is a total map with default `0`, which is what `fresh` inserts.
-/

namespace Ferryx
open Std

/-- How many accepted bytes of the current epoch are kept for comparison (`RETAINED_BYTES`). -/
def retainedBytes : Nat := 4 * 1024 * 1024

def inputQueueLimit : Nat := 1024 * 1024

def vtReplyLimit : Nat := 64 * 1024

def maxChunk : Nat := 64 * 1024

def recentEpochs : Nat := 64

def maxUnwrittenEpochs : Nat := 64

class WireByte (β : Type) where
  byte : β → UInt8

instance : WireByte UInt8 := ⟨id⟩

/-- The checksum of an input chunk (`fxsh::input_crc32c`), which a third-party crate computes. -/
class InputCrc where
  crc32c : List UInt8 → UInt32

@[reducible] def zeroCrc : InputCrc := ⟨fun _ => 0⟩

def inputCrc32c {β : Type} [WireByte β] [InputCrc] (bytes : List β) : UInt32 :=
  InputCrc.crc32c (bytes.map WireByte.byte)

structure EpochLedger (H : Type) where
  holder : H
  accepted : Nat
  committed : Nat
  pendingDropped : Nat
  fenced : Bool
  deriving DecidableEq, Repr

inductive Item (β : Type) where
  | input (epoch : Nat) (bytes : List β) (written : Nat)
  | vt (bytes : List β) (written : Nat)
  deriving DecidableEq

def Item.epoch? {β : Type} : Item β → Option Nat
  | .input epoch _ _ => some epoch
  | .vt _ _ => none

def Item.log {β : Type} : Item β → List (Nat × β)
  | .input epoch bytes written => (bytes.drop written).map fun b => (epoch, b)
  | .vt _ _ => []

inductive WriteError where
  | staleLease (currentEpoch epochFinalAccepted : Nat)
  | tooLarge
  | corruptFrame
  | offsetOverflow
  | gap (accepted : Nat)
  | diverged (epoch accepted committed : Nat)
  | unverifiable (epoch accepted committed retainedStart : Nat)
  | backpressure (accepted : Nat)
  deriving DecidableEq, Repr

structure Ack (H : Type) where
  holder : H
  epoch : Nat
  accepted : Nat
  committed : Nat
  deriving DecidableEq, Repr

structure Revoke (H : Type) where
  holder : H
  revokedEpoch : Nat
  newEpoch : Nat
  deriving DecidableEq, Repr

structure Granted (H : Type) where
  epoch : Nat
  prior : Option (Nat × Nat × Nat)
  revoked : Option (Revoke H)
  deriving DecidableEq, Repr

structure InputLedger (H β : Type) where
  current : Nat := 0
  holder : Option H := none
  epochs : ExtTreeMap Nat (EpochLedger H) := ∅
  retained : List β := []
  retainedStart : Nat := 0
  queue : List (Item β) := []
  inputBytes : Nat := 0
  vtBytes : Nat := 0
  vtRepliesDropped : Nat := 0
  revokees : List H := []
  dead : Bool := false
  lastRequest : H → Nat := fun _ => 0

namespace InputLedger
variable {H β : Type}

def new : InputLedger H β := {}

def unwrittenEpochs (l : InputLedger H β) : Nat :=
  ((l.queue.filterMap Item.epoch?).destutter (· ≠ ·)).length

def fenceCurrent (l : InputLedger H β) : InputLedger H β :=
  { l with
    epochs := l.epochs.modify l.current fun e => { e with fenced := true }
    holder := none }

def activeEpoch (l : InputLedger H β) : Nat := if l.holder.isSome then l.current else 0

def prune (l : InputLedger H β) : InputLedger H β :=
  let unwritten := l.queue.filterMap Item.epoch?
  let recentFloor := l.current - (recentEpochs - 1)
  { l with epochs := l.epochs.filter fun e _ => e == l.current || decide (recentFloor ≤ e) || unwritten.contains e }

def epochState (l : InputLedger H β) (epoch : Nat) : Option (Nat × Nat × Nat × Bool) :=
  l.epochs[epoch]?.map fun e => (e.accepted, e.committed, e.pendingDropped, e.fenced)

def pushVtReply (l : InputLedger H β) (bytes : List β) : InputLedger H β × Bool :=
  if l.dead || decide (vtReplyLimit < l.vtBytes + bytes.length) then
    ({ l with vtRepliesDropped := l.vtRepliesDropped + 1 }, false)
  else ({ l with vtBytes := l.vtBytes + bytes.length, queue := l.queue ++ [.vt bytes 0] }, true)

def head (l : InputLedger H β) : Option (List β) :=
  l.queue.head?.map fun
    | .input _ bytes written => bytes.drop written
    | .vt bytes written => bytes.drop written

/-- The PTY took `n` bytes of the head. A queued epoch is retained (`expect` in the source): the branch without an entry is
never taken. -/
def onWritten (l : InputLedger H β) (n : Nat) : InputLedger H β × Option (Ack H) :=
  match l.queue with
  | [] => (l, none)
  | .input epoch bytes written :: rest =>
    match l.epochs[epoch]? with
    | none => (l, none)
    | some e =>
      let n := min n (bytes.length - written)
      let e := { e with committed := e.committed + n }
      let l := { l with inputBytes := l.inputBytes - n, epochs := l.epochs.insert epoch e }
      let ack := some ⟨e.holder, epoch, e.accepted, e.committed⟩
      if written + n = bytes.length then ({ l with queue := rest }.prune, ack)
      else ({ l with queue := .input epoch bytes (written + n) :: rest }, ack)
  | .vt bytes written :: rest =>
    let n := min n (bytes.length - written)
    let l := { l with vtBytes := l.vtBytes - n }
    if written + n = bytes.length then ({ l with queue := rest }.prune, none)
    else ({ l with queue := .vt bytes (written + n) :: rest }, none)

def onDead (l : InputLedger H β) : InputLedger H β :=
  { l with
    dead := true
    epochs := l.queue.foldl (fun epochs item =>
      match item with
      | .input epoch bytes written =>
        epochs.modify epoch fun e => { e with pendingDropped := e.pendingDropped + (bytes.length - written) }
      | .vt _ _ => epochs) l.epochs
    queue := [], inputBytes := 0, vtBytes := 0 }

variable [DecidableEq H]

def fresh (l : InputLedger H β) (who : H) (requestId : Nat) : InputLedger H β × Bool :=
  if requestId ≤ l.lastRequest who then (l, false)
  else ({ l with lastRequest := Function.update l.lastRequest who requestId }, true)

def active (l : InputLedger H β) (who : H) (epoch : Nat) : Bool :=
  epoch == l.current && l.holder == some who && l.epochs[epoch]?.any fun e => !e.fenced

def acquire (l : InputLedger H β) (who : H) : Option (InputLedger H β × Granted H) :=
  if maxUnwrittenEpochs ≤ l.unwrittenEpochs then none
  else
    let prevEpoch := l.current
    let prevHolder := l.holder
    let prior := l.epochs[prevEpoch]?.map fun e => (prevEpoch, e.accepted, e.committed)
    let l := l.fenceCurrent
    let current := l.current + 1
    let l := { l with
      current
      epochs := l.epochs.insert current ⟨who, 0, 0, 0, false⟩
      holder := some who, retained := [], retainedStart := 0
      revokees := l.revokees.filter fun h => h ≠ who }
    match prevHolder with
    | some h =>
      if h ≠ who then
        some ({ l with revokees := l.revokees ++ [h] }.prune, ⟨current, prior, some ⟨h, prevEpoch, current⟩⟩)
      else some (l.prune, ⟨current, prior, none⟩)
    | none => some (l.prune, ⟨current, prior, none⟩)

def release (l : InputLedger H β) (who : H) (epoch : Nat) : InputLedger H β × Bool × List H :=
  let epoch := if epoch = 0 then l.current else epoch
  if l.active who epoch then ({ l.fenceCurrent with revokees := [] }, true, l.revokees)
  else (l, false, [])

inductive ReclaimReply where
  | epochUnknown
  | ok (accepted committed : Nat)
  | lost (currentEpoch finalAccepted committed pendingDropped : Nat)
  deriving DecidableEq, Repr

def reclaim (l : InputLedger H β) (who : H) (epoch : Nat) : InputLedger H β × ReclaimReply :=
  match l.epochs[epoch]? with
  | none => (l, .epochUnknown)
  | some e =>
    if l.active who epoch then (l, .ok e.accepted e.committed)
    else
      let reply := .lost l.activeEpoch e.accepted e.committed e.pendingDropped
      if l.holder.any (fun h => h ≠ who) && !l.revokees.contains who then
        ({ l with revokees := l.revokees ++ [who] }, reply)
      else (l, reply)

variable [WireByte β] [InputCrc]

def overlapError (l : InputLedger H β) (e : EpochLedger H) (epoch start : Nat) (bytes : List β) :
    Option WriteError :=
  let overlapEnd := min (start + bytes.length) e.accepted
  if start < overlapEnd then
    if start < l.retainedStart then some (.unverifiable epoch e.accepted e.committed l.retainedStart)
    else
      let off := start - l.retainedStart
      let n := overlapEnd - start
      if (Author.slice l.retained off (off + n)).map WireByte.byte = (bytes.take n).map WireByte.byte then none
      else some (.diverged epoch e.accepted e.committed)
  else none

def accept (l : InputLedger H β) (e : EpochLedger H) (epoch start : Nat) (bytes : List β) : InputLedger H β :=
  let suffix := bytes.drop (e.accepted - start)
  let retained := l.retained ++ suffix
  { l with
    queue := l.queue ++ [.input epoch suffix 0]
    inputBytes := l.inputBytes + suffix.length
    retained := retained.drop (retained.length - retainedBytes)
    retainedStart := l.retainedStart + (retained.length - retainedBytes)
    epochs := l.epochs.insert epoch { e with accepted := start + bytes.length } }

def write (l : InputLedger H β) (who : H) (epoch start : Nat) (bytes : List β) (crc : UInt32) :
    InputLedger H β × Except (WriteError × Option (Revoke H × List H)) (Ack H) :=
  match l.epochs[epoch]? with
  | none => (l, .error (.staleLease l.activeEpoch 0, none))
  | some e =>
    if !l.active who epoch then (l, .error (.staleLease l.activeEpoch e.accepted, none))
    else if maxChunk < bytes.length then (l, .error (.tooLarge, none))
    else if inputCrc32c bytes ≠ crc then (l, .error (.corruptFrame, none))
    else if 2 ^ 64 ≤ start + bytes.length then (l, .error (.offsetOverflow, none))
    else if e.accepted < start then (l, .error (.gap e.accepted, none))
    else match l.overlapError e epoch start bytes with
      | some err =>
        ({ l.fenceCurrent with revokees := [] }, .error (err, some (⟨who, epoch, 0⟩, l.revokees)))
      | none =>
        if e.accepted < start + bytes.length then
          if inputQueueLimit < l.inputBytes + (bytes.drop (e.accepted - start)).length then
            (l, .error (.backpressure e.accepted, none))
          else (l.accept e epoch start bytes, .ok ⟨who, epoch, start + bytes.length, e.committed⟩)
        else (l, .ok ⟨who, epoch, e.accepted, e.committed⟩)

end InputLedger
end Ferryx
