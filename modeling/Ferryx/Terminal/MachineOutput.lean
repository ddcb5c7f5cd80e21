import Ferryx.Lib.System
import Ferryx.Terminal.OutputHub

/-! # Output for machines (`terminal/machine_output.rs`)

A machine receiver gets the chunks over a bounded queue. What it holds and what is queued is charged to a budget; a chunk
beyond it ends the receiver. The end travels over a second channel, the status. -/

namespace Ferryx.Terminal
open Lib

def machineOutputBytes : Nat := 1024 * 1024
def machineFrameOverhead : Nat := 512
def machineControlBytes : Nat := 16 * 1024
def maxEntries : Nat := 1024

def historyRangeBytes : Nat := 24

inductive MachineOutputError where
  | overflow
  | closed
  deriving DecidableEq

inductive SenderState where
  | live
  /-- The status is set, and the queue still has its sender. -/
  | dropping
  | gone
  deriving DecidableEq

inductive RecvPhase where
  | idle
  | pollStatus
  | pollQueue
  | gone
  deriving DecidableEq

structure MachineChannel where
  queue : List OutputChunk := []
  status : Option MachineOutputError := none
  sender : SenderState := .live
  receiverClosed : Bool := false
  /-- The free permits of the budget, and the charges that the consumer holds. -/
  available : Nat
  held : List Nat
  phase : RecvPhase := .idle
  /-- How many chunks were sent before the attach, what `recv` returned and the error that it answered. -/
  joined : Nat
  returned : List OutputChunk := []
  answer : Option MachineOutputError := none
  deriving DecidableEq

def charge (available bytes : Nat) : Except MachineOutputError Nat :=
  if bytes < 2 ^ 32 ∧ bytes ≤ available then .ok (available - bytes) else .error .overflow

def chunkCharge (c : OutputChunk) : Nat := c.bytes.length + machineFrameOverhead

namespace MachineChannel

def dropSender (c : MachineChannel) : MachineChannel :=
  { c with status := some (c.status.getD .closed), sender := .dropping }

def publish (c : MachineChannel) (chunk : OutputChunk) : MachineChannel :=
  if c.receiverClosed then c.dropSender
  else match charge c.available (chunkCharge chunk) with
    | .ok available =>
      if c.queue.length < maxEntries then { c with queue := c.queue ++ [chunk], available }
      else { c with status := some .overflow }.dropSender
    | .error _ => { c with status := some .overflow }.dropSender

def offer (c : MachineChannel) (chunk : OutputChunk) : MachineChannel := if c.sender = .live then c.publish chunk else c

def closeAndDrain (c : MachineChannel) : MachineChannel :=
  { c with receiverClosed := true, queue := [], available := c.available + (c.queue.map chunkCharge).sum }

def fail (c : MachineChannel) (e : MachineOutputError) : MachineChannel :=
  { c.closeAndDrain with phase := .idle, answer := some (c.answer.getD e) }

/-- One poll of a call of `recv`: the look at the status at its start, the status again, the queue. -/
def poll (c : MachineChannel) : Option MachineChannel :=
  match c.phase with
  | .idle => some (match c.status with
    | some e => c.fail e
    | none => { c with phase := .pollStatus })
  | .pollStatus => some (match c.status with
    | some e => c.fail e
    | none => { c with phase := .pollQueue })
  | .pollQueue => some (match c.queue with
    | chunk :: queue =>
      { c with queue, held := c.held ++ [chunkCharge chunk], returned := c.returned ++ [chunk], phase := .idle }
    | [] => if c.sender = .gone then { c with phase := .idle, answer := some (c.answer.getD .closed) } else { c with
        phase := .pollStatus })
  | .gone => none

end MachineChannel

/-- The charges of an attach, if the budget covers the replay: for the controls and for the snapshot. -/
def SessionHub.subscribeMachine {σ : Type} (h : SessionHub σ) (after : Option Nat) (joined : Nat) :
    Except MachineOutputError (MachineChannel × AttachmentSnapshot × List HistoryRange) := do
  let available ← charge machineOutputBytes machineControlBytes
  let gap := after.any fun requested => h.buffer.startSequence.any fun first => requested < first - 1
  let full := after.isNone || gap
  let replayBytes := ((h.buffer.chunks.filter fun c => full || after.any (· < c.sequence)).map (·.bytes.length)).sum
    + if full && h.buffer.bracketedPasteEnabled then 8 else 0
  let rangeCapacity := max (Nat.nextPowerOfTwo (h.resizeLedger.length + 1)) 4
  let size := replayBytes + 8 + machineFrameOverhead + rangeCapacity * historyRangeBytes
  let available ← charge available size
  let snapshot := h.buffer.snapshotAfterRanges after h.resizeLedger
  let gap := snapshot.gap.or (h.replayGap.filter fun gap => after.all (· < gap.availableFromSequence - 1))
  pure ({ available, held := [machineControlBytes, size], joined },
    ⟨snapshot.startSequence, snapshot.endSequence, snapshot.history, gap, h.historyIncomplete⟩, snapshot.ranges)

structure Machines (σ ι : Type) where
  feed : Feed σ
  /-- The session was removed and the hub dropped. -/
  ended : Bool := false
  channel : ι → Option MachineChannel := fun _ => none

inductive MachineAction (ι : Type) where
  | op (o : HubOp)
  | subscribe (i : ι) (after : Option Nat)
  | endSession
  | senderGone (i : ι)
  | poll (i : ι)
  | cancel (i : ι)
  | dropReceiver (i : ι)
  /-- The consumer is done with one of its charges, or takes one for a frame. -/
  | giveBack (i : ι) (k : Nat)
  | tryCharge (i : ι) (bytes : Nat)

namespace Machines
variable {σ ι : Type} [ScreenMirror σ] [DecidableEq ι]

def modify (w : Machines σ ι) (i : ι) (f : MachineChannel → Option MachineChannel) : Option (Machines σ ι) :=
  ((w.channel i).bind f).map fun c => { w with channel := Function.update w.channel i (some c) }

def step (w : Machines σ ι) : MachineAction ι → Option (Machines σ ι)
  | .op o =>
    if w.ended then none
    else
      let feed := w.feed.step o
      let new := feed.sent.drop w.feed.sent.length
      some { w with feed, channel := fun i => (w.channel i).map fun c => new.foldl MachineChannel.offer c }
  | .subscribe i after =>
    if w.ended ∨ (w.channel i).isSome then none
    else match w.feed.hub.subscribeMachine after w.feed.sent.length with
      | .ok (c, _) => some { w with channel := Function.update w.channel i (some c) }
      | .error _ => some w
  | .endSession =>
    if w.ended then none
    else some { w with ended := true, channel := fun i => (w.channel i).map fun c => if c.sender = .live then
      c.dropSender else c }
  | .senderGone i => w.modify i fun c => if c.sender = .dropping then some { c with sender := .gone } else none
  | .poll i => w.modify i MachineChannel.poll
  | .cancel i => w.modify i fun c => if c.phase = .gone then none else some { c with phase := .idle }
  | .dropReceiver i => w.modify i fun c => if c.phase = .gone then none else some { c.closeAndDrain with phase := .gone }
  | .giveBack i k =>
    w.modify i fun c => c.held[k]?.map fun bytes => { c with held := c.held.eraseIdx k, available := c.available + bytes }
  | .tryCharge i bytes => w.modify i fun c => match charge c.available bytes with
    | .ok available => some { c with held := c.held ++ [bytes], available }
    | .error _ => some c

end Machines

def machines (σ ι : Type) [ScreenMirror σ] [DecidableEq ι] (capacity : Nat) (retention : RetentionBudget) :
    System (Machines σ ι) (MachineAction ι) where
  init w := w = { feed := .run capacity retention [] }
  step w a w' := w.step a = some w'

end Ferryx.Terminal
