import Ferryx.Lib.System
import Ferryx.Rd.Packet

/-!
# Pointer input (`ferryx-rd-proto/src/input_batch.rs`, `send_inputs` of `ferryx-rd-app/src/session.rs`,
  and the input packets of
`ferryx-rd-host/src/session.rs` and `ferryx-rd-host/src/udp_input.rs`)

Coordinates have an addition and a test for finite values. Packets are values; what their decoder rejects is a check of the
host. Acknowledgements and echoes are left out.
-/

namespace Ferryx.Rd
open Lib

inductive InputEventType where
  | mouseMove | leftMouseDown | leftMouseUp | rightMouseDown | rightMouseUp | scrollWheel | keyDown | keyUp | flagsChanged
  | leftMouseDragged | rightMouseDragged | middleMouseDown | middleMouseUp | reset | relativeMove | gamepadAxis
  | gamepadButtonDown | gamepadButtonUp | penMove | penDown | penUp | unicodeChar
  deriving DecidableEq, Repr

/-- Numbers that may not be finite. -/
class Coordinate (F : Type) extends Add F where
  isFinite : F → Bool

structure InputEvent (F : Type) where
  eventType : InputEventType
  x : F
  y : F
  keyCode : UInt16
  modifiers : UInt16
  scrollDx : F
  scrollDy : F
  deriving DecidableEq

def maxInputSamples : Nat := 48

def isPointerMotion {F : Type} (e : InputEvent F) : Bool :=
  match e.eventType with
  | .mouseMove | .leftMouseDragged | .rightMouseDragged | .relativeMove | .scrollWheel => true
  | _ => false

structure InputBatch (F : Type) where
  epoch : Nat
  sequence : Nat
  samples : List (InputEvent F)
  deriving DecidableEq

variable {F : Type} [Coordinate F]

def InputEvent.finite (e : InputEvent F) : Bool :=
  [e.x, e.y, e.scrollDx, e.scrollDy].all Coordinate.isFinite

def InputBatch.check (b : InputBatch F) : Except CodecError Unit :=
  if b.samples.length > maxInputSamples then .error (.lengthLimit "input samples" b.samples.length maxInputSamples)
  else if b.samples.any fun e => !isPointerMotion e || !e.finite then .error (.invalidValue "input motion" 0)
  else .ok ()

structure InputJournal (F : Type) where
  epoch : Nat := 0
  sequence : Nat := 0
  pending : List (InputEvent F) := []

namespace InputJournal

def append (j : InputJournal F) (samples : List (InputEvent F)) : InputJournal F × InputBatch F :=
  let j := { j with sequence := j.sequence + 1, pending := j.pending ++ samples }
  (j, ⟨j.epoch, j.sequence, j.pending⟩)

def checkpoint (j : InputJournal F) : InputJournal F × InputBatch F :=
  ({ j with epoch := j.epoch + 1, pending := [] }, ⟨j.epoch, j.sequence, j.pending⟩)

end InputJournal

structure Barrier (F : Type) where
  batch : InputBatch F
  event : Option (InputEvent F)
  deriving DecidableEq

inductive InputPacket (F : Type) where
  | udp (batch : InputBatch F)
  | tcp (barrier : Barrier F)
  deriving DecidableEq

/-- The motion at the head of `events`, as much as the journal has room for; a full journal is sent first. -/
def sendMotion (j : InputJournal F) (events : List (InputEvent F)) : InputJournal F × List (InputPacket F) × Nat :=
  let (j, full) := if j.pending.length = maxInputSamples then
      let (j, batch) := j.checkpoint
      (j, [.tcp ⟨batch, none⟩])
    else (j, [])
  let count := min (events.takeWhile isPointerMotion).length (maxInputSamples - j.pending.length)
  let (j, batch) := j.append (events.take count)
  (j, full ++ [.udp batch], count)

def sendDiscrete (echo : Bool) (j : InputJournal F) (event : InputEvent F) : InputJournal F × InputPacket F :=
  let j := if echo then (j.append []).1 else j
  let (j, batch) := j.checkpoint
  (j, .tcp ⟨batch, some event⟩)

/-- `send_inputs` where UDP input is negotiated. A journal that is not overfull always has room after `sendMotion` made
some. -/
def sendInputs (echo : Bool) (j : InputJournal F) (events : List (InputEvent F)) : InputJournal F × List (InputPacket F) :=
  match events with
  | [] => (j, [])
  | event :: rest =>
    if isPointerMotion event then
      let (j, packets, count) := sendMotion j (event :: rest)
      if count = 0 then (j, packets)
      else
        let (j, more) := sendInputs echo j ((event :: rest).drop count)
        (j, packets ++ more)
    else
      let (j, packet) := sendDiscrete echo j event
      let (j, more) := sendInputs echo j rest
      (j, packet :: more)
termination_by events.length
decreasing_by all_goals simp; try omega

structure InputOrder where
  epoch : Nat := 0
  sequence : Nat := 0
  applied : Nat := 0
  deriving DecidableEq

/-- A sample after others: the same kind of motion with the same modifiers is merged into the last one. -/
def mergeSample (out : List (InputEvent F)) (event : InputEvent F) : List (InputEvent F) :=
  match out.getLast? with
  | none => out ++ [event]
  | some previous =>
    if previous.eventType = event.eventType ∧ previous.modifiers = event.modifiers then
      match event.eventType with
      | .mouseMove | .leftMouseDragged | .rightMouseDragged => out.dropLast ++ [event]
      | .relativeMove | .scrollWheel => out.dropLast ++
        [{ previous with scrollDx := previous.scrollDx + event.scrollDx, scrollDy := previous.scrollDy + event.scrollDy }]
      | _ => out ++ [event]
    else out ++ [event]

def mergeSamples (samples : List (InputEvent F)) : List (InputEvent F) := samples.foldl mergeSample []

def InputOrder.fresh (o : InputOrder) (b : InputBatch F) : List (InputEvent F) :=
  if b.epoch = o.epoch ∧ o.sequence < b.sequence then b.samples.drop o.applied else []

def InputOrder.accept (o : InputOrder) (b : InputBatch F) (barrier : Bool) : InputOrder × List (InputEvent F) :=
  if b.epoch ≠ o.epoch then (o, [])
  else
    let out := mergeSamples (o.fresh b)
    let o := if o.sequence < b.sequence then { o with sequence := b.sequence, applied := b.samples.length } else o
    let o := if barrier then { o with epoch := o.epoch + 1, applied := 0 } else o
    (o, out)

structure InputPolicy where
  echo : Bool
  keyboard : Bool
  mouse : Bool
  gamepad : Bool

namespace InputPolicy

def masked (p : InputPolicy) (e : InputEvent F) : InputEvent F := if p.keyboard then e else { e with modifiers := 0 }

def motions (p : InputPolicy) (out : List (InputEvent F)) : List (InputEvent F) := if p.mouse then out.map p.masked else []

def allows (p : InputPolicy) : InputEventType → Bool
  | .keyDown | .keyUp | .flagsChanged | .unicodeChar => p.keyboard
  | .gamepadAxis | .gamepadButtonDown | .gamepadButtonUp => p.gamepad
  | .reset => true
  | _ => p.mouse

end InputPolicy

structure InputHost (F : Type) where
  order : InputOrder := {}
  /-- A reliable packet did not decode, which ends the session. -/
  closed : Bool := false
  injected : List (InputEvent F) := []

namespace InputHost

def receiveUdp (p : InputPolicy) (h : InputHost F) (b : InputBatch F) : InputHost F :=
  match b.check with
  | .error _ => h
  | .ok () =>
    let (order, out) := h.order.accept b false
    { h with order, injected := h.injected ++ p.motions out }

def receiveTcp (p : InputPolicy) (h : InputHost F) (b : Barrier F) : InputHost F :=
  match b.batch.check with
  | .error _ => { h with closed := true }
  | .ok () =>
    let (order, out) := h.order.accept b.batch true
    let event := (b.event.map p.masked).toList.filter fun e => p.allows e.eventType
    { h with order, injected := h.injected ++ p.motions out ++ event }

end InputHost

/-- Datagrams may be lost, delayed, reordered and repeated: any datagram sent so far may arrive at any time. The last two
    fields record the past; no step reads them. -/
structure InputLink (F : Type) where
  journal : InputJournal F := {}
  host : InputHost F := {}
  udp : List (InputBatch F) := []
  tcp : List (Barrier F) := []
  sent : List (InputEvent F) := []
  /-- The samples that the host took from each packet, and each discrete event. -/
  groups : List (List (InputEvent F)) := []

inductive InputAction (F : Type) where
  | sendInputs (events : List (InputEvent F))
  | deliverUdp (k : Nat)
  | deliverTcp

namespace InputLink

def emit (w : InputLink F) (j : InputJournal F) (packets : List (InputPacket F)) (events : List (InputEvent F)) :
    InputLink F :=
  { w with
    journal := j
    udp := w.udp ++ packets.filterMap fun | .udp b => some b | .tcp _ => none
    tcp := w.tcp ++ packets.filterMap fun | .udp _ => none | .tcp b => some b
    sent := w.sent ++ events }

def step (p : InputPolicy) (w : InputLink F) : InputAction F → InputLink F
  | .sendInputs events =>
    let (j, packets) := sendInputs p.echo w.journal events
    w.emit j packets events
  | .deliverUdp k => match w.udp[k]? with
    | none => w
    | some b =>
      if w.host.closed then w
      else
        { w with
          host := w.host.receiveUdp p b
          groups := if b.check.isOk then w.groups ++ [w.host.order.fresh b] else w.groups }
  | .deliverTcp => match w.tcp with
    | [] => w
    | b :: rest =>
      if w.host.closed then { w with tcp := rest }
      else
        { w with
          host := w.host.receiveTcp p b
          tcp := rest
          groups := if b.batch.check.isOk then w.groups ++ [w.host.order.fresh b.batch] ++ b.event.toList.map ([·])
            else w.groups }

end InputLink

def inputLink (F : Type) [Coordinate F] (p : InputPolicy) : System (InputLink F) (InputAction F) where
  init w := w = {}
  step w a w' := w' = w.step p a

end Ferryx.Rd
