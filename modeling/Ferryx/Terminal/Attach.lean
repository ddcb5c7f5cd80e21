import Ferryx.Lib.System
import Ferryx.Terminal.OutputHub

/-!
# Attaching while output is published (`terminal/output_hub.rs`)

Steps are the operations of a hub and the sections of an attach under its lock: one for `subscribe_with_sequence_ranges`,
two for `subscribe_with_screen_mirror`. A receiver misses the oldest chunks if more than its capacity are unread.
-/

namespace Ferryx.Terminal
open Lib

structure Attachment where
  after : Option Nat
  mirrored : Bool
  pending : Bool
  snapshot : AttachmentSnapshot
  ranges : List HistoryRange
  queue : List OutputChunk := []
  taken : List OutputChunk := []
  lagged : Bool := false
  deriving DecidableEq

namespace Attachment

def send (a : Attachment) (c : OutputChunk) : Attachment :=
  if a.queue.length < broadcastCapacity then { a with queue := a.queue ++ [c] }
  else { a with queue := a.queue.tail ++ [c], lagged := true }

def recv (a : Attachment) : Attachment :=
  match a.queue with
  | [] => a
  | c :: queue => { a with queue, taken := a.taken ++ [c] }

end Attachment

structure Attaching (σ ι : Type) where
  feed : Feed σ
  ops : List HubOp := []
  attached : ι → Option Attachment := fun _ => none

inductive AttachAction (ι : Type) where
  | op (o : HubOp)
  | attach (i : ι) (after : Option Nat) (mirrored : Bool)
  | substitute (i : ι)
  | recv (i : ι)

namespace Attaching
variable {σ ι : Type} [ScreenMirror σ] [DecidableEq ι]

def step (w : Attaching σ ι) : AttachAction ι → Option (Attaching σ ι)
  | .op o =>
    let feed := w.feed.step o
    let new := feed.sent.drop w.feed.sent.length
    some { feed, ops := w.ops ++ [o], attached := fun i => (w.attached i).map fun a => new.foldl Attachment.send a }
  | .attach i after mirrored => match w.attached i with
    | none =>
      let (snapshot, ranges) := w.feed.hub.subscribeWithSequenceRanges after
      some { w with
        attached := Function.update w.attached i (some { after, mirrored, pending := mirrored, snapshot, ranges }) }
    | some _ => none
  | .substitute i => match w.attached i with
    | some a =>
      if a.pending then
        let (snapshot, ranges) := w.feed.hub.substituteScreen a.after (a.snapshot, a.ranges)
        some { w with attached := Function.update w.attached i (some { a with pending := false, snapshot, ranges }) }
      else none
    | none => none
  | .recv i => match w.attached i with
    | some a => some { w with attached := Function.update w.attached i (some a.recv) }
    | none => none

end Attaching

def attaching (σ ι : Type) [ScreenMirror σ] [DecidableEq ι] (capacity : Nat) (retention : RetentionBudget) :
    System (Attaching σ ι) (AttachAction ι) where
  init w := w = { feed := .run capacity retention [] }
  step w a w' := w.step a = some w'

end Ferryx.Terminal
