import Ferryx.Replica
import Ferryx.Lib.System

/-! # The replica of a client (`session-core/src/client.rs`)

A client installs snapshots, whole or in chunks, and applies the deltas that follow. The hash behind
`state_digest` is a parameter. -/

namespace Ferryx
open Fxsh Lib

class StateDigest where
  stateDigest : SBody → Digest

export StateDigest (stateDigest)

theorem length_replicate_sixteen (b : UInt8) : (List.replicate 16 b).length = 16 := List.length_replicate

def sixteen (b : UInt8) : { bs : List UInt8 // bs.length = 16 } := ⟨List.replicate 16 b, length_replicate_sixteen b⟩

@[reducible] def zeroDigest : StateDigest := ⟨fun _ => ⟨sixteen 0⟩⟩

def maxBody : Nat := sMax + 1024 * 1024

inductive ClientOut where
  | resync
  | applied (revision : UInt64) (events : List UiEvent) (uiEventGap : Bool)
  | digestMismatch
  deriving DecidableEq

structure Assembly where
  snapshotId : UInt64
  total : UInt32
  totalLen : UInt32
  nextIndex : UInt32
  bytes : List UInt8

structure ReplicaClient where
  incarnation : Uuid
  subscriptionId : Option UInt64 := none
  replica : Option Replica := none
  localRevision : UInt64 := 0
  lastAppliedSnapshot : UInt64 := 0
  discardedSnapshot : UInt64 := 0
  resyncRequested : Bool := false
  assembly : Option Assembly := none
  awaitingFirst : Bool := false
  buffered : List Delta := []
  lastUiEventId : UInt64 := 0

inductive Arrival where
  | none
  | discard
  | install (body : Body)

namespace ReplicaClient

def adopt (w : ReplicaClient) (subscriptionId : UInt64) (snapshotFollows : Bool) (revision : UInt64) : ReplicaClient :=
  { w with
    subscriptionId := some subscriptionId, assembly := none, buffered := [], lastAppliedSnapshot :=
      0, discardedSnapshot := 0
    resyncRequested := false, awaitingFirst := snapshotFollows
    localRevision := if snapshotFollows then w.localRevision else revision }

def assembling (w : ReplicaClient) : Bool := w.awaitingFirst || w.resyncRequested || w.assembly.isSome

def discard (w : ReplicaClient) (snapshotId : UInt64) : ReplicaClient × ClientOut :=
  ({ w with assembly := none, discardedSnapshot := max w.discardedSnapshot snapshotId, resyncRequested := true }, .resync)

def newEvents (last : UInt64) : List UiEvent → UInt64 × List UiEvent
  | [] => (last, [])
  | e :: es =>
    if last < e.eventId then ((newEvents e.eventId es).1, e :: (newEvents e.eventId es).2) else newEvents last es

def apply (w : ReplicaClient) (d : Delta) : ReplicaClient × Option ClientOut :=
  if d.baseRevision ≠ w.localRevision then ({ w with resyncRequested := true }, some .resync)
  else match w.replica with
    | none => (w, none)
    | some replica =>
      let (replica, all) := replica.applyDelta d
      let (last, events) := newEvents w.lastUiEventId all
      ({ w with replica := some replica, localRevision := d.newRevision, lastUiEventId := last },
        some (.applied d.newRevision events false))

def catchUp (w : ReplicaClient) (gap : Bool) (events : List UiEvent) : List Delta → ReplicaClient × ClientOut
  | [] => (w, .applied w.localRevision events gap)
  | d :: ds => match w.apply d with
    | (w, some (.applied _ e _)) => w.catchUp gap (events ++ e) ds
    | (w, some other) => (w, other)
    | (w, none) => w.catchUp gap events ds

def arrive (w : ReplicaClient) (f : SnapshotFrame) : ReplicaClient × Arrival :=
  if some f.subscriptionId ≠ w.subscriptionId ∨ f.sessionIncarnation ≠ w.incarnation then (w, .none)
  else if f.snapshotId ≤ max w.lastAppliedSnapshot w.discardedSnapshot then (w, .none)
  else if w.assembly.any fun a => f.snapshotId < a.snapshotId then (w, .none)
  else
    let w := if w.assembly.any fun a => a.snapshotId < f.snapshotId then { w with assembly := none, buffered := [] } else w
    match f.payload with
    | .full body => (w, .install body)
    | .chunk index total totalLen bytes =>
      let a := w.assembly.getD ⟨f.snapshotId, total, totalLen, 0, []⟩
      if a.total = total ∧ a.totalLen = totalLen ∧ a.nextIndex = index ∧ totalLen.toNat ≤ maxBody ∧
          a.bytes.length + bytes.bytes.length ≤ totalLen.toNat then
        let a := { a with bytes := a.bytes ++ bytes.bytes, nextIndex := a.nextIndex + 1 }
        if a.nextIndex < a.total then ({ w with assembly := some a }, .none)
        else if a.bytes.length ≠ a.totalLen.toNat then (w, .discard)
        else match (dec : Reader Body) a.bytes with
          | .ok (body, _) => (w, .install body)
          | .error _ => (w, .discard)
      else (w, .discard)

def onDelta (w : ReplicaClient) (d : Delta) : ReplicaClient × Option ClientOut :=
  if some d.subscriptionId ≠ w.subscriptionId then (w, none)
  else if w.assembling then ({ w with buffered := w.buffered ++ [d] }, none)
  else w.apply d

variable [StateDigest]

def install (w : ReplicaClient) (snapshotId : UInt64) (body : Body) : ReplicaClient × ClientOut :=
  let w := { w with
    assembly := none, awaitingFirst := false, resyncRequested := false, lastAppliedSnapshot := snapshotId
    replica := some (.fromBody body.state), localRevision := body.revision
    lastUiEventId := if body.nextUiEventId = 0 then 0 else body.nextUiEventId - 1 }
  if stateDigest body.state ≠ body.stateDigest then ({ w with buffered := [], resyncRequested := true }, .digestMismatch)
  else
    let sorted := (w.buffered.filter fun d => body.revision ≤ d.baseRevision).mergeSort fun a b =>
        a.baseRevision ≤ b.baseRevision
    { w with buffered := [] }.catchUp body.uiEventGap [] sorted

def onSnapshot (w : ReplicaClient) (f : SnapshotFrame) : ReplicaClient × Option ClientOut :=
  match w.arrive f with
  | (w, .none) => (w, none)
  | (w, .discard) => ((w.discard f.snapshotId).1, (w.discard f.snapshotId).2)
  | (w, .install body) => ((w.install f.snapshotId body).1, (w.install f.snapshotId body).2)

end ReplicaClient

inductive ClientCall where
  | adopt (subscriptionId : UInt64) (snapshotFollows : Bool) (revision : UInt64)
  | onSnapshot (f : SnapshotFrame)
  | onDelta (d : Delta)

structure Following where
  client : ReplicaClient
  mismatched : Bool := false

variable [StateDigest]

def Following.step (w : Following) : ClientCall → Following
  | .adopt subscriptionId snapshotFollows revision =>
    { w with client := w.client.adopt subscriptionId snapshotFollows revision }
  | .onSnapshot f => ⟨(w.client.onSnapshot f).1, match (w.client.arrive f).2 with
    | .install body => stateDigest body.state ≠ body.stateDigest
    | _ => w.mismatched⟩
  | .onDelta d => { w with client := (w.client.onDelta d).1 }

def following : System Following ClientCall where
  init w := ∃ incarnation, w = ⟨{ incarnation }, false⟩
  step w c w' := w' = w.step c

end Ferryx
