import Ferryx.Fxsh.Messages

/-! # The table of operations of a host (`session-core/src/operations.rs`)

A client reserves an id before it asks for a spawn or a kill, so that it can ask again. `decide` says what to do with a
request, `complete` stores its result, and `evict` drops what is out of date. -/

namespace Ferryx
open Std Fxsh Lib

inductive Stored where
  | reserved (atMs : Nat)
  | completed (hash : Nat) (result : List UInt8) (session : Option Uuid) (doneMs : Nat)
  deriving DecidableEq

inductive Decision where
  | execute
  | replay (result : List UInt8)
  | unknown
  | expired
  | conflict
  deriving DecidableEq

/-- The hash of a request (`xxh3_128`), which a third-party crate computes. -/
class RequestHasher where
  xxh3 : List UInt8 → Nat

def requestHash [RequestHasher] (command : UInt16) (sessionId : Uuid) (payload : List UInt8) : Nat :=
  RequestHasher.xxh3 (putU16 command ++ sessionId.bytes.val ++ payload)

def reservedTtlMs : Nat := 24 * 3600 * 1000
def completedTtlMs : Nat := 25 * 3600 * 1000

structure OperationTable where
  host : Uuid
  maxIssued : Nat := 0
  entries : ExtTreeMap Nat (OperationKind × Stored) := ∅

namespace OperationTable

def new (host : Uuid) : OperationTable := { host }

def reserve (t : OperationTable) (kind : OperationKind) (nowMs : Nat) : OperationTable × OperationId :=
  let seq := t.maxIssued + 1
  ({ t with maxIssued := seq, entries := t.entries.insert seq (kind, .reserved nowMs) }, ⟨t.host, .ofNat seq⟩)

def decide (t : OperationTable) (id : OperationId) (kind : OperationKind) (hash : Nat) : Decision :=
  if id.hostInstanceId ≠ t.host ∨ t.maxIssued < id.opSeq.toNat ∨ id.opSeq = 0 then .unknown
  else match t.entries[id.opSeq.toNat]? with
    | none => .expired
    | some (k, stored) =>
      if k ≠ kind then .conflict
      else match stored with
        | .reserved _ => .execute
        | .completed h result _ _ => if h = hash then .replay result else .conflict

def complete (t : OperationTable) (id : OperationId) (hash : Nat) (result : List UInt8) (session : Option Uuid)
    (nowMs : Nat) :
    OperationTable :=
  { t with entries := t.entries.modify id.opSeq.toNat fun e => (e.1, .completed hash result session nowMs) }

/-- Whether `evict` retains an entry. `liveSession` says when a session ended, and nothing of one that lives. Sums
    of `u64` wrap, as they do in a release build. -/
def retains (nowMs : Nat) (liveSession : Uuid → Option Nat) (kind : OperationKind) : Stored → Bool
  | .reserved atMs => nowMs < (atMs + reservedTtlMs) % 2 ^ 64
  | .completed _ _ session doneMs =>
    match session, kind with
    | some sid, .spawn =>
      match liveSession sid with
      | none => true
      | some endedMs => nowMs < (max endedMs doneMs + completedTtlMs) % 2 ^ 64
    | _, _ => nowMs < (doneMs + completedTtlMs) % 2 ^ 64

def evict (t : OperationTable) (nowMs : Nat) (liveSession : Uuid → Option Nat) : OperationTable :=
  { t with entries := t.entries.filter fun _ e => retains nowMs liveSession e.1 e.2 }

end OperationTable
end Ferryx
