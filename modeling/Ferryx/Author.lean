import Mathlib

/-!
# The input author (`session-core/src/author.rs`)

An author types bytes into the session it is bound to, holds at most one input lease (`cur`), sends the bytes of the lease's
epoch in chunks, and finds out what became of the epochs it lost (`finalizing`). Handlers append what they send to `out`.
The byte type `β` is left open; counters and identifiers are unbounded.
-/

namespace Ferryx
open Std

def sendWindow : Nat := 1024 * 1024

def chunk : Nat := 64 * 1024

def maxInflight : Nat := 4

inductive Status where
  | written
  | acceptedPendingWrite
  | acceptedThenDropped
  | notDelivered
  | outcomeUnknown
  deriving DecidableEq, Repr

/-- What an author sends to a session, or reports to the user (`classified`). -/
inductive Out (β : Type) where
  | acquire (id session : Nat)
  | reclaim (id session epoch : Nat)
  | release (id session epoch : Nat)
  | write (attempt session epoch start : Nat) (bytes : List β)
  | getEpochState (id session epoch : Nat)
  | classified (session epoch firstOffset : Nat) (bytes : List β) (statuses : List Status)
  deriving DecidableEq

abbrev EpochKey := Nat × Nat

instance : Ord EpochKey := lexOrd

structure Segment (β : Type) where
  base : Nat
  bytes : List β
  deriving DecidableEq

structure Cur (β : Type) where
  session : Nat
  epoch : Nat
  accepted : Nat
  committed : Nat
  seg : Segment β
  deriving DecidableEq

structure Finalizing (β : Type) where
  seg : Segment β
  query : Option Nat
  retry : Bool
  highAccepted : Nat
  highCommitted : Nat
  deriving DecidableEq

def Cur.ack {β : Type} (c : Cur β) (accepted committed : Nat) : Cur β :=
  let acc := max c.accepted accepted
  let com := max c.committed committed
  let consumed := acc - c.seg.base
  { c with
    accepted := acc, committed := com
    seg := if consumed > 0 then ⟨acc, c.seg.bytes.drop (min consumed c.seg.bytes.length)⟩ else c.seg }

def Finalizing.ack {β : Type} (f : Finalizing β) (accepted committed : Nat) : Finalizing β :=
  { f with highAccepted := max f.highAccepted accepted, highCommitted := max f.highCommitted committed }

/-- The status of the byte at offset `off`, from the final counters of its epoch (accepted, committed,
    dropped) when the session told them. -/
def Finalizing.status {β : Type} (f : Finalizing β) (finals : Option (Nat × Nat × Nat)) (off : Nat) : Status :=
  match finals with
  | none => if off < f.highCommitted then .written else .outcomeUnknown
  | some (fa, cm, pd) =>
    if off < cm then .written
    else if off < fa - pd then .acceptedPendingWrite
    else if off < fa then .acceptedThenDropped
    else .notDelivered

def Finalizing.failQuery {β : Type} (id : Nat) (f : Finalizing β) : Finalizing β :=
  if f.query = some id then { f with query := none, retry := true } else f

def Finalizing.clearRetry {β : Type} (f : Finalizing β) : Finalizing β := { f with retry := false }

def Finalizing.clearQuery {β : Type} (f : Finalizing β) : Finalizing β := { f with query := none }

inductive PendingKind where
  | acquire
  | reclaim (epoch : Nat)
  | probe
  | release
  deriving DecidableEq, Repr

structure Pending where
  id : Nat
  kind : PendingKind
  session : Nat
  deriving DecidableEq, Repr

structure Author (β : Type) where
  session : Nat
  focused : Bool := false
  typing : Bool := false
  suppressed : Bool := false
  suppressedEpoch : Nat := 0
  needsProbe : Bool := false
  needsReclaim : Bool := false
  retryTimer : Bool := false
  sendTimer : Bool := false
  pending : Option Pending := none
  cur : Option (Cur β) := none
  unassigned : List β := []
  finalizing : ExtTreeMap EpochKey (Finalizing β) := ∅
  inflight : ExtTreeMap Nat (Nat × Nat) := ∅
  disowned : ExtTreeSet Nat := ∅
  nextId : Nat := 0
  out : List (Out β) := []

namespace Author
variable {β : Type}

def new (session : Nat) : Author β := { session }

def current (a : Author β) : Option EpochKey := a.cur.map fun c => (c.session, c.epoch)

def unacceptedLen (a : Author β) : Nat :=
  match a.cur with
  | some c => c.seg.base + c.seg.bytes.length - c.accepted
  | none => 0

def holds (a : Author β) (session epoch : Nat) : Bool := a.current == some (session, epoch)

def acquireCond (a : Author β) : Bool :=
  a.focused && !a.suppressed && (!a.unassigned.isEmpty || a.typing)

def takeId (a : Author β) : Author β := { a with nextId := a.nextId + 1 }

def push (a : Author β) (o : Out β) : Author β := { a with out := a.out ++ [o] }

def requestOut (a : Author β) (id : Nat) (kind : PendingKind) (session : Nat) : Out β :=
  match kind with
  | .acquire => .acquire id session
  | .reclaim epoch => .reclaim id session epoch
  | .probe => .reclaim id session a.suppressedEpoch
  | .release => .release id session 0

def request (a : Author β) (kind : PendingKind) (session : Nat) : Author β :=
  let a := a.takeId
  { a with pending := some ⟨a.nextId, kind, session⟩ }.push (a.requestOut a.nextId kind session)

def unsuppress (a : Author β) : Author β := { a with suppressed := false, needsProbe := false }

def classify (a : Author β) (session epoch : Nat) (finals : Option (Nat × Nat × Nat)) : Author β :=
  match a.finalizing[(session, epoch)]? with
  | none => a
  | some f =>
    let statuses := (List.range f.seg.bytes.length).map fun i => f.status finals (f.seg.base + i)
    { a with finalizing := a.finalizing.erase (session, epoch) }.push
      (.classified session epoch f.seg.base f.seg.bytes statuses)

def setFinalizing (a : Author β) (k : EpochKey) (f : Finalizing β) : Author β :=
  { a with finalizing := a.finalizing.insert k f }

def mapFinalizing (a : Author β) (g : Finalizing β → Finalizing β) : Author β :=
  { a with finalizing := a.finalizing.map fun _ f => g f }

def detach (a : Author β) (c : Cur β) (other : Bool) : Author β :=
  let reclaiming := a.pending.any fun p => p.session == c.session && p.kind == .reclaim c.epoch
  { a with
    cur := none, inflight := ∅, needsReclaim := false, sendTimer := false
    pending := if reclaiming then none else a.pending
    finalizing := a.finalizing.insert (c.session, c.epoch)
      { seg := c.seg, query := none, retry := false, highAccepted := c.accepted, highCommitted := c.committed }
    suppressed := a.suppressed || other
    suppressedEpoch := if other then c.epoch else a.suppressedEpoch }

def lose (a : Author β) (session epoch : Nat) (finals : Option (Nat × Nat × Nat)) (other : Bool) : Author β :=
  match a.cur with
  | none => a
  | some c =>
    if c.session = session ∧ c.epoch = epoch then
      let a := a.detach c other
      if finals.isSome then a.classify session epoch finals else a
    else a

def releaseCur (a : Author β) : Author β :=
  match a.current with
  | none => a
  | some (session, epoch) =>
    let a := a.takeId
    (a.push (.release a.nextId session epoch)).lose session epoch none false

def slice {α : Type} (xs : List α) (i j : Nat) : List α := (xs.drop i).take (j - i)

def sendChunk (a : Author β) (c : Cur β) (next stop : Nat) : Author β :=
  let bytes := slice c.seg.bytes (next - c.seg.base) (stop - c.seg.base)
  let a := a.takeId
  { a with inflight := a.inflight.insert a.nextId (next, stop) }.push (.write a.nextId c.session c.epoch next bytes)

/-- The loop of `send`: one write per turn while a slot is free and the window is open. The fuel is the number of slots. -/
def sendLoop (c : Cur β) (windowEnd : Nat) : (fuel next : Nat) → Author β → Author β
  | 0, _, a => a
  | fuel + 1, next, a =>
    if a.inflight.size < maxInflight ∧ next < windowEnd then
      let stop := min windowEnd (next + chunk)
      sendLoop c windowEnd fuel stop (a.sendChunk c next stop)
    else a

def sentEnd (a : Author β) (accepted : Nat) : Nat :=
  max ((a.inflight.values.map Prod.snd).max?.getD accepted) accepted

def send (a : Author β) : Author β :=
  if a.needsReclaim || a.sendTimer then a
  else match a.cur with
    | none => a
    | some c =>
      let windowEnd := min (c.seg.base + c.seg.bytes.length) (c.accepted + sendWindow)
      sendLoop c windowEnd maxInflight (a.sentEnd c.accepted) a

def queryEpoch (a : Author β) (k : EpochKey) : Author β :=
  let a := a.takeId
  { a with finalizing := a.finalizing.modify k fun f => { f with query := some a.nextId } }.push
    (.getEpochState a.nextId k.1 k.2)

def queryDue (a : Author β) : Author β :=
  (a.finalizing.filter fun _ f => f.query.isNone && !f.retry).keys.foldl queryEpoch a

def nextRequest (a : Author β) : Author β :=
  match a.cur, a.needsReclaim with
  | some c, true => a.request (.reclaim c.epoch) c.session
  | _, _ =>
    if a.cur.isNone && a.suppressed && a.needsProbe then a.request .probe a.session
    else if a.cur.isNone && a.acquireCond then a.request .acquire a.session
    else match a.disowned.toList.head? with
      | some session => a.request .release session
      | none => a

def releaseIdle (a : Author β) : Author β :=
  if a.cur.isSome && !a.focused && a.unacceptedLen == 0 && a.inflight.isEmpty then a.releaseCur else a

def requestDue (a : Author β) : Author β :=
  if a.pending.isNone && !a.retryTimer then a.nextRequest else a

def reevaluate (a : Author β) : Author β := a.queryDue.releaseIdle.requestDue.send

def startTyping (a : Author β) : Author β := { a with typing := true }.unsuppress

def appendTyped (a : Author β) (b : List β) : Author β :=
  match a.cur with
  | some c => { a with cur := some { c with seg := { c.seg with bytes := c.seg.bytes ++ b } } }
  | none => { a with unassigned := a.unassigned ++ b }

def typeBytes (a : Author β) (b : List β) : Author β := (a.startTyping.appendTyped b).reevaluate

def setFocus (a : Author β) (focused : Bool) : Author β :=
  let a := { a with focused }
  (if focused then a.unsuppress else { a with typing := false }).reevaluate

/-- What rebinding does to the request in flight: an acquire may still be granted, so its session is
    disowned. -/
def abandonPending (a : Author β) : Author β :=
  match a.pending with
  | some ⟨_, .acquire, psession⟩ => { a with disowned := a.disowned.insert psession, pending := none }
  | some ⟨_, .probe, _⟩ => { a with pending := none }
  | _ => a

def dropUnassigned (a : Author β) : Author β :=
  if a.unassigned.isEmpty then a
  else { a with unassigned := [] }.push
    (.classified a.session 0 0 a.unassigned (List.replicate a.unassigned.length .notDelivered))

def rebind (a : Author β) (session : Nat) : Author β :=
  let a := a.releaseCur.abandonPending.dropUnassigned
  { a with session, typing := false }.unsuppress.reevaluate

def releaseGrant (a : Author β) (session epoch : Nat) : Author β :=
  let a := a.takeId
  let a := a.push (.release a.nextId session epoch)
  if a.cur.any fun c => c.session == session then a
  else { a with disowned := a.disowned.insert session }

def adopt (a : Author β) (session epoch : Nat) : Author β :=
  { a with
    unassigned := []
    cur := some { session, epoch, accepted := 0, committed := 0, seg := ⟨0, a.unassigned⟩ }
    inflight := ∅
    disowned := a.disowned.erase session }

def takeGrant (a : Author β) (id session epoch : Nat) : Author β :=
  match a.pending with
  | some ⟨pid, .acquire, psession⟩ =>
    if pid = id then
      let a := { a with pending := none }
      if psession = session ∧ session = a.session ∧ a.focused = true ∧ a.suppressed = false then
        a.adopt session epoch
      else a.releaseGrant session epoch
    else a.releaseGrant session epoch
  | _ => a.releaseGrant session epoch

def onGranted (a : Author β) (id session epoch : Nat) : Author β := (a.takeGrant id session epoch).reevaluate

def confirmRelease (a : Author β) (id : Nat) : Author β :=
  match a.pending with
  | some ⟨pid, .release, psession⟩ =>
    if pid = id then { a with pending := none, disowned := a.disowned.erase psession } else a
  | _ => a

def onReleased (a : Author β) (id : Nat) : Author β := (a.confirmRelease id).reevaluate

def ack (a : Author β) (session epoch accepted committed : Nat) : Author β :=
  match a.cur with
  | some c =>
    if c.session = session ∧ c.epoch = epoch then { a with cur := some (c.ack accepted committed) }
    else { a with finalizing := a.finalizing.modify (session, epoch) fun f => f.ack accepted committed }
  | none => { a with finalizing := a.finalizing.modify (session, epoch) fun f => f.ack accepted committed }

def ackGrows (a : Author β) (session epoch accepted committed : Nat) : Bool :=
  match a.cur with
  | some c => c.session == session && c.epoch == epoch && (c.accepted < accepted || c.committed < committed)
  | none => false

def answered (a : Author β) (attempt : Option Nat) (session epoch : Nat) : Author β :=
  match attempt with
  | some t => if a.holds session epoch then { a with inflight := a.inflight.erase t } else a
  | none => a

def resumeSending (a : Author β) : Author β :=
  let acc := (a.cur.map (·.accepted)).getD 0
  { a with sendTimer := false, inflight := a.inflight.filter fun _ r => decide (acc < r.2) }

def onInputAck (a : Author β) (attempt : Option Nat) (session epoch accepted committed : Nat) : Author β :=
  let a := a.answered attempt session epoch
  let grew := a.ackGrows session epoch accepted committed
  let a := a.ack session epoch accepted committed
  (if grew then a.resumeSending else a).reevaluate

def ackGap (a : Author β) (session epoch : Nat) (gapAccepted : Option Nat) : Author β :=
  match gapAccepted with
  | some acc => a.ack session epoch acc 0
  | none => a

def onWriteRetryable (a : Author β) (attempt session epoch : Nat) (gapAccepted : Option Nat) : Author β :=
  if !a.holds session epoch || !a.inflight.contains attempt then a
  else { a.ackGap session epoch gapAccepted with inflight := ∅, sendTimer := true }.reevaluate

def onSendTimer (a : Author β) : Author β := { a with sendTimer := false }.reevaluate

def onLeaseLost (a : Author β) (session epoch newEpochOrCurrent : Nat) : Author β :=
  (a.lose session epoch none (newEpochOrCurrent != 0)).reevaluate

def onVacated (a : Author β) (session : Nat) : Author β :=
  (if session = a.session then a.unsuppress else a).reevaluate

def finishProbe (a : Author β) (session currentEpoch : Nat) : Author β :=
  if session = a.session then
    { a with needsProbe := false, suppressed := a.suppressed && currentEpoch != 0 }
  else a

def finishReclaim (a : Author β) (session epoch : Nat) (ok : Bool) (currentEpoch accepted committed : Nat)
    (finals : Option (Nat × Nat × Nat)) : Author β :=
  if a.holds session epoch then
    if ok = true ∧ currentEpoch = epoch then
      { a with needsReclaim := false, inflight := ∅ }.ack session epoch accepted committed
    else a.lose session epoch finals (currentEpoch != 0)
  else a

def onReclaimResult (a : Author β) (id : Nat) (ok : Bool) (currentEpoch accepted committed : Nat)
    (finals : Option (Nat × Nat × Nat)) : Author β :=
  match a.pending with
  | some ⟨pid, .probe, psession⟩ =>
    if pid = id then ({ a with pending := none }.finishProbe psession currentEpoch).reevaluate else a
  | some ⟨pid, .reclaim e, psession⟩ =>
    if pid = id then
      ({ a with pending := none }.finishReclaim psession e ok currentEpoch accepted committed finals).reevaluate
    else a
  | _ => a

def onReclaimEpochUnknown (a : Author β) (id : Nat) : Author β :=
  match a.pending with
  | some ⟨pid, kind, psession⟩ =>
    if pid = id then
      let a := { a with pending := none }
      match kind with
      | .reclaim e => (a.lose psession e none true).reevaluate
      | _ => a.reevaluate
    else a
  | none => a

def onEpochState (a : Author β) (id session epoch fa cm pd : Nat) (fenced : Bool) : Author β :=
  match a.finalizing[(session, epoch)]? with
  | none => a
  | some f =>
    if f.query ≠ some id then a
    else if fenced then
      ((a.setFinalizing (session, epoch) { f with query := none }).classify
        session epoch (some (fa, cm, pd))).reevaluate
    else
      let a := (a.setFinalizing (session, epoch) { f with query := none, retry := true }).takeId
      (a.push (.release a.nextId session epoch)).reevaluate

def onEpochUnknown (a : Author β) (session epoch : Nat) : Author β :=
  (a.classify session epoch none).reevaluate

def failPending (a : Author β) (id : Nat) : Author β :=
  match a.pending with
  | some ⟨pid, kind, psession⟩ =>
    if pid = id then
      { a with
        disowned := if kind = .acquire then a.disowned.insert psession else a.disowned
        pending := none, retryTimer := true }
    else a
  | none => a

def onRequestFailed (a : Author β) (id : Nat) : Author β :=
  ((a.failPending id).mapFinalizing (Finalizing.failQuery id)).reevaluate

def onRetryTimer (a : Author β) : Author β :=
  ({ a with retryTimer := false }.mapFinalizing Finalizing.clearRetry).reevaluate

def dropPending (a : Author β) : Author β :=
  match a.pending with
  | some ⟨_, .acquire, psession⟩ => { a with disowned := a.disowned.insert psession, pending := none }
  | _ => { a with pending := none }

def resetConnection (a : Author β) : Author β :=
  { a with
    retryTimer := false, inflight := ∅
    needsReclaim := a.needsReclaim || a.cur.isSome
    needsProbe := a.needsProbe || a.suppressed }

def onReconnect (a : Author β) : Author β :=
  (a.dropPending.resetConnection.mapFinalizing Finalizing.clearQuery).reevaluate

def loseOwned (a : Author β) (session : Nat) : Author β :=
  match a.current with
  | some (s, e) => if s = session then a.lose s e none false else a
  | none => a

def classifyOwned (a : Author β) (session : Nat) : Author β :=
  (a.finalizing.keys.filter fun k => k.1 == session).foldl (fun a k => a.classify k.1 k.2 none) a

def forgetRequests (a : Author β) (session : Nat) : Author β :=
  { a with
    disowned := a.disowned.erase session
    pending := if a.pending.any (fun p : Pending => p.session == session) then none else a.pending }

/-- The host of the session is gone: every byte of it that is not known written has an unknown outcome. -/
def onOwnerLost (a : Author β) (session : Nat) : Author β :=
  (((a.loseOwned session).classifyOwned session).forgetRequests session).reevaluate

end Author
end Ferryx
