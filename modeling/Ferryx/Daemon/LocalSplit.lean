import Ferryx.Lib.System
import Ferryx.Lib.TreeMap

/-!
# Local split operations (`src-tauri/src/daemon/session_service.rs`, `split_journal.rs`)

Any number of calls for one request in one daemon epoch. The cancel fence, the requests and each workspace have a journal
with at most one entry for the request. A journal operation, a listing, a spawn, a description and a close are a step each.
The entry's request id and the other epochs are left out.
-/

namespace Ferryx.Daemon
open Lib Std

structure SessionDetails where
  incarnation : Option String
  workspaceId : Option String
  worktree : Option String
  deriving DecidableEq

inductive SplitUnknownReason where
  | epochChanged | publicationUncertain
  deriving DecidableEq

inductive SplitOperationResult where
  | absent (canCreate : Bool)
  | created (sessionId daemonEpoch : Nat) (session : SessionDetails)
  | cancelled
  | unknown (reason : SplitUnknownReason)
  deriving DecidableEq

inductive SplitError where
  /-- "Local split cannot target an SSH workspace" -/
  | remoteWorkspace
  /-- "Local split admission budget exhausted" -/
  | admissionBudget
  /-- "Local split create budget exhausted" -/
  | createBudget
  /-- "Split request identity was reused with different parameters", of the call -/
  | requestConflict
  /-- the same of a journal -/
  | journalConflict
  deriving DecidableEq

structure SplitJournalEntry where
  fingerprint : String
  expiresAtUnixMs : Nat
  sessionId : Option Nat
  cancelRequested : Bool
  tombstone : Bool
  outcome : Option SplitOperationResult
  deriving DecidableEq

namespace SplitJournal

def conflicts (previous : Option SplitJournalEntry) (entry : SplitJournalEntry) : Bool :=
  previous.any fun previous => previous.fingerprint ≠ "" ∧ previous.fingerprint ≠ entry.fingerprint

def begin (previous : Option SplitJournalEntry) (entry : SplitJournalEntry) :
    Except SplitError (Bool × Option SplitJournalEntry) :=
  if conflicts previous entry then .error .journalConflict
  else if previous.isSome then .ok (false, previous)
  else .ok (true, some entry)

/-- An entry that was cancelled takes nothing but a session. -/
def upsert (previous : Option SplitJournalEntry) (entry : SplitJournalEntry) : Except SplitError SplitJournalEntry :=
  if conflicts previous entry then .error .journalConflict
  else match previous with
    | some existing =>
      if existing.tombstone ∨
        existing.cancelRequested then .ok { existing with sessionId := existing.sessionId <|> entry.sessionId }
      else .ok entry
    | none => .ok entry

def tombstone (previous : Option SplitJournalEntry) (fingerprint : String) : SplitJournalEntry :=
  let entry := previous.getD
    { fingerprint := fingerprint
      expiresAtUnixMs := 0
      sessionId := none
      cancelRequested := true
      tombstone := true
      outcome := some .cancelled }
  { entry with cancelRequested := true, tombstone := true, outcome := some .cancelled }

end SplitJournal

inductive Scope where
  | cancelled
  | requests
  | workspace (name : String)
  deriving DecidableEq

structure StoredSessionMeta where
  clientRequestId : String
  details : SessionDetails
  deriving DecidableEq

/-- The journals and the open sessions, and the sessions that were spawned for the request. -/
structure SplitStore where
  requestId : String
  epoch : Nat
  cancelled : Option SplitJournalEntry := none
  requests : Option SplitJournalEntry := none
  workspaces : ExtTreeMap String SplitJournalEntry := ∅
  sessions : ExtTreeMap Nat StoredSessionMeta := ∅
  nextSession : Nat := 0
  spawned : List Nat := []

namespace SplitStore

def load (s : SplitStore) : Scope → Option SplitJournalEntry
  | .cancelled => s.cancelled
  | .requests => s.requests
  | .workspace name => s.workspaces[name]?

def write (s : SplitStore) (entry : SplitJournalEntry) : Scope → SplitStore
  | .cancelled => { s with cancelled := some entry }
  | .requests => { s with requests := some entry }
  | .workspace name => { s with workspaces := s.workspaces.insert name entry }

def listing (s : SplitStore) (order : List Scope) : List Scope :=
  order ++ (.cancelled :: .requests :: s.workspaces.keys.map .workspace).filter (· ∉ order)

end SplitStore

structure CreateParams where
  workspace : String
  remote : Bool
  fingerprint : String
  expiresAtUnixMs : Nat
  deriving DecidableEq

inductive SplitOp where
  | create (params : CreateParams)
  | cancel
  | status (expiresAtUnixMs : Nat)
  deriving DecidableEq

/-- Where a call is. `retry`: the status that a create asks for because the request was reserved before. -/
inductive SplitPhase where
  | admission
  | fingerprints
  | begin
  | reserve
  | spawn
  | describe (sessionId : Nat)
  | publish (entry : SplitJournalEntry)
  | publishRequest (entry : SplitJournalEntry)
  | fence (entry : SplitJournalEntry)
  | statusFence (retry : Bool)
  | statusList (retry : Bool)
  | statusScan (retry : Bool) (todo : List Scope) (reserved : Bool)
  | statusDescribe (retry : Bool) (sessionId : Nat) (recorded : SessionDetails)
  | rebindFence (retry : Bool) (rebound : SplitOperationResult)
  | rebindList (retry : Bool) (rebound : SplitOperationResult)
  | rebindLoad (retry : Bool) (rebound : SplitOperationResult) (todo : List Scope)
  | rebindStore (retry : Bool) (rebound : SplitOperationResult) (scope : Scope) (record : SplitJournalEntry)
      (todo : List Scope)
  | cancelFence
  | cancelList
  | cancelLoad (todo : List Scope) (owned : List Nat)
  | cancelTombstone (scope : Scope) (fingerprint : String) (todo : List Scope) (owned : List Nat)
  | closing (owned : List Nat)
  | done (result : Except SplitError SplitOperationResult)
  deriving DecidableEq

structure SplitCall where
  op : SplitOp
  phase : SplitPhase
  reserved : Bool := false
  /-- Whether a cancel had returned `Cancelled` when the call started. -/
  late : Bool := false

/-- What is decided outside: the order of a listing, the clocks, and what a spawn gives. -/
structure SplitChoice where
  order : List Scope := []
  now : Nat := 0
  expired : Bool := false
  spawned : Option SessionDetails := none

namespace SplitOp

def isCreate : SplitOp → Bool
  | .create _ => true
  | _ => false

def start : SplitOp → SplitPhase
  | .create params => if params.remote then .done (.error .remoteWorkspace) else .admission
  | .cancel => .cancelFence
  | .status _ => .statusFence false

def expiresAtUnixMs : SplitOp → Nat
  | .create params => params.expiresAtUnixMs
  | .cancel => 0
  | .status expiresAtUnixMs => expiresAtUnixMs

def afterStatus (op : SplitOp) (retry : Bool) (result : SplitOperationResult) : SplitPhase :=
  match op, retry, result with
  | .create _, false, .absent true => .begin
  | _, _, result => .done (.ok result)

end SplitOp

def CreateParams.entry (params : CreateParams) : SplitJournalEntry where
  fingerprint := params.fingerprint
  expiresAtUnixMs := params.expiresAtUnixMs
  sessionId := none
  cancelRequested := false
  tombstone := false
  outcome := none

namespace SplitStore
variable (s : SplitStore)

def store (scope : Scope) (entry : SplitJournalEntry) (next : SplitPhase) : SplitStore × SplitPhase :=
  match SplitJournal.upsert (s.load scope) entry with
  | .ok entry => (s.write entry scope, next)
  | .error e => (s, .done (.error e))

def rebinds (sessionId : Nat) (recorded : SessionDetails) : Option SessionDetails :=
  (s.sessions[sessionId]?.map (·.details)).filter fun session =>
    recorded.incarnation.isSome ∧ recorded.incarnation = session.incarnation ∧ recorded.workspaceId = session.workspaceId ∧
      recorded.worktree = session.worktree

def statusStep (op : SplitOp) (choice : SplitChoice) : SplitPhase → SplitStore × SplitPhase
  | .statusFence retry => (s, if s.cancelled.isSome then op.afterStatus retry .cancelled else .statusList retry)
  | .statusList retry => (s, .statusScan retry (s.listing choice.order) false)
  | .statusScan retry [] reserved =>
    (s, op.afterStatus retry
      (if reserved then .unknown .publicationUncertain else .absent (op.expiresAtUnixMs > choice.now)))
  | .statusScan retry (scope :: todo) reserved =>
    (s, match s.load scope with
      | none => .statusScan retry todo reserved
      | some record =>
        match record.outcome with
        | none => .statusScan retry todo true
        | some (.created sessionId _ session) => .statusDescribe retry sessionId session
        | some outcome => op.afterStatus retry outcome)
  | .statusDescribe retry sessionId recorded =>
    (s, match s.rebinds sessionId recorded with
      | some session => .rebindFence retry (.created sessionId s.epoch session)
      | none => op.afterStatus retry (.unknown .publicationUncertain))
  | .rebindFence retry rebound =>
    (s, if s.cancelled.isSome then op.afterStatus retry .cancelled else .rebindList retry rebound)
  | .rebindList retry rebound => (s, .rebindLoad retry rebound (s.listing choice.order))
  | .rebindLoad retry rebound [] => (s, op.afterStatus retry rebound)
  | .rebindLoad retry rebound (scope :: todo) =>
    (s, match s.load scope with
      | none => .rebindLoad retry rebound todo
      | some record => .rebindStore retry rebound scope { record with outcome := some rebound } todo)
  | .rebindStore retry rebound scope record todo => s.store scope record (.rebindLoad retry rebound todo)
  | phase => (s, phase)

def cancelStep (choice : SplitChoice) : SplitPhase → SplitStore × SplitPhase
  | .cancelFence => (s.write (SplitJournal.tombstone s.cancelled "") .cancelled, .cancelList)
  | .cancelList => (s, .cancelLoad (s.listing choice.order) [])
  | .cancelLoad [] owned => (s, .closing (owned.insertionSort (· ≤ ·)).dedup)
  | .cancelLoad (scope :: todo) owned =>
    (s, match s.load scope with
      | none => .cancelLoad todo owned
      | some record => .cancelTombstone scope record.fingerprint todo (owned ++ record.sessionId.toList))
  | .cancelTombstone scope fingerprint todo owned =>
    (s.write (SplitJournal.tombstone (s.load scope) fingerprint) scope, .cancelLoad todo owned)
  | .closing [] => (s, .done (.ok .cancelled))
  | .closing (sessionId :: owned) =>
    (if s.sessions[sessionId]?.any (·.clientRequestId = s.requestId) then
      { s with sessions := s.sessions.erase sessionId } else s,
      .closing owned)
  | phase => (s, phase)

def createStep (params : CreateParams) (gateHeld : Bool) (choice : SplitChoice) : SplitPhase → SplitStore × SplitPhase
  | .admission =>
    (s, if !gateHeld then .fingerprints else if choice.expired then .done (.error .admissionBudget) else .admission)
  | .fingerprints =>
    (s, if s.requests.any fun previous => previous.fingerprint ≠ params.fingerprint then .done (.error .requestConflict)
      else .statusFence false)
  | .begin =>
    if choice.expired then (s, .done (.error .createBudget))
    else match SplitJournal.begin s.requests params.entry with
      | .error e => (s, .done (.error e))
      | .ok (false, _) => (s, .statusFence true)
      | .ok (true, requests) => ({ s with requests := requests }, .reserve)
  | .reserve => s.store (.workspace params.workspace) params.entry .spawn
  | .spawn =>
    match choice.spawned with
    | some details =>
      ({ s with
          sessions := s.sessions.insert s.nextSession { clientRequestId := s.requestId, details }
          nextSession := s.nextSession + 1
          spawned := s.nextSession :: s.spawned },
        .describe s.nextSession)
    | none => (s, .publish { params.entry with outcome := some (.unknown .publicationUncertain) })
  | .describe sessionId =>
    (s, .publish { params.entry with
      sessionId := some sessionId
      outcome := some (match s.sessions[sessionId]? with
        | some stored => .created sessionId s.epoch stored.details
        | none => .unknown .publicationUncertain) })
  | .publish entry => s.store (.workspace params.workspace) entry (.publishRequest entry)
  | .publishRequest entry => s.store .requests entry (.fence entry)
  | .fence entry =>
    (s, if s.cancelled.isSome then .cancelFence else .done (.ok (entry.outcome.getD (.unknown .publicationUncertain))))
  | phase => (s, phase)

end SplitStore

namespace SplitPhase

def isStatus : SplitPhase → Bool
  | .statusFence _ | .statusList
      _ | .statusScan .. | .statusDescribe .. | .rebindFence .. | .rebindList .. | .rebindLoad .. |
    .rebindStore .. => true
  | _ => false

def isCancel : SplitPhase → Bool
  | .cancelFence | .cancelList | .cancelLoad .. | .cancelTombstone .. | .closing _ => true
  | _ => false

def isDone : SplitPhase → Bool
  | .done _ => true
  | _ => false

end SplitPhase

structure Splits where
  store : SplitStore
  calls : List SplitCall := []

def SplitCall.holdsGate (c : SplitCall) (workspace : String) : Bool :=
  match c.op, c.phase with
  | .create _, .admission => false
  | .create params, phase => params.workspace = workspace ∧ !phase.isDone
  | _, _ => false

def SplitCall.returnedCancelled (c : SplitCall) : Bool :=
  match c.op, c.phase with
  | .cancel, .done (.ok .cancelled) => true
  | _, _ => false

def SplitCall.run (c : SplitCall) (w : Splits) (choice : SplitChoice) : SplitStore × SplitPhase :=
  if c.phase.isStatus then w.store.statusStep c.op choice c.phase
  else if c.phase.isCancel then w.store.cancelStep choice c.phase
  else match c.op with
    | .create params => w.store.createStep params (w.calls.any (·.holdsGate params.workspace)) choice c.phase
    | _ => (w.store, c.phase)

/-- The reservation is the step from `begin` to `reserve`. -/
def SplitPhase.reserves : SplitPhase → SplitPhase → Bool
  | .begin, .reserve => true
  | _, _ => false

inductive SplitsAction where
  | start (op : SplitOp)
  | run (call : Nat) (choice : SplitChoice)
  | close (sessionId : Nat)

namespace Splits

def step (w : Splits) : SplitsAction → Splits
  | .start op => { w with calls := w.calls ++ [{ op := op, phase := op.start, late := w.calls.any (·.returnedCancelled) }] }
  | .run call choice =>
    match w.calls[call]? with
    | none => w
    | some c =>
      let (store, phase) := c.run w choice
      { store := store,
        calls := w.calls.set call { c with phase := phase, reserved := c.reserved || c.phase.reserves phase } }
  | .close sessionId => { w with store := { w.store with sessions := w.store.sessions.erase sessionId } }

end Splits

/-- No entry for the request, no session for it and no call. -/
def splits : System Splits SplitsAction where
  init := fun w => ∃ requestId epoch, w = { store := { requestId := requestId, epoch := epoch } }
  step := fun w a w' => w' = w.step a

end Ferryx.Daemon
