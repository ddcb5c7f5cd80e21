import Ferryx.AgentControl.Fence

/-!
# The journal of remote machine operations (`src-tauri/src/remote/machine_operation_journal.rs`)

The daemons of a machine share the file; each has in memory what it read last. The file's sessions are left out: methods
that change only them write the records back as read.
-/

namespace Ferryx.Remote
open Lib Std

structure Session where
  /-- As JSON, the way the journal compares it. -/
  target : String
  /-- Everything else. -/
  rest : String
  deriving DecidableEq

inductive OperationOutcome where
  | error (code : String)
  | noContent
  | project (project : String)
  | worktree (worktree : String)
  | session (session : Session)
  deriving DecidableEq

def OperationOutcome.summary : OperationOutcome → String
  | .error code => code
  | .noContent => "noContent"
  | .project _ => "project"
  | .worktree _ => "worktree"
  | .session _ => "session"

inductive Operation where
  | pending
  | outcomeUnknown
  | completed (outcome : OperationOutcome)
  | resultExpired
  deriving DecidableEq

namespace Operation

def isOpen (o : Operation) : Bool := o = .pending ∨ o = .outcomeUnknown

def isCompleted : Operation → Bool
  | .completed _ => true
  | _ => false

def doubted : Operation → Operation
  | .pending => .outcomeUnknown
  | o => o

end Operation

inductive Kind where
  | createSession
  | closeSession
  | createWorktree
  | removeWorktree
  deriving DecidableEq

structure Request where
  key : String
  kind : Kind
  digest : String
  resource : String
  deriving DecidableEq

structure Record extends Request where
  createdAt : Nat
  completedAt : Option Nat := none
  status : Nat
  operation : Operation
  outcomeSummary : Option String := none
  deriving DecidableEq

abbrev Records := ExtTreeMap String Record

inductive Begin where
  | new
  | existing (record : Record)

/-- What a method leaves to write, if anything, and what it returns. -/
abbrev Method (β : Type) := Records → Except String (Option Records × β)

namespace Method

def reconcile (key : String) : Method (Option Record) := fun m => .ok (none, m[key]?)

def saveSession : Method Unit := fun m => .ok (some m, ())

def isExpired (time : Nat) (r : Record) : Bool :=
  r.operation.isCompleted && r.completedAt.any (fun t => decide (7 * 86400 ≤ time - t))

/-- Results go after a week, as long as there is room for what is left of them. -/
def expire (time : Nat) (m : Records) : Records × Nat :=
  m.toList.foldl
    (fun (m, tombstones) (k, r) =>
      if isExpired time r ∧ tombstones < 100000 then (m.insert k { r with operation := .resultExpired }, tombstones + 1)
      else (m, tombstones))
    (m, m.toList.countP (·.2.operation = .resultExpired))

def begin (q : Request) (time : Nat) : Method Begin := fun m =>
  match m[q.key]? with
  | some r => if r.digest ≠ q.digest ∨ r.kind ≠ q.kind then .error "REQUEST_CONFLICT" else .ok (none, .existing r)
  | none =>
    let (m, tombstones) := expire time m
    if 10000 ≤ m.size - tombstones ∨ 100000 ≤ tombstones then .error "CAPACITY_EXCEEDED"
    else .ok (some (m.insert q.key { q with createdAt := time, status := 202, operation := .pending }), .new)

def update (key : String) (check : Record → Bool) (f : Record → Record) : Method Record := fun m =>
  match m[key]? with
  | none => .error "OPERATION_NOT_FOUND"
  | some r => if check r then .ok (some (m.insert key (f r)), f r) else .error "REQUEST_CONFLICT"

def complete (key : String) (status : Nat) (outcome : OperationOutcome) (time : Nat) : Method Record :=
  update key (·.operation.isOpen) fun r =>
    { r with status, completedAt := some time, outcomeSummary := some outcome.summary, operation := .completed outcome }

def commitSpawn (key : String) (session : Session) (time : Nat) : Method Record :=
  update key (fun r => r.kind = .createSession ∧ r.resource = session.target ∧ r.operation.isOpen) fun r =>
    { r with status := 201, completedAt := some time, outcomeSummary := some "session", operation :=
      .completed (.session session) }

def markUnknown (key : String) : Method Record :=
  update key (fun _ => true) fun r => { r with status := 409, operation := .outcomeUnknown }

def catalogReceipt (key : String) (status : Nat) (outcome : OperationOutcome) : Method Record := fun m =>
  match m[key]? with
  | none => .error "OPERATION_NOT_FOUND"
  | some r =>
    if r.operation = .pending then .ok (none, { r with status, operation := .completed outcome })
      else .error "REQUEST_CONFLICT"

end Method

structure Journal where
  file : Option Records
  memory : Except String Records

namespace Journal

def openFile (file : Option Records) : Except String Records :=
  .ok ((file.getD ∅).map fun _ r => { r with operation := r.operation.doubted })

/-- The records of the file, in doubt where this process was in doubt already. -/
def overlay (previous current : Records) : Records :=
  current.map fun k r =>
    if previous[k]?.any (·.operation = .outcomeUnknown) then { r with operation := r.operation.doubted } else r

def refresh (j : Journal) : Except String Records :=
  j.memory.map fun previous => (j.file.map (overlay previous)).getD previous

/-- One method under both locks. A write that fails leaves the journal unusable for this process. -/
def transact {β : Type} (j : Journal) (w : AgentControl.Stored) (f : Method β) : Journal × Except String β :=
  match j.refresh with
  | .error e => (j, .error e)
  | .ok current => match f current, w with
    | .error e, _ => ({ j with memory := .ok current }, .error e)
    | .ok (none, b), _ => ({ j with memory := .ok current }, .ok b)
    | .ok (some candidate, b), .written => ({ file := some candidate, memory := .ok candidate }, .ok b)
    | .ok (some candidate, _), .failed _ replaced =>
      ({ file := if replaced then some candidate else j.file, memory := .error "MACHINE_SERVICE_UNAVAILABLE" },
        .error "MACHINE_SERVICE_UNAVAILABLE")

end Journal

inductive Phase where
  | idle
  | start
  | begin
  | granted
  | started
  | saved
  /-- A worktree operation whose receipt the catalog is to carry. -/
  | receipted (outcome : OperationOutcome) (receipt : Record)
  | settle (status : Nat) (outcome : OperationOutcome)
  | failed
  | mark
  | finish
  | done
  deriving DecidableEq

namespace Kind

def isSession (k : Kind) : Bool := k = .createSession ∨ k = .closeSession

def onRefusal (k : Kind) : Phase := if k.isSession then .failed else .done

def onFailure (k : Kind) : Phase := if k.isSession then .failed else .mark

def afterBegin (k : Kind) : Except String Begin → Phase
  | .ok .new => .granted
  | .ok (.existing _) => match k with
    | .createSession => .failed
    | .closeSession => .finish
    | .createWorktree | .removeWorktree => .done
  | .error _ => k.onRefusal

def afterFailure (k : Kind) : Phase → Phase
  | .begin => k.onRefusal
  | .granted | .started | .saved | .receipted .. => k.onFailure
  | p => p

end Kind

structure Handler (π : Type) where
  process : π
  request : Request
  phase : Phase

/-- The processes `π` of a machine with their handlers `ι`, and the keys whose side effects were started so far. -/
structure Operations (ι π : Type) where
  file : Option Records := none
  memory : π → Except String Records := fun _ => .ok ∅
  handlers : ι → Handler π
  /-- The transaction that the workspace catalog carries. -/
  receipt : Option Record := none
  started : List String := []

inductive OperationAction (ι π : Type) where
  | opens (p : π)
  /-- What was begun before the start is completed by the receipt in the catalog. -/
  | recover (i : ι) (p : π)
  | arrive (i : ι) (p : π) (q : Request)
  | stop (i : ι)
  | fails (i : ι)
  | reconcile (i : ι)
  /-- A create that finds the session of its request in the memory of its process. -/
  | cached (i : ι)
  | begin (i : ι) (time : Nat) (w : AgentControl.Stored)
  /-- A worktree operation that is refused before its side effect. -/
  | refuse (i : ι) (status : Nat) (code : String)
  | start (i : ι)
  | commitSpawn (i : ι) (session : Session) (time : Nat) (w : AgentControl.Stored)
  | saveSession (i : ι) (w : AgentControl.Stored)
  | catalogReceipt (i : ι) (status : Nat) (outcome : OperationOutcome)
  | persistCatalog (i : ι) (w : AgentControl.Stored)
  | complete (i : ι) (time : Nat) (w : AgentControl.Stored)
  | markUnknown (i : ι) (w : AgentControl.Stored)
  /-- Any other write of the sessions. -/
  | touch (p : π) (w : AgentControl.Stored)

namespace Operations
variable {ι π : Type} [DecidableEq ι] [DecidableEq π] (s : Operations ι π)

def journal (p : π) : Journal := ⟨s.file, s.memory p⟩

def phase (i : ι) : Phase := (s.handlers i).phase

def key (i : ι) : String := (s.handlers i).request.key

def setPhase (i : ι) (phase : Phase) : Operations ι π :=
  { s with handlers := Function.update s.handlers i { s.handlers i with phase } }

def setJournal (p : π) (j : Journal) : Operations ι π :=
  { s with file := j.file, memory := Function.update s.memory p j.memory }

def call {β : Type} (i : ι) (w : AgentControl.Stored) (f : Method β) (next : Except String β → Phase) : Operations ι π :=
  let p := (s.handlers i).process
  let (j, result) := (s.journal p).transact w f
  (s.setJournal p j).setPhase i (next result)

def step : OperationAction ι π → Operations ι π
  | .opens p =>
    { s with
      memory := Function.update s.memory p (Journal.openFile s.file)
      handlers := fun i => if (s.handlers i).process = p then { s.handlers i with phase := .done } else s.handlers i }
  | .recover i p => match s.phase i, s.receipt with
    | .idle, some r =>
      { s with handlers := Function.update s.handlers i ⟨p, r.toRequest, .idle⟩ }.call i .written (.reconcile r.key) fun
        | .ok (some found) => match r.operation with
          | .completed outcome =>
            if found.digest = r.digest ∧ found.kind = r.kind ∧ found.resource = r.resource ∧ found.operation.isOpen then
              .settle r.status outcome
            else .done
          | _ => .done
        | _ => .done
    | _, _ => s
  | .arrive i p q => match s.phase i with
    | .idle => { s with handlers := Function.update s.handlers i ⟨p, q, .start⟩ }
    | _ => s
  | .stop i => s.setPhase i .done
  | .fails i => s.setPhase i ((s.handlers i).request.kind.afterFailure (s.phase i))
  | .reconcile i => match s.phase i with
    | .start => s.call i .written (.reconcile (s.key i)) fun
      | .ok none => .begin
      | _ => .done
    | .failed => s.call i .written (.reconcile (s.key i)) fun
      | .ok (some r) => if r.operation = .pending then .mark else .done
      | _ => .done
    | .finish => s.call i .written (.reconcile (s.key i)) fun _ => .done
    | _ => s
  | .cached i => match s.phase i, (s.handlers i).request.kind with
    | .begin, .createSession => s.setPhase i .finish
    | _, _ => s
  | .begin i time w => match s.phase i with
    | .begin => s.call i w (.begin (s.handlers i).request time) (s.handlers i).request.kind.afterBegin
    | _ => s
  | .refuse i status code => match s.phase i, (s.handlers i).request.kind.isSession with
    | .granted, false => s.setPhase i (.settle status (.error code))
    | _, _ => s
  | .start i => match s.phase i with
    | .granted => { s.setPhase i .started with started := s.key i :: s.started }
    | _ => s
  | .commitSpawn i session time w => match s.phase i, (s.handlers i).request.kind with
    | .started, .createSession => s.call i w (.commitSpawn (s.key i) session time) fun
      | .ok _ => .finish
      | .error _ => .failed
    | _, _ => s
  | .saveSession i w => match s.phase i, (s.handlers i).request.kind with
    | .started, .closeSession => s.call i w .saveSession fun
      | .ok _ => .saved
      | .error _ => .failed
    | _, _ => s
  | .catalogReceipt i status outcome => match s.phase i, (s.handlers i).request.kind.isSession with
    | .started, false => s.call i .written (.catalogReceipt (s.key i) status outcome) fun
      | .ok receipt => .receipted outcome receipt
      | .error _ => .mark
    | _, _ => s
  | .persistCatalog i w => match s.phase i, w with
    | .receipted outcome receipt, .written => { s.setPhase i (.settle receipt.status outcome) with receipt := some receipt }
    | .receipted _ receipt, .failed _ replaced =>
      { s.setPhase i .mark with receipt := if replaced then some receipt else s.receipt }
    | _, _ => s
  | .complete i time w => match s.phase i with
    | .saved => s.call i w (.complete (s.key i) 204 .noContent time) fun
      | .ok _ => .finish
      | .error _ => .failed
    | .settle status outcome => s.call i w (.complete (s.key i) status outcome time) fun _ => .done
    | _ => s
  | .markUnknown i w => match s.phase i with
    | .mark => s.call i w (.markUnknown (s.key i)) fun _ => .done
    | _ => s
  | .touch p w => s.setJournal p ((s.journal p).transact w .saveSession).1

end Operations

def operations (ι π : Type) [DecidableEq ι] [DecidableEq π] : System (Operations ι π) (OperationAction ι π) where
  init s := ∃ handlers : ι → Handler π, (∀ i, (handlers i).phase = .idle) ∧ s = { handlers }
  step s a t := s.step a = t

end Ferryx.Remote
