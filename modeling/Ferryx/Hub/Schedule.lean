import Ferryx.Lib.System
import Ferryx.Lib.TreeMap

/-!
# Scheduled jobs (`crates/ferryx-hub/src/schedule.rs`)

Two tables and any number of calls under way: what a call has read waits in `pending` for its next statement or transaction.
A failed statement and a crash end a call there. Incidents, deliveries and columns that no scheduling decision reads are
left out.
-/

namespace Ferryx.Hub
open Lib Std

/-- Instants of `chrono`, in nanoseconds, and their texts; the schedules of the `cron` crate. -/
class Chrono where
  toRfc3339 : Int → String
  parseInstant : String → Option Int
  parse_toRfc3339 : ∀ t, parseInstant (toRfc3339 t) = some t
  /-- The first instant of a cron expression, in a time zone, after another. -/
  scheduleAfter : String → Option String → Int → Option Int

export Chrono (toRfc3339 parseInstant)

def seconds (n : Nat) : Int := n * 1000000000

def lease : Int := seconds (30 * 60)

def staleLease : Int := seconds (120 * 60)

def oneshotGrace : Int := seconds 120

/-- `leaseAge` since the lease has expired. -/
def shouldReclaim (ownerPid : Option Nat) (leaseExpired : Bool) (leaseAge : Int) (isAlive : Nat → Bool) : Bool :=
  if !leaseExpired then false
  else if leaseAge ≥ staleLease then true
  else match ownerPid with
    | none => true
    | some 0 => true
    | some pid => !isAlive pid

def failureBackoff (consecutiveFailures : Nat) : Int :=
  if consecutiveFailures = 0 then 0
  else seconds (min (max (10 * 2 ^ min (consecutiveFailures - 1) 10) 10) 3600)

/-- The text of an expression, as `next_run_tz` reads it. -/
inductive Expression where
  /-- `once:` and an instant, if it parses. -/
  | once (timestamp : Option Int)
  /-- `interval:`, `@every` or `every` and a length, if it parses and is not zero. -/
  | every (interval : Option { n : Int // 0 < n })
  | cron (text : String)
  deriving DecidableEq

structure Repeat where
  times : Option Nat
  completed : Option Nat
  deriving DecidableEq

/-- The members of `payload_json` that scheduling reads or writes; `others` are the members that only the run of a job reads
(the prompt, the command, the model, …), with the texts of their values. -/
structure Payload where
  others : List (String × String) := []
  timezone : Option String := none
  scheduleExpr : Option Expression := none
  repeats : Option Repeat := none
  times : Option Nat := none
  completed : Option Nat := none
  lastStatus : Option String := none
  lastRunAt : Option String := none
  lastOccurrence : Option String := none
  lastError : Option String := none
  lastDeliveryError : Option String := none
  retryAt : Option String := none
  deriving DecidableEq

structure Job where
  expression : Option Expression
  payload : Payload
  enabled : Bool
  nextRunAt : Option String
  consecutiveFailures : Nat := 0
  deriving DecidableEq

inductive RunStatus where
  | running | succeeded | failed
  deriving DecidableEq, Repr

structure Run where
  jobId : String
  status : RunStatus
  ownerPid : Option Nat
  leaseUntil : Option String
  startedAt : String
  finishedAt : Option String := none
  error : Option String := none
  output : String := ""
  deriving DecidableEq

def leaseExpiredError : String := "lease expired before completion"

def Job.jobExpression (job : Job) : Option Expression := job.expression <|> job.payload.scheduleExpr

section
variable [Chrono]

def nextRunTz (expression : Option Expression) (after : Int) (timezone : Option String) : Option Int :=
  match expression with
  | some (.once none) => none
  | some (.once (some ts)) => if ts ≥ after ∨ after - ts ≤ oneshotGrace then some ts else none
  | some (.every none) => none
  | some (.every (some delta)) => some (after + delta)
  | some (.cron text) => Chrono.scheduleAfter text timezone after
  | none => Chrono.scheduleAfter "" timezone after

def Expression.isOnce : Option Expression → Bool
  | some (.once _) => true
  | _ => false

/-- `none` for an error, `some none` for a job that is over. -/
def nextRunAfterFailure (expression : Option Expression) (now : Int) (consecutiveFailures : Nat)
    (timezone : Option String) :
    Option (Option Int) :=
  if Expression.isOnce expression then some none
  else (nextRunTz expression now timezone).map fun scheduled =>
    some (max scheduled (now + failureBackoff consecutiveFailures))

end

def shouldDisableAfter (completed : Nat) : Option Nat → Bool
  | some limit => limit > 0 ∧ completed ≥ limit
  | none => false

def incrementRepeatCompleted (payload : Payload) : Payload × Option Nat × Nat :=
  match payload.repeats with
  | some r =>
    let completed := r.completed.getD 0 + 1
    ({ payload with repeats := some { r with completed := some completed } }, r.times, completed)
  | none =>
    let completed := payload.completed.getD 0 + 1
    let payload := if payload.times.isSome then { payload with completed := some completed }
      else { payload with repeats := some ⟨none, some completed⟩ }
    (payload, payload.times, completed)

structure StaleRun where
  runId : String
  jobId : String
  leaseUntil : String
  deriving DecidableEq

structure Finish where
  now : Int
  jobId : String
  runId : String
  ok : Bool
  error : Option String
  occurrence : Option String
  deriving DecidableEq

inductive Pending where
  | recover (now : Int) (stale : List StaleRun)
  | claim (now : Int) (ownerPid : Nat) (rows : List (String × String))
  | finish (f : Finish)
  | reschedule (f : Finish) (payload : Payload) (next : Option String) (consecutive : Nat) (enabled : Bool)
  deriving DecidableEq

inductive Event where
  | scheduled (job : String)
  | opened (job run : String)
  | recovered (run : String)
  | finished (run : String)
  deriving DecidableEq

structure Scheduling where
  jobs : ExtTreeMap String Job := ∅
  runs : ExtTreeMap String Run := ∅
  pending : List Pending := []
  log : List Event := []

structure JobEdit where
  expression : Option (Option Expression) := none
  payload : Option Payload := none
  enabled : Option Bool := none
  nextRunAt : Option (Option String) := none
  deriving DecidableEq

inductive SchedulingAction where
  | readRuns (now : Int) (alive : List Nat)
  | recover (i : Nat)
  | renew (now : Int) (run : String)
  | readJobs (now : Int) (ownerPid : Nat)
  | claim (i : Nat) (run : String)
  | finishRun (f : Finish) (output : String)
  | readJob (i : Nat)
  | updateJob (i : Nat)
  | stop (i : Nat)
  | insertJob (id : String) (job : Job)
  | editJob (id : String) (edit : JobEdit)
  | deleteJob (id : String)
  deriving DecidableEq

namespace Scheduling
variable [Chrono]

def schedule (w : Scheduling) (id : String) (job : Job) (next : Option String) : Scheduling :=
  { w with
    jobs := w.jobs.insert id { job with nextRunAt := next }
    log := if next.isSome then .scheduled id :: w.log else w.log }

def staleRuns (w : Scheduling) (now : Int) (isAlive : Nat → Bool) : List StaleRun :=
  w.runs.toList.filterMap fun (id, run) =>
    if run.status = .running then
      match run.leaseUntil with
      | none => none
      | some leaseUntil => match parseInstant leaseUntil with
        | none => none
        | some expiry =>
          if shouldReclaim run.ownerPid (expiry ≤ now) (now - expiry) isAlive then some ⟨id, run.jobId, leaseUntil⟩
            else none
    else none

/-- The job of a recovered run gets its next occurrence, unless it has one. -/
def reschedule (w : Scheduling) (now : Int) (id : String) : Scheduling :=
  match w.jobs[id]? with
  | none => w
  | some job =>
    if job.enabled ∧ job.nextRunAt = none then
      match nextRunTz job.jobExpression now job.payload.timezone with
      | some next => if next > now then w.schedule id job (some (toRfc3339 next)) else w
      | none => w
    else w

def recoverRun (now : Int) (w : Scheduling) (s : StaleRun) : Scheduling :=
  match w.runs[s.runId]? with
  | none => w
  | some run =>
    if run.status = .running ∧ run.leaseUntil = some s.leaseUntil then
      { w with
        runs := w.runs.insert s.runId { run with
          status := .failed, finishedAt := some (toRfc3339 now), error := some leaseExpiredError }
        log := .recovered s.runId :: w.log }.reschedule now s.jobId
    else w

def dueJobs (w : Scheduling) (now : Int) : List (String × String) :=
  let due := w.jobs.toList.filterMap fun (id, job) =>
    match job.nextRunAt with
    | some next => if job.enabled ∧ next ≤ toRfc3339 now then some (id, next) else none
    | none => none
  due.insertionSort fun a b => a.2 ≤ b.2

def claimJob (w : Scheduling) (now : Int) (ownerPid : Nat) (id observed runId : String) : Scheduling :=
  match w.jobs[id]? with
  | none => w
  | some job =>
    if job.enabled ∧ job.nextRunAt = some observed then
      { w with
        jobs := w.jobs.insert id { job with nextRunAt := none }
        runs := w.runs.insert runId ⟨id, .running, some ownerPid, some (toRfc3339 (now + lease)), toRfc3339 now, none,
          none, ""⟩
        log := .opened id runId :: w.log }
    else w

def settleRun (w : Scheduling) (f : Finish) (output : String) : Scheduling :=
  match w.runs[f.runId]? with
  | none => w
  | some run =>
    if run.jobId = f.jobId ∧ run.status = .running then
      { w with
        runs := w.runs.insert f.runId { run with
          status := if f.ok then .succeeded else .failed, finishedAt := some (toRfc3339 f.now), error := f.error, output }
        pending := w.pending ++ [.finish f]
        log := .finished f.runId :: w.log }
    else w

def finishedPayload (f : Finish) (payload : Payload) : Payload :=
  let payload := { payload with
    lastStatus := some (if f.ok then "succeeded" else "failed"), lastRunAt := some (toRfc3339 f.now)
    lastOccurrence := f.occurrence <|> payload.lastOccurrence }
  if f.ok then { payload with lastError := none, lastDeliveryError := none, retryAt := none }
  else
    let error := f.error.getD "cron run failed"
    { payload with
      lastError := some error
      lastDeliveryError := if (error.toLower.splitOn "deliver").length > 1 ∨ (error.toLower.splitOn "discord").length > 1
        then some error else none }

/-- The columns that `finish_run` writes, from the row that it read; an expression without a next run may be an error. -/
def finishJob (f : Finish) (job : Job) : Option Pending :=
  let (payload, times, completed) := incrementRepeatCompleted job.payload
  let payload := finishedPayload f payload
  let failures := if f.ok then 0 else job.consecutiveFailures + 1
  let ended : Pending := .reschedule f payload none failures false
  if !job.enabled then some ended
  else if Expression.isOnce job.jobExpression || shouldDisableAfter completed times then some ended
  else if f.ok then
    match nextRunTz job.jobExpression f.now job.payload.timezone with
    | some next => some (.reschedule f payload (some (toRfc3339 next)) 0 true)
    | none => some ended
  else (nextRunAfterFailure job.jobExpression f.now failures job.payload.timezone).map fun next =>
    .reschedule f { payload with retryAt := next.map toRfc3339 <|> payload.retryAt } (next.map toRfc3339) failures true

def writeJob (w : Scheduling) (id : String) (payload : Payload) (next : Option String) (consecutive : Nat)
    (enabled : Bool) :
    Scheduling :=
  match w.jobs[id]? with
  | none => w
  | some job => w.schedule id { job with payload, consecutiveFailures := consecutive, enabled } next

def JobEdit.apply (e : JobEdit) (job : Job) : Job where
  expression := e.expression.getD job.expression
  payload := e.payload.getD job.payload
  enabled := e.enabled.getD job.enabled
  nextRunAt := e.nextRunAt.getD job.nextRunAt
  consecutiveFailures := job.consecutiveFailures

def goOn (w : Scheduling) (i : Nat) : Option Pending → Scheduling
  | some p => { w with pending := w.pending.set i p }
  | none => { w with pending := w.pending.eraseIdx i }

def fresh (w : Scheduling) (run : String) : Bool := w.log.all fun e => match e with
  | .opened _ run' => run' ≠ run
  | _ => true

def step (w : Scheduling) : SchedulingAction → Scheduling
  | .readRuns now alive => { w with pending := w.pending ++ [.recover now (w.staleRuns now (alive.contains ·))] }
  | .recover i => match w.pending[i]? with
    | some (.recover now stale) => (stale.foldl (recoverRun now) w).goOn i none
    | _ => w
  | .renew now run => { w with
      runs := w.runs.modify run fun r => if r.status = .running then
        { r with leaseUntil := some (toRfc3339 (now + lease)) } else r }
  | .readJobs now ownerPid => { w with pending := w.pending ++ [.claim now ownerPid (w.dueJobs now)] }
  | .claim i run => match w.pending[i]? with
    | some (.claim now ownerPid ((id, observed) :: rows)) =>
      if w.fresh run then (w.claimJob now ownerPid id observed run).goOn i (some (.claim now ownerPid rows)) else w
    | _ => w
  | .finishRun f output => w.settleRun f output
  | .readJob i => match w.pending[i]? with
    | some (.finish f) => w.goOn i (w.jobs[f.jobId]?.bind (finishJob f))
    | _ => w
  | .updateJob i => match w.pending[i]? with
    | some (.reschedule f payload next consecutive enabled) =>
      (w.writeJob f.jobId payload next consecutive enabled).goOn i none
    | _ => w
  | .stop i => w.goOn i none
  | .insertJob id job => if id ∈ w.jobs then w else w.schedule id job job.nextRunAt
  | .editJob id e => match w.jobs[id]? with
    | none => w
    | some job => { w with
        jobs := w.jobs.insert id (JobEdit.apply e job)
        log := if (e.nextRunAt.getD none).isSome then .scheduled id :: w.log else w.log }
  | .deleteJob id => { w with jobs := w.jobs.erase id }

end Scheduling

def scheduling [Chrono] : System Scheduling SchedulingAction where
  init w := w = {}
  step w a w' := w' = w.step a

end Ferryx.Hub
