import Ferryx.Theorems.JobsKept

/-! `finish_run` writes back what it computed from the row that it read. What the owner sets in between is lost, and so is a
next run that is set after the claim and before the write. -/

namespace Ferryx.Hub
open Lib Std List

/-- What the owner sets: the rest of a payload is the scheduler's. -/
def Payload.owned (payload : Payload) :
    List (String × String) × Option String × Option Expression × Option Nat × Option Nat :=
  (payload.others, payload.timezone, payload.scheduleExpr, payload.repeats.bind Repeat.times, payload.times)

/-- The two rows differ only in what is the scheduler's. -/
structure Job.Agrees (job job' : Job) : Prop where
  enabled : job'.enabled = job.enabled
  expression : job'.expression = job.expression
  payload : job'.payload.owned = job.payload.owned

def Job.edited (job : Job) (edits : List JobEdit) : Job := edits.foldl (fun job e => Scheduling.JobEdit.apply e job) job

variable {job job' : Job} {edits : List JobEdit}

theorem Job.Agrees.edited (h : job.Agrees job') : (job.edited edits).Agrees (job'.edited edits) := by
  induction edits generalizing job job' with
  | nil => exact h
  | cons e edits ih =>
    refine ih ⟨?_, ?_, ?_⟩
    · exact congrArg e.enabled.getD h.enabled
    · exact congrArg e.expression.getD h.expression
    · show (e.payload.getD job'.payload).owned = (e.payload.getD job.payload).owned
      cases e.payload with
      | none => exact h.payload
      | some payload => rfl

theorem Job.edited_nextRunAt (h : job'.nextRunAt = job.nextRunAt ∨ ∃ e ∈ edits, e.nextRunAt.isSome = true) :
    (job'.edited edits).nextRunAt = (job.edited edits).nextRunAt := by
  induction edits generalizing job job' with
  | nil => exact h.resolve_right (by simp)
  | cons e edits ih =>
    refine ih ?_
    show e.nextRunAt.getD job'.nextRunAt = e.nextRunAt.getD job.nextRunAt ∨ _
    cases he : e.nextRunAt with
    | some next => exact .inl rfl
    | none => simpa [he] using h

theorem incrementRepeatCompleted_owned (payload : Payload) : (incrementRepeatCompleted payload).1.owned =
    payload.owned := by
  unfold incrementRepeatCompleted
  split
  next r hr => simp [Payload.owned, hr]
  next hr =>
    dsimp only
    split <;> simp [Payload.owned, hr]

namespace Scheduling
section
variable [Chrono] {w : Scheduling} {id : String} {f : Finish}

theorem finishedPayload_owned (f : Finish) (payload : Payload) : (finishedPayload f payload).owned = payload.owned := by
  unfold finishedPayload
  dsimp only
  split <;> rfl

theorem finishJob_owned (hr : job.recurring (· = f.now)) (hu : job.payload.unlimited) : ∃ payload next consecutive,
    finishJob f job = some (.reschedule f payload next consecutive job.enabled) ∧ payload.owned = job.payload.owned := by
  obtain ⟨next, -, hnext⟩ := hr.2 f.now rfl
  have howned := (finishedPayload_owned f _).trans (incrementRepeatCompleted_owned job.payload)
  simp only [finishJob, hr.1, hu _, hnext, nextRunAfterFailure]
  cases job.enabled with
  | false => exact ⟨_, _, _, rfl, howned⟩
  | true => cases f.ok <;> exact ⟨_, _, _, rfl, howned⟩

theorem foldl_editJob (hjob : w.jobs[id]? = some job) (edits : List JobEdit) :
    let w' := (edits.map (.editJob id)).foldl step w
    w'.jobs[id]? = some (job.edited edits) ∧ w'.pending = w.pending ∧ w'.runs = w.runs := by
  induction edits generalizing w job with
  | nil => exact ⟨hjob, rfl, rfl⟩
  | cons e edits ih =>
    have hedited : (w.step (.editJob id e)).jobs[id]? = some (JobEdit.apply e job) := by simp [step, hjob]
    obtain ⟨hjobs, hpending, hruns⟩ := ih hedited
    exact ⟨hjobs, hpending.trans (by simp [step, hjob]), hruns.trans (by simp [step, hjob])⟩

/-- `finish_run`, with edits of its job before each of its statements and after the last one. -/
def finishing (f : Finish) (output : String) (i : Nat) (before reading writing after : List JobEdit) :
    List SchedulingAction :=
  before.map (.editJob f.jobId) ++ .finishRun f output :: reading.map (.editJob f.jobId) ++
    .readJob i :: writing.map (.editJob f.jobId) ++ .updateJob i :: after.map (.editJob f.jobId)

end

/-- The claimed run ends well. -/
def ended : Finish := ⟨0, "job", "run", true, none, some "+"⟩

def pause : JobEdit := { enabled := some false, nextRunAt := some none }

def resume : JobEdit := { enabled := some true, nextRunAt := some (some "+1") }

def runNow : JobEdit := { nextRunAt := some (some "+1") }

/-- The owner writes another prompt. -/
def reworded : JobEdit := { payload := some { others := [("prompt", "status of the build")] } }

example : (Job.edited hourly [reworded, pause, resume]).payload.owned.1 = [("prompt", "status of the build")] := by decide

end Scheduling
end Ferryx.Hub
