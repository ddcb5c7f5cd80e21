import Ferryx.Theorems.ScheduledOnce

/-! No job is stranded. A claim and a recovery are one transaction each, but `finish_run` ends a run in one statement and
writes the job in another: where no call ends between them, a job that is to go on has a next run, a run with a lease, or a
`finish_run` about to write. -/

namespace Ferryx.Hub
open Lib Std List Scheduling

/-! ### Jobs that go on -/

def Pending.finishes (id : String) : Pending → Bool
  | .finish f => f.jobId = id
  | .reschedule f _ _ _ _ => f.jobId = id
  | _ => false

/-- What the call computes next runs from is one of the instants `during`. -/
def Pending.during (during : Int → Prop) : Pending → Prop
  | .recover now _ => during now
  | .finish f => during f.now
  | _ => True

/-- No number of completed runs ends the job. -/
def Payload.unlimited (payload : Payload) : Prop :=
  ∀ completed, shouldDisableAfter completed (incrementRepeatCompleted payload).2.1 = false

section
variable [Chrono]

/-- The expression has an occurrence after each of the instants `during`. A cron expression has none after its last year. -/
def Job.recurring (job : Job) (during : Int → Prop) : Prop :=
  Expression.isOnce job.jobExpression = false ∧
    ∀ now, during now → ∃ next, now < next ∧ nextRunTz job.jobExpression now job.payload.timezone = some next

/-- A job that is to go on. -/
structure Job.Continuing (job : Job) (during : Int → Prop) : Prop where
  enabled : job.enabled = true
  recurring : job.recurring during
  unlimited : job.payload.unlimited

end

theorem recurring_every [Chrono] {job : Job} {interval : { n : Int // 0 < n }} {during : Int → Prop}
    (h : job.jobExpression = some (.every (some interval))) : job.recurring during := by
  refine ⟨by simp [Expression.isOnce, h], fun now _ => ⟨now + interval, ?_, by simp [nextRunTz, h]⟩⟩
  have := interval.2
  omega

namespace Scheduling
variable {w w' : Scheduling} {id : String}

def Leased (w : Scheduling) (id : String) : Prop :=
  ∃ (run : String) (r : Run), w.runs[run]? = some r ∧ r.jobId = id ∧ r.status = .running ∧ r.leaseUntil.isSome = true

/-- A run of the job is leased or about to be finished. -/
def Awaited (w : Scheduling) (id : String) : Prop := w.Leased id ∨ ∃ p ∈ w.pending, p.finishes id = true

theorem Awaited.mono (h : w.Awaited id) (hruns : w.Leased id → w'.Awaited id)
    (hpending : ∀ p ∈ w.pending, p.finishes id = true → p ∈ w'.pending) :
    w'.Awaited id := by
  rcases h with h | ⟨p, hp, hf⟩
  · exact hruns h
  · exact .inr ⟨p, hpending p hp hf, hf⟩

theorem mem_goOn_of_ne {i : Nat} {p q : Pending} {q' : Option Pending} (hq : w.pending[i]? = some q)
    (hne : q.finishes id = false)
    (hp : p ∈ w.pending) (hf : p.finishes id = true) : p ∈ (w.goOn i q').pending := by
  obtain ⟨j, hj⟩ := mem_iff_getElem?.mp hp
  have hij : i ≠ j := by
    rintro rfl
    obtain rfl : q = p := by simpa [hq] using hj
    simp [hne] at hf
  cases q' with
  | none => exact mem_eraseIdx_iff_getElem?.mpr ⟨j, hij.symm, hj⟩
  | some q' => exact mem_iff_getElem?.mpr ⟨j, by rw [goOn, getElem?_set_ne hij]; exact hj⟩

theorem goOn_jobs (w : Scheduling) (i : Nat) (q : Option Pending) : (w.goOn i q).jobs = w.jobs := by cases q <;> rfl

theorem goOn_runs (w : Scheduling) (i : Nat) (q : Option Pending) : (w.goOn i q).runs = w.runs := by cases q <;> rfl

theorem scheduledNow_iff : w.scheduledNow id = true ↔ ∃ job, w.jobs[id]? = some job ∧ job.nextRunAt.isSome = true := by
  cases hjob : w.jobs[id]? <;> simp [scheduledNow, hjob]

/-! ### No job is left without a run -/

section
variable [Chrono] {during : Int → Prop} {now : Int} {job : Job} {stale : List StaleRun} {s : StaleRun} {i : Nat}

/-- Where the job is to go on, it has a next run or something is to give it one. -/
def Kept (w : Scheduling) (during : Int → Prop) (id : String) : Prop :=
  ∀ job, w.jobs[id]? = some job → job.Continuing during → job.nextRunAt.isSome = true ∨ w.Awaited id

/-- The calls that compute a next run come `during` some instants, and none ends between the two updates of `finish_run`; a
job is created with its next run, and edits set it or disable the job. -/
def steady (during : Int → Prop) (w : Scheduling) : SchedulingAction → Prop
  | .readRuns now _ => during now
  | .finishRun f _ => during f.now
  | .stop i => ∀ p ∈ w.pending[i]?, ∀ id, p.finishes id = false
  | .insertJob _ job => job.nextRunAt.isSome = true
  | .editJob _ e => e.enabled = some false ∨ (e.nextRunAt.getD none).isSome = true
  | _ => True

theorem Kept.of_same (K : w.Kept during id) (hjobs : w'.jobs[id]? = w.jobs[id]?) (h : w.Awaited id → w'.Awaited id) :
    w'.Kept during id := by
  intro job hjob hc
  rw [hjobs] at hjob
  exact (K job hjob hc).imp_right h

theorem Kept.goOn (K : w.Kept during id) {q : Pending} (hq : w.pending[i]? = some q) (hne : q.finishes id = false)
    (q' : Option Pending) : (w.goOn i q').Kept during id := by
  refine K.of_same (by rw [goOn_jobs]) fun h => h.mono (fun ⟨run, r, hr, hrest⟩ => ?_) fun p hp hf =>
    mem_goOn_of_ne hq hne hp hf
  exact .inl ⟨run, r, by rw [goOn_runs]; exact hr, hrest⟩

theorem Kept.of_awaited (h : w.Awaited id) : w.Kept during id := fun _ _ _ => .inr h

theorem reschedule_scheduled (hnow : during now) (hjob : (w.reschedule now id).jobs[id]? = some job)
    (hc : job.Continuing during) : job.nextRunAt.isSome = true := by
  unfold reschedule at hjob
  split at hjob
  next hnone => simp [hnone] at hjob
  next row hrow =>
    split at hjob
    · split at hjob
      next next hnext =>
        split at hjob
        · simp only [schedule, lookup_insert, if_pos] at hjob
          cases hjob
          rfl
        next hle =>
          obtain rfl : row = job := by simpa [hrow] using hjob
          obtain ⟨later, hlater, heq⟩ := hc.recurring.2 now hnow
          rw [hnext] at heq
          cases heq
          exact absurd hlater hle
      next hnone =>
        obtain rfl : row = job := by simpa [hrow] using hjob
        obtain ⟨later, -, heq⟩ := hc.recurring.2 now hnow
        simp [hnone] at heq
    next hne =>
      obtain rfl : row = job := by simpa [hrow] using hjob
      cases hnext : row.nextRunAt with
      | none => exact absurd ⟨hc.enabled, hnext⟩ hne
      | some next => rfl

variable {id' run leaseUntil : String} {f : Finish} {r : Run} {expiry now : Int}

theorem reschedule_jobs_of_ne (w : Scheduling) (now : Int) {id : String} (hne : id ≠ id') :
    (w.reschedule now id).jobs[id']? = w.jobs[id']? := by
  unfold reschedule
  repeat' split
  all_goals first | rfl | simp only [schedule, lookup_insert, if_neg hne]

/-- Every job is kept, and what recovery has read names the jobs of the runs. -/
structure Carried (during : Int → Prop) (w : Scheduling) : Prop where
  books : Books w
  kept : ∀ id, w.Kept during id
  read : ∀ now stale, .recover now stale ∈ w.pending → ∀ s ∈ stale, ∃ r, w.runs[s.runId]? = some r ∧ r.jobId = s.jobId
  timely : ∀ p ∈ w.pending, p.during during
  ends : ∀ f payload next consecutive enabled, .reschedule f payload next consecutive enabled ∈ w.pending → next = none →
    enabled = false

theorem reschedule_pending (w : Scheduling) (now : Int) (id : String) : (w.reschedule now id).pending = w.pending := by
  unfold reschedule
  repeat' split
  all_goals rfl

theorem kept_recoverRun (hnow : during now) (K : ∀ id, w.Kept during id)
    (hs : ∀ r, w.runs[s.runId]? = some r → r.jobId = s.jobId)
    (id : String) : (recoverRun now w s).Kept during id := by
  unfold recoverRun
  split
  · exact K id
  next run hrun =>
    split
    · by_cases heq : s.jobId = id
      · subst heq
        exact fun job hjob hc => .inl (reschedule_scheduled hnow hjob hc)
      · refine (K id).of_same (reschedule_jobs_of_ne _ _ heq) fun h =>
          h.mono (fun ⟨run', r, hr, hjob, hrest⟩ => ?_) fun p hp _ => ?_
        · -- the recovered run belongs to another job
          have hne : s.runId ≠ run' := by
            rintro rfl
            exact heq ((hs r hr).symm.trans hjob)
          refine .inl ⟨run', r, ?_, hjob, hrest⟩
          rw [reschedule_runs, lookup_insert, if_neg hne]
          exact hr
        · rw [reschedule_pending]
          exact hp
    · exact K id

theorem kept_recover (hnow : during now) (B : Books w) (K : ∀ id, w.Kept during id)
    (hs : ∀ s ∈ stale, ∃ r, w.runs[s.runId]? = some r ∧ r.jobId = s.jobId) (id : String) :
      (stale.foldl (recoverRun now) w).Kept during id := by
  induction stale generalizing w with
  | nil => exact K id
  | cons s stale ih =>
    have hmoves := recoverRun_moves now w s
    obtain ⟨r, hr, hjob⟩ := hs s (.head _)
    refine ih (B.moves hmoves) (kept_recoverRun hnow K fun r' hr' => ?_) fun s' hs' => ?_
    · obtain rfl : r = r' := by simpa [hr] using hr'
      exact hjob
    · obtain ⟨r', hr', hjob'⟩ := hs s' (.tail _ hs')
      obtain ⟨r'', hr'', hjob''⟩ := B.run_kept hmoves hr'
      exact ⟨r'', hr'', hjob''.trans hjob'⟩

theorem kept_claimJob (B : Books w) (K : ∀ id, w.Kept during id) {ownerPid : Nat} {job observed : String}
    (hfresh : w.fresh run = true) (id : String) : (w.claimJob now ownerPid job observed run).Kept during id := by
  unfold claimJob
  split
  · exact K id
  · split
    · by_cases heq : job = id
      · subst heq
        exact .of_awaited (.inl ⟨run, _, by rw [lookup_insert, if_pos rfl], rfl, rfl, rfl⟩)
      · refine (K id).of_same (by rw [lookup_insert, if_neg heq]) fun h =>
          h.mono (fun ⟨run', r, hr, hrest⟩ => ?_) fun p hp _ => hp
        have hne : run ≠ run' := by
          rintro rfl
          simp [B.absent_of_fresh hfresh] at hr
        exact .inl ⟨run', r, by rw [lookup_insert, if_neg hne]; exact hr, hrest⟩
    · exact K id

theorem kept_settleRun (K : ∀ id, w.Kept during id) (f : Finish) (output : String) (id : String) :
    (w.settleRun f output).Kept during id := by
  unfold settleRun
  split
  · exact K id
  next run hrun =>
    split
    next h =>
      by_cases heq : f.jobId = id
      · exact .of_awaited (.inr ⟨.finish f, by simp, by simp [Pending.finishes, heq]⟩)
      · refine (K id).of_same rfl fun h' => h'.mono (fun ⟨run', r, hr, hjob, hrest⟩ => ?_) fun p hp _ =>
          mem_append_left _ hp
        have hne : f.runId ≠ run' := by
          rintro rfl
          obtain rfl : run = r := by simpa [hrun] using hr
          exact heq (h.1.symm.trans hjob)
        exact .inl ⟨run', r, by rw [lookup_insert, if_neg hne]; exact hr, hjob, hrest⟩
    · exact K id

theorem finishJob_continuing (hc : job.Continuing during) (hnow : during f.now) : (finishJob f job).isSome = true := by
  obtain ⟨next, -, hnext⟩ := hc.recurring.2 f.now hnow
  unfold finishJob
  dsimp only
  split
  · rfl
  · split
    · rfl
    · split
      · split <;> rfl
      · simp [nextRunAfterFailure, hc.recurring.1, hnext]

theorem kept_readJob (hnow : during f.now) (K : ∀ id, w.Kept during id) (hi : w.pending[i]? = some (.finish f))
    (id : String) :
    (w.goOn i (w.jobs[f.jobId]?.bind (finishJob f))).Kept during id := by
  by_cases heq : f.jobId = id
  · subst heq
    intro job hjob hc
    rw [goOn_jobs] at hjob
    obtain ⟨p, hp⟩ := Option.isSome_iff_exists.mp (finishJob_continuing hc hnow)
    have hbind : w.jobs[f.jobId]?.bind (finishJob f) = some p := by simp [hjob, hp]
    obtain ⟨_, _, _, _, hreschedule, -⟩ := finishJob_spec hp
    obtain ⟨hlt, -⟩ := List.getElem?_eq_some_iff.mp hi
    rw [hbind]
    exact .inr (.inr ⟨p, List.mem_set hlt p, by simp [hreschedule, Pending.finishes]⟩)
  · exact (K id).goOn hi (by simp [Pending.finishes, heq]) _

theorem kept_updateJob (K : ∀ id, w.Kept during id) {payload : Payload} {next : Option String} {consecutive : Nat}
    {enabled : Bool} (hi : w.pending[i]? = some (.reschedule f payload next consecutive enabled))
      (hnext : next = none → enabled = false)
    (id : String) : ((w.writeJob f.jobId payload next consecutive enabled).goOn i none).Kept during id := by
  by_cases heq : f.jobId = id
  · subst heq
    intro job hjob hc
    rw [goOn_jobs, writeJob] at hjob
    split at hjob
    next hnone => simp [hnone] at hjob
    · simp only [schedule, lookup_insert, if_pos] at hjob
      cases hjob
      cases hn : next with
      | none =>
        have henabled := hc.enabled
        simp [hnext hn] at henabled
      | some next => exact .inl rfl
  · have K' : (w.writeJob f.jobId payload next consecutive enabled).Kept during id := by
      unfold writeJob
      split
      · exact K id
      · exact (K id).of_same (by rw [schedule, lookup_insert, if_neg heq]) fun h => h
    exact K'.goOn (by rw [pending_writeJob]; exact hi) (by simp [Pending.finishes, heq]) none

theorem timely_step {a : SchedulingAction} (h : ∀ p ∈ w.pending, p.during during) (hok : steady during w a) :
    ∀ p ∈ (w.step a).pending, p.during during := by
  intro p hp
  rcases pending_step hp with hp | ⟨now, alive, rfl, rfl⟩ | ⟨_, _, _, rfl⟩ | ⟨f, output, rfl, rfl⟩ | ⟨f, job, -, -, heq⟩
  · exact h p hp
  · exact hok
  · trivial
  · exact hok
  · obtain ⟨_, _, _, _, rfl, -⟩ := finishJob_spec heq
    trivial

theorem Carried.step {a : SchedulingAction} (C : Carried during w) (hok : steady during w a) :
    Carried during (w.step a) := by
  have K := C.kept
  refine ⟨C.books.moves (step_moves w a), fun id => ?_, fun now stale hp s hs => ?_, fun p hp => ?_,
    fun f payload next consecutive enabled hp hnone => ?_⟩
  · cases a with simp only [Scheduling.step]
    | readRuns now alive => exact (K id).of_same rfl fun h => h.mono .inl fun p hp _ => mem_append_left _ hp
    | readJobs now ownerPid => exact (K id).of_same rfl fun h => h.mono .inl fun p hp _ => mem_append_left _ hp
    | recover i =>
      split
      next now stale hi =>
        have hread := C.read now stale (mem_of_getElem? hi)
        exact (kept_recover (C.timely _ (mem_of_getElem? hi)) C.books K hread id).goOn
          (by rw [pending_recover]; exact hi) rfl none
      · exact K id
    | renew now run =>
      refine (K id).of_same rfl fun h => h.mono (fun hrun => .inl ?_) fun p hp _ => hp
      obtain ⟨run', r, hr, hjob, hstatus, hlease⟩ := hrun
      by_cases heq : run = run'
      · refine ⟨run', { r with leaseUntil := some (toRfc3339 (now + lease)) }, ?_, hjob, hstatus, rfl⟩
        simp [heq, hr, hstatus]
      · refine ⟨run', r, ?_, hjob, hstatus, hlease⟩
        rw [lookup_modify, if_neg heq]
        exact hr
    | claim i run =>
      split
      next hi =>
        split
        next hfresh => exact (kept_claimJob C.books K hfresh id).goOn (by rw [pending_claimJob]; exact hi) rfl _
        · exact K id
      · exact K id
    | finishRun f output => exact kept_settleRun K f output id
    | readJob i =>
      split
      next hi => exact kept_readJob (C.timely _ (mem_of_getElem? hi)) K hi id
      · exact K id
    | updateJob i =>
      split
      next hi => exact kept_updateJob K hi (C.ends _ _ _ _ _ (mem_of_getElem? hi)) id
      · exact K id
    | stop i =>
      cases hi : w.pending[i]? with
      | none =>
        have hsame : w.goOn i none = w := by
          simp only [goOn, eraseIdx_of_length_le (getElem?_eq_none_iff.mp hi)]
        rw [hsame]
        exact K id
      | some q => exact (K id).goOn hi (hok q hi id) none
    | insertJob id' job =>
      split
      · exact K id
      · by_cases heq : id' = id
        · intro job' hjob' _
          simp only [schedule, lookup_insert, if_pos heq] at hjob'
          cases hjob'
          exact .inl hok
        · exact (K id).of_same (by rw [schedule, lookup_insert, if_neg heq]) fun h => h
    | editJob id' e =>
      split
      · exact K id
      next job hjob =>
        by_cases heq : id' = id
        · intro job' hjob' hc
          simp only [lookup_insert, if_pos heq] at hjob'
          cases hjob'
          rcases hok with hdisabled | hnext
          · have henabled := hc.enabled
            simp [JobEdit.apply, hdisabled] at henabled
          · left
            cases hn : e.nextRunAt with
            | none => simp [hn] at hnext
            | some next => simpa [JobEdit.apply, hn] using hnext
        · exact (K id).of_same (by rw [lookup_insert, if_neg heq]) fun h => h
    | deleteJob id' =>
      by_cases heq : id' = id
      · intro job hjob _
        simp [heq] at hjob
      · exact (K id).of_same (by rw [lookup_erase, if_neg heq]) fun h => h
  · rcases pending_step hp with hp | ⟨_, _, -, heq⟩ | ⟨_, _, _, heq⟩ | ⟨_, _, -, heq⟩ | ⟨f, job, -, -, heq⟩
    · obtain ⟨r, hr, hjob⟩ := C.read now stale hp s hs
      obtain ⟨r', hr', hjob'⟩ := C.books.run_kept (step_moves w a) hr
      exact ⟨r', hr', hjob'.trans hjob⟩
    · cases heq
      obtain ⟨r, hr, -, hjob⟩ := mem_staleRuns hs
      obtain ⟨r', hr', hjob'⟩ := C.books.run_kept (step_moves w a) hr
      exact ⟨r', hr', hjob'.trans hjob⟩
    · cases heq
    · cases heq
    · obtain ⟨_, _, _, _, heq, -⟩ := finishJob_spec heq
      cases heq
  · exact timely_step C.timely hok p hp
  · rcases pending_step hp with hp | ⟨_, _, -, heq⟩ | ⟨_, _, _, heq⟩ | ⟨_, _, -, heq⟩ | ⟨f, job, -, -, heq⟩
    · exact C.ends f payload next consecutive enabled hp hnone
    · cases heq
    · cases heq
    · cases heq
    · obtain ⟨_, _, _, _, heq, hends⟩ := finishJob_spec heq
      cases heq
      exact hends hnone

theorem carried_reachable (h : scheduling.Reachable (steady during) w) : Carried during w := by
  refine h.inv (fun hinit => ?_) fun {w w' a} hok hs C => ?_
  · obtain rfl := hinit
    exact ⟨⟨by simp [scheduledNow], by simp, by simp [settled]⟩, by simp [Kept], by simp, by simp, by simp⟩
  · obtain rfl := hs
    exact C.step hok

/-! ### Leases that can be read -/

/-- Every lease can be read as an instant. -/
def Timed (w : Scheduling) : Prop :=
  ∀ (run : String) (r : Run) leaseUntil, w.runs[run]? = some r → r.leaseUntil = some leaseUntil →
    ∃ t, parseInstant leaseUntil = some t

namespace Timed

theorem insert (T : w.Timed) {run : String} {r : Run} {jobs : ExtTreeMap String Job} {pending : List Pending}
    {log : List Event}
    (h : ∀ leaseUntil, r.leaseUntil = some leaseUntil → ∃ t, parseInstant leaseUntil = some t) :
    Timed ⟨jobs, w.runs.insert run r, pending, log⟩ := by
  intro run' r' leaseUntil hr' hlease
  rw [lookup_insert] at hr'
  split at hr'
  · cases hr'
    exact h leaseUntil hlease
  · exact T run' r' leaseUntil hr' hlease

theorem of_runs (T : w.Timed) (h : w'.runs = w.runs) : w'.Timed := by
  unfold Timed
  rw [h]
  exact T

theorem recoverRun (T : w.Timed) (now : Int) (s : StaleRun) : (recoverRun now w s).Timed := by
  unfold Scheduling.recoverRun
  split
  · exact T
  next run hrun =>
    split
    · refine of_runs ?_ (reschedule_runs ..)
      exact T.insert (T s.runId run · hrun)
    · exact T

theorem recover (T : w.Timed) (now : Int) (stale : List StaleRun) : (stale.foldl (Scheduling.recoverRun now) w).Timed := by
  induction stale generalizing w with
  | nil => exact T
  | cons s stale ih => exact ih (T.recoverRun now s)

theorem step (T : w.Timed) (a : SchedulingAction) : (w.step a).Timed := by
  cases a with simp only [Scheduling.step]
  | recover i =>
    split
    · exact (T.recover _ _).of_runs (goOn_runs ..)
    · exact T
  | renew now run =>
    intro run' r leaseUntil hr hlease
    simp only [lookup_modify] at hr
    split at hr
    · obtain ⟨r₀, hr₀, rfl⟩ := Option.map_eq_some_iff.mp hr
      split at hlease
      · cases hlease
        exact ⟨_, Chrono.parse_toRfc3339 _⟩
      · exact T run' r₀ leaseUntil hr₀ hlease
    · exact T run' r leaseUntil hr hlease
  | claim i run =>
    split
    · split
      · refine of_runs ?_ (goOn_runs ..)
        unfold claimJob
        split
        · exact T
        · split
          · refine T.insert fun leaseUntil hlease => ?_
            cases hlease
            exact ⟨_, Chrono.parse_toRfc3339 _⟩
          · exact T
      · exact T
    · exact T
  | finishRun f output =>
    simp only [settleRun]
    split
    · exact T
    next run hrun =>
      split
      · exact T.insert (T f.runId run · hrun)
      · exact T
  | readJob i =>
    split
    · exact T.of_runs (goOn_runs ..)
    · exact T
  | updateJob i =>
    split
    · refine of_runs ?_ (goOn_runs ..)
      unfold writeJob
      split <;> exact T
    · exact T
  | stop i => exact T.of_runs (goOn_runs ..)
  | insertJob id job =>
    split <;> exact T
  | editJob id e =>
    split <;> exact T
  | readRuns _ _ | readJobs _ _ | deleteJob _ => exact T

end Timed

theorem timed_reachable {ok : Scheduling → SchedulingAction → Prop} (h : scheduling.Reachable ok w) : w.Timed := by
  refine h.inv (fun hinit => ?_) fun {w w' a} _ hs T => ?_
  · obtain rfl := hinit
    simp [Timed]
  · obtain rfl := hs
    exact T.step a

/-! ### Recovery -/

/-- The job has its next run, or recovering the run that was judged gives it one. -/
def Reclaimable (w : Scheduling) (during : Int → Prop) (s : StaleRun) : Prop :=
  ∃ job, w.jobs[s.jobId]? = some job ∧ (job.nextRunAt.isSome = true ∨ (job.Continuing during ∧
    ∃ r, w.runs[s.runId]? = some r ∧ r.status = .running ∧ r.leaseUntil = some s.leaseUntil))

theorem reschedule_next (now : Int) (id : String) (hjob : w.jobs[id']? = some job) :
    ∃ job', (w.reschedule now id).jobs[id']? = some job' ∧ (job' = job ∨ job'.nextRunAt.isSome = true) := by
  by_cases heq : id = id'
  · subst heq
    unfold reschedule
    rw [hjob]
    dsimp only
    split
    · split
      · split
        · exact ⟨_, by rw [schedule, lookup_insert, if_pos rfl], .inr rfl⟩
        · exact ⟨job, hjob, .inl rfl⟩
      · exact ⟨job, hjob, .inl rfl⟩
    · exact ⟨job, hjob, .inl rfl⟩
  · exact ⟨job, by rw [reschedule_jobs_of_ne _ _ heq]; exact hjob, .inl rfl⟩

theorem reclaimable_reschedule (hnow : during now) (hjob : w.jobs[s.jobId]? = some job)
    (h : job.nextRunAt.isSome = true ∨ (job.Continuing during ∧ (id = s.jobId ∨
      ∃ r, w.runs[s.runId]? = some r ∧ r.status = .running ∧ r.leaseUntil = some s.leaseUntil))) :
    (w.reschedule now id).Reclaimable during s := by
  obtain ⟨job', hjob', rfl | hnext⟩ := reschedule_next now id hjob
  · rcases h with hnext | ⟨hc, rfl | ⟨r, hr, hrest⟩⟩
    · exact ⟨job', hjob', .inl hnext⟩
    · exact ⟨job', hjob', .inl (reschedule_scheduled hnow hjob' hc)⟩
    · exact ⟨job', hjob', .inr ⟨hc, r, by rw [reschedule_runs]; exact hr, hrest⟩⟩
  · exact ⟨job', hjob', .inl hnext⟩

theorem reclaimable_recoverRun (hnow : during now) {s s' : StaleRun} (hs : s'.runId = s.runId → s' = s)
    (h : w.Reclaimable during s) :
    (recoverRun now w s').Reclaimable during s := by
  obtain ⟨job, hjob, hrest⟩ := h
  unfold recoverRun
  split
  · exact ⟨job, hjob, hrest⟩
  · split
    · refine reclaimable_reschedule hnow hjob (hrest.imp_right fun ⟨hc, r, hr, hr'⟩ => ⟨hc, ?_⟩)
      by_cases heq : s'.runId = s.runId
      · exact .inl (by rw [hs heq])
      · exact .inr ⟨r, by rw [lookup_insert, if_neg heq]; exact hr, hr'⟩
    · exact ⟨job, hjob, hrest⟩

theorem scheduledNow_reschedule (h : w.scheduledNow id' = true) : (w.reschedule now id).scheduledNow id' = true := by
  obtain ⟨job, hjob, hnext⟩ := scheduledNow_iff.mp h
  obtain ⟨job', hjob', rfl | hnext'⟩ := reschedule_next now id hjob
  · exact scheduledNow_iff.mpr ⟨job', hjob', hnext⟩
  · exact scheduledNow_iff.mpr ⟨job', hjob', hnext'⟩

theorem scheduledNow_recover (stale : List StaleRun) (h : w.scheduledNow id = true) :
    (stale.foldl (recoverRun now) w).scheduledNow id = true := by
  induction stale generalizing w with
  | nil => exact h
  | cons s stale ih =>
    refine ih ?_
    unfold recoverRun
    split
    · exact h
    · split
      · exact scheduledNow_reschedule h
      · exact h

theorem scheduledNow_rescheduled (hnow : during now) (hjob : w.jobs[id]? = some job) (hc : job.Continuing during) :
    (w.reschedule now id).scheduledNow id = true := by
  obtain ⟨job', hjob', rfl | hnext⟩ := reschedule_next now id hjob
  · exact scheduledNow_iff.mpr ⟨job', hjob', reschedule_scheduled hnow hjob' hc⟩
  · exact scheduledNow_iff.mpr ⟨job', hjob', hnext⟩

theorem scheduledNow_recoverRun (hnow : during now) (h : w.Reclaimable during s) :
    (recoverRun now w s).scheduledNow s.jobId = true := by
  obtain ⟨job, hjob, hnext | ⟨hc, r, hr, hrest⟩⟩ := h
  · exact scheduledNow_recover [s] (scheduledNow_iff.mpr ⟨job, hjob, hnext⟩)
  · simp only [recoverRun, hr, if_pos hrest]
    exact scheduledNow_rescheduled hnow hjob hc

theorem recover_schedules (hnow : during now) (hmem : s ∈ stale) (hj : ∀ s' ∈ stale, s'.runId = s.runId → s' = s)
    (h : w.Reclaimable during s) : (stale.foldl (recoverRun now) w).scheduledNow s.jobId = true := by
  induction stale generalizing w with
  | nil => cases hmem
  | cons s' stale ih =>
    rcases mem_cons.mp hmem with rfl | hmem
    · rw [foldl_cons]
      exact scheduledNow_recover _ (scheduledNow_recoverRun hnow h)
    · exact ih hmem (fun s'' hs'' => hj s'' (.tail _ hs'')) (reclaimable_recoverRun hnow (hj s' (.head _)) h)

theorem mem_staleRuns_of_stale (hr : w.runs[run]? = some r) (hstatus : r.status = .running)
    (hlease : r.leaseUntil = some leaseUntil) (hparse : parseInstant leaseUntil = some expiry)
    (hnow : expiry + staleLease ≤ now) (isAlive : Nat → Bool) : ⟨run, r.jobId, leaseUntil⟩ ∈ w.staleRuns now isAlive := by
  have hpos : 0 ≤ staleLease := by decide
  have hreclaim : shouldReclaim r.ownerPid (expiry ≤ now) (now - expiry) isAlive = true := by
    have hexpired : expiry ≤ now := by omega
    have hage : now - expiry ≥ staleLease := by omega
    simp [shouldReclaim, hexpired, hage]
  refine mem_filterMap.mpr ⟨(run, r), ExtTreeMap.mem_toList_iff_getElem?_eq_some.mpr hr, ?_⟩
  simp only [hstatus, hlease, hparse, hreclaim, if_true]

theorem step_recover (hi : w.pending[i]? = some (.recover now stale)) :
    w.step (.recover i) = (stale.foldl (recoverRun now) w).goOn i none := by
  simp only [step, hi]

theorem recovery_reschedules (hjob : ∃ job, w.jobs[id]? = some job ∧ job.Continuing during)
    (hr : w.runs[run]? = some r) (hid : r.jobId = id) (hstatus : r.status = .running)
      (hlease : r.leaseUntil = some leaseUntil)
    (hparse : parseInstant leaseUntil = some expiry) (hnow : expiry + staleLease ≤ now) (hin : during now)
      (alive : List Nat) :
    ((w.step (.readRuns now alive)).step (.recover w.pending.length)).scheduledNow id = true := by
  obtain ⟨job, hjob, hc⟩ := hjob
  have hmem := mem_staleRuns_of_stale hr hstatus hlease hparse hnow (alive.contains ·)
  have hi : (w.step (.readRuns now alive)).pending[w.pending.length]? =
      some (.recover now (w.staleRuns now (alive.contains ·))) := by
    simp [step]
  have hscheduled := recover_schedules (w := w.step (.readRuns now alive)) hin hmem
    (judged_staleRuns w now (alive.contains ·) _ hmem) ⟨job, hid ▸ hjob, .inr ⟨hc, r, hr, hstatus, hlease⟩⟩
  subst hid
  rw [step_recover hi]
  simpa only [scheduledNow, goOn_jobs] using hscheduled

/-- A job that is to go on and that no `finish_run` is about to write has a next run, or a run whose recovery gives it one.
-/
theorem no_job_stranded {w : Scheduling} (h : scheduling.Reachable (steady during) w) {id : String}
    (hjob : w.jobs[id]? = some job) (henabled : job.enabled = true) (hrecurring : job.recurring during)
    (hunlimited : job.payload.unlimited) (hsettled : ∀ p ∈ w.pending, p.finishes id = false) :
    job.nextRunAt.isSome = true ∨ ∃ (run : String) (r : Run), w.runs[run]? = some r ∧ r.jobId = id ∧ r.status = .running ∧
      r.leaseUntil.isSome = true ∧ ∃ expiry, ∀ now ≥ expiry, during now → ∀ alive,
        ((w.step (.readRuns now alive)).step (.recover w.pending.length)).scheduledNow id = true := by
  have hc : job.Continuing during := ⟨henabled, hrecurring, hunlimited⟩
  rcases (carried_reachable h).kept id job hjob hc with hnext | ⟨run, r, hr, hid, hstatus, hlease⟩ | ⟨p, hp, hf⟩
  · exact .inl hnext
  · obtain ⟨leaseUntil, hl⟩ := Option.isSome_iff_exists.mp hlease
    obtain ⟨expiry, hparse⟩ := timed_reachable h run r leaseUntil hr hl
    refine .inr ⟨run, r, hr, hid, hstatus, hlease, expiry + staleLease, fun now hnow hin alive => ?_⟩
    exact recovery_reschedules ⟨job, hjob, hc⟩ hr hid hstatus hl hparse hnow hin alive
  · simp [hsettled p hp] at hf

end

/-! ### Runs -/

/-- The instants after which `binary` has another full hour. -/
def thisCentury (now : Int) : Prop := now < seconds 4133980800

theorem thisCentury_zero : thisCentury 0 := show (0 : Int) < seconds 4133980800 by decide

/-- A job with a cron expression, due at once. -/
def hourly : Job := ⟨some (.cron "0 * * * *"), {}, true, some "+", 0⟩

theorem recurring_hourly {job : Job} (h : job.jobExpression = some (.cron "0 * * * *")) :
    @Job.recurring binary job thisCentury := by
  refine ⟨by simp [Expression.isOnce, h], fun now hnow => ⟨(now / seconds 3600 + 1) * seconds 3600, ?_, ?_⟩⟩
  · exact Int.lt_ediv_add_one_mul_self now (by decide)
  · simp only [nextRunTz, h]
    exact if_pos ⟨rfl, hnow⟩

/-- The job is created, a recovery reads the runs, and the job is claimed. -/
def claimed (job : Job) : List SchedulingAction :=
  [.insertJob "job" job, .readRuns 0 [], .readJobs 0 7, .claim 1 "run"]

theorem no_job_stranded_claimed : let w := (claimed hourly).foldl (@step binary) {}
    ∃ (run : String) (r : Run), w.runs[run]? = some r ∧ r.jobId = "job" ∧ r.status = .running ∧
      r.leaseUntil.isSome = true ∧ ∃ expiry, ∀ now ≥ expiry, thisCentury now → ∀ alive,
        (@step binary (@step binary w (.readRuns now alive)) (.recover w.pending.length)).scheduledNow "job" = true := by
  let _ := binary
  have hw : scheduling.Reachable (steady thisCentury) ((claimed hourly).foldl step {}) :=
    ⟨_, rfl, .of_admits ⟨rfl, thisCentury_zero, trivial, trivial, trivial⟩⟩
  have hjob : ((claimed hourly).foldl step {}).jobs["job"]? = some { hourly with nextRunAt := none } := by decide
  have hpending : ∀ p ∈ ((claimed hourly).foldl step {}).pending, p.finishes "job" = false := by decide
  have hunlimited : hourly.payload.unlimited := by
    simp [Payload.unlimited, hourly, incrementRepeatCompleted, shouldDisableAfter]
  exact (no_job_stranded hw hjob rfl (recurring_hourly rfl) hunlimited hpending).resolve_left nofun

theorem minute_pos : 0 < seconds 60 := by decide

def minutely : Job := ⟨some (.every (some ⟨seconds 60, minute_pos⟩)), {}, true, some "+", 0⟩

/-- The claimed run finishes, and the process ends before the job is written. -/
def crashed : List SchedulingAction :=
  claimed minutely ++ [.recover 0, .stop 0, .finishRun ⟨0, "job", "run", true, none, some "+"⟩ "", .stop 0]

/-- An enabled, recurring job is left without a next run and without a run that is running; nothing is under way any more.
-/
theorem stranded_between_updates :
    ∃ _ : Chrono, ∃ w, scheduling.Reachable System.anyAction w ∧ ∃ job, w.jobs["job"]? = some job ∧ job.enabled = true ∧
      job.recurring (fun _ => True) ∧ job.payload.unlimited ∧ w.pending = [] ∧ job.nextRunAt = none ∧
      ∀ (run : String) (r : Run), w.runs[run]? = some r → r.status ≠ .running := by
  have hruns : ∀ x ∈ (crashed.foldl (@step binary) {}).runs.toList, x.2.status ≠ .running := by decide
  refine ⟨binary, crashed.foldl (@step binary) {}, ⟨_, rfl, .of_admits (by decide)⟩,
    { minutely with nextRunAt := none }, by decide, rfl, @recurring_every binary _ _ _ rfl, ?_, by decide, rfl,
    fun run r hr => ?_⟩
  · simp [Payload.unlimited, minutely, incrementRepeatCompleted, shouldDisableAfter]
  · exact hruns (run, r) (ExtTreeMap.mem_toList_iff_getElem?_eq_some.mpr hr)

end Scheduling
end Ferryx.Hub
