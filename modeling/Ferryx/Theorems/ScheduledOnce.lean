import Ferryx.Hub.Schedule

/-! Every statement writes one row. Opening a run takes the value of `next_run_at` that it read, and only a run that is
running is recovered or finished. -/

namespace Ferryx.Hub
open Lib Std List Event

namespace Event

def opens (id : String) : Event → Bool
  | .opened job _ => job = id
  | _ => false

def leaves (run : String) : Event → Bool
  | .recovered run' | .finished run' => run' = run
  | _ => false

end Event

namespace Scheduling
variable {w w' : Scheduling} {run : String}

/-- What one call may change. -/
inductive Move : Scheduling → Scheduling → Prop
  | pending (w : Scheduling) (pending : List Pending) : Move w { w with pending }
  | scheduled (w : Scheduling) (id : String) (job : Job) (next : Option String) : Move w (w.schedule id job next)
  | edited {w : Scheduling} {id : String} {job : Job} (h : w.jobs[id]? = some job) (e : JobEdit) : Move w { w with
      jobs := w.jobs.insert id (JobEdit.apply e job)
      log := if (e.nextRunAt.getD none).isSome then .scheduled id :: w.log else w.log }
  | deleted (w : Scheduling) (id : String) : Move w { w with jobs := w.jobs.erase id }
  | opened {w : Scheduling} {id run : String} {job : Job} {r : Run} (h : w.jobs[id]? = some job)
      (hnext : job.nextRunAt.isSome = true)
      (hfresh : w.fresh run = true) (hr : r.status = .running) : Move w { w with
        jobs := w.jobs.insert id { job with nextRunAt := none }, runs := w.runs.insert run r, log :=
          .opened id run :: w.log }
  | left {w : Scheduling} {run : String} {r r' : Run} {e : Event} (h : w.runs[run]? = some r) (hr : r.status = .running)
      (hr' : r'.status ≠ .running) (hjob : r'.jobId = r.jobId) (he : e = .recovered run ∨ e = .finished run) :
      Move w { w with runs := w.runs.insert run r', log := e :: w.log }
  | renewed (w : Scheduling) (run : String) {f : Run → Run} (hf : ∀ r, (f r).status = r.status ∧ (f r).jobId = r.jobId) :
      Move w { w with runs := w.runs.modify run f }

abbrev Moves : Scheduling → Scheduling → Prop := Relation.ReflTransGen Move

theorem writeJob_moves (w : Scheduling) (id : String) (payload : Payload) (next : Option String) (consecutive : Nat)
    (enabled : Bool) :
    Moves w (w.writeJob id payload next consecutive enabled) := by
  unfold writeJob
  split
  · exact .refl
  · exact .single (.scheduled ..)

theorem goOn_moves (w : Scheduling) (i : Nat) (p : Option Pending) : Moves w (w.goOn i p) := by
  cases p with
  | none => exact .single (.pending _ _)
  | some p => exact .single (.pending _ _)

theorem mem_goOn {i : Nat} {q : Option Pending} {p : Pending} (h : p ∈ (w.goOn i q).pending) : p ∈ w.pending ∨
    q = some p := by
  cases q with
  | none => exact .inl (mem_of_mem_eraseIdx h)
  | some q =>
    rcases mem_or_eq_of_mem_set h with h | rfl
    · exact .inl h
    · exact .inr rfl

theorem pending_writeJob (w : Scheduling) (id : String) (payload : Payload) (next : Option String) (consecutive : Nat)
    (enabled : Bool) :
    (w.writeJob id payload next consecutive enabled).pending = w.pending := by
  unfold writeJob
  split <;> rfl

section
variable [Chrono]

theorem reschedule_moves (w : Scheduling) (now : Int) (id : String) : Moves w (w.reschedule now id) := by
  unfold reschedule
  split
  · exact .refl
  · split
    · split
      · split
        · exact .single (.scheduled ..)
        · exact .refl
      · exact .refl
    · exact .refl

theorem recoverRun_moves (now : Int) (w : Scheduling) (s : StaleRun) : Moves w (recoverRun now w s) := by
  unfold recoverRun
  split
  · exact .refl
  next run hrun =>
    split
    next h =>
      have hleft := Move.left hrun h.1 (show (Run.mk run.jobId .failed run.ownerPid run.leaseUntil run.startedAt
        (some (toRfc3339 now)) (some leaseExpiredError) run.output).status ≠ .running from nofun) rfl (.inl rfl)
      exact .head hleft (reschedule_moves ..)
    · exact .refl

theorem recover_moves (now : Int) (stale : List StaleRun) (w : Scheduling) : Moves w (stale.foldl (recoverRun now) w) := by
  induction stale generalizing w with
  | nil => exact .refl
  | cons s stale ih => exact (recoverRun_moves now w s).trans (ih _)

theorem claimJob_moves (w : Scheduling) (now : Int) (ownerPid : Nat) (id observed : String) (hfresh : w.fresh run = true) :
    Moves w (w.claimJob now ownerPid id observed run) := by
  unfold claimJob
  split
  · exact .refl
  next job hjob =>
    split
    next h => exact .single (.opened hjob (by simp [h.2]) hfresh rfl)
    · exact .refl

theorem settleRun_moves (w : Scheduling) (f : Finish) (output : String) : Moves w (w.settleRun f output) := by
  unfold settleRun
  split
  · exact .refl
  next run hrun =>
    split
    next h =>
      have hstatus : (if f.ok then RunStatus.succeeded else .failed) ≠ .running := by cases f.ok <;> simp
      have hleft :=
        Move.left hrun h.2 (show (Run.mk run.jobId (if f.ok then .succeeded else .failed) run.ownerPid run.leaseUntil
        run.startedAt (some (toRfc3339 f.now)) f.error output).status ≠ .running from hstatus) rfl (.inr rfl)
      exact .head hleft (.single (.pending _ _))
    · exact .refl

theorem step_moves (w : Scheduling) (a : SchedulingAction) : Moves w (w.step a) := by
  cases a with simp only [step]
  | readRuns now alive => exact .single (.pending _ _)
  | recover i =>
    split
    · exact (recover_moves ..).trans (goOn_moves ..)
    · exact .refl
  | renew now run =>
    refine .single (.renewed w run fun r => ?_)
    split <;> exact ⟨rfl, rfl⟩
  | readJobs now ownerPid => exact .single (.pending _ _)
  | claim i run =>
    split
    · split
      next hfresh => exact (claimJob_moves _ _ _ _ _ hfresh).trans (goOn_moves ..)
      · exact .refl
    · exact .refl
  | finishRun f output => exact settleRun_moves ..
  | readJob i =>
    split
    · exact goOn_moves ..
    · exact .refl
  | updateJob i =>
    split
    · exact (writeJob_moves ..).trans (goOn_moves ..)
    · exact .refl
  | stop i => exact goOn_moves w i none
  | insertJob id job =>
    split
    · exact .refl
    · exact .single (.scheduled ..)
  | editJob id e =>
    split
    · exact .refl
    next hjob => exact .single (.edited hjob e)
  | deleteJob id => exact .single (.deleted ..)

end

def scheduledNow (w : Scheduling) (id : String) : Bool := (w.jobs[id]?.bind Job.nextRunAt).isSome

def settled (w : Scheduling) (run : String) : Bool := w.runs[run]?.any (·.status ≠ .running)

/-- Each run was opened by a claim of one schedule, and ends once. -/
structure Books (w : Scheduling) : Prop where
  claims : ∀ id, w.log.countP (Event.opens id) + (w.scheduledNow id).toNat ≤ w.log.count (.scheduled id)
  opened : ∀ run, (w.runs[run]?).isSome = true → w.fresh run = false
  left : ∀ run, w.log.countP (Event.leaves run) ≤ (w.settled run).toNat

theorem not_fresh_cons (e : Event) (h : w.fresh run = false) : { w with log := e :: w.log }.fresh run = false := by
  simp only [fresh, all_cons, Bool.and_eq_false_iff] at h ⊢
  exact .inr h

namespace Books
variable {run : String}

section
variable (B : Books w)
include B

theorem writeJob (id : String) (job : Job) (sets : Bool)
    (hsets : sets = true ∨ (job.nextRunAt.isSome = true → w.scheduledNow id = true)) : Books { w with
      jobs := w.jobs.insert id job, log := if sets then .scheduled id :: w.log else w.log } := by
  refine ⟨fun id' => ?_, fun run hrun => ?_, fun run => ?_⟩
  · have hclaims := B.claims id'
    have hnow : ({ w with
        jobs := w.jobs.insert id job, log := if sets then .scheduled id :: w.log else w.log } :
          Scheduling).scheduledNow id' =
        if id = id' then job.nextRunAt.isSome else w.scheduledNow id' := by
      simp only [scheduledNow, lookup_insert]
      split <;> rfl
    rw [hnow]
    by_cases heq : id = id'
    · subst heq
      rw [if_pos rfl]
      cases sets with
      | true =>
        have hle := job.nextRunAt.isSome.toNat_le
        simp [opens]
        omega
      | false =>
        have hle : job.nextRunAt.isSome.toNat ≤ (w.scheduledNow id).toNat :=
          Bool.toNat_le_toNat (hsets.resolve_left (by simp))
        simp
        omega
    · rw [if_neg heq]
      cases sets <;> simpa [opens, heq, count_cons] using hclaims
  · cases sets with
    | true => exact not_fresh_cons _ (B.opened run hrun)
    | false => exact B.opened run hrun
  · cases sets <;> simpa [leaves, settled] using B.left run

theorem writeRun {r r' : Run} (h : w.runs[run]? = some r) {log : List Event} (hlog : (log = w.log ∧ r'.status = r.status) ∨
      ∃ e, log = e :: w.log ∧ (e = .recovered run ∨ e = .finished run) ∧ r.status = .running ∧ r'.status ≠ .running) :
    Books { w with runs := w.runs.insert run r', log } := by
  have hsettled (run' : String) : ({ w with runs := w.runs.insert run r', log } : Scheduling).settled run' =
      if run = run' then decide (r'.status ≠ .running) else w.settled run' := by
    simp only [settled, lookup_insert]
    split <;> rfl
  have hold : w.settled run = decide (r.status ≠ .running) := by simp [settled, h]
  refine ⟨fun id => ?_, fun run' hrun' => ?_, fun run' => ?_⟩
  · rcases hlog with ⟨rfl, -⟩ | ⟨e, rfl, rfl | rfl, -⟩ <;> simpa [opens, scheduledNow] using B.claims id
  · have hthere : (w.runs[run']?).isSome = true := by
      simp only [lookup_insert] at hrun'
      split at hrun'
      next heq => rw [← heq, h]; rfl
      · exact hrun'
    rcases hlog with ⟨rfl, -⟩ | ⟨e, rfl, -⟩
    · exact B.opened run' hthere
    · exact not_fresh_cons e (B.opened run' hthere)
  · have hleft := B.left run'
    rw [hsettled run']
    by_cases heq : run = run'
    · subst heq
      rw [if_pos rfl]
      rw [hold] at hleft
      rcases hlog with ⟨rfl, hstatus⟩ | ⟨e, rfl, he, hr, hr'⟩
      · rw [hstatus]
        exact hleft
      · simp only [hr, ne_eq, not_true_eq_false, decide_false, Bool.toNat_false, Nat.le_zero] at hleft
        rcases he with rfl | rfl <;> simp [leaves, hleft, hr']
    · rw [if_neg heq]
      rcases hlog with ⟨rfl, -⟩ | ⟨e, rfl, rfl | rfl, -⟩ <;> simpa [leaves, heq] using hleft

theorem absent_of_fresh (h : w.fresh run = true) : w.runs[run]? = none := by
  by_contra hne
  have hold := B.opened run (Option.isSome_iff_ne_none.mpr hne)
  simp [h] at hold

theorem move (hm : Move w w') : Books w' := by
  cases hm with
  | pending pending => exact ⟨B.claims, B.opened, B.left⟩
  | scheduled id job next => exact B.writeJob id { job with nextRunAt := next } next.isSome (by cases next <;> simp)
  | @edited id job h e =>
    refine B.writeJob id (JobEdit.apply e job) (e.nextRunAt.getD none).isSome ?_
    cases hnext : e.nextRunAt with
    | none => exact .inr fun hsome => by simpa [scheduledNow, h, JobEdit.apply, hnext] using hsome
    | some next => cases next <;> simp [JobEdit.apply, hnext]
  | deleted id =>
    refine ⟨fun id' => ?_, B.opened, B.left⟩
    have hclaims := B.claims id'
    have hle : ({ w with jobs := w.jobs.erase id } : Scheduling).scheduledNow id' ≤ w.scheduledNow id' := by
      simp only [scheduledNow, lookup_erase]
      split
      · exact Bool.false_le _
      · exact le_rfl
    exact (Nat.add_le_add_left (Bool.toNat_le_toNat hle) _).trans hclaims
  | @opened id run job r h hnext hfresh hr =>
    -- the id is new, so that no row and no event of another run is under it
    have habsent := B.absent_of_fresh hfresh
    refine ⟨fun id' => ?_, fun run' hrun' => ?_, fun run' => ?_⟩
    · have hclaims := B.claims id'
      by_cases heq : id = id'
      · subst heq
        have hold : w.scheduledNow id = true := by simpa [scheduledNow, h] using hnext
        simp [hold] at hclaims
        simpa [opens, scheduledNow, lookup_insert] using hclaims
      · simpa [opens, scheduledNow, lookup_insert, heq] using hclaims
    · by_cases heq : run = run'
      · simp [fresh, heq]
      · simp only [lookup_insert, if_neg heq] at hrun'
        exact not_fresh_cons _ (B.opened run' hrun')
    · have hleft := B.left run'
      by_cases heq : run = run'
      · subst heq
        have hold : w.settled run = false := by simp [settled, habsent]
        rw [hold] at hleft
        rw [countP_cons_of_neg (by simp [leaves])]
        exact hleft.trans (Nat.zero_le _)
      · simpa [leaves, settled, lookup_insert, heq] using hleft
  | left h hr hr' hjob he => exact B.writeRun h (.inr ⟨_, rfl, he, hr, hr'⟩)
  | @renewed run f hf =>
    refine ⟨B.claims, fun run' hrun' => ?_, fun run' => ?_⟩
    · refine B.opened run' ?_
      simp only [lookup_modify] at hrun'
      split at hrun'
      · simpa using hrun'
      · exact hrun'
    · have hsettled : ({ w with runs := w.runs.modify run f } : Scheduling).settled run' = w.settled run' := by
        simp only [settled, lookup_modify]
        split
        · cases w.runs[run']? with
          | none => rfl
          | some r => simp [(hf r).1]
        · rfl
      rw [hsettled]
      exact B.left run'

theorem moves (hm : Moves w w') : Books w' := by
  induction hm with
  | refl => exact B
  | tail _ hm ih => exact ih.move hm

theorem run_kept (hm : Moves w w') {r : Run} (hr : w.runs[run]? = some r) :
    ∃ r', w'.runs[run]? = some r' ∧ r'.jobId = r.jobId := by
  induction hm with
  | refl => exact ⟨r, hr, rfl⟩
  | tail hms hm ih =>
    obtain ⟨r', hr', hjob⟩ := ih
    have B' := B.moves hms
    cases hm with
    | pending | scheduled | edited | deleted => exact ⟨r', hr', hjob⟩
    | @opened id run' _ _ _ _ hfresh _ =>
      have hne : run' ≠ run := by
        rintro rfl
        simp [B'.absent_of_fresh hfresh] at hr'
      exact ⟨r', by rw [lookup_insert, if_neg hne]; exact hr', hjob⟩
    | @left run' r₁ r₂ _ h _ _ hjob' _ =>
      by_cases heq : run' = run
      · subst heq
        obtain rfl : r₁ = r' := by simpa [h] using hr'
        exact ⟨r₂, by rw [lookup_insert, if_pos rfl], hjob'.trans hjob⟩
      · exact ⟨r', by rw [lookup_insert, if_neg heq]; exact hr', hjob⟩
    | @renewed run' f hf =>
      by_cases heq : run' = run
      · exact ⟨f r', by rw [lookup_modify, if_pos heq, hr']; rfl, (hf r').2.trans hjob⟩
      · exact ⟨r', by rw [lookup_modify, if_neg heq]; exact hr', hjob⟩

end

end Books

section
variable [Chrono] {s : StaleRun} {p : Pending} {now : Int}

theorem books_reachable (h : scheduling.Reachable System.anyAction w) : Books w := by
  refine h.inv (fun hinit => ?_) fun {w w' a} _ hs B => ?_
  · obtain rfl := hinit
    exact ⟨by simp [scheduledNow], by simp, by simp [settled]⟩
  · obtain rfl := hs
    exact B.moves (step_moves w a)

def Judged (stale : List StaleRun) : Prop := ∀ s ∈ stale, ∀ s' ∈ stale, s'.runId = s.runId → s' = s

theorem mem_staleRuns {isAlive : Nat → Bool} (hs : s ∈ w.staleRuns now isAlive) :
    ∃ r, w.runs[s.runId]? = some r ∧ r.leaseUntil = some s.leaseUntil ∧ r.jobId = s.jobId := by
  obtain ⟨⟨id, r⟩, hmem, heq⟩ := mem_filterMap.mp hs
  have hr := ExtTreeMap.mem_toList_iff_getElem?_eq_some.mp hmem
  dsimp only at heq
  split at heq
  · split at heq
    · cases heq
    next leaseUntil hlease =>
      split at heq
      · cases heq
      · split at heq <;> cases heq
        exact ⟨r, hr, hlease, rfl⟩
  · cases heq

theorem judged_staleRuns (w : Scheduling) (now : Int) (isAlive : Nat → Bool) : Judged (w.staleRuns now isAlive) := by
  intro s hs s' hs' heq
  obtain ⟨r, hr, hlease, hjob⟩ := mem_staleRuns hs
  obtain ⟨r', hr', hlease', hjob'⟩ := mem_staleRuns hs'
  rw [heq, hr] at hr'
  cases hr'
  obtain ⟨runId, jobId, leaseUntil⟩ := s
  obtain ⟨runId', jobId', leaseUntil'⟩ := s'
  simp_all

theorem reschedule_runs (w : Scheduling) (now : Int) (id : String) : (w.reschedule now id).runs = w.runs := by
  unfold reschedule
  split
  · rfl
  · split
    · split
      · split <;> rfl
      · rfl
    · rfl

theorem recoverRun_runs_of_ne (hne : s.runId ≠ run) : (recoverRun now w s).runs[run]? = w.runs[run]? := by
  unfold recoverRun
  split
  · rfl
  · split
    · rw [reschedule_runs, lookup_insert, if_neg hne]
    · rfl

variable {stale : List StaleRun} {f : Finish}

theorem recover_renewed (hj : ∀ s' ∈ stale, s'.runId = s.runId → s' = s)
    (now : Int) {r : Run} (hr : w.runs[s.runId]? = some r)
    (hne : ¬(r.status = .running ∧ r.leaseUntil = some s.leaseUntil)) :
    (stale.foldl (recoverRun now) w).runs[s.runId]? = some r := by
  induction stale generalizing w with
  | nil => exact hr
  | cons s' stale ih =>
    refine ih (fun s'' hs'' => hj s'' (.tail _ hs'')) ?_
    by_cases heq : s'.runId = s.runId
    · obtain rfl := hj s' (.head _) heq
      simp only [recoverRun, hr, if_neg hne]
    · rw [recoverRun_runs_of_ne heq]
      exact hr

theorem finishJob_spec {job : Job} (h : finishJob f job = some p) :
    ∃ payload next consecutive enabled, p = .reschedule f payload next consecutive enabled ∧
      (next = none → enabled = false) := by
  unfold finishJob at h
  dsimp only at h
  split at h
  · cases h
    exact ⟨_, _, _, _, rfl, fun _ => rfl⟩
  · split at h
    · cases h
      exact ⟨_, _, _, _, rfl, fun _ => rfl⟩
    next honce =>
      split at h
      · split at h <;> cases h
        · exact ⟨_, _, _, _, rfl, nofun⟩
        · exact ⟨_, _, _, _, rfl, fun _ => rfl⟩
      · obtain ⟨next, hnext, rfl⟩ := Option.map_eq_some_iff.mp h
        refine ⟨_, _, _, _, rfl, fun hnone => ?_⟩
        have hnot : Expression.isOnce job.jobExpression = false := by
          simp only [Bool.or_eq_true, not_or, Bool.not_eq_true] at honce
          exact honce.1
        simp only [nextRunAfterFailure, hnot] at hnext
        obtain ⟨scheduled, -, rfl⟩ := Option.map_eq_some_iff.mp hnext
        cases hnone

theorem pending_recover (now : Int) (stale : List StaleRun) (w : Scheduling) :
    (stale.foldl (recoverRun now) w).pending = w.pending := by
  induction stale generalizing w with
  | nil => rfl
  | cons s stale ih =>
    rw [foldl_cons, ih]
    unfold recoverRun reschedule
    repeat' split
    all_goals rfl

theorem pending_claimJob (w : Scheduling) (now : Int) (ownerPid : Nat) (id observed run : String) :
    (w.claimJob now ownerPid id observed run).pending = w.pending := by
  unfold claimJob
  repeat' split
  all_goals rfl

theorem pending_settleRun {output : String} (h : p ∈ (w.settleRun f output).pending) : p ∈ w.pending ∨ p = .finish f := by
  unfold settleRun at h
  split at h
  · exact .inl h
  · split at h
    · simpa using h
    · exact .inl h

theorem pending_step {a : SchedulingAction} (h : p ∈ (w.step a).pending) :
    p ∈ w.pending ∨ (∃ now alive, a = .readRuns now alive ∧ p = .recover now (w.staleRuns now (alive.contains ·))) ∨
      (∃ now ownerPid rows, p = .claim now ownerPid rows) ∨ (∃ f output, a = .finishRun f output ∧ p = .finish f) ∨
        ∃ f job, .finish f ∈ w.pending ∧ w.jobs[f.jobId]? = some job ∧ finishJob f job = some p := by
  cases a with simp only [step] at h
  | readRuns now alive =>
    rcases mem_append.mp h with h | h
    · exact .inl h
    · exact .inr (.inl ⟨now, alive, rfl, mem_singleton.mp h⟩)
  | recover i =>
    split at h
    · have hmem := (mem_goOn h).resolve_right nofun
      rw [pending_recover] at hmem
      exact .inl hmem
    · exact .inl h
  | readJobs now ownerPid =>
    rcases mem_append.mp h with h | h
    · exact .inl h
    · exact .inr (.inr (.inl ⟨now, ownerPid, _, mem_singleton.mp h⟩))
  | claim i run =>
    split at h
    · split at h
      · rcases mem_goOn h with h | h
        · rw [pending_claimJob] at h
          exact .inl h
        · cases h
          exact .inr (.inr (.inl ⟨_, _, _, rfl⟩))
      · exact .inl h
    · exact .inl h
  | finishRun f output =>
    rcases pending_settleRun h with h | h
    · exact .inl h
    · exact .inr (.inr (.inr (.inl ⟨f, output, rfl, h⟩)))
  | readJob i =>
    split at h
    next f hf =>
      rcases mem_goOn h with h | h
      · exact .inl h
      · obtain ⟨job, hjob, hp⟩ := Option.bind_eq_some_iff.mp h
        exact .inr (.inr (.inr (.inr ⟨f, job, mem_of_getElem? hf, hjob, hp⟩)))
    · exact .inl h
  | updateJob i =>
    split at h
    · have hmem := (mem_goOn h).resolve_right nofun
      rw [pending_writeJob] at hmem
      exact .inl hmem
    · exact .inl h
  | stop i => exact .inl ((mem_goOn h).resolve_right nofun)
  | insertJob id job =>
    split at h <;> exact .inl h
  | editJob id e =>
    split at h <;> exact .inl h
  | renew now run => exact .inl h
  | deleteJob id => exact .inl h

theorem judged_reachable (h : scheduling.Reachable System.anyAction w)
    (hp : .recover now stale ∈ w.pending) : Judged stale := by
  refine h.inv (P := fun w => ∀ now stale, .recover now stale ∈ w.pending → Judged stale) (fun hinit => ?_)
    (fun {w w' a} _ hs ih now stale hp => ?_) now stale hp
  · obtain rfl := hinit
    simp
  · obtain rfl := hs
    rcases pending_step hp with hp | ⟨_, _, -, heq⟩ | ⟨_, _, _, heq⟩ | ⟨_, _, -, heq⟩ | ⟨f, job, -, -, heq⟩
    · exact ih now stale hp
    · cases heq
      exact judged_staleRuns _ _ _
    · cases heq
    · cases heq
    · obtain ⟨_, _, _, _, heq, -⟩ := finishJob_spec heq
      cases heq

/-- A recovery of `s` leaves alone the run that is, when it comes to it, not running on the lease read. -/
theorem step_recover_runs (h : scheduling.Reachable System.anyAction w) {i : Nat} {now : Int} {r : Run}
    (hi : w.pending[i]? = some (.recover now stale)) (hs : s ∈ stale) {v : Scheduling} (hv : v.pending = w.pending)
    (hr : v.runs[s.runId]? = some r) (hne : ¬(r.status = .running ∧ r.leaseUntil = some s.leaseUntil)) :
    (v.step (.recover i)).runs[s.runId]? = some r := by
  have hj := judged_reachable h (mem_of_getElem? hi)
  simp only [step, hv, hi]
  exact recover_renewed (fun s' hs' => hj s hs s' hs') now hr hne

/-- Runs are opened at most as often as their job was scheduled and leave `running` at most once. A run that no longer has
the lease that a recovery read, and so one that was renewed to another instant, is not recovered, and a finish after a
recovery changes nothing. -/
theorem runs_at_most_once {w : Scheduling} (h : scheduling.Reachable System.anyAction w) :
    (∀ id, w.log.countP (Event.opens id) ≤ w.log.count (.scheduled id)) ∧ (∀ run, w.log.countP (Event.leaves run) ≤ 1) ∧
    (∀ i now stale s r, w.pending[i]? = some (.recover now stale) → s ∈ stale → w.runs[s.runId]? = some r →
      (r.leaseUntil ≠ some s.leaseUntil → (w.step (.recover i)).runs[s.runId]? = some r) ∧
      ∀ renewed, parseInstant s.leaseUntil ≠ some (renewed + lease) →
        ((w.step (.renew renewed s.runId)).step (.recover i)).runs[s.runId]? =
          (w.step (.renew renewed s.runId)).runs[s.runId]?) ∧
    ∀ f output, .recovered f.runId ∈ w.log → w.step (.finishRun f output) = w := by
  have B := books_reachable h
  refine ⟨fun id => ?_, fun run => ?_, fun i now stale s r hi hs hr => ⟨fun hlease => ?_, fun renewed hmoves => ?_⟩,
    fun f output hf => ?_⟩
  · exact (Nat.le_add_right _ _).trans (B.claims id)
  · exact (B.left run).trans (Bool.toNat_le _)
  · exact step_recover_runs h hi hs rfl hr fun hrun => hlease hrun.2
  · have hrenewed : (w.step (.renew renewed s.runId)).runs[s.runId]? =
        some (if r.status = .running then { r with leaseUntil := some (toRfc3339 (renewed + lease)) } else r) := by
      simp [step, hr]
    rw [hrenewed]
    refine step_recover_runs h hi hs rfl hrenewed fun hrun => hmoves ?_
    split at hrun
    · obtain ⟨-, hread⟩ := hrun
      rw [← Option.some.inj hread, Chrono.parse_toRfc3339]
    next hstatus => exact absurd hrun.1 hstatus
  · have hpos : 0 < w.log.countP (Event.leaves f.runId) := countP_pos_iff.mpr ⟨_, hf, by simp [Event.leaves]⟩
    have hsettled : w.settled f.runId = true := by
      by_contra hne
      have hleft := B.left f.runId
      simp only [Bool.not_eq_true] at hne
      rw [hne] at hleft
      simp only [Bool.toNat_false] at hleft
      omega
    simp only [step, settleRun]
    cases hrun : w.runs[f.runId]? with
    | none => rfl
    | some run =>
      have hstatus : run.status ≠ .running := by simpa [settled, hrun] using hsettled
      simp [hstatus]

end

def bits : Nat → Nat → List Char
  | 0, _ => []
  | fuel + 1, n => if n = 0 then [] else (if n % 2 = 1 then '1' else '0') :: bits fuel (n / 2)

def bitsValue : List Char → Nat
  | [] => 0
  | c :: cs => (if c = '1' then 1 else 0) + 2 * bitsValue cs

theorem bitsValue_bits : ∀ (fuel : Nat) {n : Nat}, n ≤ fuel → bitsValue (bits fuel n) = n
  | 0, n, h => (Nat.le_zero.mp h).symm
  | fuel + 1, n, h => by
    unfold bits
    split
    next hn => exact hn.symm
    · have ih := bitsValue_bits fuel (n := n / 2) (by omega)
      simp only [bitsValue, ih]
      rcases Nat.mod_two_eq_zero_or_one n with hn | hn <;> simp [hn] <;> omega

def readBinary : List Char → Option Int
  | '+' :: cs => some (bitsValue cs)
  | '-' :: cs => some (-bitsValue cs)
  | _ => none

/-- Instants written in base two; the one cron expression is hourly and ends with the year 2100. -/
@[reducible] def binary : Chrono where
  toRfc3339 t := String.ofList ((if t < 0 then '-' else '+') :: bits t.natAbs t.natAbs)
  parseInstant s := readBinary s.toList
  parse_toRfc3339 t := by
    have hvalue := bitsValue_bits t.natAbs le_rfl
    by_cases h : t < 0
    · simp [h, readBinary, hvalue, abs_of_neg h]
    · simp [h, readBinary, hvalue, abs_of_nonneg (Int.not_lt.mp h)]
  scheduleAfter text _ after :=
    if text = "0 * * * *" ∧ after < seconds 4133980800 then some ((after / seconds 3600 + 1) * seconds 3600) else none

def late : Int := seconds 20000

def readStale : List SchedulingAction :=
  [.insertJob "job" ⟨some (.every (some ⟨seconds 60, by decide⟩)), {}, true, some "+", 0⟩, .readJobs 0 7,
    .claim 0 "run", .stop 0,
    .readRuns late []]

def staleRun : StaleRun := ⟨"run", "job", @toRfc3339 binary lease⟩

/-- Renewed after it was read, the run is not recovered. -/
theorem runs_at_most_once_renewed :
    let w := @step binary (readStale.foldl (@step binary) {}) (.renew late "run")
    ∃ r ∈ w.runs["run"]?, r.status = .running ∧ (@step binary w (.recover 0)).runs["run"]? = some r := by
  let _ := binary
  have hw : scheduling.Reachable System.anyAction (readStale.foldl step {}) := ⟨_, rfl, .of_admits (by decide)⟩
  have hread : ((readStale.foldl step {}).runs["run"]?).isSome = true := by decide
  obtain ⟨r, hr⟩ := Option.isSome_iff_exists.mp hread
  have hkept := ((runs_at_most_once hw).2.2.1 0 late [staleRun] staleRun r (by decide) (.head _) hr).2 late (by decide)
  have hrunning : ∃ r ∈ ((readStale.foldl step {}).step (.renew late "run")).runs["run"]?, r.status = .running := by decide
  obtain ⟨r', hr', hstatus⟩ := hrunning
  exact ⟨r', hr', hstatus, hkept.trans hr'⟩

end Scheduling
end Ferryx.Hub
