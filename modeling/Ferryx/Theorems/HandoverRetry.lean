import Ferryx.Theorems.HandoverOwner

/-! A temporary file that a failed step leaves behind stops every later record of the same handover. Where none is left and
no commit ends without a legacy path, an abort that meets no failure ends the handover from every state between two calls.
-/

namespace Ferryx.Daemon
open Lib Handover HandoverManager

namespace Handover
variable {w : Handover} {t : Task}

/-- A record on disk decides: one that is not a commit is an abort. -/
def Decisive (w : Handover) : Prop :=
  ∀ r ∈ w.transaction, recordedDecision w.legacy (some r) = .ok (some r.state) ∧ (r.state = .retired ∨ r.state = .active)

/-- A task is at a phase that its manager's status allows. -/
structure Working (w : Handover) (t : Task) : Prop where
  kind : (t.kind = .commitV5 ∧ w.manager.status = .committing) ∨ (t.kind = .abort ∧ w.manager.status = .prepared)
  path : t.phase ≠ .waiting → w.manager.legacySocketPath ≠ none
  synced : t.phase = .syncDirectory → t.committed = true → w.RetiredRecord
  phase : t.phase ≠ .removeCanonical ∧ (t.phase = .waiting → t.kind = .commitV5)

/-- The temporary file belongs to the task at work, and none is left behind. -/
structure Orderly (w : Handover) : Prop where
  decisive : w.Decisive
  working : ∀ t ∈ w.task, w.Working t
  pending : w.pending = true → ∃ t ∈ w.task, t.phase = .writeTemporary ∨ t.phase = .renameTemporary
  idle : w.task = none → w.manager.status = .active ∨ w.manager.status = .prepared ∨ w.RetiredRecord

/-- A failure at this phase leaves the temporary file. -/
def leavesTemporary (t : Task) (effect : Bool) : Bool :=
  match t.phase with
  | .createTemporary => effect
  | .writeTemporary => true
  | .renameTemporary => !effect
  | _ => false

namespace Working

section
variable (W : w.Working t)
include W

theorem fail (hd : w.Decisive) (hp : w.pending = false) (error : String) : (w.fail t error).Orderly := by
  have hpending {u : Handover} (h : u.pending = false) : u.pending = true →
      ∃ t ∈ u.task, t.phase = .writeTemporary ∨ t.phase = .renameTemporary := by simp [h]
  rcases W.kind with ⟨hk, hstatus⟩ | ⟨hk, hstatus⟩
  · have heq :
        w.fail t error = { w with task := none, reply := some (.failed error), manager := w.manager.reopenCommitGate } := by
      simp [Handover.fail, hk]
    rw [heq]
    exact ⟨hd, by simp, hpending hp, fun _ => .inr (.inl (by simp [reopenCommitGate, hstatus]))⟩
  · have heq : w.fail t error = { w with task := none } := by simp [Handover.fail, hk]
    rw [heq]
    exact ⟨hd, by simp, hpending hp, fun _ => .inr (.inl hstatus)⟩

theorem recorded (hd : w.Decisive) (hp : w.pending = false) (hr : t.committed = true → w.RetiredRecord) :
    (w.recorded t).Orderly := by
  rcases W.kind with ⟨hk, -⟩ | ⟨hk, -⟩
  · have heq : w.recorded t = { w with
        task := none, reply := some .commitHandoverOk, manager := w.manager.handOver t.retained } := by
      simp [Handover.recorded, Handover.succeed, hk]
    rw [heq]
    exact ⟨hd, by simp, by simp [hp], fun _ => .inr (.inr (hr (by simp [Task.committed, hk])))⟩
  · have heq : w.recorded t = { w with task := none, manager := w.manager.resume } := by
      simp [Handover.recorded, Handover.succeed, hk]
    rw [heq]
    exact ⟨hd, by simp, by simp [hp], fun _ => .inl rfl⟩

theorem proceed (hd : w.Decisive) (hpath : w.manager.legacySocketPath ≠ none) {p : Phase}
    (hp : w.pending = true → p = .writeTemporary ∨ p = .renameTemporary)
      (hs : p = .syncDirectory → t.committed = true → w.RetiredRecord)
    (hr : p ≠ .removeCanonical ∧ p ≠ .waiting) : (w.proceed t p).Orderly := by
  refine ⟨hd, fun t' ht' => ?_, fun h => ⟨_, rfl, hp h⟩, nofun⟩
  obtain rfl : { t with phase := p } = t' := by simpa [Handover.proceed] using ht'
  exact ⟨W.kind, fun _ => hpath, hs, hr.1, fun h => absurd h hr.2⟩

theorem recordDecision (hd : w.Decisive) (hp : w.pending = false) (hpath : w.manager.legacySocketPath ≠ none) :
    (w.recordDecision t).Orderly := by
  unfold Handover.recordDecision
  split
  · contradiction
  · exact W.proceed hd hpath (by simp [hp]) nofun ⟨nofun, nofun⟩

theorem lease {m : HandoverManager} (hstatus : m.status = w.manager.status)
    (hpath : m.legacySocketPath = w.manager.legacySocketPath) :
    Working { w with manager := m } t :=
  ⟨by rw [hstatus]; exact W.kind, by rw [hpath]; exact W.path, W.synced, W.phase⟩

theorem decide (hd : w.Decisive) (hp : w.pending = false) (hphase : t.phase = .readDecision) : (w.decide t).Orderly := by
  unfold Handover.decide
  split
  · exact W.fail hd hp _
  next decision heq =>
    split
    next hdecision =>
      refine W.recorded hd hp fun hc => ?_
      have hretired : decision = .retired := by simpa [Task.decision, hc] using hdecision
      exact recordedDecision_retired (hretired ▸ heq)
    · exact W.fail hd hp _
  · have hm : ∃ m, (if t.committed then w.manager.freezeForHandover else w.manager) = m ∧ m.status = w.manager.status ∧
        m.legacySocketPath = w.manager.legacySocketPath := by split <;> exact ⟨_, rfl, rfl, rfl⟩
    obtain ⟨m, hm, hstatus, hpath⟩ := hm
    rw [hm]
    exact (W.lease hstatus hpath).proceed hd (hpath ▸ W.path (by simp [hphase])) (p := .createTemporary) (by simp [hp])
      (by simp) (by simp)

theorem install (hpath : w.manager.legacySocketPath ≠ none) {p : Phase} (hr : p ≠ .removeCanonical ∧ p ≠ .waiting) :
    ((w.install t).proceed t p).Orderly := by
  have hd : (w.install t).Decisive := by
    intro r hr
    obtain rfl : w.newTransaction t = r := by simpa [Handover.install] using hr
    rcases hc : t.committed <;> simp [newTransaction, recordedDecision, Task.decision, hc, Handover.install]
  have hr' (hc : t.committed = true) : (w.install t).RetiredRecord := ⟨_, rfl, by simp [newTransaction, Task.decision, hc]⟩
  have W' : (w.install t).Working t := ⟨W.kind, W.path, fun _ => hr', W.phase⟩
  exact W'.proceed hd hpath (by simp [Handover.install]) (fun _ => hr') hr

theorem thaw : (w.thaw t).Working t := by
  unfold Handover.thaw
  split
  · refine W.lease ?_ ?_ <;> split <;> rfl
  · exact W

end

end Working

theorem thaw_frame (w : Handover) (t : Task) :
    (w.thaw t).transaction = w.transaction ∧ (w.thaw t).legacy = w.legacy ∧ (w.thaw t).pending = w.pending := by
  unfold thaw
  split <;> exact ⟨rfl, rfl, rfl⟩

theorem Decisive.thaw (h : w.Decisive) (t : Task) : (w.thaw t).Decisive := by
  obtain ⟨htransaction, hlegacy, -⟩ := w.thaw_frame t
  unfold Decisive
  rw [htransaction, hlegacy]
  exact h

section
variable (O : w.Orderly)
include O

theorem Orderly.not_pending (ht : w.task = some t) (h : ¬(t.phase = .writeTemporary ∨ t.phase = .renameTemporary)) :
    w.pending = false := by
  by_contra hp
  obtain ⟨t', ht', hphase⟩ := O.pending (by simpa using hp)
  obtain rfl : t = t' := by simpa [ht] using ht'
  exact h hphase

theorem Orderly.file (ht : w.task = some t) {o : FileOutcome}
    (ho : ∀ effect error, o = .failed effect error → leavesTemporary t effect = false) : (w.fileStep t o).Orderly := by
  have W := O.working t ht
  have hd := O.decisive
  have hpending := O.not_pending ht
  cases hphase : t.phase with
  | waiting => simpa [fileStep, hphase] using O
  | persistRoute =>
    have hp := hpending (by simp [hphase])
    cases o with
    | done => simpa [fileStep, hphase] using W.recordDecision hd hp (W.path (by simp [hphase]))
    | failed effect error => simpa [fileStep, hphase] using W.fail hd hp _
  | readDecision =>
    have hp := hpending (by simp [hphase])
    cases o with
    | done => simpa [fileStep, hphase] using W.decide hd hp hphase
    | failed effect error => simpa [fileStep, hphase] using W.fail hd hp _
  | createTemporary =>
    have hp := hpending (by simp [hphase])
    have hpath := W.path (by simp [hphase])
    cases o with
    | done =>
      have W' : Working { w with pending := true } t := ⟨W.kind, W.path, W.synced, W.phase⟩
      simpa [fileStep, hphase, hp] using W'.proceed hd hpath (p := .writeTemporary) (by simp) (by simp) (by simp)
    | failed effect error =>
      have heffect : effect = false := by simpa [leavesTemporary, hphase] using ho effect error rfl
      have W' : Working { w with pending := false } t := ⟨W.kind, W.path, W.synced, W.phase⟩
      simpa [fileStep, hphase, hp, heffect] using W'.proceed hd hpath (p := .recheck error) (by simp) (by simp) (by simp)
  | writeTemporary =>
    have hpath := W.path (by simp [hphase])
    cases o with
    | done => simpa [fileStep, hphase] using W.proceed hd hpath (p := .renameTemporary) (by simp) (by simp) (by simp)
    | failed effect error => simpa [leavesTemporary, hphase] using ho effect error rfl
  | renameTemporary =>
    have hpath := W.path (by simp [hphase])
    cases o with
    | done => simpa [fileStep, hphase] using W.install hpath (p := .syncDirectory) (by simp)
    | failed effect error =>
      have heffect : effect = true := by simpa [leavesTemporary, hphase] using ho effect error rfl
      simpa [fileStep, hphase, heffect] using W.install hpath (p := .recheck error) (by simp)
  | syncDirectory =>
    have hp := hpending (by simp [hphase])
    cases o with
    | done => simpa [fileStep, hphase] using W.recorded hd hp (W.synced hphase)
    | failed effect error =>
      simpa [fileStep, hphase] using W.proceed hd (W.path (by simp [hphase])) (p := .recheck error) (by simp [hp]) (by simp)
        (by simp)
  | recheck error =>
    have hp := hpending (by simp [hphase])
    cases o with
    | done =>
      have hp' : (w.thaw t).pending = false := (w.thaw_frame t).2.2.trans hp
      simpa [fileStep, hphase] using W.thaw.fail (hd.thaw t) hp' _
    | failed effect error => simpa [fileStep, hphase] using W.fail hd hp _
  | removeCanonical => exact absurd hphase W.phase.1

theorem Orderly.frame {w' : Handover} (hlegacy : w'.legacy = w.legacy) (htransaction : w'.transaction = w.transaction)
    (htask : w'.task = w.task) (hpending : w'.pending = w.pending) (hstatus : w'.manager.status = w.manager.status)
    (hpath : w'.manager.legacySocketPath = w.manager.legacySocketPath) : w'.Orderly := by
  have hr : w'.RetiredRecord ↔ w.RetiredRecord := by simp [RetiredRecord, htransaction]
  refine ⟨?_, fun t ht => ?_, ?_, ?_⟩
  · unfold Decisive
    rw [hlegacy, htransaction]
    exact O.decisive
  · have W := O.working t (htask ▸ ht)
    exact ⟨by rw [hstatus]; exact W.kind, by rw [hpath]; exact W.path, by rw [hr]; exact W.synced, W.phase⟩
  · rw [hpending, htask]
    exact O.pending
  · rw [htask, hstatus, hr]
    exact O.idle

theorem Orderly.drained (ht : w.task = some t) (hphase : t.phase = .waiting) (hpath : w.manager.legacySocketPath ≠ none)
    (retained : Bool) :
    (w.drained t retained).Orderly := by
  have W := O.working t ht
  have hp := O.not_pending ht (by simp [hphase])
  have W' : w.Working { t with retained } := ⟨W.kind, W.path, W.synced, W.phase⟩
  unfold Handover.drained
  split
  · exact W.fail O.decisive hp _
  · split
    · split
      · exact W.fail O.decisive hp _
      · exact W'.proceed O.decisive hpath (by simp [hp]) nofun ⟨nofun, nofun⟩
    · exact W'.recordDecision O.decisive hp hpath

theorem Orderly.timedOut (ht : w.task = some t) (hphase : t.phase = .waiting) (error : String) : (w.fail t error).Orderly :=
  (O.working t ht).fail O.decisive (O.not_pending ht (by simp [hphase])) error

theorem Orderly.no_task (hlock : w.locked = false) (hstatus : w.manager.status ≠ .committing) : w.task = none := by
  cases ht : w.task with
  | none => rfl
  | some t =>
    have hwaiting : t.phase = .waiting := by simpa [locked, ht] using hlock
    have W := O.working t ht
    have hk := W.phase.2 hwaiting
    rcases W.kind with ⟨-, h⟩ | ⟨hk', -⟩
    · exact absurd h hstatus
    · simp [hk] at hk'

theorem Orderly.idle_not_pending (ht : w.task = none) : w.pending = false := by
  by_contra h
  obtain ⟨t, ht', -⟩ := O.pending (by simpa using h)
  simp [ht] at ht'

theorem Orderly.commitV5 (hlock : w.locked = false) : w.commitV5.Orderly := by
  rcases w.commitV5_cases with ⟨e, heq⟩ | ⟨hstatus, heq⟩ <;> rw [heq]
  · exact O.frame rfl rfl rfl rfl rfl rfl
  · have ht := O.no_task hlock (by rcases hstatus with h | h <;> simp [h])
    refine ⟨O.decisive, fun t ht => ?_, by simp [O.idle_not_pending ht], by simp⟩
    obtain rfl : ⟨.commitV5, false, .waiting⟩ = t := by simpa using ht
    exact ⟨.inl ⟨rfl, rfl⟩, fun h => absurd rfl h, nofun, nofun, fun _ => rfl⟩

theorem Orderly.abortHandover (hlock : w.locked = false) : w.abortHandover.Orderly := by
  unfold Handover.abortHandover
  split
  · exact O
  next hstatus =>
    have hstatus : w.manager.status = .prepared := not_not.mp hstatus
    have hp := O.idle_not_pending (O.no_task hlock (by simp [hstatus]))
    unfold recordDecision
    split
    · exact ⟨O.decisive, by simp [recorded, succeed], by simp [recorded, succeed, hp], fun _ => .inl rfl⟩
    next hpath =>
      refine ⟨O.decisive, fun t ht => ?_, by simp [proceed, hp], by simp [proceed]⟩
      obtain rfl : ⟨.abort, false, .readDecision⟩ = t := by simpa [proceed] using ht
      exact ⟨.inr ⟨rfl, hstatus⟩, fun _ => by simp [proceed, hpath], by simp, by simp, by simp⟩

end

def abortDone (w : Handover) : Handover := (fun w => w.step true (.file .done))^[5] w.abortHandover

theorem Orderly.abortDone (O : w.Orderly) (ht : w.task = none) (hstatus : w.manager.status = .prepared)
    (hr : ¬w.RetiredRecord) :
    w.abortDone.task = none ∧ w.abortDone.manager = w.manager.resume := by
  have hp := O.idle_not_pending ht
  cases hpath : w.manager.legacySocketPath with
  | none => simp [Handover.abortDone, Handover.abortHandover, hstatus, Handover.recordDecision, hpath, Handover.recorded,
      succeed, step]
  | some path =>
    cases htransaction : w.transaction with
    | none =>
      simp [Handover.abortDone, Handover.abortHandover, hstatus, Handover.recordDecision, hpath, Handover.proceed, step,
        fileStep,
        decide, htransaction, recordedDecision, hp, Task.committed, install, recorded, succeed]
    | some r =>
      obtain ⟨hrecorded, hstate⟩ := O.decisive r htransaction
      have hactive : r.state = .active := hstate.resolve_left fun h => hr ⟨r, htransaction, h⟩
      rw [hactive] at hrecorded
      simp [Handover.abortDone, Handover.abortHandover, hstatus, Handover.recordDecision, hpath, Handover.proceed, step,
        fileStep,
        decide, htransaction, hrecorded, Task.decision, Task.committed, recorded, succeed]

end Handover

namespace Generations
variable {g : Generations}

/-- No file step leaves a temporary file behind, and no commit ends its wait without a legacy path. -/
def tidy (g : Generations) : GenerationAction → Prop
  | .file (.failed effect _) => ∀ t ∈ g.handover.task, leavesTemporary t effect = false
  | .drained _ => g.handover.manager.legacySocketPath ≠ none
  | _ => True

theorem tidy_of_none {effect : Bool} {error : String} (h : g.handover.task = none) :
    tidy g (.file (.failed effect error)) := by
  simp [tidy, h]

theorem tidy_iff {effect : Bool} {error : String} {t : Task} (h : g.handover.task = some t) :
    leavesTemporary t effect = false ↔ tidy g (.file (.failed effect error)) := by
  simp [tidy, h]

instance : ∀ g, DecidablePred (tidy g)
  | g, .file (.failed effect _) => match h : g.handover.task with
    | none => isTrue (tidy_of_none h)
    | some t => decidable_of_iff (leavesTemporary t effect = false) (tidy_iff h)
  | g, .drained _ => decidable_of_iff (g.handover.manager.legacySocketPath ≠ none) Iff.rfl
  | _, .file .done | _, .prepareHandover _ _ | _, .commitHandoverV5 | _, .abortHandover | _, .retainSpawnOwner | _,
      .dropSpawnOwner
  | _, .retainRequest | _, .dropRequest | _, .drainTimeout => isTrue trivial

theorem prepare_orderly (O : g.handover.Orderly) (legacy : String) : (g.prepare legacy).handover.Orderly := by
  unfold prepare
  split
  · exact O
  next manager heq =>
    have hstatus : manager.status = .prepared := by
      unfold prepareHandover at heq
      split at heq
      · cases heq
      · split at heq <;> cases heq
        rfl
    exact ⟨by simp [Handover.Decisive], by simp, by simp, fun _ => .inr (.inl hstatus)⟩

theorem call_orderly (O : g.handover.Orderly) (c : ManagerCall)
    (hstatus : (g.handover.call c).manager.status = g.handover.manager.status)
    (hpath : (g.handover.call c).manager.legacySocketPath = g.handover.manager.legacySocketPath) :
    (g.handover.step true (.call c)).Orderly := by
  obtain ⟨m, prepared, heq, -⟩ := g.handover.call_spec c
  simp only [Handover.step]
  split
  · exact O
  · rw [heq] at hstatus hpath ⊢
    exact O.frame rfl rfl rfl rfl hstatus hpath

theorem orderly_step {a : GenerationAction} (hok : tidy g a) (O : g.handover.Orderly) : (g.step a).handover.Orderly := by
  cases a with
  | prepareHandover legacy bound =>
    simp only [step]
    split
    · exact O
    · exact prepare_orderly O legacy
  | commitHandoverV5 =>
    simp only [step]
    split
    · exact O
    next hlock => exact O.commitV5 (by simpa using hlock)
  | abortHandover =>
    simp only [step]
    split
    · exact O
    next hlock => exact O.abortHandover (by simpa using hlock)
  | retainSpawnOwner =>
    refine call_orderly O _ ?_ ?_ <;> simp only [call, HandoverManager.retainSpawnOwner] <;> split_ifs <;> rfl
  | dropSpawnOwner => exact call_orderly O _ rfl rfl
  | retainRequest =>
    refine call_orderly O _ ?_ ?_ <;> simp only [call, HandoverManager.retainRequest] <;> split <;> rfl
  | dropRequest => exact O.frame rfl rfl rfl rfl rfl rfl
  | drained retained =>
    simp only [step, Handover.step]
    split
    next t ht =>
      split
      next h => exact O.drained ht h.1 hok retained
      · exact O
    · exact O
  | drainTimeout =>
    simp only [step, Handover.step]
    split
    next t ht =>
      split
      next h => exact O.timedOut ht h.1 _
      · exact O
    · exact O
  | file o =>
    simp only [step, Handover.step]
    split
    next t ht =>
      refine O.file ht fun effect error ho => ?_
      subst ho
      exact hok t ht
    · exact O

theorem orderly_reachable (h : generations.Reachable tidy g) : g.handover.Orderly := by
  refine h.inv (P := fun g => g.handover.Orderly) (fun hinit => ?_) fun {g g' a} hok hs O => ?_
  · obtain ⟨legacy, lease, rfl⟩ := hinit
    exact ⟨by simp [Handover.Decisive], by simp, by simp, fun _ => .inl rfl⟩
  · obtain rfl := hs
    exact orderly_step hok O

/-- The daemon after a call of `abort_handover` where there is a handover to abort; its file steps meet no failure. -/
def afterAbort (g : Generations) : HandoverManager :=
  if g.handover.manager.status = .prepared then g.handover.abortDone.manager else g.handover.manager

/-- After a failed handover an abort makes the daemon active, and it admits spawns. -/
theorem failed_handover_recovers {g : Generations} (h : generations.Reachable tidy g) (hidle : g.handover.task = none)
    (hdisk : ∀ r ∈ g.records, ∀ t ∈ r, t.state ≠ .retired) :
    (g.handover.manager.status = .prepared → g.handover.abortDone.task = none ∧ g.handover.abortDone.manager.status =
      .active) ∧
      ∃ m, g.afterAbort.retainSpawnOwner = .ok m := by
  have O := orderly_reachable h
  have hr : ¬g.handover.RetiredRecord := fun ⟨t, ht, hstate⟩ => hdisk _ List.mem_cons_self t ht hstate
  have habort (hstatus : g.handover.manager.status = .prepared) := O.abortDone hidle hstatus hr
  refine ⟨fun hstatus => ⟨(habort hstatus).1, by rw [(habort hstatus).2]; rfl⟩, ?_⟩
  have hactive : g.afterAbort.status = .active := by
    unfold afterAbort
    split
    next hstatus => rw [(habort hstatus).2]; rfl
    next hstatus =>
      rcases O.idle hidle with h | h | h
      · exact h
      · exact absurd h hstatus
      · exact absurd h hr
  refine ⟨{ g.afterAbort with spawnOwners := g.afterAbort.spawnOwners + 1 }, ?_⟩
  simp [HandoverManager.retainSpawnOwner, hactive]

/-- The directory cannot be synced in an abort, and a commit follows. -/
def syncFailed : List GenerationAction :=
  [.prepareHandover "legacy-1-0.sock" true, .abortHandover, .file .done, .file .done, .file .done, .file .done,
    .file (.failed false "Input/output error"), .file .done, .commitHandoverV5, .drained false, .file .done]

theorem failed_handover_recovers_syncFailed :
    let g := syncFailed.foldl Generations.step ⟨{ legacy := "", manager := {} }, []⟩
    (g.handover.manager.status = .prepared → g.handover.abortDone.task = none ∧ g.handover.abortDone.manager.status =
      .active) ∧
      ∃ m, g.afterAbort.retainSpawnOwner = .ok m :=
  failed_handover_recovers ⟨_, ⟨_, _, rfl⟩, .of_admits (by decide)⟩ (by decide) (by decide)

/-- The disk is full while a commit writes its temporary file. -/
def diskFull : List GenerationAction :=
  [.prepareHandover "legacy-1-0.sock" true, .commitHandoverV5, .drained false, .file .done, .file .done,
    .file (.failed false "No space left on device"), .file .done]

/-- Then no record is on disk and nothing is in flight, but an abort that meets no failure does not end the handover and
spawns are refused after it. -/
theorem wedged_after_full_disk :
    ∃ g, generations.Reachable System.anyAction g ∧ g.handover.task = none ∧
      (∀ r ∈ g.records, ∀ t ∈ r, t.state ≠ .retired) ∧
      g.handover.manager.spawnOwners = 0 ∧ g.handover.manager.inFlight = 0 ∧ g.handover.manager.status = .prepared ∧
      g.handover.abortDone.task = none ∧ g.handover.abortDone.manager.status = .prepared ∧
        g.afterAbort.retainSpawnOwner.toOption.isNone :=
  ⟨diskFull.foldl Generations.step ⟨{ legacy := "", manager := {} }, []⟩,
    ⟨_, ⟨_, _, rfl⟩, .of_admits (by decide)⟩, by decide⟩

end Generations
end Ferryx.Daemon
