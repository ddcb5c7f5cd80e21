import Ferryx.Daemon.Handover

/-! Where no file step of a commit fails from the renaming of its record on, a recorded retirement, a confirmed reply and a
candidate that owns are each decided: the commit holds the lock of the status until it ends, or has ended the handover. -/

namespace Ferryx.Daemon
open Lib Handover Ferryx.Daemon.Task HandoverManager

/-! ### Calls of the manager -/

/-- What a call of the manager changes of its status, gate and path. -/
inductive CallMove (m m' : HandoverManager) : Prop
  | same (status : m'.status = m.status) (gate : m'.acceptGate = m.acceptGate)
      (path : m'.legacySocketPath = m.legacySocketPath)
      (draining : m'.isDraining = m.isDraining)
  | prepared (status : m.status = .active) (status' : m'.status = .prepared) (gate : m'.acceptGate = m.acceptGate)
      (path : m'.legacySocketPath ≠ none) (draining : m'.isDraining = m.isDraining)
  | retiring (status : m.status = .active ∨ m.status = .retiring) (status' : m'.status = .retiring)
      (gate : m'.acceptGate = m.acceptGate) (draining : m'.isDraining = m.isDraining)
  | retired (draining : m.isDraining = true) (status' : m'.status = .retired) (gate : m'.acceptGate = false)
      (draining' : m'.isDraining = false)

namespace HandoverManager
variable (m : HandoverManager)

theorem prepareHandover_move (legacy : String) {m' : HandoverManager} (h : m.prepareHandover legacy = .ok m') :
    CallMove m m' := by
  unfold prepareHandover at h
  split at h
  · cases h
  · split at h
    · cases h
    next hstatus =>
      cases h
      exact .prepared (not_not.mp hstatus) rfl rfl (by simp) rfl

theorem retainSpawnOwner_move : CallMove m (m.retainSpawnOwner.toOption.getD m) := by
  unfold retainSpawnOwner
  split
  · exact .same rfl rfl rfl rfl
  · split <;> exact .same rfl rfl rfl rfl

theorem retainRequest_move : CallMove m (m.retainRequest.toOption.getD m) := by
  unfold retainRequest
  split <;> exact .same rfl rfl rfl rfl

theorem controlRetireWhenIdle_move : CallMove m m.controlRetireWhenIdle := by
  unfold controlRetireWhenIdle
  split
  next h => exact .retiring (.inl h) rfl rfl rfl
  · exact .same rfl rfl rfl rfl

theorem controlShutdown_move (countChanged : Bool) : CallMove m (m.controlShutdown countChanged) := by
  unfold controlShutdown
  split
  next h => exact .retiring h.1 rfl rfl rfl
  · exact .same rfl rfl rfl rfl

theorem checkRetirementIfEmpty_move (live : Bool) : CallMove m (m.checkRetirementIfEmpty live) := by
  unfold checkRetirementIfEmpty
  split
  · exact .same rfl rfl rfl rfl
  · split
    next h => exact .retired h.1 rfl rfl rfl
    · exact .same rfl rfl rfl rfl

end HandoverManager

namespace Handover
variable {v5 : Bool} {w w' : Handover} {t : Task} {m m' : HandoverManager}

theorem call_spec (w : Handover) (c : ManagerCall) : ∃ m prepared, w.call c = { w with manager := m, prepared } ∧
    CallMove w.manager m := by
  cases c with
  | prepareHandover =>
    simp only [call]
    split
    · exact ⟨_, _, rfl, .same rfl rfl rfl rfl⟩
    · split
      · exact ⟨_, _, rfl, .same rfl rfl rfl rfl⟩
      next h => exact ⟨_, _, rfl, w.manager.prepareHandover_move _ h⟩
  | retainSpawnOwner => exact ⟨_, _, rfl, w.manager.retainSpawnOwner_move⟩
  | dropSpawnOwner => exact ⟨_, _, rfl, .same rfl rfl rfl rfl⟩
  | retainRequest => exact ⟨_, _, rfl, w.manager.retainRequest_move⟩
  | controlRetireWhenIdle => exact ⟨_, _, rfl, w.manager.controlRetireWhenIdle_move⟩
  | controlShutdown countChanged => exact ⟨_, _, rfl, w.manager.controlShutdown_move countChanged⟩
  | checkRetirementIfEmpty live => exact ⟨_, _, rfl, w.manager.checkRetirementIfEmpty_move live⟩

/-! ### Steps of a task -/

def RetiredRecord (w : Handover) : Prop := ∃ r, w.transaction = some r ∧ r.state = .retired

structure SameCandidate (w w' : Handover) : Prop where
  candidate : w'.candidate = w.candidate
  commitRequested : w'.commitRequested = w.commitRequested
  legacy : w'.legacy = w.legacy

/-- A task goes on, or it ends, and a commit then answers. An abort records no retirement, and the last step of a task
    leaves the record as it is. -/
structure TaskStep (t : Task) (w w' : Handover) : Prop extends SameCandidate w w' where
  ends : (∃ t', w'.task = some t' ∧ t'.committed = t.committed ∧ w'.reply = w.reply) ∨
    (w'.task = none ∧ (w'.reply = w.reply ∨ t.committed = true))
  record : t.committed = false → w'.RetiredRecord → w.RetiredRecord
  kept : w'.task = none → w'.transaction = w.transaction

namespace TaskStep

section
variable (w : Handover)

theorem fail (t : Task) (error : String) : TaskStep t w (w.fail t error) := by
  unfold Handover.fail
  split
  next hk => exact ⟨⟨rfl, rfl, rfl⟩, .inr ⟨rfl, .inr (by simp [committed, hk])⟩, fun _ => id, fun _ => rfl⟩
  next hk => exact ⟨⟨rfl, rfl, rfl⟩, .inr ⟨rfl, .inr (by simp [committed, hk])⟩, fun _ => id, fun _ => rfl⟩
  · exact ⟨⟨rfl, rfl, rfl⟩, .inr ⟨rfl, .inl rfl⟩, fun _ => id, fun _ => rfl⟩

theorem succeed (t : Task) : TaskStep t w (w.succeed t) := by
  unfold Handover.succeed
  split
  next hk => exact ⟨⟨rfl, rfl, rfl⟩, .inr ⟨rfl, .inr (by simp [committed, hk])⟩, fun _ => id, fun _ => rfl⟩
  next hk => exact ⟨⟨rfl, rfl, rfl⟩, .inr ⟨rfl, .inr (by simp [committed, hk])⟩, fun _ => id, fun _ => rfl⟩
  · exact ⟨⟨rfl, rfl, rfl⟩, .inr ⟨rfl, .inl rfl⟩, fun _ => id, fun _ => rfl⟩

theorem proceed (t : Task) (phase : Phase) : TaskStep t w (w.proceed t phase) :=
  ⟨⟨rfl, rfl, rfl⟩, .inl ⟨_, rfl, rfl, rfl⟩, fun _ => id, fun _ => rfl⟩

theorem recorded (t : Task) : TaskStep t w (w.recorded t) := by
  unfold Handover.recorded
  split
  · exact .proceed w t _
  · exact .succeed w t

theorem recordDecision (t : Task) : TaskStep t w (w.recordDecision t) := by
  unfold Handover.recordDecision
  split
  · exact .recorded w t
  · exact .proceed w t _

end

theorem after {u : Handover} (T : TaskStep t u w') (h : SameCandidate w u) (hreply : u.reply = w.reply)
    (htransaction : u.transaction = w.transaction) : TaskStep t w w' where
  candidate := T.candidate.trans h.candidate
  commitRequested := T.commitRequested.trans h.commitRequested
  legacy := T.legacy.trans h.legacy
  ends := by
    rw [← hreply]
    exact T.ends
  record hc hr := by
    obtain ⟨r, hr⟩ := T.record hc hr
    exact ⟨r, htransaction ▸ hr⟩
  kept h := (T.kept h).trans htransaction

theorem decide (w : Handover) (t : Task) : TaskStep t w (w.decide t) := by
  unfold Handover.decide
  split
  · exact .fail w t _
  · split
    · exact .recorded w t
    · exact .fail w t _
  · exact .after (.proceed _ t _) ⟨rfl, rfl, rfl⟩ rfl rfl

theorem install (w : Handover) (t : Task) (phase : Phase) : TaskStep t w ((w.install t).proceed t phase) := by
  refine ⟨⟨rfl, rfl, rfl⟩, .inl ⟨_, rfl, rfl, rfl⟩, fun hc ⟨r, hr, hstate⟩ => ?_, nofun⟩
  obtain rfl : w.newTransaction t = r := by simpa [Handover.install, Handover.proceed] using hr
  simp [newTransaction, decision, hc] at hstate

theorem thaw (w : Handover) (t : Task) (error : String) : TaskStep t w ((w.thaw t).fail t error) := by
  refine .after (.fail (w.thaw t) t error) ?_ ?_ ?_
  all_goals
    unfold Handover.thaw
    split
  iterate 2 exact ⟨rfl, rfl, rfl⟩
  all_goals rfl

theorem fileStep (ht : w.task = some t) (o : FileOutcome) : TaskStep t w (w.fileStep t o) := by
  unfold Handover.fileStep
  split
  · exact ⟨⟨rfl, rfl, rfl⟩, .inl ⟨t, ht, rfl, rfl⟩, fun _ => id, fun _ => rfl⟩
  · exact .recordDecision w t
  · exact .fail w t _
  · exact .decide w t
  · exact .fail w t _
  · split
    · exact .proceed w t _
    · exact .after (.proceed _ t _) ⟨rfl, rfl, rfl⟩ rfl rfl
  · exact .after (.proceed _ t _) ⟨rfl, rfl, rfl⟩ rfl rfl
  · exact .proceed w t _
  · exact .proceed w t _
  · exact .install w t _
  · split
    · exact .install w t _
    · exact .proceed w t _
  · exact .recorded w t
  · exact .proceed w t _
  · exact .thaw w t _
  · exact .fail w t _
  · exact .after (.succeed _ t) ⟨rfl, rfl, rfl⟩ rfl rfl
  · exact .after (.fail _ t _) ⟨rfl, rfl, rfl⟩ rfl rfl

theorem drained (w : Handover) (t : Task) (retained : Bool) : TaskStep t w (w.drained t retained) := by
  unfold Handover.drained
  split
  · exact .fail w t _
  · split
    · split
      · exact .fail w t _
      · exact ⟨⟨rfl, rfl, rfl⟩, .inl ⟨_, rfl, rfl, rfl⟩, fun _ => id, fun _ => rfl⟩
    · have T := TaskStep.recordDecision w { t with retained }
      exact ⟨T.toSameCandidate, T.ends, T.record, T.kept⟩

end TaskStep

theorem SameCandidate.abortHandover (w : Handover) : SameCandidate w w.abortHandover := by
  unfold Handover.abortHandover
  split
  · exact ⟨rfl, rfl, rfl⟩
  · exact (TaskStep.recordDecision w _).toSameCandidate

theorem SameCandidate.refused (w : Handover) (error : String) : SameCandidate w { w with reply := some (.failed error) } :=
  ⟨rfl, rfl, rfl⟩

theorem closeCommitGate_cases (m : HandoverManager) : (∃ e, m.closeCommitGate = .error e) ∨
    ((m.status = .prepared ∨ m.status = .active) ∧
      m.closeCommitGate = .ok { m with status := .committing, acceptGate := false }) := by
  unfold closeCommitGate
  split
  · exact .inl ⟨_, rfl⟩
  · split
    · exact .inl ⟨_, rfl⟩
    next h => exact .inr ⟨by tauto, rfl⟩

theorem commitV5_cases (w : Handover) :
    (∃ e, w.commitV5 = { w with reply := some (.failed e) }) ∨
      ((w.manager.status = .prepared ∨ w.manager.status = .active) ∧
      w.commitV5 = { w with
        manager := { w.manager with status := .committing, acceptGate := false }
        task := some ⟨.commitV5, false, .waiting⟩ }) := by
  unfold commitV5
  rcases closeCommitGate_cases w.manager with ⟨e, he⟩ | ⟨hstatus, heq⟩
  · exact .inl ⟨e, by rw [he]⟩
  · exact .inr ⟨hstatus, by rw [heq]⟩

theorem commitV4_cases (w : Handover) :
    (∃ e, w.commitV4 = { w with reply := some (.failed e) }) ∨
      ((w.manager.status = .prepared ∨ w.manager.status = .active) ∧
      (w.commitV4 = w.recordDecision ⟨.commitV4, false, .readDecision⟩ ∨
        w.commitV4 = w.proceed ⟨.commitV4, false, .readDecision⟩ .persistRoute)) := by
  unfold commitV4
  split
  · exact .inl ⟨_, rfl⟩
  · split
    · exact .inl ⟨_, rfl⟩
    next h =>
      refine .inr ⟨by tauto, ?_⟩
      split
      · exact .inl rfl
      · exact .inr rfl

theorem SameCandidate.commitV5 (w : Handover) : SameCandidate w w.commitV5 := by
  rcases w.commitV5_cases with ⟨e, heq⟩ | ⟨-, heq⟩ <;> rw [heq]
  · exact .refused w e
  · exact ⟨rfl, rfl, rfl⟩

theorem SameCandidate.commitV4 (w : Handover) : SameCandidate w w.commitV4 := by
  rcases w.commitV4_cases with ⟨e, heq⟩ | ⟨-, heq | heq⟩ <;> rw [heq]
  · exact .refused w e
  · exact (TaskStep.recordDecision w _).toSameCandidate
  · exact ⟨rfl, rfl, rfl⟩

/-! ### Handovers that are decided -/

/-- The predecessor has given up its role, or is about to with the lock of the status held. -/
structure Decided (v5 : Bool) (w : Handover) : Prop where
  gate : v5 = true → w.manager.acceptGate = false ∧ w.manager.status ≠ .prepared ∧ w.manager.status ≠ .active
  ends : (w.task = none ∧ (w.manager.status = .draining ∨ w.manager.status = .retired)) ∨
    ∃ t, w.task = some t ∧ t.committed = true ∧ (t.phase = .syncDirectory ∨ t.phase = .removeCanonical)

/-- No file step of a commit fails from the renaming of its record on. -/
def decisiveOutcome (t : Task) (o : FileOutcome) : Bool :=
  match t.phase, o with
  | .renameTemporary, .failed true _ => false
  | .syncDirectory, .failed _ _ => false
  | .removeCanonical, .failed _ _ => false
  | _, _ => true

/-- No file step of a commit fails from the renaming of its record on. -/
def decisive (w : Handover) : HandoverAction → Prop
  | .file o => ∀ t ∈ w.task, t.committed = true → decisiveOutcome t o = true
  | _ => True

instance : ∀ w, DecidablePred (decisive w)
  | w, .file o => match h : w.task with
    | none => isTrue (by simp [decisive, h])
    | some t => decidable_of_iff (t.committed = true → decisiveOutcome t o = true) (by simp [decisive, h])
  | _, .call _ | _, .dropRequest | _, .commitArrives | _, .drained _ | _, .drainTimeout | _, .abortArrives | _,
      .abandon | _, .sendCommit
  | _, .deliverReply | _, .connectionLost _ | _, .readDecision _ | _, .sendAbort | _, .abortLost => isTrue trivial

theorem Decided.succeed (hgate : v5 = true → w.manager.acceptGate = false) (ht : t.committed = true) :
    Decided v5 (w.succeed t) := by
  unfold Handover.succeed
  cases hk : t.kind with
  | commitV4 => exact ⟨fun hv => ⟨hgate hv, nofun, nofun⟩, .inl ⟨rfl, .inl rfl⟩⟩
  | commitV5 =>
    cases hr : t.retained with
    | false => exact ⟨fun _ => ⟨rfl, nofun, nofun⟩, .inl ⟨rfl, .inr rfl⟩⟩
    | true => exact ⟨fun _ => ⟨rfl, nofun, nofun⟩, .inl ⟨rfl, .inl rfl⟩⟩
  | abort => simp [committed, hk] at ht

theorem Decided.over (D : Decided v5 w) (hlock : w.locked = false) :
    w.task = none ∧ (w.manager.status = .draining ∨ w.manager.status = .retired) := by
  rcases D.ends with hover | ⟨t, ht, -, hphase⟩
  · exact hover
  · rcases hphase with hphase | hphase <;> simp [locked, ht, hphase] at hlock

theorem Decided.call (D : Decided v5 w) (hlock : w.locked = false) (c : ManagerCall) : Decided v5 (w.call c) := by
  obtain ⟨m, prepared, heq, hm⟩ := w.call_spec c
  obtain ⟨htask, hstatus⟩ := D.over hlock
  rw [heq]
  cases hm with
  | same status gate _ _ => exact ⟨by rw [gate, status]; exact D.gate, .inl ⟨htask, by rw [status]; exact hstatus⟩⟩
  | prepared status _ _ _ _ => simp [status] at hstatus
  | retiring status _ _ _ => rcases status with status | status <;> simp [status] at hstatus
  | retired _ status gate _ => exact ⟨fun _ => ⟨gate, by simp [status], by simp [status]⟩, .inl ⟨htask, .inr status⟩⟩

/-- A commit is on disk, was confirmed, or made the candidate the owner. -/
def Settled (w : Handover) : Prop := w.RetiredRecord ∨ w.reply = some .commitHandoverOk ∨ w.candidate = .owner

/-- A task keeps the manager in the status it found. -/
structure Held (v5 : Bool) (m : HandoverManager) (t : Task) : Prop where
  commit : v5 = true → t.committed = true → m.acceptGate = false ∧ m.status = .committing
  abort : t.committed = false → m.status = .prepared

/-- What a settled handover needs holds. -/
structure Safe (v5 : Bool) (w : Handover) : Prop where
  held : ∀ t ∈ w.task, Held v5 w.manager t
  draining : w.manager.isDraining = true → w.manager.status = .draining
  decided : Settled w → Decided v5 w

theorem Settled.of_frame (h : Settled w') (htransaction : w'.transaction = w.transaction)
    (hreply : w'.reply = w.reply ∨ w'.reply ≠ some .commitHandoverOk)
      (hcandidate : w'.candidate = w.candidate ∨ w'.candidate ≠ .owner) :
    Settled w := by
  rcases h with ⟨r, hr⟩ | h | h
  · exact .inl ⟨r, htransaction ▸ hr⟩
  · rcases hreply with heq | hne
    · exact .inr (.inl (heq ▸ h))
    · exact absurd h hne
  · rcases hcandidate with heq | hne
    · exact .inr (.inr (heq ▸ h))
    · exact absurd h hne

theorem Safe.frame (S : Safe v5 w) (htask : w'.task = w.task) (hstatus : w'.manager.status = w.manager.status)
    (hgate : w'.manager.acceptGate = w.manager.acceptGate) (hdraining : w'.manager.isDraining = w.manager.isDraining)
    (hsettled : Settled w' → Settled w) : Safe v5 w' := by
  refine ⟨fun t ht => ?_, ?_, fun h => ?_⟩
  · have H := S.held t (htask ▸ ht)
    exact ⟨by rw [hgate, hstatus]; exact H.commit, by rw [hstatus]; exact H.abort⟩
  · rw [hdraining, hstatus]
    exact S.draining
  · have D := S.decided (hsettled h)
    exact ⟨by rw [hgate, hstatus]; exact D.gate, by rw [htask, hstatus]; exact D.ends⟩

theorem recordedDecision_retired {legacy : String} (h : recordedDecision legacy w.transaction = .ok (some .retired)) :
    w.RetiredRecord := by
  cases htransaction : w.transaction with
  | none => simp [recordedDecision, htransaction] at h
  | some r =>
    refine ⟨r, htransaction, ?_⟩
    rw [htransaction] at h
    simp only [recordedDecision] at h
    split at h
    · cases h
    · cases hstate : r.state <;> simp [hstate] at h ⊢

theorem resolve_owner {readable : Bool} (h : w.resolve readable = .owner) : w.RetiredRecord := by
  unfold resolve at h
  split at h
  next decision heq =>
    have howner : decision = some .retired := by
      by_contra hne
      simp [resolveCommit, hne] at h
    exact recordedDecision_retired (howner ▸ heq)
  · cases h

theorem Safe.succeed (hgate : v5 = true → w.manager.acceptGate = false) (hc : t.committed = true) :
    Safe v5 (w.succeed t) := by
  refine ⟨?_, ?_, fun _ => .succeed hgate hc⟩
  all_goals
    unfold Handover.succeed
    cases hk : t.kind with
    | commitV4 => simp [HandoverManager.drain]
    | commitV5 => cases hr : t.retained <;> simp [HandoverManager.handOver]
    | abort => simp [Task.committed, hk] at hc

theorem Safe.file_decided (S : Safe v5 w) (D : Decided v5 w) (ht : w.task = some t) {o : FileOutcome}
    (ho : t.committed = true → decisiveOutcome t o = true) : Safe v5 (w.fileStep t o) := by
  rcases D.ends with ⟨hnone, -⟩ | ⟨t', ht', hc, hphase⟩
  · simp [ht] at hnone
  · obtain rfl : t = t' := by simpa [ht] using ht'
    have hgate (hv : v5 = true) : w.manager.acceptGate = false := (D.gate hv).1
    have ho := ho hc
    rcases hphase with hphase | hphase <;> cases o with
    | done => ?_
    | failed effect error => simp [decisiveOutcome, hphase] at ho
    · simp only [fileStep, hphase, recorded]
      split
      · refine ⟨fun t' ht' => ?_, S.draining, fun _ => ⟨D.gate, .inr ⟨_, rfl, hc, .inr rfl⟩⟩⟩
        obtain rfl : { t with phase := .removeCanonical } = t' := by simpa [proceed] using ht'
        exact ⟨(S.held t ht).commit, (S.held t ht).abort⟩
      · exact .succeed hgate hc
    · simpa [fileStep, hphase] using Safe.succeed (w := { w with canonicalSocket := false }) hgate hc

/-! ### File steps of a task that decides -/

/-- A task of an unsettled handover that may still decide it. -/
structure Ready (v5 : Bool) (w : Handover) (t : Task) : Prop where
  unsettled : ¬Settled w
  held : Held v5 w.manager t
  draining : w.manager.isDraining = true → w.manager.status = .draining

namespace Ready

section
variable (R : Ready v5 w t)
include R

theorem fail (error : String) : Safe v5 (w.fail t error) := by
  have hheld {u : Handover} (hnone : u.task = none) : ∀ t ∈ u.task, Held v5 u.manager t := by simp [hnone]
  unfold Handover.fail
  split
  · exact ⟨hheld rfl, R.draining, fun hs => (R.unsettled (hs.of_frame rfl (by simp) (.inl rfl))).elim⟩
  · refine ⟨hheld rfl, fun hd => ?_, fun hs => (R.unsettled (hs.of_frame rfl (by simp) (.inl rfl))).elim⟩
    have hstatus := R.draining hd
    simp [reopenCommitGate, hstatus]
  · exact ⟨hheld rfl, R.draining, fun hs => (R.unsettled hs).elim⟩

theorem proceed (phase : Phase) : Safe v5 (w.proceed t phase) := by
  refine ⟨fun t' ht' => ?_, R.draining, fun hs => (R.unsettled hs).elim⟩
  obtain rfl : { t with phase } = t' := by simpa [Handover.proceed] using ht'
  exact ⟨R.held.commit, R.held.abort⟩

theorem succeed : Safe v5 (w.succeed t) := by
  cases hc : t.committed with
  | true => exact .succeed (fun hv => (R.held.commit hv hc).1) hc
  | false =>
    have hkind : t.kind = .abort := by simpa [Task.committed] using hc
    simp only [Handover.succeed, hkind]
    refine ⟨by simp, fun hd => ?_, fun hs => (R.unsettled hs).elim⟩
    have hstatus := R.draining hd
    simp [R.held.abort hc] at hstatus

theorem recorded : Safe v5 (w.recorded t) := by
  unfold Handover.recorded
  split
  · exact R.proceed _
  · exact R.succeed

theorem recordDecision : Safe v5 (w.recordDecision t) := by
  unfold Handover.recordDecision
  split
  · exact R.recorded
  · exact R.proceed _

theorem decide : Safe v5 (w.decide t) := by
  unfold Handover.decide
  split
  · exact R.fail _
  · split
    · exact R.recorded
    · exact R.fail _
  · refine Ready.proceed (w := { w with manager := if t.committed then w.manager.freezeForHandover else w.manager })
      ⟨R.unsettled, ?_, ?_⟩ _
    · split
      · exact ⟨R.held.commit, R.held.abort⟩
      · exact R.held
    · split <;> exact R.draining

theorem install (hc : t.committed = false) : Ready v5 (w.install t) t := by
  refine ⟨fun hs => R.unsettled ?_, R.held, R.draining⟩
  rcases hs with ⟨r, hr, hstate⟩ | hs | hs
  · obtain rfl : w.newTransaction t = r := by simpa [Handover.install] using hr
    simp [newTransaction, decision, hc] at hstate
  · exact .inr (.inl hs)
  · exact .inr (.inr hs)

theorem rename : Safe v5 ((w.install t).proceed t .syncDirectory) := by
  cases hc : t.committed with
  | false => exact (R.install hc).proceed _
  | true =>
    refine ⟨fun t' ht' => ?_, R.draining, fun _ => ⟨fun hv => ?_, .inr ⟨_, rfl, hc, .inl rfl⟩⟩⟩
    · obtain rfl : { t with phase := .syncDirectory } = t' := by simpa [Handover.proceed] using ht'
      exact ⟨R.held.commit, R.held.abort⟩
    · obtain ⟨hgate, hstatus⟩ := R.held.commit hv hc
      exact ⟨hgate, by simp [Handover.proceed, Handover.install, hstatus], by simp [Handover.proceed, Handover.install,
        hstatus]⟩

theorem thaw : Ready v5 (w.thaw t) t := by
  unfold Handover.thaw
  split
  · refine ⟨R.unsettled, ?_, ?_⟩ <;> dsimp only <;> split
    · exact ⟨R.held.commit, R.held.abort⟩
    · exact R.held
    · exact R.draining
    · exact R.draining
  · exact R

theorem pending (pending : Bool) : Ready v5 { w with pending } t := ⟨R.unsettled, R.held, R.draining⟩

theorem canonical (canonicalSocket : Bool) : Ready v5 { w with canonicalSocket } t :=
  ⟨R.unsettled, R.held, R.draining⟩

theorem file (S : Safe v5 w) {o : FileOutcome} (ho : t.committed = true → decisiveOutcome t o = true) :
    Safe v5 (w.fileStep t o) := by
  cases hphase : t.phase with
  | waiting => simpa [fileStep, hphase] using S
  | persistRoute =>
    cases o with
    | done => simpa [fileStep, hphase] using R.recordDecision
    | failed effect error => simpa [fileStep, hphase] using R.fail _
  | readDecision =>
    cases o with
    | done => simpa [fileStep, hphase] using R.decide
    | failed effect error => simpa [fileStep, hphase] using R.fail _
  | createTemporary =>
    cases o with
    | done =>
      simp only [fileStep, hphase]
      split
      · exact R.proceed _
      · exact (R.pending true).proceed _
    | failed effect error => simpa [fileStep, hphase] using (R.pending (w.pending || effect)).proceed _
  | writeTemporary =>
    cases o with
    | done => simpa [fileStep, hphase] using R.proceed _
    | failed effect error => simpa [fileStep, hphase] using R.proceed _
  | renameTemporary =>
    cases o with
    | done => simpa [fileStep, hphase] using R.rename
    | failed effect error =>
      cases effect with
      | false => simpa [fileStep, hphase] using R.proceed _
      | true =>
        have hc : t.committed = false := by
          cases hc : t.committed with
          | false => rfl
          | true => simpa [decisiveOutcome, hphase] using ho hc
        simpa [fileStep, hphase] using (R.install hc).proceed _
  | syncDirectory =>
    cases o with
    | done => simpa [fileStep, hphase] using R.recorded
    | failed effect error => simpa [fileStep, hphase] using R.proceed _
  | recheck error =>
    cases o with
    | done => simpa [fileStep, hphase] using R.thaw.fail _
    | failed effect error => simpa [fileStep, hphase] using R.fail _
  | removeCanonical =>
    cases o with
    | done => simpa [fileStep, hphase] using (R.canonical false).succeed
    | failed effect error => simpa [fileStep, hphase] using (R.canonical (w.canonicalSocket && !effect)).fail _

theorem drained (retained : Bool) : Safe v5 (w.drained t retained) := by
  have R' : Ready v5 w { t with retained } := ⟨R.unsettled, ⟨R.held.commit, R.held.abort⟩, R.draining⟩
  unfold Handover.drained
  split
  · exact R.fail _
  · split
    · split
      · exact R.fail _
      · exact R'.proceed _
    · exact R'.recordDecision

end

end Ready

/-! ### Every step keeps a handover safe -/

theorem status_move (hm : CallMove m m') (hd : m.isDraining = true → m.status = .draining)
    (h : m.status = .committing ∨ m.status = .prepared) : m'.status = m.status ∧ m'.acceptGate = m.acceptGate := by
  cases hm with
  | same status gate _ _ => exact ⟨status, gate⟩
  | prepared status _ _ _ _ => simp [status] at h
  | retiring status _ _ _ => rcases status with status | status <;> simp [status] at h
  | retired draining _ _ _ => simp [hd draining] at h

theorem Held.move (H : Held v5 m t) (hm : CallMove m m') (hd : m.isDraining = true → m.status = .draining) :
    Held v5 m' t where
  commit hv hc := by
    obtain ⟨hgate, hstatus⟩ := H.commit hv hc
    obtain ⟨hs, hg⟩ := status_move hm hd (.inl hstatus)
    exact ⟨hg.trans hgate, hs.trans hstatus⟩
  abort hc := by
    have hstatus := H.abort hc
    exact (status_move hm hd (.inr hstatus)).1.trans hstatus

theorem draining_move (hm : CallMove m m') (hd : m.isDraining = true → m.status = .draining) :
    m'.isDraining = true → m'.status = .draining := by
  intro h
  cases hm with
  | same status _ _ draining => rw [status, hd (draining ▸ h)]
  | prepared status _ _ _ draining => simpa [status] using hd (draining ▸ h)
  | retiring status _ _ draining => rcases status with status | status <;> simpa [status] using hd (draining ▸ h)
  | retired _ _ _ draining => simp [draining] at h

theorem Safe.call (S : Safe v5 w) (hlock : w.locked = false) (c : ManagerCall) : Safe v5 (w.call c) := by
  refine ⟨?_, ?_, fun hs => (S.decided ?_).call hlock c⟩
  all_goals obtain ⟨m, prepared, heq, hm⟩ := w.call_spec c
  · rw [heq]
    exact fun t ht => (S.held t ht).move hm S.draining
  · rw [heq]
    exact draining_move hm S.draining
  · rw [heq] at hs
    exact hs

theorem Safe.unsettled_of_status (S : Safe v5 w) (hlock : w.locked = false)
    (h : w.manager.status = .prepared ∨ w.manager.status = .active) :
    ¬Settled w := by
  intro hs
  have hover := ((S.decided hs).over hlock).2
  rcases h with h | h <;> simp [h] at hover

theorem Safe.refused (S : Safe v5 w) (error : String) : Safe v5 { w with reply := some (.failed error) } :=
  S.frame rfl rfl rfl rfl fun hs => hs.of_frame rfl (.inr (by simp)) (.inl rfl)

theorem Safe.commitV5 (S : Safe v5 w) (hlock : w.locked = false) : Safe v5 w.commitV5 := by
  rcases w.commitV5_cases with ⟨e, heq⟩ | ⟨hstatus, heq⟩ <;> rw [heq]
  · exact S.refused e
  · refine ⟨fun t ht => ?_, fun hd => ?_, fun hs => (S.unsettled_of_status hlock hstatus hs).elim⟩
    · obtain rfl : ⟨.commitV5, false, .waiting⟩ = t := by simpa using ht
      exact ⟨fun _ _ => ⟨rfl, rfl⟩, by simp [committed]⟩
    · have hdraining := S.draining hd
      rcases hstatus with hstatus | hstatus <;> simp [hstatus] at hdraining

theorem Safe.commitV4 (S : Safe false w) (hlock : w.locked = false) : Safe false w.commitV4 := by
  rcases w.commitV4_cases with ⟨e, heq⟩ | ⟨hstatus, heq⟩
  · rw [heq]
    exact S.refused e
  · have R : Ready false w ⟨.commitV4, false, .readDecision⟩ :=
      ⟨S.unsettled_of_status hlock hstatus, ⟨by simp, by simp [committed]⟩, S.draining⟩
    rcases heq with heq | heq <;> rw [heq]
    · exact R.recordDecision
    · exact R.proceed _

theorem Safe.abortHandover (S : Safe v5 w) (hlock : w.locked = false) : Safe v5 w.abortHandover := by
  unfold Handover.abortHandover
  split
  · exact S
  next hstatus =>
    have hstatus := not_not.mp hstatus
    exact Ready.recordDecision ⟨S.unsettled_of_status hlock (.inl hstatus), ⟨by simp [committed], fun _ => hstatus⟩,
      S.draining⟩

theorem Safe.ready (S : Safe v5 w) (ht : w.task = some t) (hphase : t.phase = .waiting) : Ready v5 w t := by
  refine ⟨fun hs => ?_, S.held t ht, S.draining⟩
  rcases (S.decided hs).ends with ⟨hnone, -⟩ | ⟨t', ht', -, hphase'⟩
  · simp [ht] at hnone
  · obtain rfl : t = t' := by simpa [ht] using ht'
    simp [hphase] at hphase'

theorem Safe.step (S : Safe v5 w) {a : HandoverAction} (ha : decisive w a) : Safe v5 (w.step v5 a) := by
  cases a with simp only [Handover.step]
  | call c =>
    split
    · exact S
    next hlock => exact S.call (by simpa using hlock) c
  | dropRequest => exact S.frame rfl rfl rfl rfl id
  | commitArrives =>
    have S' : Safe v5 { w with commitRequested := false } := S.frame rfl rfl rfl rfl id
    split
    · exact S
    next hlock =>
      have hlock : w.locked = false := by simp at hlock; exact hlock.1
      split
      · exact S'.commitV5 hlock
      next hv =>
        obtain rfl : v5 = false := by simpa using hv
        exact S'.commitV4 hlock
  | drained retained =>
    split
    next t ht =>
      split
      next hready => exact (S.ready ht hready.1).drained retained
      · exact S
    · exact S
  | drainTimeout =>
    split
    next t ht =>
      split
      next hready => exact (S.ready ht hready.1).fail _
      · exact S
    · exact S
  | file o =>
    split
    next t ht =>
      by_cases hs : Settled w
      · exact S.file_decided (S.decided hs) ht (ha t ht)
      · exact Ready.file ⟨hs, S.held t ht, S.draining⟩ S (ha t ht)
    · exact S
  | abortArrives =>
    have S' : Safe v5 { w with abortRequested := false } := S.frame rfl rfl rfl rfl id
    split
    · exact S
    next hlock => exact S'.abortHandover (by simp at hlock; exact hlock.1)
  | abandon =>
    split
    · exact S
    next hlock => exact S.abortHandover (by simp at hlock; exact hlock.1)
  | sendCommit =>
    split
    · exact S.frame rfl rfl rfl rfl fun hs => hs.of_frame rfl (.inl rfl) (.inr (by simp))
    · exact S
  | deliverReply =>
    split
    next _ hreply => exact S.frame rfl rfl rfl rfl fun _ => .inr (.inl hreply)
    · exact S.frame rfl rfl rfl rfl fun hs => hs.of_frame rfl (.inr (by simp)) (.inr (by simp))
    · exact S
  | connectionLost request =>
    split
    · exact S.frame rfl rfl rfl rfl fun hs => hs.of_frame rfl (.inl rfl) (.inr (by simp))
    · exact S
  | readDecision readable =>
    split
    · refine S.frame rfl rfl rfl rfl fun hs => ?_
      by_cases howner : w.resolve readable = .owner
      · exact .inl (resolve_owner howner)
      · exact hs.of_frame rfl (.inl rfl) (.inr howner)
    · exact S
  | sendAbort =>
    split
    · exact S.frame rfl rfl rfl rfl fun hs => hs.of_frame rfl (.inl rfl) (.inr (by simp))
    · exact S
  | abortLost => exact S.frame rfl rfl rfl rfl id

theorem safe_reachable (h : (handover v5).Reachable decisive w) : Safe v5 w := by
  refine h.inv (fun hinit => ?_) fun {w w' a} ha hs S => ?_
  · obtain ⟨legacy, lease, rfl⟩ := hinit
    exact ⟨by simp, by simp, fun hs => by simp [Settled, RetiredRecord] at hs⟩
  · obtain rfl := hs
    exact S.step ha

/-! ### What stays recorded -/

/-- A step belongs to a task, or leaves the record alone. -/
inductive Change (w w' : Handover) : Prop
  | task (t : Task) (ht : w.task = some t) (T : TaskStep t w w')
  | other (htransaction : w'.transaction = w.transaction) (howner : w.candidate = .owner → w'.candidate = .owner)

theorem transaction_recordDecision (w : Handover) (t : Task) : (w.recordDecision t).transaction = w.transaction := by
  unfold recordDecision recorded succeed
  split
  · split
    · rfl
    · split <;> rfl
  · rfl

theorem transaction_abortHandover (w : Handover) : w.abortHandover.transaction = w.transaction := by
  unfold abortHandover
  split
  · rfl
  · exact transaction_recordDecision w _

theorem transaction_commit (w : Handover) : w.commitV5.transaction = w.transaction ∧
    w.commitV4.transaction = w.transaction := by
  constructor
  · rcases w.commitV5_cases with ⟨e, heq⟩ | ⟨-, heq⟩ <;> rw [heq]
  · rcases w.commitV4_cases with ⟨e, heq⟩ | ⟨-, heq | heq⟩ <;> rw [heq]
    · exact transaction_recordDecision w _
    · rfl

theorem change_step (w : Handover) (v5 : Bool) (a : HandoverAction) : Change w (w.step v5 a) := by
  cases a with simp only [step]
  | call c =>
    split
    · exact .other rfl id
    · obtain ⟨m, prepared, heq, -⟩ := w.call_spec c
      rw [heq]
      exact .other rfl id
  | commitArrives =>
    split
    · exact .other rfl id
    · split
      · exact .other (transaction_commit _).1 fun h => (SameCandidate.commitV5 _).candidate.trans h
      · exact .other (transaction_commit _).2 fun h => (SameCandidate.commitV4 _).candidate.trans h
  | drained retained =>
    split
    next t ht =>
      split
      · exact .task t ht (.drained w t retained)
      · exact .other rfl id
    · exact .other rfl id
  | drainTimeout =>
    split
    next t ht =>
      split
      · exact .task t ht (.fail w t _)
      · exact .other rfl id
    · exact .other rfl id
  | file o =>
    split
    next t ht => exact .task t ht (.fileStep ht o)
    · exact .other rfl id
  | abortArrives =>
    split
    · exact .other rfl id
    · exact .other (transaction_abortHandover _) fun h => (SameCandidate.abortHandover _).candidate.trans h
  | abandon =>
    split
    · exact .other rfl id
    · exact .other (transaction_abortHandover _) fun h => (SameCandidate.abortHandover _).candidate.trans h
  | dropRequest => exact .other rfl id
  | abortLost => exact .other rfl id
  | _ =>
    -- A step of the candidate; an owner takes none.
    split
    all_goals exact .other rfl (by simp_all)

theorem owner_step (h : w.candidate = .owner) (a : HandoverAction) : (w.step v5 a).candidate = .owner := by
  cases w.change_step v5 a with
  | task t _ T => exact T.candidate.trans h
  | other _ howner => exact howner h

theorem transaction_step (a : HandoverAction) (hnone : (w.step v5 a).task = none) :
    (w.step v5 a).transaction = w.transaction := by
  cases w.change_step v5 a with
  | task _ _ T => exact T.kept hnone
  | other htransaction _ => exact htransaction

theorem Decided.refuses_spawns (D : Decided v5 w) : w.step v5 (.call .retainSpawnOwner) = w := by
  simp only [step]
  split
  · rfl
  next hlock =>
    have hover := (D.over (by simpa using hlock)).2
    rcases hover with hstatus | hstatus <;> simp [Handover.call, HandoverManager.retainSpawnOwner, hstatus, Except.toOption]

theorem reply_succeed (hc : t.committed = true) (w : Handover) : (w.succeed t).reply = some .commitHandoverOk := by
  unfold succeed
  split
  · rfl
  · rfl
  next hk => simp [committed, hk] at hc

theorem Decided.confirms (D : Decided v5 w) (ht : w.task = some t) {a : HandoverAction} (ha : decisive w a)
    (hnone : (w.step v5 a).task = none) : (w.step v5 a).reply = some .commitHandoverOk := by
  rcases D.ends with ⟨htask, -⟩ | ⟨t', ht', hc, hphase⟩
  · simp [ht] at htask
  · obtain rfl : t = t' := by simpa [ht] using ht'
    have hlock : w.locked = true := by rcases hphase with hphase | hphase <;> simp [locked, ht, hphase]
    have hwaiting : t.phase ≠ .waiting := by rcases hphase with hphase | hphase <;> simp [hphase]
    cases a with
    | file o =>
      have ho := ha t ht hc
      simp only [step, ht] at hnone ⊢
      cases o with
      | failed effect error => rcases hphase with hphase | hphase <;> simp [decisiveOutcome, hphase] at ho
      | done =>
        rcases hphase with hphase | hphase
        · simp only [fileStep, hphase, recorded] at hnone ⊢
          split at hnone
          · cases hnone
          next hk => simp [reply_succeed hc]
        · simp [fileStep, hphase, reply_succeed hc]
    | deliverReply =>
      simp only [step] at hnone
      split at hnone <;> simp [ht] at hnone
    | _ =>
      simp [step, ht, hlock, hwaiting] at hnone
      try (split at hnone <;> simp [ht] at hnone)

/-- A candidate owns only after its predecessor has stopped to accept. -/
theorem never_two_owners (h : (handover v5).Reachable decisive w) :
    (w.candidate = .owner → ∀ w', (handover v5).Run decisive w w' →
      (v5 = true → w'.manager.acceptGate = false ∧ w'.manager.status ≠ .prepared ∧ w'.manager.status ≠ .active) ∧
      w'.step v5 (.call .retainSpawnOwner) = w' ∧
        (w'.locked = false → w'.manager.status = .draining ∨ w'.manager.status = .retired)) ∧
    ∀ a t e, decisive w a → w.task = some t → t.committed = true → (w.step v5 a).task = none →
      (w.step v5 a).reply = some (.failed e) → ¬(w.step v5 a).RetiredRecord := by
  refine ⟨fun howner w' hr => ?_, fun a t e ha ht hc hnone hreply hrecord => ?_⟩
  · have howner' : w'.candidate = .owner := by
      refine hr.keeps (P := fun w => w.candidate = .owner) (fun {w _ a} _ hs h => ?_) howner
      obtain rfl := hs
      exact owner_step h a
    have D := (safe_reachable (h.run hr)).decided (.inr (.inr howner'))
    exact ⟨D.gate, D.refuses_spawns, fun hlock => (D.over hlock).2⟩
  · have hkeeps := transaction_step a hnone
    obtain ⟨r, hr, hstate⟩ := hrecord
    have D := (safe_reachable h).decided (.inl ⟨r, hkeeps ▸ hr, hstate⟩)
    simp [D.confirms ht ha hnone] at hreply

/-! ### Runs -/

def played (v5 : Bool) (as : List HandoverAction) : Handover :=
  as.foldl (step v5) { legacy := "legacy.sock", manager := {} }

/-- The commit succeeds, its reply is lost, and the candidate reads the record. -/
def replyLost : Handover :=
  played true [.call .prepareHandover, .sendCommit, .commitArrives, .drained false, .file .done, .file .done, .file .done,
    .file .done,
    .file .done, .connectionLost true, .readDecision true]

theorem never_two_owners_replyLost : replyLost.candidate = .owner ∧ replyLost.manager.acceptGate = false := by
  have hr : (handover true).Reachable decisive replyLost := ⟨_, ⟨"legacy.sock", none, rfl⟩, .of_admits (by decide)⟩
  have howner : replyLost.candidate = .owner := by decide
  exact ⟨howner, (((never_two_owners hr).1 howner _ .refl).1 rfl).1⟩

/-- The directory of the record cannot be synced once the record is renamed: the commit reports an error and reopens the
gate. -/
def syncFailed : Handover :=
  played true [.call .prepareHandover, .sendCommit, .commitArrives, .drained false, .file .done, .file .done, .file .done,
    .file .done,
    .file (.failed false "I/O error"), .file .done, .deliverReply, .readDecision true]

theorem two_owners_after_failed_sync : (handover true).Reachable System.anyAction syncFailed ∧
    syncFailed.candidate = .owner ∧
    syncFailed.manager.acceptGate = true ∧ syncFailed.manager.status = .prepared ∧ syncFailed.RetiredRecord := by
  refine ⟨⟨_, ⟨"legacy.sock", none, rfl⟩, .of_admits (by decide)⟩, ?_, ?_, ?_, ?_⟩
  iterate 3 decide
  exact ⟨⟨"legacy.sock", .retired, none, none⟩, by decide, rfl⟩

/-- A commit of version 4 succeeds and leaves the gate open. -/
def committedV4 : Handover :=
  played false ([.call .prepareHandover, .sendCommit, .commitArrives] ++ List.replicate 7 (.file .done) ++ [.deliverReply])

example : committedV4.candidate = .owner ∧ committedV4.manager.status = .draining ∧
    committedV4.manager.acceptGate = true := by
  decide

end Handover
end Ferryx.Daemon
