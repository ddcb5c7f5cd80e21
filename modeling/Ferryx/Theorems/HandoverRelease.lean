import Ferryx.Theorems.HandoverOwner

/-! Where the candidate only gives its commit up once the predecessor is done with it, and no file step fails, the record
that the candidate reads is the last word: a candidate that hands its sessions back leaves a predecessor that has not
retired. -/

namespace Ferryx.Daemon
open Lib Handover HandoverManager

namespace Handover
variable {v5 : Bool} {w w' : Handover} {t : Task}

/-- No commit is asked for or under way. -/
def Over (w : Handover) : Prop := w.commitRequested = false ∧ ∀ t ∈ w.task, t.committed = false

/-- No file step fails, the commit does not reach a predecessor that is active again, and a connection that is lost is not
    that of a commit on its way or running. -/
def attended (w : Handover) : HandoverAction → Prop
  | .file o => o = .done
  | .readDecision readable => readable = true
  | .commitArrives => w.manager.status ≠ .active
  | .connectionLost request => (request = true ∨ w.commitRequested = false) ∧ ∀ t ∈ w.task, t.committed = false
  | _ => True

instance : ∀ w, DecidablePred (attended w)
  | _, .file _ => inferInstanceAs (Decidable (_ = _))
  | _, .readDecision _ => inferInstanceAs (Decidable (_ = _))
  | _, .commitArrives => inferInstanceAs (Decidable (_ ≠ _))
  | w, .connectionLost request => match h : w.task with
    | none => decidable_of_iff (request = true ∨ w.commitRequested = false) (by simp [attended, h])
    | some t => decidable_of_iff ((request = true ∨ w.commitRequested = false) ∧
        t.committed = false) (by simp [attended, h])
  | _, .call _ | _, .dropRequest | _, .drained _ | _, .drainTimeout | _, .abortArrives | _, .abandon | _, .sendCommit
  | _, .deliverReply | _, .sendAbort | _, .abortLost => isTrue trivial

theorem decisive_of_attended (w : Handover) (a : HandoverAction) (h : attended w a) : decisive w a := by
  cases a with
  | file o =>
    obtain rfl := h
    intro t _ _
    unfold decisiveOutcome
    cases t.phase <;> rfl
  | _ => trivial

/-- At most one commit is under way, and a reply ends it. -/
structure Exchange (w : Handover) : Prop where
  sole : ∀ t ∈ w.task, t.committed = true → w.commitRequested = false
  answered : w.reply ≠ none → Over w
  quiet : w.candidate ≠ .waiting → Over w
  fresh : w.candidate = .idle → w.reply = none

theorem TaskStep.over (T : TaskStep t w w') (h : w.commitRequested = false) (hends : w'.task = none ∨ t.committed = false) :
    Over w' := by
  refine ⟨T.commitRequested.trans h, fun t' ht' => ?_⟩
  rcases hends with hnone | hc
  · simp [hnone] at ht'
  · rcases T.ends with ⟨u, hu, hsame, -⟩ | ⟨hnone, -⟩
    · obtain rfl : u = t' := by simpa [hu] using ht'
      exact hsame.trans hc
    · simp [hnone] at ht'

theorem Exchange.task (E : Exchange w) (T : TaskStep t w w') (hsole : t.committed = true → w.commitRequested = false)
    (hover : Over w → t.committed = false) : Exchange w' := by
  have hkept (h : Over w) : Over w' := T.over h.1 (.inr (hover h))
  refine ⟨fun t' ht' hc => ?_, fun hreply => ?_, fun h => hkept (E.quiet (T.candidate ▸ h)), fun hidle => ?_⟩
  · rcases T.ends with ⟨u, hu, hsame, -⟩ | ⟨hnone, -⟩
    · obtain rfl : u = t' := by simpa [hu] using ht'
      exact T.commitRequested.trans (hsole (hsame.symm.trans hc))
    · simp [hnone] at ht'
  · rcases T.ends with ⟨u, hu, hsame, heq⟩ | ⟨hnone, heq | hc⟩
    · exact hkept (E.answered (heq ▸ hreply))
    · exact hkept (E.answered (heq ▸ hreply))
    · exact T.over (hsole hc) (.inl hnone)
  · have hidle := T.candidate.symm.trans hidle
    have hc := hover (E.quiet (by simp [hidle]))
    rcases T.ends with ⟨u, hu, hsame, heq⟩ | ⟨hnone, heq | hc'⟩
    · exact heq.trans (E.fresh hidle)
    · exact heq.trans (E.fresh hidle)
    · simp [hc] at hc'

theorem Exchange.running (E : Exchange w) (ht : w.task = some t) (T : TaskStep t w w') : Exchange w' :=
  E.task T (E.sole t ht) fun h => h.2 t ht

theorem Exchange.frame (E : Exchange w) (h : SameCandidate w w') (htask : w'.task = w.task) (hreply : w'.reply = w.reply) :
    Exchange w' := by
  have hover : Over w → Over w' := fun ⟨hr, hc⟩ => ⟨h.commitRequested.trans hr, by rw [htask]; exact hc⟩
  refine ⟨fun t ht hc => ?_, fun hr => hover (E.answered (hreply ▸ hr)), fun hw => hover (E.quiet (h.candidate ▸ hw)),
    fun hidle => ?_⟩
  · exact h.commitRequested.trans (E.sole t (htask ▸ ht) hc)
  · exact hreply.trans (E.fresh (h.candidate ▸ hidle))

theorem Exchange.waiting (E : Exchange w) (h : w.commitRequested = true) :
    w.candidate = .waiting ∧ w.reply = none ∧ ∀ t ∈ w.task, t.committed = false := by
  have hover : ¬Over w := by simp [Over, h]
  refine ⟨?_, ?_, fun t ht => ?_⟩
  · by_contra hne
    exact hover (E.quiet hne)
  · by_contra hne
    exact hover (E.answered hne)
  · cases hc : t.committed with
    | false => rfl
    | true => simp [E.sole t ht hc] at h

theorem Exchange.arrived (hcandidate : w.candidate = .waiting) (hrequest : w.commitRequested = false)
    (hreply : w.reply ≠ none → ∀ t ∈ w.task, t.committed = false) : Exchange w :=
  ⟨fun _ _ _ => hrequest, fun h => ⟨hrequest, hreply h⟩, fun h => absurd hcandidate h, by simp [hcandidate]⟩

/-- The path is known while the handover is open, and a retirement is recorded before it takes effect. -/
structure Books (w : Handover) : Prop where
  path : w.manager.status = .prepared ∨ w.manager.status = .committing → w.manager.legacySocketPath ≠ none
  identity : ∀ r ∈ w.transaction, r.transferId = w.legacy
  retired : w.manager.status = .draining ∨ w.manager.status = .retired → w.RetiredRecord
  recording : ∀ t ∈ w.task, (w.manager.status = .prepared ∨ w.manager.status = .committing) ∧
    (t.committed = true → t.phase = .syncDirectory ∨ t.phase = .removeCanonical → w.RetiredRecord)

theorem Books.fail (B : Books w) (hopen : w.manager.status = .prepared ∨ w.manager.status = .committing) (t : Task)
    (error : String) :
    Books (w.fail t error) := by
  unfold Handover.fail
  split
  · exact ⟨B.path, B.identity, B.retired, by simp⟩
  · refine ⟨fun _ => B.path hopen, B.identity, fun h => ?_, by simp⟩
    rcases hopen with hstatus | hstatus <;> simp [reopenCommitGate, hstatus] at h
  · exact ⟨B.path, B.identity, B.retired, by simp⟩

theorem Books.proceed (B : Books w) (hopen : w.manager.status = .prepared ∨ w.manager.status = .committing) (phase : Phase)
    (hrecord : t.committed = true → phase = .syncDirectory ∨ phase = .removeCanonical → w.RetiredRecord) :
      Books (w.proceed t phase) := by
  refine ⟨B.path, B.identity, B.retired, fun t' ht' => ⟨hopen, ?_⟩⟩
  obtain rfl : { t with phase } = t' := by simpa [Handover.proceed] using ht'
  exact hrecord

theorem Books.succeed (B : Books w) (hrecord : t.committed = true → w.RetiredRecord) : Books (w.succeed t) := by
  unfold Handover.succeed
  split
  next hk => exact ⟨by simp [drain], B.identity, fun _ => hrecord (by simp [Task.committed, hk]), by simp⟩
  next hk =>
    refine ⟨fun h => ?_, B.identity, fun _ => hrecord (by simp [Task.committed, hk]), by simp⟩
    cases hr : t.retained <;> simp [handOver, hr] at h
  · exact ⟨by simp [resume], B.identity, by simp [resume], by simp⟩

section
variable (B : Books w) (hopen : w.manager.status = .prepared ∨ w.manager.status = .committing)
include B hopen

theorem Books.recorded (hrecord : t.committed = true → w.RetiredRecord) : Books (w.recorded t) := by
  unfold Handover.recorded
  split
  · exact B.proceed hopen _ fun hc _ => hrecord hc
  · exact B.succeed hrecord

theorem Books.recordDecision (t : Task) : Books (w.recordDecision t) := by
  unfold Handover.recordDecision
  split
  next hnone => exact absurd hnone (B.path hopen)
  · exact B.proceed hopen _ (by simp)

theorem Books.decide (t : Task) : Books (w.decide t) := by
  unfold Handover.decide
  split
  · exact B.fail hopen t _
  next decision hdecision =>
    split
    next heq =>
      refine B.recorded hopen fun hc => ?_
      rw [heq, Task.decision, if_pos hc] at hdecision
      exact recordedDecision_retired hdecision
    · exact B.fail hopen t _
  · cases hc : t.committed with
    | false => exact B.proceed hopen _ (by simp)
    | true =>
      exact Books.proceed (w := { w with manager := w.manager.freezeForHandover })
        ⟨B.path, B.identity, B.retired, B.recording⟩ hopen _ (by simp)

theorem Books.install (t : Task) : Books ((w.install t).proceed t .syncDirectory) := by
  refine ⟨B.path, by simp [Handover.proceed, Handover.install, newTransaction], fun h => ?_, fun t' ht' => ⟨hopen,
    fun hc _ => ?_⟩⟩
  · rcases hopen with hstatus | hstatus <;> simp [Handover.proceed, Handover.install, hstatus] at h
  · obtain rfl : { t with phase := .syncDirectory } = t' := by simpa [Handover.proceed] using ht'
    exact ⟨w.newTransaction t, rfl, if_pos hc⟩

end

theorem status_thaw (w : Handover) (t : Task) : (w.thaw t).manager.status = w.manager.status := by
  unfold thaw
  split
  · dsimp only
    split <;> rfl
  · rfl

section
variable (B : Books w)
include B

theorem Books.thaw (t : Task) : Books (w.thaw t) := by
  unfold Handover.thaw
  split
  · cases hc : t.committed with
    | false => exact B
    | true => exact ⟨B.path, B.identity, B.retired, B.recording⟩
  · exact B

theorem Books.file (ht : w.task = some t) : Books (w.fileStep t .done) := by
  obtain ⟨hopen, hrecord⟩ := B.recording t ht
  cases hphase : t.phase with
  | waiting => simpa [fileStep, hphase] using B
  | persistRoute => simpa [fileStep, hphase] using B.recordDecision hopen t
  | readDecision => simpa [fileStep, hphase] using B.decide hopen t
  | createTemporary =>
    simp only [fileStep, hphase]
    split
    · exact B.proceed hopen _ (by simp)
    · exact Books.proceed (w := { w with pending := true }) ⟨B.path, B.identity, B.retired, B.recording⟩ hopen _ (by simp)
  | writeTemporary => simpa [fileStep, hphase] using B.proceed (t := t) hopen .renameTemporary (by simp)
  | renameTemporary => simpa [fileStep, hphase] using B.install hopen t
  | syncDirectory => simpa [fileStep, hphase] using B.recorded hopen fun hc => hrecord hc (.inl hphase)
  | recheck error =>
    simpa [fileStep, hphase] using (B.thaw t).fail (by rw [status_thaw]; exact hopen) t _
  | removeCanonical =>
    simpa [fileStep, hphase] using Books.succeed (w := { w with canonicalSocket := false })
      ⟨B.path, B.identity, B.retired, B.recording⟩
      fun hc => hrecord hc (.inr hphase)

theorem Books.drained (hopen : w.manager.status = .prepared ∨ w.manager.status = .committing) (t : Task) (retained : Bool) :
    Books (w.drained t retained) := by
  unfold Handover.drained
  split
  · exact B.fail hopen t _
  · split
    · split
      · exact B.fail hopen t _
      · exact B.proceed hopen _ (by simp)
    · exact B.recordDecision hopen _

theorem Books.abortHandover : Books w.abortHandover := by
  unfold Handover.abortHandover
  split
  · exact B
  next h => exact B.recordDecision (.inl (not_not.mp h)) _

theorem Books.commitV5 (h : w.manager.status ≠ .active) : Books w.commitV5 := by
  rcases w.commitV5_cases with ⟨e, heq⟩ | ⟨hstatus, heq⟩ <;> rw [heq]
  · exact ⟨B.path, B.identity, B.retired, B.recording⟩
  · refine ⟨fun _ => B.path (.inl (hstatus.resolve_right h)),
      B.identity, by simp, fun t ht => ⟨.inr rfl, fun _ hphase => ?_⟩⟩
    obtain rfl : ⟨.commitV5, false, .waiting⟩ = t := by simpa using ht
    simp at hphase

theorem Books.commitV4 (h : w.manager.status ≠ .active) : Books w.commitV4 := by
  rcases w.commitV4_cases with ⟨e, heq⟩ | ⟨hstatus, heq⟩
  · rw [heq]
    exact ⟨B.path, B.identity, B.retired, B.recording⟩
  · have hopen := Or.inl (b := w.manager.status = .committing) (hstatus.resolve_right h)
    rcases heq with heq | heq <;> rw [heq]
    · exact B.recordDecision hopen _
    · exact B.proceed hopen _ (by simp)

theorem Books.call (hd : w.manager.isDraining = true → w.manager.status = .draining) (c : ManagerCall) :
    Books (w.call c) := by
  obtain ⟨m, prepared, heq, hm⟩ := w.call_spec c
  rw [heq]
  have hnone (h : w.manager.status ≠ .prepared ∧ w.manager.status ≠ .committing) (t) (ht : t ∈ w.task) : False :=
    (B.recording t ht).1.elim h.1 h.2
  cases hm with
  | same status gate path _ =>
    refine ⟨?_, B.identity, ?_, ?_⟩ <;> simp only [status, path]
    · exact B.path
    · exact B.retired
    · exact B.recording
  | prepared status status' _ path _ =>
    exact ⟨fun _ => path, B.identity, by simp [status'], fun t ht => (hnone (by simp [status]) t ht).elim⟩
  | retiring status status' _ _ =>
    refine ⟨by simp [status'], B.identity, by simp [status'], fun t ht => (hnone ?_ t ht).elim⟩
    rcases status with status | status <;> simp [status]
  | retired draining status' _ _ =>
    have hstatus := hd draining
    exact ⟨by simp [status'], B.identity, fun _ => B.retired (.inl hstatus), fun t ht => (hnone (by simp [hstatus]) t
      ht).elim⟩

end

/-- The candidate has given the handover up. -/
def Released (w : Handover) : Prop := w.candidate = .relinquished ∨ w.candidate = .aborted

/-- The exchange and its books are in order, and nothing given up is recorded. -/
structure Attended (w : Handover) : Prop where
  exchange : Exchange w
  books : Books w
  released : Released w → ¬w.RetiredRecord

theorem Released.quiet (h : Released w) (E : Exchange w) : Over w := by
  refine E.quiet ?_
  rcases h with h | h <;> simp [h]

theorem Attended.running (A : Attended w) (ht : w.task = some t) (T : TaskStep t w w') (B : Books w') : Attended w' := by
  refine ⟨A.exchange.running ht T, B, fun h hr => ?_⟩
  have h : Released w := by rwa [Released, T.candidate] at h
  exact A.released h (T.record ((h.quiet A.exchange).2 t ht) hr)

theorem Attended.abortHandover (A : Attended w) : Attended w.abortHandover := by
  have B := A.books.abortHandover
  unfold Handover.abortHandover at B ⊢
  split at B
  next hstatus =>
    rw [if_pos hstatus]
    exact A
  next hstatus =>
    have T := TaskStep.recordDecision w ⟨.abort, false, .readDecision⟩
    rw [if_neg hstatus]
    refine ⟨A.exchange.task T (by simp [Task.committed]) (by simp [Task.committed]), B, fun h hr => ?_⟩
    exact A.released (by rwa [Released, T.candidate] at h) (T.record (by simp [Task.committed]) hr)

theorem Attended.frame (A : Attended w) (E : Exchange w') (hmanager : w'.manager = w.manager) (htask : w'.task = w.task)
    (htransaction : w'.transaction = w.transaction) (hlegacy : w'.legacy = w.legacy)
    (hreleased : Released w' → ¬w.RetiredRecord) : Attended w' := by
  refine ⟨E, ⟨?_, ?_, ?_, ?_⟩, ?_⟩
  all_goals simp only [RetiredRecord, hmanager, htask, htransaction, hlegacy]
  · exact A.books.path
  · exact A.books.identity
  · exact A.books.retired
  · exact A.books.recording
  · exact hreleased

theorem not_released (h : w.candidate = .waiting) : ¬Released w := by simp [Released, h]

section
variable (B : Books w) (hcandidate : w.candidate = .waiting) (hrequest : w.commitRequested = false)
  (hreply : w.reply = none)
    (htasks : ∀ t ∈ w.task, t.committed = false) (hstatus : w.manager.status ≠ .active)
include B hcandidate hrequest hreply htasks hstatus

theorem Attended.commitV5 : Attended w.commitV5 := by
  have C := SameCandidate.commitV5 w
  have hcandidate' := C.candidate.trans hcandidate
  refine ⟨.arrived hcandidate' (C.commitRequested.trans hrequest) ?_, B.commitV5 hstatus, fun hr =>
    (not_released hcandidate' hr).elim⟩
  rcases w.commitV5_cases with ⟨e, heq⟩ | ⟨-, heq⟩ <;> rw [heq]
  · exact fun _ => htasks
  · exact fun hne => absurd hreply hne

theorem Attended.commitV4 : Attended w.commitV4 := by
  have C := SameCandidate.commitV4 w
  have hcandidate' := C.candidate.trans hcandidate
  refine ⟨.arrived hcandidate' (C.commitRequested.trans hrequest) ?_, B.commitV4 hstatus, fun hr =>
    (not_released hcandidate' hr).elim⟩
  rcases w.commitV4_cases with ⟨e, heq⟩ | ⟨-, heq | heq⟩ <;> rw [heq]
  · exact fun _ => htasks
  · rcases (TaskStep.recordDecision w ⟨.commitV4, false, .readDecision⟩).ends with ⟨t, -, -, hsame⟩ | ⟨hnone, -⟩
    · exact fun hne => absurd (hsame.trans hreply) hne
    · simp [hnone]
  · exact fun hne => absurd hreply hne

end

theorem resolve_relinquished {readable : Bool} (hidentity : ∀ r ∈ w.transaction, r.transferId = w.legacy)
    (h : w.resolve readable = .relinquished ∨ w.resolve readable = .aborted) : ¬w.RetiredRecord := by
  intro ⟨r, hr, hstate⟩
  cases readable with
  | false => simp [resolve] at h
  | true => simp [resolve, recordedDecision, hr, hidentity r hr, hstate, resolveCommit] at h

theorem resolve_ne_idle (w : Handover) (readable : Bool) : w.resolve readable ≠ .idle := by
  unfold resolve
  split
  · split <;> simp
  · simp

theorem Attended.step (A : Attended w) (S : Safe v5 w) {a : HandoverAction} (ha : attended w a) :
    Attended (w.step v5 a) := by
  have E := A.exchange
  cases a with simp only [Handover.step]
  | call c =>
    split
    · exact A
    · have B := A.books.call S.draining c
      obtain ⟨m, prepared, heq, -⟩ := w.call_spec c
      rw [heq] at B ⊢
      exact ⟨E.frame ⟨rfl, rfl, rfl⟩ rfl rfl, B, A.released⟩
  | dropRequest =>
    exact ⟨E.frame ⟨rfl, rfl, rfl⟩ rfl rfl, ⟨A.books.path, A.books.identity, A.books.retired, A.books.recording⟩,
      A.released⟩
  | commitArrives =>
    split
    · exact A
    next h =>
      obtain ⟨hcandidate, hreply, htasks⟩ := E.waiting (by simp at h; exact h.2)
      have B : Books { w with commitRequested := false } :=
        ⟨A.books.path, A.books.identity, A.books.retired, A.books.recording⟩
      split
      · exact .commitV5 B hcandidate rfl hreply htasks ha
      · exact .commitV4 B hcandidate rfl hreply htasks ha
  | drained retained =>
    split
    next t ht =>
      split
      · exact A.running ht (.drained w t retained) (A.books.drained (A.books.recording t ht).1 t retained)
      · exact A
    · exact A
  | drainTimeout =>
    split
    next t ht =>
      split
      · exact A.running ht (.fail w t _) (A.books.fail (A.books.recording t ht).1 t _)
      · exact A
    · exact A
  | file o =>
    obtain rfl := ha
    split
    next t ht => exact A.running ht (.fileStep ht .done) (A.books.file ht)
    · exact A
  | abortArrives =>
    have A' : Attended { w with abortRequested := false } :=
      A.frame (E.frame ⟨rfl, rfl, rfl⟩ rfl rfl) rfl rfl rfl rfl A.released
    split
    · exact A
    · exact A'.abortHandover
  | abandon =>
    split
    · exact A
    · exact A.abortHandover
  | sendCommit =>
    split
    next h =>
      have hover := E.quiet (by simp [h.2])
      refine A.frame ⟨fun t ht hc => ?_, fun hr => absurd (E.fresh h.2) hr, by simp, by simp⟩ rfl rfl rfl rfl
        (by simp [Released])
      simp [hover.2 t ht] at hc
    · exact A
  | deliverReply =>
    split
    next hreply =>
      have hover : Over w := E.answered (by simp [hreply])
      exact A.frame ⟨E.sole, by simp, fun _ => hover, by simp⟩ rfl rfl rfl rfl (by simp [Released])
    next hreply =>
      have hover : Over w := E.answered (by simp [hreply])
      exact A.frame ⟨E.sole, by simp, fun _ => hover, by simp⟩ rfl rfl rfl rfl (by simp [Released])
    · exact A
  | connectionLost request =>
    split
    · have hover : Over { w with candidate := .unconfirmed, commitRequested := w.commitRequested && !request } := by
        obtain ⟨hrequest, htasks⟩ := ha
        refine ⟨?_, htasks⟩
        rcases hrequest with hrequest | hrequest <;> simp [hrequest]
      exact A.frame ⟨fun _ _ _ => hover.1, fun _ => hover, fun _ => hover, by simp⟩ rfl rfl rfl rfl (by simp [Released])
    · exact A
  | readDecision readable =>
    split
    next h =>
      have hover : Over w := E.quiet (by simp [h])
      refine A.frame ⟨E.sole, E.answered, fun _ => hover, fun hidle => ?_⟩ rfl rfl rfl rfl fun hr => ?_
      · exact absurd hidle (resolve_ne_idle w readable)
      · exact resolve_relinquished A.books.identity hr
    · exact A
  | sendAbort =>
    split
    next h =>
      have hover : Over w := E.quiet (by simp [h])
      exact A.frame ⟨E.sole, E.answered, fun _ => hover, by simp⟩ rfl rfl rfl rfl fun _ => A.released (.inl h)
    · exact A
  | abortLost => exact A.frame (E.frame ⟨rfl, rfl, rfl⟩ rfl rfl) rfl rfl rfl rfl A.released

theorem attended_reachable (h : (handover v5).Reachable attended w) : Attended w := by
  refine h.inv_of (fun hr => safe_reachable (hr.mono decisive_of_attended)) (fun hinit => ?_) fun {w w' a} ha hs S A => ?_
  · obtain ⟨legacy, lease, rfl⟩ := hinit
    exact ⟨⟨by simp, by simp, fun _ => ⟨rfl, by simp⟩, fun _ => rfl⟩,
      ⟨by simp, by simp, by simp, by simp⟩, by simp [Released]⟩
  · obtain rfl := hs
    exact A.step S ha

/-- A candidate that gives up leaves its predecessor in charge. -/
theorem never_no_owner (h : (handover v5).Reachable attended w) (hreleased : Released w) :
    ¬w.RetiredRecord ∧ w.manager.status ≠ .retired ∧ w.manager.status ≠ .draining := by
  have A := attended_reachable h
  have hrecord := A.released hreleased
  exact ⟨hrecord, fun hs => hrecord (A.books.retired (.inr hs)), fun hs => hrecord (A.books.retired (.inl hs))⟩

/-- A commit times out on a request in flight, and the candidate aborts. -/
def timedOut : Handover :=
  played true [.call .prepareHandover, .call .retainRequest, .sendCommit, .commitArrives, .drainTimeout, .deliverReply,
    .readDecision true,
    .sendAbort, .abortArrives, .file .done, .file .done, .file .done, .file .done, .file .done]

theorem never_no_owner_timedOut : Released timedOut ∧ timedOut.manager.status = .active ∧ ¬timedOut.RetiredRecord := by
  have hr : (handover true).Reachable attended timedOut := ⟨_, ⟨"legacy.sock", none, rfl⟩, .of_admits (by decide)⟩
  have hreleased : Released timedOut := .inr (by decide)
  exact ⟨hreleased, by decide, (never_no_owner hr hreleased).1⟩

/-- The connection is lost while the commit waits for a request: the candidate reads no decision and hands its sessions
    back, its abort is refused, and the commit goes on to the end. -/
def lostWhileDraining : Handover :=
  played true [.call .prepareHandover, .call .retainRequest, .sendCommit, .commitArrives, .connectionLost false,
    .readDecision true,
    .sendAbort, .abortArrives, .dropRequest, .drained false, .file .done, .file .done, .file .done, .file .done,
      .file .done]

theorem no_owner_after_lost_connection : (handover true).Reachable System.anyAction lostWhileDraining ∧
    Released lostWhileDraining ∧
    lostWhileDraining.manager.status = .retired ∧ lostWhileDraining.RetiredRecord := by
  refine ⟨⟨_, ⟨"legacy.sock", none, rfl⟩, .of_admits (by decide)⟩, .inr (by decide), by decide, ?_⟩
  exact ⟨⟨"legacy.sock", .retired, none, none⟩, by decide, rfl⟩

end Handover
end Ferryx.Daemon
