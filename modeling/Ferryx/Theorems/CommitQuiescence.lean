import Ferryx.Daemon.CommitGate

/-! While the status is `Committing` one commit holds the gate. The wait for the requests takes their lock after the gate
was closed: a request that read the status before is counted by then, and one that reads it later is refused. -/

namespace Ferryx.Daemon
open Lib HandoverManager CommitPhase CommitGate

/-- From closing the gate to giving the status back. -/
def CommitPhase.holdsGate : CommitPhase → Bool
  | .closed | .waiting | .drained | .failed _ => true
  | .reopened | .returned => false

/-- From the end of the wait on, unless the decision was not written. -/
def CommitPhase.settled : CommitPhase → Bool
  | .drained | .failed true => true
  | _ => false

theorem CommitPhase.holdsGate_of_settled : ∀ {c : CommitPhase}, c.settled = true → c.holdsGate = true
  | .drained, _ | .failed true, _ => rfl

namespace HandoverManager
variable {m m' : HandoverManager}

theorem retainSpawnOwner_ok (h : m.retainSpawnOwner = .ok m') : m.status = .active ∧
    m' = { m with spawnOwners := m.spawnOwners + 1 } := by
  unfold retainSpawnOwner at h
  split at h
  · cases h
  · split at h
    · cases h
    next hstatus =>
      cases h
      exact ⟨not_not.mp hstatus, rfl⟩

theorem retainRequest_ok (h : m.retainRequest = .ok m') : m.status ≠ .committing ∧
    m' = { m with inFlight := m.inFlight + 1 } := by
  unfold retainRequest at h
  split at h
  · cases h
  · cases h
  next hne =>
    cases h
    exact ⟨hne, rfl⟩

theorem spawnGateRefusal_none (h : m.spawnGateRefusal = none) : m.spawnOwners = 0 := by
  by_contra hne
  simp [spawnGateRefusal, hne] at h

theorem prepareHandover_ok {legacy : String} (h : m.prepareHandover legacy = .ok m') :
    m.status = .active ∧ m.spawnOwners = 0 ∧ m' = { m with legacySocketPath := some legacy, status := .prepared } := by
  unfold prepareHandover at h
  split at h
  · cases h
  next hrefusal =>
    split at h
    · cases h
    next hstatus =>
      cases h
      exact ⟨not_not.mp hstatus, spawnGateRefusal_none hrefusal, rfl⟩

theorem closeCommitGate_ok (h : m.closeCommitGate = .ok m') :
    (m.status = .prepared ∨ m.status = .active) ∧ m.spawnOwners = 0 ∧
      m' = { m with status := .committing, acceptGate := false } := by
  unfold closeCommitGate at h
  split at h
  · cases h
  next hrefusal =>
    split at h
    · cases h
    next hstatus =>
      cases h
      exact ⟨by tauto, spawnGateRefusal_none hrefusal, rfl⟩

theorem shutdown_fst (m : HandoverManager) (live confirmLiveSessions : UInt32) :
    (m.shutdown live confirmLiveSessions).1 = m.controlShutdown (live ≠ confirmLiveSessions) := by
  obtain ⟨status, acceptGate, listenersHandedOver, spawnOwners⟩ := m
  cases status <;> by_cases hspawns : spawnOwners = 0 <;> by_cases hlive : live = confirmLiveSessions <;>
    simp [shutdown, controlShutdown, decideShutdown, HandoverStatus.ownerStatus, OwnerStatus.retiresByItself,
      hspawns, hlive]

theorem shutdown_proceed {live confirmLiveSessions n : UInt32} (h : (m.shutdown live confirmLiveSessions).2 = .proceed n) :
    m.spawnOwners = 0 ∧ (m.shutdown live confirmLiveSessions).1.status = .retiring := by
  have hdecision : decideShutdown m.status.ownerStatus m.spawnOwners live confirmLiveSessions = .proceed n := by
    simp only [shutdown] at h
    split at h <;> exact h
  have hspawns : m.spawnOwners = 0 := by
    by_contra hne
    simp only [decideShutdown, if_pos hne] at hdecision
    split at hdecision <;> cases hdecision
  refine ⟨hspawns, ?_⟩
  have hstatus : m.status = .active ∨ m.status = .retiring := by
    cases hs : m.status <;>
      simp [decideShutdown, hs, HandoverStatus.ownerStatus, OwnerStatus.retiresByItself] at hdecision ⊢
  simp only [shutdown, hdecision]
  rcases hstatus with hs | hs <;> simp [hs, HandoverStatus.ownerStatus, hspawns]

end HandoverManager

namespace CommitGate
variable {w w' : CommitGate} {i : Nat} {p q : CommitPhase}

/-- The counters of the manager count the guards, and the commits that closed its gate are those it knows of. -/
structure Quiet (w : CommitGate) : Prop where
  spawns : w.manager.spawnOwners = w.spawnOwnerGuards
  requests : w.manager.inFlight = w.retirementGuards
  gate : w.commits.countP CommitPhase.holdsGate = if w.manager.status = .committing then 1 else 0
  closed : w.manager.status ≠ .active → w.manager.status ≠ .retiring → w.manager.spawnOwners = 0
  drained : ∀ c ∈ w.commits, c.settled = true →
    w.manager.inFlight = 0 ∧ ∀ status, w.lock = some (.retaining status) → status = .committing
  draining : w.manager.isDraining = true → w.manager.status = .draining
  retire : w.lock = some .retire → w.manager.isDraining = true

theorem mem_of_stands (h : w.stands i p = true) : p ∈ w.commits := by
  simp only [stands, decide_eq_true_eq] at h
  exact List.mem_of_getElem? h

theorem countP_goOn (h : w.stands i p = true) (q : CommitPhase) : (w.goOn i q).commits.countP holdsGate =
      (w.commits.countP holdsGate - if p.holdsGate = true then 1 else 0) + if q.holdsGate = true then 1 else 0 := by
  simp only [stands, decide_eq_true_eq] at h
  obtain ⟨hi, hp⟩ := List.getElem?_eq_some_iff.mp h
  rw [goOn, List.countP_set hi, hp]

namespace Quiet

section
variable (Q : Quiet w)
include Q

variable {c : CommitPhase} {m : HandoverManager}

theorem committing (hc : c ∈ w.commits) (h : c.holdsGate = true) : w.manager.status = .committing := by
  by_contra hne
  have hgate := Q.gate
  rw [if_neg hne, List.countP_eq_zero] at hgate
  exact hgate c hc h

theorem none_settled (hne : w.manager.status ≠ .committing) (hc : c ∈ w.commits) : c.settled ≠ true :=
  fun h => hne (Q.committing hc (holdsGate_of_settled h))

theorem frame (hcommits : w'.commits = w.commits) (hstatus : w'.manager.status = w.manager.status)
    (hdraining : w'.manager.isDraining = w.manager.isDraining) (hspawns : w'.manager.spawnOwners = w'.spawnOwnerGuards)
    (hrequests : w'.manager.inFlight = w'.retirementGuards)
    (hclosed : w.manager.status ≠ .active → w.manager.status ≠ .retiring → w'.manager.spawnOwners ≤ w.manager.spawnOwners)
    (hdrained : ∀ c ∈ w.commits, c.settled = true → w'.manager.inFlight = 0 ∧ ∀ status, w'.lock = some (.retaining status) →
      status = .committing) (hretire : w'.lock = some .retire → w.manager.isDraining = true) : Quiet w' where
  spawns := hspawns
  requests := hrequests
  gate := by rw [hcommits, hstatus]; exact Q.gate
  closed hactive hretiring := by
    rw [hstatus] at hactive hretiring
    have hle := hclosed hactive hretiring
    have hzero := Q.closed hactive hretiring
    omega
  drained := by rw [hcommits]; exact hdrained
  draining := by rw [hdraining, hstatus]; exact Q.draining
  retire h := by rw [hdraining]; exact hretire h

theorem relock {l : Option InFlightSection} (hretaining : ∀ status, l = some (.retaining status) →
    status = w.manager.status)
    (hretire : l = some .retire → w.manager.isDraining = true) : Quiet { w with lock := l } := by
  refine Q.frame rfl rfl rfl Q.spawns Q.requests (fun _ _ => le_rfl)
    (fun c hc hs => ⟨(Q.drained c hc hs).1, fun status h => ?_⟩) hretire
  rw [hretaining status h]
  exact Q.committing hc (holdsGate_of_settled hs)

theorem move (hne : w.manager.status ≠ .committing) (hne' : m.status ≠ .committing)
    (hspawns : m.spawnOwners = w.manager.spawnOwners) (hrequests : m.inFlight = w.manager.inFlight)
    (hclosed : m.status ≠ .active → m.status ≠ .retiring → w.manager.spawnOwners = 0)
      (hdraining : m.isDraining = w.manager.isDraining)
    (hkept : w.manager.status = .draining → m.status = .draining) : Quiet { w with manager := m } where
  spawns := hspawns.trans Q.spawns
  requests := hrequests.trans Q.requests
  gate := by
    have hgate := Q.gate
    rw [if_neg hne] at hgate
    rw [if_neg hne']
    exact hgate
  closed hactive hretiring := hspawns.trans (hclosed hactive hretiring)
  drained c hc hs := absurd hs (Q.none_settled hne hc)
  draining h := hkept (Q.draining (hdraining ▸ h))
  retire h := hdraining.trans (Q.retire h)

theorem goOn (hp : w.stands i p = true) (hgate : q.holdsGate = p.holdsGate)
    (hs : q.settled = true → w.manager.inFlight = 0 ∧ ∀ status, w.lock = some (.retaining status) → status = .committing) :
    Quiet (w.goOn i q) := {
  Q with
  gate := by
    rw [countP_goOn hp, hgate]
    have hcount := Q.gate
    cases hh : p.holdsGate with
    | false =>
      show _ = if w.manager.status = .committing then 1 else 0
      rw [← hcount]
      simp
    | true =>
      have hstatus := Q.committing (mem_of_stands hp) hh
      rw [if_pos hstatus] at hcount
      simp [hcount, CommitGate.goOn, hstatus]
  drained c hc h := by
    rcases List.mem_or_eq_of_mem_set hc with hc | rfl
    · exact Q.drained c hc h
    · exact hs h }

theorem giveBack (hp : w.stands i p = true) (hhold : p.holdsGate = true) (hq : q.holdsGate = false)
    (hne : m.status ≠ .committing) (hspawns : m.spawnOwners = w.manager.spawnOwners)
      (hrequests : m.inFlight = w.manager.inFlight)
    (hdraining : m.isDraining = true → m.status = .draining) : Quiet ({ w with manager := m }.goOn i q) := by
  have hstatus := Q.committing (mem_of_stands hp) hhold
  have hcount : ({ w with manager := m }.goOn i q).commits.countP holdsGate = 0 := by
    rw [countP_goOn (w := { w with manager := m }) hp, Q.gate]
    simp [hstatus, hhold, hq]
  refine ⟨hspawns.trans Q.spawns, hrequests.trans Q.requests, ?_, fun _ _ => ?_, fun c hc hs => ?_, hdraining, fun h => ?_⟩
  · rw [hcount]
    exact (if_neg hne).symm
  · exact hspawns.trans (Q.closed (by simp [hstatus]) (by simp [hstatus]))
  · exact absurd (holdsGate_of_settled hs) (List.countP_eq_zero.mp hcount c hc)
  · have := Q.draining (Q.retire h)
    simp [hstatus] at this

/-- The status stays at `Committing` for the one commit that closed the gate. -/
theorem closeGate : Quiet w.closeGate := by
  unfold CommitGate.closeGate
  split
  · exact Q
  next m heq =>
    obtain ⟨hstatus, hspawns, rfl⟩ := closeCommitGate_ok heq
    have hne : w.manager.status ≠ .committing := by rcases hstatus with hs | hs <;> simp [hs]
    have hgate := Q.gate
    rw [if_neg hne] at hgate
    refine ⟨Q.spawns, Q.requests, by simp [hgate, holdsGate], fun _ _ => hspawns, fun c hc hs => ?_, fun h => ?_, Q.retire⟩
    · rcases List.mem_append.mp hc with hc | hc
      · exact absurd hs (Q.none_settled hne hc)
      · obtain rfl : c = .closed := by simpa using hc
        cases hs
    · have hdraining := Q.draining h
      rcases hstatus with hs | hs <;> simp [hs] at hdraining

theorem accepts (accepting : Bool) : Quiet { w with manager := { w.manager with acceptGate := accepting } } :=
  Q.frame rfl rfl rfl Q.spawns Q.requests (fun _ _ => le_rfl) Q.drained Q.retire

theorem reopenGate (hp : w.stands i p = true) (hhold : p.holdsGate = true) : Quiet (w.reopenGate i) := by
  have hstatus := Q.committing (mem_of_stands hp) hhold
  refine Q.giveBack hp hhold rfl ?_ rfl rfl fun h => ?_
  · simp [reopenCommitGate, hstatus]
  · have := Q.draining h
    simp [hstatus] at this

theorem decideCommit (hp : w.stands i .drained = true) (retained : Bool) (o : CommitOutcome) :
    Quiet (w.decideCommit i retained o) := by
  have hdrained := Q.drained .drained (mem_of_stands hp) rfl
  unfold CommitGate.decideCommit
  split
  · exact Q.goOn hp rfl nofun
  · split
    · exact Q.goOn hp rfl nofun
    · exact Q.goOn hp rfl fun _ => hdrained
    · refine Q.giveBack hp rfl rfl ?_ ?_ ?_ ?_ <;> cases retained <;> simp [handOver]

theorem step (a : GateAction) : Quiet (w.step a) := by
  cases a with simp only [CommitGate.step]
  | retainSpawnOwner =>
    split
    · exact Q
    next m heq =>
      obtain ⟨hstatus, rfl⟩ := retainSpawnOwner_ok heq
      exact Q.frame rfl rfl rfl (congrArg (· + 1) Q.spawns) Q.requests (fun h => absurd hstatus h) Q.drained Q.retire
  | dropSpawnOwner =>
    split
    · exact Q
    · exact Q.frame rfl rfl rfl (congrArg (· - 1) Q.spawns) Q.requests (fun _ _ => Nat.sub_le _ _) Q.drained Q.retire
  | retainRequest =>
    split
    · exact Q
    · refine Q.relock (fun status h => ?_) nofun
      simpa using h.symm
  | countRequest =>
    split
    next status hlock =>
      split
      · exact Q.relock nofun nofun
      next m heq =>
        obtain ⟨hstatus, rfl⟩ := retainRequest_ok heq
        refine Q.frame rfl rfl rfl Q.spawns (congrArg (· + 1) Q.requests) (fun _ _ => le_rfl) (fun c hc hs => ?_) nofun
        -- after the wait of a commit, the status that was read refuses the request
        exact absurd ((Q.drained c hc hs).2 status hlock) hstatus
    · exact Q
  | dropRequest =>
    split
    · exact Q
    · refine Q.frame rfl rfl rfl Q.spawns (congrArg (· - 1) Q.requests) (fun _ _ => le_rfl)
        (fun c hc hs => ⟨?_, fun status h => ?_⟩) ?_
      · simp [(Q.drained c hc hs).1]
      · dsimp only at h
        split at h <;> cases h
      · intro h
        dsimp only at h
        split at h <;> cases h
  | checkRetirementIfEmpty =>
    split
    · exact Q
    · split
      · exact Q.relock nofun nofun
      · exact Q.relock nofun nofun
  | checkStatus =>
    split
    · split
      · exact Q.relock nofun nofun
      · exact Q.relock nofun nofun
    · exact Q
  | checkDraining live =>
    split
    · split
      next h => exact Q.relock nofun fun _ => h.1
      · exact Q.relock nofun nofun
    · exact Q
  | retire =>
    split
    next hlock =>
      have hstatus := Q.draining (Q.retire hlock)
      refine ⟨Q.spawns, Q.requests, ?_, fun _ _ => ?_, fun c hc hs => ?_, nofun, nofun⟩
      · simpa [hstatus, HandoverManager.retire] using Q.gate
      · exact Q.closed (by simp [hstatus]) (by simp [hstatus])
      · exact absurd hs (Q.none_settled (by simp [hstatus]) hc)
    · exact Q
  | prepareHandover legacy =>
    cases heq : w.manager.prepareHandover legacy with
    | error e => exact Q
    | ok m =>
      obtain ⟨hstatus, hspawns, rfl⟩ := prepareHandover_ok heq
      exact Q.move (by simp [hstatus]) nofun rfl rfl (fun _ _ => hspawns) rfl (by simp [hstatus])
  | abortHandover recorded =>
    split
    next h => exact Q.move (by simp [h.1]) nofun rfl rfl (fun h => absurd rfl h) rfl (by simp [h.1])
    · exact Q
  | controlRetireWhenIdle =>
    simp only [controlRetireWhenIdle]
    split
    next h => exact Q.move (by simp [h]) nofun rfl rfl (fun _ h => absurd rfl h) rfl (by simp [h])
    · exact Q
  | controlShutdown live confirmLiveSessions =>
    simp only [shutdown_fst, controlShutdown]
    split
    next h =>
      have hstatus : w.manager.status ≠ .committing ∧ w.manager.status ≠ .draining := by rcases h.1 with h | h <;> simp [h]
      exact Q.move hstatus.1 nofun rfl rfl (fun _ h => absurd rfl h) rfl (fun h => absurd h hstatus.2)
    · exact Q
  | commitHandoverV5 => exact Q.closeGate
  | closeAccepts i =>
    split
    next hp => exact (Q.accepts false).goOn hp rfl nofun
    · exact Q
  | drained i =>
    split
    next h => exact Q.goOn h.1 rfl fun _ => ⟨h.2.2, by simp [Option.isNone_iff_eq_none.mp h.2.1]⟩
    · exact Q
  | drainTimeout i =>
    split
    next h => exact Q.goOn h.1 rfl nofun
    · exact Q
  | decide i retained o =>
    split
    next hp => exact Q.decideCommit hp retained o
    · exact Q
  | reopen i =>
    split
    next h => rcases h with hp | hp <;> exact Q.reopenGate hp rfl
    · exact Q
  | openAccepts i =>
    split
    next hp => exact (Q.accepts true).goOn hp rfl nofun
    · exact Q

end

end Quiet

theorem quiet_reachable (h : commitGate.Reachable System.anyAction w) : Quiet w := by
  refine h.inv (fun hinit => ?_) fun {w w' a} _ hs Q => ?_
  · obtain ⟨lease, rfl⟩ := hinit
    exact ⟨rfl, rfl, rfl, by simp, by simp, by simp, by simp⟩
  · obtain rfl := hs
    exact Q.step a

/-- The commit at `i` writes its decision, or finds it written. -/
def Decides (w : CommitGate) (i : Nat) (o : CommitOutcome) : Prop :=
  w.stands i .drained = true ∧ w.manager.status = .committing ∧ o ≠ .failed

/-- A status that accepts no spawn, and that no call leaves for one that does. -/
def Final (w : CommitGate) : Prop := w.manager.status = .draining ∨ w.manager.status = .retired ∨
    w.manager.status = .retiring

namespace Final

theorem refuses (h : Final w) : ∃ e, w.manager.retainSpawnOwner = .error e := by
  cases heq : w.manager.retainSpawnOwner with
  | error e => exact ⟨e, rfl⟩
  | ok m =>
    have hactive := (retainSpawnOwner_ok heq).1
    rcases h with h | h | h <;> simp [h] at hactive

theorem not_committing (h : Final w) : w.manager.status ≠ .committing := by rcases h with h | h | h <;> simp [h]

theorem step (h : Final w) (a : GateAction) : Final (w.step a) := by
  have hne := h.not_committing
  cases a with simp only [CommitGate.step]
  | retainSpawnOwner =>
    obtain ⟨e, he⟩ := h.refuses
    simpa only [CommitGate.step, he] using h
  | dropSpawnOwner | dropRequest | retainRequest | checkRetirementIfEmpty | checkStatus | checkDraining live =>
    split
    · exact h
    · exact h
  | countRequest =>
    split
    · split
      · exact h
      · exact h
    · exact h
  | retire =>
    split
    · exact .inr (.inl rfl)
    · exact h
  | prepareHandover legacy =>
    cases heq : w.manager.prepareHandover legacy with
    | error e => exact h
    | ok m =>
      have hactive := (prepareHandover_ok heq).1
      rcases h with h | h | h <;> simp [h] at hactive
  | abortHandover recorded =>
    split
    next hp => rcases h with h | h | h <;> simp [h] at hp
    · exact h
  | controlRetireWhenIdle =>
    simp only [controlRetireWhenIdle]
    split
    · exact .inr (.inr rfl)
    · exact h
  | controlShutdown live confirmLiveSessions =>
    simp only [shutdown_fst, controlShutdown]
    split
    · exact .inr (.inr rfl)
    · exact h
  | commitHandoverV5 =>
    simp only [CommitGate.closeGate]
    split
    · exact h
    next m heq =>
      have hstatus := (closeCommitGate_ok heq).1
      rcases h with h | h | h <;> simp [h] at hstatus
  | decide i retained o =>
    simp only [CommitGate.decideCommit, if_pos hne]
    split
    · exact h
    · exact h
  | closeAccepts i | drained i | drainTimeout i | openAccepts i =>
    split
    · exact h
    · exact h
  | reopen i =>
    simp only [CommitGate.reopenGate, reopenCommitGate, if_neg hne]
    split
    · exact h
    · exact h

theorem run (h : Final w) (hr : commitGate.Run System.anyAction w w') : Final w' := by
  refine hr.keeps (fun {u u' a} _ hs h => ?_) h
  obtain rfl := hs
  exact h.step a

end Final

/-- A guard is handed out only to a spawn of an active daemon, or to a request that has not read `Committing`. -/
theorem guards_step (w : CommitGate) (a : GateAction) :
    ((w.step a).spawnOwnerGuards ≤ w.spawnOwnerGuards ∨ w.manager.status = .active) ∧
      ((w.step a).retirementGuards ≤ w.retirementGuards ∨ ∃ status,
        w.lock = some (.retaining status) ∧ status ≠ .committing) := by
  cases a with simp only [step]
  | retainSpawnOwner =>
    split
    · exact ⟨.inl le_rfl, .inl le_rfl⟩
    next m heq => exact ⟨.inr (retainSpawnOwner_ok heq).1, .inl le_rfl⟩
  | countRequest =>
    split
    next status hlock =>
      split
      · exact ⟨.inl le_rfl, .inl le_rfl⟩
      next m heq => exact ⟨.inl le_rfl, .inr ⟨status, hlock, (retainRequest_ok heq).1⟩⟩
    · exact ⟨.inl le_rfl, .inl le_rfl⟩
  | dropSpawnOwner | dropRequest =>
    split <;> simp
  | commitHandoverV5 =>
    simp only [closeGate]
    split <;> exact ⟨.inl le_rfl, .inl le_rfl⟩
  | decide i retained o =>
    simp only [decideCommit]
    split_ifs
    · exact ⟨.inl le_rfl, .inl le_rfl⟩
    · split <;> exact ⟨.inl le_rfl, .inl le_rfl⟩
    · exact ⟨.inl le_rfl, .inl le_rfl⟩
  | prepareHandover _ | controlRetireWhenIdle | controlShutdown _ _ => exact ⟨.inl le_rfl, .inl le_rfl⟩
  | retainRequest | checkRetirementIfEmpty | checkStatus | checkDraining _ | retire | abortHandover _ | closeAccepts _
  | drained _
  | drainTimeout _ | reopen _ | openAccepts _ =>
    split <;> exact ⟨.inl le_rfl, .inl le_rfl⟩

/-- A commit decides with no spawn and no request in flight. -/
theorem commit_decides_quiescent {w : CommitGate} (h : commitGate.Reachable System.anyAction w) :
    (∀ i o, w.Decides i o → w.spawnOwnerGuards = 0 ∧ w.retirementGuards = 0) ∧
    (.failed true ∈ w.commits → ∀ a, (w.step a).spawnOwnerGuards = 0 ∧ (w.step a).retirementGuards = 0) ∧
    (w.manager.status = .draining ∨ w.manager.status = .retired →
      ∀ w', commitGate.Run System.anyAction w w' → ∃ e, w'.manager.retainSpawnOwner = .error e) ∧
    (∀ live confirmLiveSessions n, (w.manager.shutdown live confirmLiveSessions).2 = .proceed n → w.spawnOwnerGuards = 0 ∧
      ∀ w', commitGate.Run System.anyAction (w.step (.controlShutdown live confirmLiveSessions)) w' →
        ∃ e, w'.manager.retainSpawnOwner = .error e) ∧
    w.manager.spawnOwners = w.spawnOwnerGuards ∧ w.manager.inFlight = w.retirementGuards := by
  have Q := quiet_reachable h
  have hguards {v : CommitGate} (Qv : Quiet v) {c : CommitPhase} (hc : c ∈ v.commits) (hs : c.settled = true) :
      v.spawnOwnerGuards = 0 ∧ v.retirementGuards = 0 := by
    have hstatus := Qv.committing hc (CommitPhase.holdsGate_of_settled hs)
    rw [← Qv.spawns, ← Qv.requests]
    exact ⟨Qv.closed (by simp [hstatus]) (by simp [hstatus]), (Qv.drained c hc hs).1⟩
  refine ⟨fun i o hd => hguards Q (mem_of_stands hd.1) rfl, fun hc a => ?_, fun hstatus w' hr => ?_,
    fun live confirm n hp => ?_,
    Q.spawns, Q.requests⟩
  · obtain ⟨hspawns, hrequests⟩ := hguards Q hc rfl
    obtain ⟨hspawn, hrequest⟩ := w.guards_step a
    have hstatus := Q.committing hc rfl
    have hread := (Q.drained _ hc rfl).2
    refine ⟨?_, ?_⟩
    · have hle := hspawn.resolve_right (by simp [hstatus])
      omega
    · have hle := hrequest.resolve_right fun ⟨status, hlock, hne⟩ => hne (hread status hlock)
      omega
  · have hf : Final w := by rcases hstatus with h | h <;> simp [Final, h]
    exact (hf.run hr).refuses
  · obtain ⟨hspawns, hretiring⟩ := w.manager.shutdown_proceed hp
    refine ⟨Q.spawns ▸ hspawns, fun w' hr => ?_⟩
    have hf : Final (w.step (.controlShutdown live confirm)) := .inr (.inr hretiring)
    exact (hf.run hr).refuses

/-- A request in flight outlasts the wait of a first commit; a second one then decides. -/
def secondCommit : List GateAction :=
  [.retainRequest, .prepareHandover "legacy-1-0.sock", .countRequest, .commitHandoverV5, .commitHandoverV5, .closeAccepts 0,
    .drainTimeout 0, .reopen 0, .commitHandoverV5, .openAccepts 0, .closeAccepts 1, .dropRequest, .checkStatus,
      .checkDraining false,
    .drained 1]

theorem commit_decides_quiescent_secondCommit : let w := secondCommit.foldl step {}
    w.Decides 1 .decided ∧ w.spawnOwnerGuards = 0 ∧ w.retirementGuards = 0 := by
  have hw : commitGate.Reachable System.anyAction (secondCommit.foldl step {}) :=
    ⟨_, ⟨_, rfl⟩, .of_admits (by decide)⟩
  have hd : (secondCommit.foldl step {}).Decides 1 .decided := ⟨by decide, by decide, nofun⟩
  exact ⟨hd, (commit_decides_quiescent hw).1 1 .decided hd⟩

end CommitGate
end Ferryx.Daemon
