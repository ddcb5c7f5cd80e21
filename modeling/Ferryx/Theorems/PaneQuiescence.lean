import Ferryx.Theorems.PaneAgreement

/-! When nothing is on its way and no pane waits for an answer or a timer, sessions and panes agree on leases and sizes, and
a pane that wants a lease has it or waits for another pane, if only the user binds a suppressed pane to another session. -/

namespace Ferryx
open Std Lib LeaseView PaneLease

namespace PaneLease
variable {σ : Type} {a : PaneLease σ}

structure Prompt (a : PaneLease σ) : Prop where
  reclaim : ∀ {l}, a.lease = some l → a.needsReclaim = false
  probe : ∀ {s}, a.lease = none → a.policy.boundSession = some s → (a.suppressed && a.needsProbe) = false
  acquire : ∀ {s}, a.lease = none → a.policy.boundSession = some s → a.eligible = false
  release : a.disowned = ∅

/-- A pane with neither a request nor a timer has nothing left to ask for. -/
def Heeds (a : PaneLease σ) : Prop := a.pending = none → a.retryTimer = false → a.Prompt

theorem send_pending (a : PaneLease σ) (kind : Pane.PendingKind) (session generation requestedEpoch : Nat) :
    (a.send kind session generation requestedEpoch).pending ≠ none := nofun

theorem sendRelease_pending (h : a.sendRelease.pending = none) : a.sendRelease = a ∧ a.disowned = ∅ := by
  unfold sendRelease at h ⊢
  split at h
  · exact (send_pending a _ _ _ _ h).elim
  next hnone =>
    have hnil : a.disowned.toList = [] := List.head?_eq_none_iff.mp hnone
    exact ⟨rfl, by simpa using hnil⟩

theorem heeds_sendDue (a : PaneLease σ) : a.sendDue.Heeds := by
  intro hp _
  cases hl : a.lease with
  | some l =>
    cases hr : a.needsReclaim with
    | true =>
      simp only [sendDue, hl, hr, if_true] at hp
      exact (send_pending a _ _ _ _ hp).elim
    | false =>
      have hdue : a.sendDue = a.sendRelease := by simp [sendDue, hl, hr]
      rw [hdue] at hp ⊢
      obtain ⟨heq, hdis⟩ := sendRelease_pending hp
      rw [heq]
      exact { reclaim := fun _ => hr, probe := by simp [hl], acquire := by simp [hl], release := hdis }
  | none =>
    cases hb : a.policy.boundSession with
    | none =>
      have hdue : a.sendDue = a.sendRelease := by simp [sendDue, hl, hb]
      rw [hdue] at hp ⊢
      obtain ⟨heq, hdis⟩ := sendRelease_pending hp
      rw [heq]
      exact { reclaim := by simp [hl], probe := by simp [hb], acquire := by simp [hb], release := hdis }
    | some s =>
      simp only [sendDue, hl, hb] at hp ⊢
      split at hp
      · exact (send_pending a _ _ _ _ hp).elim
      next hprobe =>
        split at hp
        · exact (send_pending a _ _ _ _ hp).elim
        next hacq =>
          obtain ⟨heq, hdis⟩ := sendRelease_pending hp
          rw [if_neg hprobe, if_neg hacq, heq]
          exact {
            reclaim := by simp [hl]
            probe := fun _ _ => Bool.eq_false_of_not_eq_true hprobe
            acquire := fun _ _ => Bool.eq_false_of_not_eq_true hacq
            release := hdis }

theorem heeds_reevaluate (a : PaneLease σ) : a.reevaluate.Heeds := by
  rw [reevaluate_eq]
  split
  next h =>
    intro hp ht
    simp [hp, ht] at h
  · exact heeds_sendDue a.giveUp

end PaneLease

namespace PaneNet
variable {H : Type} [DecidableEq H] {n : PaneNet H} {i : H} {home home' : H → Nat}

theorem heeds_step (h : ∀ j, (n.panes j).Heeds) (a : PaneAction H) (j : H) : ((n.step a).panes j).Heeds := by
  obtain ⟨hsame, -⟩ | ⟨c, heq, -⟩ := panes_step n a j
  · rw [hsame]
    exact h j
  · have hheeds := heeds_reevaluate ((n.panes j).effect c)
    rw [heq, call_eq]
    exact fun hp ht => ⟨(hheeds hp ht).reclaim, (hheeds hp ht).probe, (hheeds hp ht).acquire, (hheeds hp ht).release⟩

/-- Every pane is bound to the session `s` or to none. -/
def oneSession (s : Nat) (_ : PaneNet H) : PaneAction H → Prop
  | .setPolicy _ p _ => p.boundSession = none ∨ p.boundSession = some s
  | _ => True

instance (s : Nat) (n : PaneNet H) : DecidablePred (oneSession s n) := fun a => by
  unfold oneSession
  split <;> infer_instance

/-- A suppressed pane is bound to another session only with the user's intent. -/
def rebindsByIntent (n : PaneNet H) : PaneAction H → Prop
  | .setPolicy i p userIntent => userIntent = true ∨ (n.panes i).suppressed = false ∨ p.boundSession = none ∨
    p.boundSession = (n.panes i).policy.boundSession
  | _ => True

instance (n : PaneNet H) : DecidablePred (rebindsByIntent n) := fun a => by
  unfold rebindsByIntent
  split <;> infer_instance

structure Invariants (home : H → Nat) (n : PaneNet H) : Prop where
  leases : Leases home n
  sizes : Sizes home n
  heeds : ∀ i, (n.panes i).Heeds

theorem invariants_start (home : H → Nat) (size : Nat → UInt16 × UInt16) : Invariants home (start size : PaneNet H) where
  leases := leases_start home size
  sizes := sizes_start home size
  heeds _ _ _ := ⟨nofun, nofun, nofun, rfl⟩

theorem Invariants.step (I : Invariants home n) {a : PaneAction H} (hb : n.Binds home home' a) :
    Invariants home' (n.step a) where
  leases := I.leases.step hb
  sizes := I.sizes.step I.leases hb
  heeds := heeds_step I.heeds a

theorem invariants_oneSession {s : Nat} (h : (paneNetwork H).Reachable (oneSession s) n) : Invariants (fun _ => s) n := by
  refine h.inv (P := Invariants fun _ => s) ?_ ?_
  · rintro n ⟨size, rfl⟩
    exact invariants_start _ size
  · rintro n _ a ha rfl I
    refine I.step ?_
    cases a with
    | setPolicy i p ui =>
      refine ⟨fun _ => rfl, fun hs => ?_, .inl rfl⟩
      rcases ha with ha | ha <;> cases hs.symm.trans ha
      rfl
    | _ => rfl

theorem invariants_rebindsByIntent (h : (paneNetwork H).Reachable rebindsByIntent n) : ∃ home, Invariants home n := by
  refine h.inv (P := fun n => ∃ home, Invariants home n) ?_ ?_
  · rintro n ⟨size, rfl⟩
    exact ⟨fun _ => 0, invariants_start _ size⟩
  · rintro n _ a ha rfl ⟨home, I⟩
    cases a with
    | setPolicy i p ui =>
      -- The pane's home is the session it was last bound to.
      let home' := Function.update home i (p.boundSession.getD (home i))
      have hself : home' i = p.boundSession.getD (home i) := Function.update_self ..
      refine ⟨home', I.step ⟨fun hj => Function.update_of_ne hj .., fun hs => by simp [hself, hs], ?_⟩⟩
      by_cases hsame : p.boundSession = (n.panes i).policy.boundSession
      · refine .inl ?_
        rw [hself, hsame]
        cases hb : (n.panes i).policy.boundSession with
        | none => rfl
        | some s => exact (I.leases.proper i).bound hb
      · rcases ha with ha | ha | ha | ha
        · exact .inr ⟨by simp [rebound, hsame], .inl ha⟩
        · exact .inr ⟨by simp [rebound, hsame], .inr ha⟩
        · exact .inl (by simp [hself, ha])
        · exact (hsame ha).elim
    | _ => exact ⟨home, I.step rfl⟩

theorem lease_of_holder (I : Invariants home n) {s : Nat} (hp : (n.panes i).pending = none) (hd : (n.panes i).disowned = ∅)
    (hh : (n.hosts s).holder = some i) : ∃ l, (n.panes i).lease = some l ∧ l.session = s ∧ l.epoch = (n.hosts s).epoch := by
  rcases (I.leases.sound i).core.holder.accounted (k := (s, (n.hosts s).epoch)) ⟨hh, rfl⟩ with h | h | h | ⟨id, h⟩
  · obtain ⟨l, hl, heq⟩ := Option.map_eq_some_iff.mp h
    obtain ⟨h₁, h₂⟩ := Prod.mk.inj heq
    exact ⟨l, hl, h₁, h₂⟩
  · have hmem : s ∈ (n.panes i).disowned := h
    rw [hd] at hmem
    exact (ExtTreeSet.not_mem_empty hmem).elim
  · exact h.elim
  · have hnone : (n.leaseView home i).pending = none := by
      show (n.panes i).asked = none
      simp [asked, hp]
    cases hnone.symm.trans h

section Rest
variable (I : Invariants home n) (hs : n.Silent)
include I hs

theorem holder_of_lease {l : Pane.Lease} (hl : (n.panes i).lease = some l) (hr : (n.panes i).needsReclaim = false) :
    (n.hosts l.session).holder = some i ∧ (n.hosts l.session).epoch = l.epoch := by
  have kept := (I.leases.sound i).kept.resolve_left id
  rcases kept.current (current_of_lease (home i) (n.env i) hl) with h | h | ⟨o, h⟩
  · exact h
  · cases hr.symm.trans h
  · have hnil : (n.leaseView home i).live = [] := by
      show (n.toPane i (n.conn i)).map ToPane.message = []
      rw [(hs i _).2]
      rfl
    rw [hnil] at h
    cases h

theorem applied_of_lease {l : Pane.Lease} {d : UInt16 × UInt16} (hl : (n.panes i).lease = some l)
    (hr : (n.panes i).needsReclaim = false) (hd : (n.panes i).ptyDesired = some d) :
    ((n.hosts l.session).applied.cols, (n.hosts l.session).applied.rows) = normalizeSize d.1 d.2 := by
  have O := I.sizes.orderly i
  have happ := O.sized.sent hl hr (O.filed.synced hl hr hd) (holder_of_lease I hs hl hr)
  rcases happ with (h | h) | h
  · have h : _ ∈ n.toHost i (n.conn i) := h
    rw [(hs i _).1] at h
    cases h
  · have h : _ ∈ (n.panes i).out := h
    rw [I.leases.wired.out i] at h
    cases h
  · have h : (n.hosts l.session).applied = _ := h
    rw [h, O.filed.desired hd]

end Rest

theorem wired_reachable {ok : PaneNet H → PaneAction H → Prop} (h : (paneNetwork H).Reachable ok n) : Wired n := by
  refine h.inv (P := Wired) ?_ ?_
  · rintro n ⟨size, rfl⟩
    exact (leases_start (fun _ => 0) size).wired
  · rintro n _ a - rfl D
    exact wired_step D a

omit [DecidableEq H] in
theorem Wired.silent (D : Wired n) (h : ∀ i, ∀ c ≤ n.conn i, n.toHost i c = [] ∧ n.toPane i c = []) : n.Silent := by
  intro i c
  by_cases hc : c ≤ n.conn i
  · exact h i c hc
  · exact ⟨D.toHost (Nat.lt_of_not_le hc), D.toPane (Nat.lt_of_not_le hc)⟩

/-- In a network at rest, leases and sizes agree between panes and sessions. -/
theorem resize_leases_agree {s : Nat} (h : (paneNetwork H).Reachable (oneSession s) n) (hs : n.Silent)
    (hidle : ∀ i, (n.panes i).pending = none ∧ (n.panes i).retryTimer = false) (i : H) :
    ((n.hosts s).holder = some i ↔ ∃ l, (n.panes i).lease = some l ∧ l.epoch = (n.hosts s).epoch) ∧
      ∀ l d, (n.panes i).lease = some l → l.epoch = (n.hosts s).epoch → (n.panes i).ptyDesired = some d →
        ((n.hosts s).applied.cols, (n.hosts s).applied.rows) = normalizeSize d.1 d.2 := by
  have I := invariants_oneSession h
  obtain ⟨hp, ht⟩ := hidle i
  have hprompt := I.heeds i hp ht
  have hsession : ∀ {l}, (n.panes i).lease = some l → l.session = s :=
    fun hl => (I.leases.proper i).bound ((I.sizes.orderly i).filed.bound hl).1
  refine ⟨⟨fun hh => ?_, fun ⟨l, hl, _⟩ => ?_⟩, fun l d hl _ hd => ?_⟩
  · obtain ⟨l, hl, -, he⟩ := lease_of_holder I hp hprompt.release hh
    exact ⟨l, hl, he⟩
  · rw [← hsession hl]
    exact (holder_of_lease I hs hl (hprompt.reclaim hl)).1
  · rw [← hsession hl]
    exact applied_of_lease I hs hl (hprompt.reclaim hl) hd

def focused (s : Nat) : Pane.Policy :=
  { boundSession := some s, visibleFocused := true, visibleAppliedGeneration := some 0, gpuReady := true }

def takesLease : List (PaneAction Bool) :=
  [.setPolicy false (focused 0) false, .visibleApplied false 120 40, .deliverToHost false 0 false false,
    .deliverToPane false 0,
    .deliverToHost false 0 false false, .deliverToPane false 0]

def after (acts : List (PaneAction Bool)) : PaneNet Bool := acts.foldl step (start fun _ => (80, 24))

theorem reachable_after {ok : PaneNet Bool → PaneAction Bool → Prop} {acts : List (PaneAction Bool)}
    (h : System.Admits step ok acts (start fun _ => (80, 24))) : (paneNetwork Bool).Reachable ok (after acts) :=
  ⟨_, ⟨_, rfl⟩, .of_admits h⟩

theorem resize_leases_agree_takesLease : ((after takesLease).hosts 0).holder = some false ∧
    (((after takesLease).hosts 0).applied.cols, ((after takesLease).hosts 0).applied.rows) = (120, 40) := by
  have hr : (paneNetwork Bool).Reachable (oneSession 0) (after takesLease) := reachable_after (by decide)
  have hs : (after takesLease).Silent := (wired_reachable hr).silent (by decide)
  obtain ⟨hholder, hsize⟩ := resize_leases_agree hr hs (by decide) false
  have hl : ((after takesLease).panes false).lease = some ⟨0, 0, 1⟩ := by decide
  exact ⟨hholder.mpr ⟨_, hl, by decide⟩, hsize _ (120, 40) hl (by decide) (by decide)⟩

/-- An idle pane that wants its session has the lease, or another pane holds it. -/
theorem not_stranded {s : Nat} (h : (paneNetwork H).Reachable rebindsByIntent n) (hs : n.Silent)
    (hidle : (n.panes i).pending = none ∧ (n.panes i).retryTimer = false) (hb : (n.panes i).policy.boundSession = some s)
    (htomb : (n.panes i).policy.tombstoned = false) (hfocus : (n.panes i).policy.visibleFocused = true)
    (hgpu : (n.panes i).policy.gpuReady = true)
      (hgen : (n.panes i).policy.visibleAppliedGeneration = some (n.panes i).policy.generation) :
    (n.hosts s).holder = some i ∧ (∃ l, (n.panes i).lease = some l ∧ l.session = s ∧ l.epoch = (n.hosts s).epoch) ∨
      ∃ j ≠ i, (n.hosts s).holder = some j := by
  obtain ⟨home, I⟩ := invariants_rebindsByIntent h
  have hprompt := I.heeds i hidle.1 hidle.2
  cases hl : (n.panes i).lease with
  | some l =>
    have hsession := ((I.sizes.orderly i).filed.bound hl).1
    obtain rfl : l.session = s := Option.some.inj (hsession.symm.trans hb)
    obtain ⟨hh, he⟩ := holder_of_lease I hs hl (hprompt.reclaim hl)
    exact .inl ⟨hh, l, rfl, rfl, he.symm⟩
  | none =>
    have hsup : (n.panes i).suppressed = true := by
      have helig := hprompt.acquire hl hb
      simpa [PaneLease.eligible, htomb, hb, hfocus, hgpu, hgen] using helig
    have hprobe : (n.panes i).needsProbe = false := by simpa [hsup] using hprompt.probe hl hb
    obtain rfl : s = home i := (I.leases.proper i).bound hb
    have waiting := (I.leases.sound i).waiting.resolve_left id
    rcases waiting.suppressed hsup with (⟨j, hj, hh, -⟩ | h) | h
    · exact .inr ⟨j, hj, hh⟩
    · have h : _ ∈ (n.toPane i (n.conn i)).map ToPane.message := h
      rw [(hs i _).2] at h
      cases h
    · cases hprobe.symm.trans h

def takenOver : List (PaneAction Bool) :=
  takesLease ++ [.setPolicy true (focused 0) true, .deliverToHost true 0 false false, .deliverToPane true 0,
    .deliverToPane false 0]

theorem not_stranded_takenOver : ((after takenOver).panes false).suppressed = true ∧
    (((after takenOver).hosts 0).holder = some false ∧
      (∃ l, ((after takenOver).panes false).lease = some l ∧ l.session = 0 ∧
      l.epoch = ((after takenOver).hosts 0).epoch) ∨ ∃ j ≠ false, ((after takenOver).hosts 0).holder = some j) := by
  have hr : (paneNetwork Bool).Reachable rebindsByIntent (after takenOver) := reachable_after (by decide)
  have hs : (after takenOver).Silent := (wired_reachable hr).silent (by decide)
  refine ⟨by decide, not_stranded hr hs ?_ ?_ ?_ ?_ ?_ ?_⟩
  all_goals decide

/-- The pane `false`, which waits for session 0, is bound to session 1 without the user. Nobody holds session 1,
    and the pane waits on. -/
theorem stranded_after_rebinding : ∃ n : PaneNet Bool, (paneNetwork Bool).Reachable System.anyAction n ∧ n.Silent ∧
    (∀ i, (n.panes i).pending = none ∧ (n.panes i).retryTimer = false ∧ (n.panes i).disowned.isEmpty) ∧
    (n.panes false).policy = focused 1 ∧ (n.panes false).lease = none ∧ (n.hosts 1).holder = none := by
  have hr : (paneNetwork Bool).Reachable System.anyAction (after (takenOver ++ [.setPolicy false (focused 1) false])) :=
    reachable_after (by decide)
  refine ⟨_, hr, (wired_reachable hr).silent ?_, ?_, ?_, ?_, ?_⟩
  all_goals decide

end PaneNet
end Ferryx
