import Ferryx.Theorems.SingleSupervisor

/-! A resumed grant ends when the grant itself does, as long as the wall clock is never set back. A clock that was set back
by less than the jump threshold makes it longer. -/

namespace Ferryx.Daemon
open Lib RoleMachine

variable {cfg : RoleConfig} {machineId : String} {wall : Nat → Nat} {w w' : Rebound} {m : RoleMachine} {event : Event}
  {now : Now}
  {fence : Nat}

namespace Rebound

/-- Every deadline, on either clock, is that of a grant of its fence, or earlier. -/
structure Bounded (cfg : RoleConfig) (wall : Nat → Nat) (w : Rebound) : Prop where
  config : w.client.machine.cfg = cfg
  sent : ∀ g ∈ w.granted, g.2 ≤ w.time
  deadline : ∀ {fence d}, 0 < fence → w.client.machine.role = .holder fence → w.client.machine.deadline = some d →
    ∃ s, (fence, s) ∈ w.granted ∧ d.mono ≤ s + cfg.validFor
  grant : ∀ {fence d}, w.client.grant = some (fence, d) → ∃ s, (fence, s) ∈ w.granted ∧ d ≤ wall s + cfg.validFor

theorem subset_handle : w.granted ⊆ (w.handle event now).granted := by
  simp only [handle]
  split
  · split
    · exact List.subset_cons_self _ _
    · exact List.Subset.refl _
  · exact List.Subset.refl _

theorem mem_handle {sentAt : Now} (hg : event.granted? = some (fence, sentAt))
    (hrole : (w.handle event now).client.machine.role = .holder fence) :
    (fence, sentAt.mono) ∈ (w.handle event now).granted := by
  have hrole' : (w.client.handle event now).1.machine.role = .holder fence := hrole
  simp only [handle, hg, hrole', if_true]
  exact List.mem_cons_self

theorem Bounded.handle (h : Bounded cfg wall w) (htime : w.time ≤ now.mono)
    (hsent : ∀ g ∈ event.granted?, g.2.mono ≤ now.mono ∧ g.2.wall = wall g.2.mono) :
      Bounded cfg wall (w.handle event now) := by
  have hcases := handle_kept_or_taken w.client.machine event now
  have hcfg : (w.client.machine.handle event now).1.cfg = cfg := by
    obtain hkept | ⟨_, _, -, htaken⟩ := hcases
    · exact hkept.cfg.trans h.config
    · exact htaken.cfg.trans h.config
  refine ⟨hcfg, ?_, ?_, ?_⟩
  · intro g hmem
    have hold : ∀ g ∈ w.granted, g.2 ≤ now.mono := fun g hg => (h.sent g hg).trans htime
    simp only [Rebound.handle] at hmem
    split at hmem
    next fence sentAt hg =>
      split at hmem
      · obtain rfl | hmem := List.mem_cons.mp hmem
        · exact (hsent _ hg).1
        · exact hold g hmem
      · exact hold g hmem
    · exact hold g hmem
  · intro fence d hpos hrole hd
    obtain hkept | ⟨fence', sentAt, hg, htaken⟩ := hcases
    · obtain ⟨hrole', hdeadline⟩ := hkept.holder fence hpos hrole
      obtain ⟨s, hs, hle⟩ := h.deadline hpos hrole' (hdeadline ▸ hd)
      exact ⟨s, subset_handle hs, hle⟩
    · obtain rfl := Role.holder.inj (htaken.role.symm.trans hrole)
      obtain rfl := Option.some.inj (htaken.deadline.symm.trans hd)
      refine ⟨sentAt.mono, mem_handle hg hrole, ?_⟩
      simp only [grantDeadline, h.config]
      exact le_rfl
  · intro fence d hd
    have hold : w.client.grant = some (fence, d) → ∃ s, (fence, s) ∈ (w.handle event now).granted ∧
        d ≤ wall s + cfg.validFor := by
      intro hd
      obtain ⟨s, hs, hle⟩ := h.grant hd
      exact ⟨s, subset_handle hs, hle⟩
    simp only [Rebound.handle, SupervisorLeaseState.handle] at hd
    split at hd
    next fence' sentAt hg =>
      split at hd
      next hnew =>
        simp only [Option.some.injEq, Prod.mk.injEq] at hd
        obtain ⟨rfl, rfl⟩ := hd
        refine ⟨sentAt.mono, mem_handle hg hnew.1, ?_⟩
        rw [hcfg, (hsent _ hg).2]
      · exact hold hd
    · exact hold hd

theorem of_liveGrant {g : Nat × Nat} (h : w.client.liveGrant now = some g) : w.client.grant = some g := by
  simp only [SupervisorLeaseState.liveGrant] at h
  split at h
  · cases h
  · exact (Option.filter_eq_some_iff.mp h).1

theorem new_not_holder {accountBound : Bool} {persisted : Option PersistedLease} (hpos : 0 < fence) :
    (RoleMachine.new cfg machineId accountBound persisted now).1.role ≠ .holder fence := by
  simp only [RoleMachine.new]
  split
  · simp [Role.standbyUnknown]
  · simpa using hpos.ne

theorem resumeGrant_eq_some {d : Nat} {t : Turn} (h : m.resumeGrant fence d now = some t) : now.wall < d ∧ t.1.cfg = m.cfg ∧
    t.1.role = .holder fence ∧ t.1.deadline = some ⟨now.mono + (d - now.wall), d⟩ := by
  simp only [resumeGrant] at h
  split at h
  · cases h
  next hok =>
    obtain rfl := Option.some.inj h
    refine ⟨by omega, ?_⟩
    simp only [setSnapshot]
    split <;> exact ⟨rfl, rfl, rfl⟩

theorem Bounded.rebind {given booted : Now} {accountBound : Bool} {persisted : Option PersistedLease}
    (h : Bounded cfg wall w)
    (hwall : ∀ s t, s ≤ t → wall s + (t - s) ≤ wall t) (htime : w.time ≤ now.mono) (hnow : now.wall = wall now.mono) :
    Bounded cfg wall (w.rebind cfg machineId accountBound persisted given booted now) := by
  have hsent : ∀ g ∈ w.granted, g.2 ≤ now.mono := fun g hg => (h.sent g hg).trans htime
  simp only [Rebound.rebind, SupervisorLeaseState.spawn]
  split
  next machine actions hresumed =>
    obtain ⟨⟨f, d⟩, hlive, hresumed⟩ := Option.bind_eq_some_iff.mp hresumed
    obtain ⟨s, hs, hle⟩ := h.grant (of_liveGrant hlive)
    obtain ⟨hlt, hcfg, hrole, hdeadline⟩ := resumeGrant_eq_some hresumed
    refine ⟨hcfg, hsent, ?_, ?_⟩
    · intro fence d' hpos hrole' hd
      obtain rfl := Role.holder.inj (hrole.symm.trans hrole')
      obtain rfl := Option.some.inj (hdeadline.symm.trans hd)
      -- The wall clock has advanced by no less than the time since the request was sent.
      have hadvance := hwall s now.mono (hsent _ hs)
      have hbefore := hsent _ hs
      refine ⟨s, hs, ?_⟩
      dsimp only at *
      omega
    · intro fence d' hd
      obtain ⟨rfl, rfl⟩ := Prod.mk.inj (Option.some.inj (hlive.symm.trans hd))
      exact ⟨s, hs, hle⟩
  · exact ⟨rfl, hsent, fun hpos hrole _ => absurd hrole (new_not_holder hpos), fun hd => by cases hd⟩

theorem bounded_of_reachable (hwall : ∀ s t, s ≤ t → wall s + (t - s) ≤ wall t)
    (h : (rebinding cfg machineId wall).Reachable System.anyAction w) : Bounded cfg wall w := by
  refine h.inv ?_ ?_
  · rintro w ⟨accountBound, persisted, time, rfl⟩
    exact ⟨rfl, by simp, fun hpos hrole _ => absurd hrole (new_not_holder hpos), fun hd => by cases hd⟩
  · rintro w w' a - hstep hb
    cases a with
    | handle event time =>
      obtain ⟨htime, hsent, rfl⟩ := hstep
      exact hb.handle htime hsent
    | rebind accountBound persisted given booted time =>
      obtain ⟨hgiven, hbooted, htime, rfl⟩ := hstep
      exact hb.rebind hwall (hgiven.trans (hbooted.trans htime)) rfl

/-- A machine counts on a resumed grant no longer than on a fresh one. -/
theorem resumed_grant_ends (hwall : ∀ s t, s ≤ t → wall s + (t - s) ≤ wall t)
    (h : (rebinding cfg machineId wall).Reachable System.anyAction w) (hpos : 0 < fence)
      (hrole : w.client.machine.role = .holder fence)
    {t : Nat} (hnow : w.client.machine.isHolderNow ⟨t, wall t⟩ = true) : ∃ s, (fence, s) ∈ w.granted ∧
      t < s + cfg.validFor := by
  obtain ⟨fence, rfl⟩ := Nat.exists_eq_succ_of_ne_zero hpos.ne'
  rw [isHolderNow_holder hrole, decide_eq_true_eq] at hnow
  cases hd : w.client.machine.deadline with
  | none => simp [hd] at hnow
  | some d =>
    obtain ⟨s, hs, hle⟩ := (bounded_of_reachable hwall h).deadline hpos hrole hd
    have hbefore : t < d.mono := by
      have hnot := hnow.2
      simp only [hd, Option.any_some, passed] at hnot
      simp only [Bool.not_eq_true', decide_eq_false_iff_not, not_or] at hnot
      exact not_le.mp hnot.1
    exact ⟨s, hs, hbefore.trans_le hle⟩

/-- A grant whose request was sent at 0 is answered after 1 s and resumed after 10 s. -/
def carriedOver (wall : Nat → Nat) : Rebound :=
  let at_ := fun secs => (⟨nanos secs, wall (nanos secs)⟩ : Now)
  let capable : Option PersistedLease := some { leaseCapable := true }
  let first : Rebound := ⟨(SupervisorLeaseState.spawn {} "m" true capable none (at_ 0) (at_ 0)).1, 0, []⟩
  ((first.handle (.sessionOpened true) (at_ 0)).handle (.acquireAck (at_ 0) (.granted 1 none)) (at_ 1)).rebind {} "m"
    true capable
    (at_ 10) (at_ 10) (at_ 10)

theorem carriedOver_reachable : (rebinding {} "m" wall).Reachable System.anyAction (carriedOver wall) := by
  have hinit : (rebinding {} "m" wall).Reachable System.anyAction _ := .init ⟨true, some { leaseCapable := true }, 0, rfl⟩
  refine .step (.step (.step hinit (a := .handle (.sessionOpened true) 0) trivial ⟨le_rfl, by simp [Event.granted?], rfl⟩)
    (a := .handle (.acquireAck ⟨0, wall 0⟩ (.granted 1 none)) (nanos 1)) trivial ⟨Nat.zero_le _, ?_, rfl⟩)
    (a := .rebind true (some { leaseCapable := true }) (nanos 10) (nanos 10) (nanos 10)) trivial
      ⟨show nanos 1 ≤ nanos 10 by decide, le_rfl, le_rfl, rfl⟩
  simp [Event.granted?]

theorem resumed_grant_ends_steady : ∃ s, (1, s) ∈ (carriedOver (nanos 100 + ·)).granted ∧
    nanos 104 < s + ({} : RoleConfig).validFor :=
  have h : (rebinding {} "m" (nanos 100 + ·)).Reachable System.anyAction _ := carriedOver_reachable
  resumed_grant_ends (by intro s t h; omega) h (by decide) (by decide +kernel) (by decide +kernel)

/-- The wall clock is set back by 5 s after 10 s. -/
theorem resumed_grant_extended : ∃ wall w, (rebinding {} "m" wall).Reachable System.anyAction w ∧
    w.client.machine.role = .holder 1 ∧ w.client.machine.isHolderNow ⟨nanos 106, wall (nanos 106)⟩ = true ∧
      ∀ g ∈ w.granted, g.2 + ({} : RoleConfig).validFor ≤ nanos 106 :=
  ⟨fun t => if t < nanos 10 then t + nanos 100 else t + nanos 95, _,
    carriedOver_reachable, by decide +kernel, by decide +kernel,
    by decide +kernel⟩

end Rebound
end Ferryx.Daemon
