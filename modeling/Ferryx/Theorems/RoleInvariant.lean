import Ferryx.Theorems.ResumedGrants

/-! Over every run of a role machine: the hub runs exactly in the roles that run it, a held fence is leased, requests need a
capable session, and a hub without a grant does not run for long. -/

namespace Ferryx.Daemon
open Lib RoleMachine

/-- A machine and the past of its events, which no event reads. -/
structure Watched where
  machine : RoleMachine
  time : Nat
  out : List Action
  /-- The last session opened has the lease capability and is not closed. -/
  session : Bool := false
  /-- When the requests of the accepted grants were sent. -/
  granted : List Now := []
  /-- The latched machine has seen a session without the capability, and no other session and no reset since. -/
  shut : Bool := false
  /-- When the hub, provisional ever since, first saw a capable session, opened then or open at a reset. -/
  seen : Option Nat := none

namespace Watched

def handle (w : Watched) (event : Event) (now : Now) : Watched where
  machine := (w.machine.handle event now).1
  time := now.mono
  out := w.out ++ (w.machine.handle event now).2
  session := match event with
    | .sessionOpened capable => capable
    | .sessionClosed => false
    | _ => w.session
  granted := match event.granted? with
    | some (fence, sentAt) => if (w.machine.handle event now).1.role = .holder fence then sentAt :: w.granted else w.granted
    | none => w.granted
  shut := match event with
    | .sessionOpened capable => !capable && (w.shut || w.machine.leased)
    | .capabilityReset => false
    | _ => w.shut
  seen :=
    if (w.machine.handle event now).1.role = .provisional then
      w.seen <|> (if event = .sessionOpened true ∨ event = .capabilityReset then some now.mono else none)
    else none

end Watched

def watched (cfg : RoleConfig) (machineId : String) : System Watched (Event × Now) where
  init := fun w => ∃ accountBound persisted now, w =
    { machine := (new cfg machineId accountBound persisted now).1, time := now.mono,
      out := (new cfg machineId accountBound persisted now).2 }
  step := fun w a w' => w.time ≤ a.2.mono ∧ w' = w.handle a.1 a.2

variable {cfg : RoleConfig} {machineId : String} {m : RoleMachine} {w : Watched} {event : Event} {now : Now} {t : Turn}
  {fence : Nat}

theorem attempt_kept {force : Bool} : (attempt now force t).1.role = t.1.role ∧ (attempt now force t).1.canSend =
    t.1.canSend := by
  simp only [attempt]
  split <;> exact ⟨rfl, rfl⟩

theorem latch_not_holder (hrole : ∀ fence, t.1.role ≠ .holder (fence + 1)) : (latch t).1.role ≠ .holder (fence + 1) := by
  obtain ⟨m₁, out⟩ := t
  simp only [latch, setSnapshot]
  split
  · split
    · split
      · simp
      · exact hrole fence
    · split
      · simp
      · exact hrole fence
  split
  · simp [Role.standbyUnknown]
  · exact hrole fence

theorem opened_not_holder {leaseCapable : Bool} (hrole : ∀ fence, t.1.role ≠ .holder (fence + 1)) :
    (onSessionOpened leaseCapable now t).1.role ≠ .holder (fence + 1) := by
  simp only [onSessionOpened]
  split
  · exact hrole fence
  split
  · split
    · simp [standDown]
    · exact hrole fence
  · rw [attempt_kept.1]
    dsimp only
    split <;> exact latch_not_holder hrole

theorem reset_not_holder : (m.handle .capabilityReset now).1.role ≠ .holder (fence + 1) := by
  simp only [RoleMachine.handle, react, onCapabilityReset]
  split
  · exact opened_not_holder (by simp)
  · simp

theorem opened_until (hbound : t.1.accountBound = true) (hrole : (onSessionOpened true now t).1.role = .provisional) :
    (onSessionOpened true now t).1.provisionalUntil ≠ none := by
  revert hrole
  simp only [onSessionOpened, hbound, attempt]
  split_ifs <;> simp_all

theorem reset_until (hbound : t.1.accountBound = true) (hrole : (onCapabilityReset now t).1.role = .provisional) :
    (onCapabilityReset now t).1.provisionalUntil ≠ none := by
  obtain ⟨m₁, out⟩ := t
  have hkept : ∀ snapshot, (setSnapshot snapshot (m₁, out)).1.accountBound = m₁.accountBound := by
    intro snapshot
    simp only [setSnapshot]
    split <;> rfl
  revert hrole
  simp only [onCapabilityReset]
  split
  · exact opened_until ((hkept _).trans hbound)
  · simp

theorem opened_canSend {leaseCapable : Bool} : (onSessionOpened leaseCapable now t).1.canSend = leaseCapable := by
  have hlatch : ∀ t : Turn, (latch t).1.canSend = t.1.canSend := by
    rintro ⟨m₁, out⟩
    simp only [latch, setSnapshot]
    split
    · split <;> split <;> rfl
    · split <;> rfl
  simp only [onSessionOpened]
  split
  · rfl
  split
  · split <;> rfl
  · rw [attempt_kept.2]
    dsimp only
    split <;> exact hlatch _

theorem shut_opened (h : m.leased = true) : (m.handle (.sessionOpened false) now).1.role.isUnleased = true := by
  obtain ⟨hbound, hcap⟩ := Bool.and_eq_true_iff.mp h
  have hcheck := check_fine m (.sessionOpened false) now
  have hcap' := hcheck.latched (by simp) hcap
  have hbound' := hcheck.account.trans hbound
  simp only [RoleMachine.handle, react, onSessionOpened]
  simp [hcap', hbound', standDown, Role.isUnleased]

theorem handle_leased (hm : ∀ fence, 0 < fence → m.role = .holder fence → m.leased = true) (hpos : 0 < fence)
    (hrole : (m.handle event now).1.role = .holder fence) : (m.handle event now).1.leased = true := by
  have h := handle_fine m event now
  rcases h.holder fence hpos hrole with ⟨hrole', -⟩ | ⟨hcap, hbound, -⟩
  · obtain ⟨hbound, hcap⟩ := Bool.and_eq_true_iff.mp (hm fence hpos hrole')
    refine Bool.and_eq_true_iff.mpr ⟨h.account.trans hbound, h.latched ?_ hcap⟩
    rintro rfl
    obtain ⟨fence, rfl⟩ := Nat.exists_eq_succ_of_ne_zero hpos.ne'
    exact reset_not_holder hrole
  · exact Bool.and_eq_true_iff.mpr ⟨hbound, hcap⟩

namespace Watched

/-- The hub runs exactly under a role, and what was put out says so. -/
structure Sound (cfg : RoleConfig) (w : Watched) : Prop where
  config : w.machine.cfg = cfg
  hub : w.out.foldlM Action.hub false = some w.machine.role.runsHub
  session : w.machine.canSend = w.session
  leased : ∀ fence, 0 < fence → w.machine.role = .holder fence → w.machine.leased = true
  deadline : ∀ fence, 0 < fence → w.machine.role = .holder fence → ∃ s ∈ w.granted,
    w.machine.deadline = some (w.machine.grantDeadline s)
  shut : w.shut = true → w.machine.role.isUnleased = true
  bound : w.machine.role = .provisional → w.machine.accountBound = true
  untilLe : ∀ u, w.machine.provisionalUntil = some u → u ≤ w.time + cfg.validFor
  seen : ∀ since, w.seen = some since → w.machine.role = .provisional ∧
    ∃ u, w.machine.provisionalUntil = some u ∧ u ≤ since + cfg.validFor

theorem session_handle (h : w.machine.canSend = w.session) :
    (w.handle event now).machine.canSend = (w.handle event now).session := by
  have hfine := handle_fine w.machine event now
  cases event with
  | sessionOpened leaseCapable => exact opened_canSend
  | sessionClosed => rfl
  | _ => exact (hfine.sending (by simp) (by simp)).trans h

theorem Sound.handle (h : Sound cfg w) (htime : w.time ≤ now.mono) : Sound cfg (w.handle event now) := by
  have hfine := handle_fine w.machine event now
  have huntil : ∀ u, (w.machine.handle event now).1.provisionalUntil = some u → u ≤ now.mono + cfg.validFor := by
    intro u hu
    rcases hfine.fresh u hu with hold | rfl
    · exact (h.untilLe u hold).trans (Nat.add_le_add_right htime _)
    · rw [h.config]
  refine ⟨hfine.cfg.trans h.config, ?_, ?_, fun fence hpos => handle_leased h.leased hpos, ?_, ?_, hfine.bound h.bound,
    huntil, ?_⟩
  · simp [Watched.handle, List.foldlM_append, h.hub, hfine.hub]
  · exact session_handle h.session
  · intro fence hpos hrole
    have hgrant : ∀ s, w.machine.grantDeadline s = (w.handle event now).machine.grantDeadline s := by
      intro s
      simp only [grantDeadline, Watched.handle, hfine.cfg]
    simp only [← hgrant]
    rcases hfine.holder fence hpos hrole with ⟨hrole', hdeadline⟩ | ⟨-, -, sentAt, hg, hdeadline⟩
    · obtain ⟨s, hs, hd⟩ := h.deadline fence hpos hrole'
      refine ⟨s, ?_, hdeadline.trans hd⟩
      simp only [Watched.handle]
      split
      · split
        · exact List.mem_cons_of_mem _ hs
        · exact hs
      · exact hs
    · refine ⟨sentAt, ?_, hdeadline⟩
      have hrole' : (w.machine.handle event now).1.role = .holder fence := hrole
      simp [Watched.handle, hg, hrole']
  · intro hs
    by_cases hopen : event = .sessionOpened false ∧ w.shut = false
    · obtain ⟨rfl, hno⟩ := hopen
      simp only [Watched.handle, hno] at hs
      exact shut_opened (by simpa using hs)
    · refine hfine.shut ?_ ?_ (h.shut ?_)
      · rintro rfl
        cases hs
      · rintro rfl
        cases hs
      · cases event <;> simp_all [Watched.handle]
  · intro since hs
    simp only [Watched.handle] at hs
    split at hs
    next hp =>
      refine ⟨hp, ?_⟩
      cases hseen : w.seen with
      | some since' =>
        obtain ⟨hrole, u, hu, hle⟩ := h.seen since' hseen
        obtain rfl : since' = since := by simpa [hseen] using hs
        exact ⟨u, hfine.kept hrole u hu, hle⟩
      | none =>
        simp only [hseen] at hs
        split at hs
        next heq =>
          obtain rfl := Option.some.inj hs
          have hbound := (check_fine w.machine .tick now).account.trans (hfine.account.symm.trans (hfine.bound h.bound hp))
          have hne : (w.machine.handle event now).1.provisionalUntil ≠ none := by
            rcases heq with rfl | rfl
            · exact opened_until hbound hp
            · exact reset_until hbound hp
          obtain ⟨u, hu⟩ := Option.ne_none_iff_exists'.mp hne
          exact ⟨u, hu, huntil u hu⟩
        · cases hs
    · cases hs

theorem sound_of_reachable (h : (watched cfg machineId).Reachable System.anyAction w) : Sound cfg w := by
  refine h.inv ?_ ?_
  · rintro w ⟨accountBound, persisted, now, rfl⟩
    refine ⟨rfl, ?_, rfl, fun fence hpos hrole => absurd hrole (Rebound.new_not_holder hpos), fun fence hpos hrole =>
      absurd hrole (Rebound.new_not_holder hpos), by simp, ?_, by simp [new], by simp⟩
    · simp only [new]
      split <;> rfl
    · simp only [new]
      split <;> simp [Role.standbyUnknown]
  · rintro w w' ⟨event, now⟩ - ⟨htime, rfl⟩ hw
    exact hw.handle htime

/-- A machine that held the lease before boots without a relay, and is granted it when the relay is back. -/
def booted : Watched :=
  let now := fun secs => (⟨nanos secs, nanos (100 + secs)⟩ : Now)
  let lease : PersistedLease := { lastRole := .holder, lastFence := 1, accountMachineCount := some 1, leaseCapable := true }
  let boot := new {} "m" true (some lease) (now 0)
  ((({ machine := boot.1, time := 0, out := boot.2 } : Watched).handle .relayUnreachableAtBoot (now 1)).handle
    (.sessionOpened true) (now 2)).handle
    (.renewAck (now 2) (.granted 1 none)) (now 3)

end Watched
end Ferryx.Daemon
