import Ferryx.Theorems.SupervisorFencing

/-! A daemon whose file was found unreadable admits no request before a push. The flag is one for all accounts: the push of
one account makes the file readable again, and then an old holder of another account is admitted. -/

namespace Ferryx.AgentControl
open Lib Std FenceRatchet

/-- A daemon since its file was found unreadable. -/
structure Recovery where
  daemon : FenceRatchet
  /-- Why a load cannot read the file, until a store replaces it. -/
  failure : Option String
  /-- The pushes since then, and those of them that were admitted. -/
  tried : List SupervisorFence := []
  pushed : List SupervisorFence := []

inductive RecoveryAction where
  | call (fence : SupervisorFence) (push : Bool) (stored : Stored)
  | restart

def Stored.replaces : Stored → Bool
  | .written => true
  | .failed _ replaced => replaced

namespace Recovery

def step (w : Recovery) : RecoveryAction → Recovery
  | .call fence push stored =>
    { daemon := (w.daemon.ratchet fence push stored).2
      -- A request that is stored finds the file replaced already.
      failure := if push ∧ trim fence.account ≠ "" ∧ stored.replaces then none else w.failure
      tried := if push then fence :: w.tried else w.tried
      pushed := if push ∧ (w.daemon.ratchet fence push stored).1 = .ok () then fence :: w.pushed else w.pushed }
  | .restart => { w with daemon := .load true w.daemon.file w.failure }

end Recovery

/-- A daemon that found its file unreadable. -/
def recovery : System Recovery RecoveryAction where
  init := fun w => ∃ file why, w = { daemon := .load true file (some why), failure := some why }
  step := fun w a w' => w' = w.step a

variable {daemon : FenceRatchet} {w : Recovery} {fence : SupervisorFence} {push : Bool} {stored : Stored}

/-- Only a push that is stored makes an unreadable daemon know its maximum. -/
theorem FenceRatchet.ratchet_unreadable (fence : SupervisorFence) (push : Bool) (stored : Stored)
    (hpath : daemon.path = true) (h : daemon.fences.unreadable ≠ none) :
    (daemon.ratchet fence push stored).1 ≠ .ok () ∧ (daemon.ratchet fence push stored).2.path = true ∧
        (daemon.ratchet fence push stored).2.fences = daemon.fences ∨
      (push = true ∧ trim fence.account ≠ "" ∧ stored.replaces = true) ∧ (daemon.ratchet fence push stored).2.Durable ∧
        fence.fence ≤ (daemon.ratchet fence push stored).2.maxFor (trim fence.account) := by
  obtain ⟨why, hwhy⟩ := Option.ne_none_iff_exists'.mp h
  simp only [ratchet, hwhy, hpath]
  split
  · exact .inl ⟨by simp, hpath, rfl⟩
  next hname =>
    cases push with
    | false => exact .inl ⟨by simp [Option.filter], hpath, rfl⟩
    | true =>
      cases stored with
      | written => exact .inr ⟨⟨rfl, hname, rfl⟩, ⟨rfl, rfl, fun _ => le_rfl⟩, fence_le_raised⟩
      | failed why' replaced => cases replaced <;> exact .inl ⟨by simp, by simp [hpath], rfl⟩

namespace Recovery

/-- The file stays unreadable until a request replaced it. -/
structure Recovering (w : Recovery) : Prop where
  path : w.daemon.path = true
  failed : w.failure ≠ none → w.daemon.fences.unreadable ≠ none
  replaced : w.failure = none → w.tried ≠ []
  durable : w.daemon.fences.unreadable = none → w.daemon.Durable
  pushed : ∀ p ∈ w.pushed, w.daemon.fences.unreadable = none ∧ p.fence ≤ w.daemon.maxFor (trim p.account)

theorem step_daemon : (w.step (.call fence push stored)).daemon = (w.daemon.ratchet fence push stored).2 := rfl

theorem tried_of_replaced (h : w.failure = none → w.tried ≠ []) (hf : (w.step (.call fence push stored)).failure = none) :
    (w.step (.call fence push stored)).tried ≠ [] := by
  cases push with
  | true => exact List.cons_ne_nil _ _
  | false =>
    simp [step] at hf ⊢
    exact h hf

theorem mem_pushed {p : SupervisorFence} (hp : p ∈ (w.step (.call fence push stored)).pushed) :
    p = fence ∧ (w.daemon.ratchet fence push stored).1 = .ok () ∨ p ∈ w.pushed := by
  simp only [step] at hp
  split at hp
  next hok => exact (List.mem_cons.mp hp).imp_left fun heq => ⟨heq, hok.2⟩
  · exact .inr hp

theorem Recovering.call (h : Recovering w) : Recovering (w.step (.call fence push stored)) := by
  by_cases hread : w.daemon.fences.unreadable = none
  · have hkeeps : w.daemon.Keeps fence (w.daemon.ratchet fence push stored) := ratchet_keeps (h.durable hread)
    have hnone : w.failure = none := not_not.mp fun hf => h.failed hf hread
    have hdurable : (w.step (.call fence push stored)).daemon.Durable := by
      rw [step_daemon]
      exact hkeeps.durable
    refine ⟨hdurable.path, fun hf => ?_, tried_of_replaced h.replaced, fun _ => hdurable, fun p hp =>
      ⟨hdurable.readable, ?_⟩⟩
    · simp [step, hnone] at hf
    · rw [step_daemon]
      obtain ⟨rfl, hok⟩ | hp := mem_pushed hp
      · exact hkeeps.covers hok
      · exact (h.pushed p hp).2.trans (hkeeps.rises _)
  · have hempty : ∀ p, p ∉ w.pushed := fun p hp => hread (h.pushed p hp).1
    obtain ⟨hno, hpath, hsame⟩ | ⟨hstored, hdurable, hle⟩ := ratchet_unreadable fence push stored h.path hread
    · rw [← step_daemon] at hpath hsame
      have hunread : (w.step (.call fence push stored)).daemon.fences.unreadable ≠ none := by
        rw [hsame]
        exact hread
      refine ⟨hpath, fun _ => hunread, tried_of_replaced h.replaced, fun hr => absurd hr hunread, fun p hp => ?_⟩
      exact ((mem_pushed hp).elim (fun hok => hno hok.2) (hempty p)).elim
    · rw [← step_daemon] at hdurable hle
      refine ⟨hdurable.path, fun hf => ?_, tried_of_replaced h.replaced, fun _ => hdurable, fun p hp =>
        ⟨hdurable.readable, ?_⟩⟩
      · simp [step, hstored] at hf
      · obtain ⟨rfl, -⟩ | hp := mem_pushed hp
        · exact hle
        · exact (hempty p hp).elim

theorem Recovering.restart (h : Recovering w) : Recovering (w.step .restart) := by
  cases hf : w.failure with
  | none =>
    have hload : (w.step .restart).daemon = { w.daemon with fences := { max := w.daemon.file } } := by
      simp [step, hf, load, h.path]
    refine ⟨rfl, fun hn => absurd hf hn, h.replaced, fun _ => ?_, fun p hp => ?_⟩
    · rw [hload]
      exact ⟨h.path, rfl, fun _ => le_rfl⟩
    · obtain ⟨hread, hle⟩ := h.pushed p hp
      rw [hload]
      exact ⟨rfl, hle.trans ((h.durable hread).below _)⟩
  | some why =>
    have hread : w.daemon.fences.unreadable ≠ none := h.failed (by simp [hf])
    have hload : (w.step .restart).daemon.fences.unreadable = some why := by simp [step, hf, load]
    exact ⟨rfl, fun _ => by simp [hload], h.replaced, fun hn => by simp [hload] at hn, fun p hp => absurd (h.pushed p
      hp).1 hread⟩

theorem recovering_of_reachable (h : recovery.Reachable System.anyAction w) : Recovering w := by
  refine h.inv ?_ ?_
  · rintro w ⟨file, why, rfl⟩
    exact ⟨rfl, fun _ => by simp [load], by simp, by simp [load], by simp⟩
  · rintro w w' a - rfl hw
    cases a with
    | call fence push stored => exact hw.call
    | restart => exact hw.restart

/-- As long as only its own account has been pushed since the load, a request is admitted only after such a push. Whatever
other accounts have pushed, nothing below a fence that was pushed with success is admitted for its account. -/
theorem unreadable_until_pushed (fence : SupervisorFence) (stored : Stored) (h : recovery.Reachable System.anyAction w) :
    ((∀ p ∈ w.tried, trim p.account = trim fence.account) → (w.daemon.admitRequest fence stored).1 = .ok () →
      ∃ p ∈ w.tried, trim p.account = trim fence.account) ∧
    ∀ p ∈ w.pushed, trim p.account = trim fence.account → fence.fence < p.fence →
      (w.daemon.admitRequest fence stored).1 ≠ .ok () ∧ (w.daemon.admitPush fence stored).1 ≠ .ok () := by
  have hw := recovering_of_reachable h
  refine ⟨fun hone hok => ?_, fun p hp hname hlow => ?_⟩
  · have hread : w.daemon.fences.unreadable = none := by
      by_contra hn
      obtain ⟨hno, -⟩ | ⟨⟨hpush, -⟩, -⟩ := ratchet_unreadable fence false stored hw.path hn
      · exact hno hok
      · cases hpush
    have htried := hw.replaced (not_not.mp fun hf => hw.failed hf hread)
    obtain ⟨p, hp⟩ := List.exists_mem_of_ne_nil _ htried
    exact ⟨p, hp, hone p hp⟩
  · obtain ⟨hread, hle⟩ := hw.pushed p hp
    have hstale : fence.fence < w.daemon.maxFor (trim fence.account) := hname ▸ hlow.trans_le hle
    exact ⟨ratchet_stale (hw.durable hread) hstale, ratchet_stale (hw.durable hread) hstale⟩

def pushedOnce : Recovery :=
  ({ daemon := .load true ∅ (some "no fences"), failure := some "no fences" } : Recovery).step
    (.call ⟨"a", 5⟩ true .written)

theorem pushedOnce_reachable : recovery.Reachable System.anyAction pushedOnce :=
  .step (.init ⟨∅, "no fences", rfl⟩) (a := .call ⟨"a", 5⟩ true .written) trivial rfl

/-- Another account has pushed too. -/
def pushedTwice : Recovery := pushedOnce.step (.call ⟨"b", 7⟩ true .written)

theorem unreadable_until_pushed_once : (∃ p ∈ pushedOnce.tried, trim p.account = trim "a") ∧
    (pushedTwice.daemon.admitRequest ⟨"a", 4⟩ .written).1 ≠ .ok () := by
  have htwice : recovery.Reachable System.anyAction pushedTwice :=
    .step pushedOnce_reachable (a := .call ⟨"b", 7⟩ true .written) trivial rfl
  refine ⟨(unreadable_until_pushed ⟨"a", 6⟩ .written pushedOnce_reachable).1 (by decide +kernel) (by decide +kernel), ?_⟩
  exact ((unreadable_until_pushed ⟨"a", 4⟩ .written htwice).2 ⟨"a", 5⟩ (by decide +kernel) rfl (by decide)).1

theorem other_account_admitted : ∃ w, recovery.Reachable System.anyAction w ∧
    (w.daemon.admitRequest ⟨"b", 1⟩ .written).1 = .ok () ∧
    ∀ p ∈ w.tried, trim p.account ≠ "b" :=
  ⟨pushedOnce, pushedOnce_reachable, by decide +kernel, by decide +kernel⟩

end Recovery
end Ferryx.AgentControl
