import Ferryx.Theorems.LeaseKept

/-! What a session records about its lease is the same for every kind of lease (`LeaseRecord`). A view of the lease protocol
sees the records of all sessions from the side of one client (`under`). -/

namespace Ferryx
open LeaseView Function

structure LeaseRecord (H : Type) where
  holder : Option H
  epoch : Nat
  lastRequest : H → Nat
  revokees : List H

/-- Nobody holds the session, and nobody is left to tell. -/
def LeaseRecord.vacant {H : Type} (r : LeaseRecord H) : LeaseRecord H := { r with holder := none, revokees := [] }

/-- The session goes to `i` with the next epoch. -/
structure LeaseRecord.GrantedTo {H : Type} (r : LeaseRecord H) (i : H) (r' : LeaseRecord H) : Prop where
  holder : r'.holder = some i
  epoch : r'.epoch = r.epoch + 1
  lastRequest : r'.lastRequest = r.lastRequest
  revokees : ∀ {j}, j ≠ i → j ∈ r.revokees ∨ r.holder = some j → j ∈ r'.revokees

namespace LeaseView
variable {H : Type} {loose strand : Prop} {v : LeaseView} {t : Nat → LeaseRecord H} {i j : H} {s id : Nat}
  {r : LeaseRecord H}

/-- A view of author `i` with the sessions as `t` has them. -/
def under (v : LeaseView) (t : Nat → LeaseRecord H) (i : H) : LeaseView :=
  { v with
    last := fun s => (t s).lastRequest i
    top := fun s => (t s).epoch
    held := { k | (t k.1).holder = some i ∧ (t k.1).epoch = k.2 }
    blocked := { s | ∃ j ≠ i, (t s).holder = some j ∧ i ∈ (t s).revokees } }

theorem under_update_self (v : LeaseView) (t : Nat → LeaseRecord H) (s : Nat) (i : H) :
    v.under (update t s (t s)) i = v.under t i := by
  rw [update_eq_self]

theorem field_update {β : Type} (f : LeaseRecord H → β) (h : f r = f (t s)) : (fun q => f (update t s r q)) = fun q =>
    f (t q) := by
  funext q
  by_cases hq : q = s
  · subst hq
    rw [update_self, h]
  · rw [update_of_ne hq]

theorem epoch_update {e : Nat} (h : r.epoch = e) :
    (fun q => (update t s r q).epoch) = update (fun q => (t q).epoch) s e := by
  funext q
  by_cases hq : q = s
  · subst hq
    rw [update_self, update_self, h]
  · rw [update_of_ne hq, update_of_ne hq]

theorem calm_under (hh : r.holder = (t s).holder) (he : r.epoch = (t s).epoch)
    (hl : (t s).lastRequest i ≤ r.lastRequest i) (hr : i ∈ (t s).revokees → i ∈ r.revokees) :
    Calm (v.under t i) (v.under (update t s r) i) := by
  have hsame : ∀ q, (update t s r q).holder = (t q).holder ∧ (update t s r q).epoch = (t q).epoch := by
    intro q
    by_cases hq : q = s
    · subst hq
      rw [update_self]
      exact ⟨hh, he⟩
    · rw [update_of_ne hq]
      exact ⟨rfl, rfl⟩
  refine ⟨rfl, le_rfl, rfl, rfl, rfl, .inr ⟨rfl, rfl⟩, subset_rfl, fun _ hk => hk, rfl, subset_rfl, subset_rfl, rfl,
    fun q => ?_, fun q => (hsame q).2.ge, fun _ => (hsame _).2, ?_, rfl, fun q hb => ?_⟩
  · show (t q).lastRequest i ≤ (update t s r q).lastRequest i
    by_cases hq : q = s
    · subst hq
      rw [update_self]
      exact hl
    · rw [update_of_ne hq]
  · ext k
    show _ ∧ _ ↔ _ ∧ _
    rw [(hsame k.1).1, (hsame k.1).2]
  · obtain ⟨j, hj, hjh, hi⟩ := hb
    refine ⟨j, hj, (hsame q).1.trans hjh, ?_⟩
    by_cases hq : q = s
    · subst hq
      rw [update_self]
      exact hr hi
    · rwa [update_of_ne hq]

theorem under_vacant (v : LeaseView) (t : Nat → LeaseRecord H) (s : Nat) (i : H) :
    v.under (update t s (t s).vacant) i = { v.under t i with
      held := (v.under t i).held \ {(s, (t s).epoch)}
      blocked := (v.under t i).blocked \ {s} } := by
  simp only [under]
  congr 1
  · exact field_update (fun r => r.lastRequest i) rfl
  · exact field_update LeaseRecord.epoch rfl
  · ext ⟨q, e⟩
    by_cases hq : q = s
    · subst hq
      simp [LeaseRecord.vacant, eq_comm]
    · simp [hq]
  · ext q
    by_cases hq : q = s
    · subst hq
      simp [LeaseRecord.vacant]
    · simp [hq]

theorem moves_vacated {α : Type} (v : LeaseView) (s : Nat) (hs : List α) (hb : hs = [] → s ∉ v.blocked) :
    Moves loose strand v { v with blocked := v.blocked \ {s}, live := v.live ++ hs.map fun _ => ToClient.vacated s } := by
  induction hs generalizing v with
  | nil =>
    refine .of_eq ?_
    rw [Set.sdiff_singleton_eq_self (hb rfl)]
    simp
  | cons h hs ih =>
    have hv := ih { v with blocked := v.blocked \ {s}, live := v.live ++ [.vacated s] } fun _ hs => hs.2 rfl
    refine Moves.trans (.move (.vacate s)) (hv.trans (.of_eq ?_))
    simp

theorem under_granted (g : (t s).GrantedTo i r) : { v with gid := update v.gid (s, (t s).epoch + 1) (some id) }.under
      (update t s r) i = (v.under t i).grantTo s id [] ((v.under t i).blocked \ {s}) := by
  simp only [under, grantTo, List.append_nil]
  congr 1
  · exact field_update (fun r => r.lastRequest _) (congrFun g.lastRequest _)
  · exact epoch_update g.epoch
  · ext ⟨q, e⟩
    by_cases hq : q = s
    · subst hq
      simp [g.holder, g.epoch, eq_comm]
    · simp [hq]
  · ext q
    by_cases hq : q = s
    · subst hq
      simp [g.holder]
    · simp [hq]

theorem under_revoked (g : (t s).GrantedTo i r) (hold : (t s).holder = some j) (hj : j ≠ i) :
    v.under (update t s r) j = { v.under t j with
      held := (v.under t j).held \ {(s, (t s).epoch)}
      top := update (v.under t j).top s ((t s).epoch + 1)
      blocked := insert s (v.under t j).blocked } := by
  simp only [under]
  congr 1
  · exact field_update (fun r => r.lastRequest _) (congrFun g.lastRequest _)
  · exact epoch_update g.epoch
  · ext ⟨q, e⟩
    by_cases hq : q = s
    · subst hq
      simp [g.holder, hj.symm, hold, eq_comm]
    · simp [hq]
  · ext q
    by_cases hq : q = s
    · subst hq
      simp [g.holder, hj.symm, g.revokees hj (.inr hold)]
    · simp [hq]

theorem calm_granted (g : (t s).GrantedTo i r) (hold : (t s).holder ≠ some j) (hj : j ≠ i) :
    Calm (v.under t j) (v.under (update t s r) j) := by
  have hne : ∀ {q}, q ≠ s → update t s r q = t q := fun hq => update_of_ne hq ..
  refine ⟨rfl, le_rfl, rfl, rfl, rfl, .inr ⟨rfl, rfl⟩, subset_rfl, fun _ hk => hk, rfl, subset_rfl, subset_rfl, rfl,
    fun q => ?_, fun q => ?_, fun {k} hk => ?_, ?_, rfl, fun q hb => ?_⟩
  · show (t q).lastRequest j ≤ (update t s r q).lastRequest j
    by_cases hq : q = s
    · subst hq
      rw [update_self, g.lastRequest]
    · rw [hne hq]
  · show (t q).epoch ≤ (update t s r q).epoch
    by_cases hq : q = s
    · subst hq
      rw [update_self, g.epoch]
      exact Nat.le_succ _
    · rw [hne hq]
  · show (update t s r k.1).epoch = (t k.1).epoch
    rw [hne]
    rintro rfl
    exact hold hk.1
  · ext ⟨q, e⟩
    by_cases hq : q = s
    · subst hq
      simp [under, g.holder, hj.symm, hold]
    · simp [under, hne hq]
  · obtain ⟨j', hne', hj', hjr⟩ := hb
    by_cases hq : q = s
    · subst hq
      refine ⟨i, hj.symm, ?_⟩
      rw [update_self]
      exact ⟨g.holder, g.revokees hj (.inl hjr)⟩
    · exact ⟨j', hne', by rw [hne hq]; exact ⟨hj', hjr⟩⟩

variable [DecidableEq H]

theorem moves_waited (v : LeaseView) (t : Nat → LeaseRecord H) (s : Nat) (i : H) :
    Moves loose strand (v.under t i) { v.under t i with
      live := v.live ++ ((t s).revokees.filter fun h => h = i).map fun _ => ToClient.vacated s
      blocked := (v.under t i).blocked \ {s} } := by
  refine moves_vacated (v.under t i) s _ fun hnil => ?_
  rintro ⟨j, -, -, hi⟩
  have : i ∈ (t s).revokees.filter fun h => h = i := List.mem_filter.mpr ⟨hi, by simp⟩
  rw [hnil] at this
  cases this

theorem moves_vacant (h : (t s).holder = some i → loose ∨ ¬(v.under t i).Alive (s, (t s).epoch)) :
    Moves loose strand (v.under t i)
      ({ v with live := v.live ++ ((t s).revokees.filter fun h => h = i).map fun _ => ToClient.vacated s }.under
        (update t s (t s).vacant) i) := by
  rw [under_vacant]
  refine (moves_waited v t s i).trans ?_
  by_cases hi : (t s).holder = some i
  · exact .move (.unhold (h hi))
  · refine .of_eq ?_
    have : (s, (t s).epoch) ∉ (v.under t i).held := fun hk => hi hk.1
    rw [Set.sdiff_singleton_eq_self]
    · rfl
    · exact this

theorem moves_vacant_told (hh : (t s).holder = some i) : Moves loose strand (v.under t i) ({ v with
        live := v.live ++ (((t s).revokees.filter fun h => h = i).map fun _ => ToClient.vacated s) ++
          [ToClient.lost s (t s).epoch 0] }.under (update t s (t s).vacant) i) := by
  rw [under_vacant]
  exact (moves_waited v t s i).trans (.move (.fence (k := (s, (t s).epoch)) ⟨hh, rfl⟩))

end LeaseView
end Ferryx
