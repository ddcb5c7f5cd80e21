import Mathlib

/-! # Logs of keyed entries

A log with keys is a family of lists. When the keys ascend, an order within each key and from each key to every later one
holds along the log. -/

namespace Ferryx.Lib
variable {κ α : Type*} [DecidableEq κ]

def entriesAt (k : κ) (log : List (κ × α)) : List α := (log.filter fun p => p.1 = k).map Prod.snd

@[simp] theorem entriesAt_nil (k : κ) : entriesAt k ([] : List (κ × α)) = [] := rfl

@[simp] theorem entriesAt_append (k : κ) (l m : List (κ × α)) : entriesAt k (l ++ m) = entriesAt k l ++ entriesAt k m := by
  simp [entriesAt]

@[simp] theorem entriesAt_cons (k : κ) (p : κ × α) (l : List (κ × α)) :
    entriesAt k (p :: l) = if p.1 = k then p.2 :: entriesAt k l else entriesAt k l := by
  by_cases h : p.1 = k <;> simp [entriesAt, h]

theorem entriesAt_map_same (k j : κ) (xs : List α) : entriesAt k (xs.map fun x => (j, x)) = if j = k then xs else [] := by
  induction xs with
  | nil => simp
  | cons x xs ih => by_cases h : j = k <;> simp_all

theorem mem_entriesAt {k : κ} {x : α} {log : List (κ × α)} : x ∈ entriesAt k log ↔ (k, x) ∈ log := by
  simp [entriesAt]

theorem entriesAt_eq_nil {k : κ} {log : List (κ × α)} (h : ∀ p ∈ log, p.1 ≠ k) : entriesAt k log = [] := by
  rw [List.eq_nil_iff_forall_not_mem]
  intro x hx
  exact h _ (mem_entriesAt.mp hx) rfl

theorem entriesAt_mono {l m : List (κ × α)} (h : l <+: m) (k : κ) : entriesAt k l <+: entriesAt k m := by
  obtain ⟨r, rfl⟩ := h
  exact ⟨entriesAt k r, (entriesAt_append k l r).symm⟩

/-- An order that holds within each key and from each key to the later ones holds along a log with
    ascending keys. -/
theorem pairwise_of_keys {κ α : Type*} [LinearOrder κ] {r : α → α → Prop} {log : List (κ × α)}
    (hkeys : log.Pairwise fun p q => p.1 ≤ q.1) (hin : ∀ k, (entriesAt k log).Pairwise r)
    (hacross : ∀ p ∈ log, ∀ q ∈ log, p.1 < q.1 → r p.2 q.2) : log.Pairwise fun p q => r p.2 q.2 := by
  induction log with
  | nil => exact .nil
  | cons p l ih =>
    rw [List.pairwise_cons] at hkeys ⊢
    refine ⟨fun q hq => ?_, ih hkeys.2 (fun k => ?_) fun p' hp' q' hq' =>
      hacross p' (List.mem_cons_of_mem _ hp') q' (List.mem_cons_of_mem _ hq')⟩
    · rcases (hkeys.1 q hq).lt_or_eq with hlt | heq
      · exact hacross p List.mem_cons_self q (List.mem_cons_of_mem _ hq) hlt
      · have hp := hin p.1
        rw [entriesAt_cons, if_pos rfl, List.pairwise_cons] at hp
        exact hp.1 q.2 (mem_entriesAt.mpr (by rw [heq]; exact hq))
    · have hk := hin k
      rw [entriesAt_cons] at hk
      split at hk
      · exact (List.pairwise_cons.mp hk).2
      · exact hk

end Ferryx.Lib
