import Mathlib

/-! # Families of queues

A connection of a party is a queue of messages; `f i c` is the queue of party `i` on connection `c`. -/

namespace Ferryx.Lib
variable {ι κ α : Type*} [DecidableEq ι] [DecidableEq κ]

def setAt (f : ι → κ → α) (i : ι) (c : κ) (x : α) : ι → κ → α := fun j d => if j = i ∧ d = c then x else f j d

@[simp] theorem setAt_self (f : ι → κ → α) (i : ι) (c : κ) (x : α) : setAt f i c x i c = x := if_pos ⟨rfl, rfl⟩

theorem setAt_of_ne (f : ι → κ → α) {i j : ι} {c d : κ} (x : α) (h : ¬(j = i ∧ d = c)) : setAt f i c x j d = f j d :=
  if_neg h

def enqueue (f : ι → κ → List α) (i : ι) (c : κ) (xs : List α) : ι → κ → List α := setAt f i c (f i c ++ xs)

theorem prefix_enqueue (f : ι → κ → List α) (i j : ι) (c d : κ) (xs : List α) : f j d <+: enqueue f i c xs j d := by
  by_cases h : j = i ∧ d = c
  · obtain ⟨rfl, rfl⟩ := h
    simp [enqueue]
  · rw [enqueue, setAt_of_ne f _ h]

theorem mem_enqueue {f : ι → κ → List α} {i j : ι} {c d : κ} {xs : List α} {x : α} :
    x ∈ enqueue f i c xs j d ↔ x ∈ f j d ∨ (j = i ∧ d = c) ∧ x ∈ xs := by
  by_cases h : j = i ∧ d = c
  · obtain ⟨rfl, rfl⟩ := h
    simp [enqueue]
  · simp [enqueue, setAt_of_ne f _ h, h]

theorem mem_of_mem_setAt {f : ι → κ → List α} {i j : ι} {c d : κ} {m x : α} {rest : List α} (hf : f i c = m :: rest)
    (hx : x ∈ setAt f i c rest j d) : x ∈ f j d := by
  by_cases h : j = i ∧ d = c
  · obtain ⟨rfl, rfl⟩ := h
    rw [setAt_self] at hx
    rw [hf]
    exact List.mem_cons_of_mem _ hx
  · rwa [setAt_of_ne f _ h] at hx

/-- What is on connections other than a fresh one: what is on a given one, and what is on the others. -/
theorem others_of_fresh (g : κ → Set α) {c fresh : κ} (hne : c ≠ fresh) (hfresh : g fresh = ∅) :
    { x | ∃ d ≠ fresh, x ∈ g d } = g c ∪ { x | ∃ d ≠ c, x ∈ g d } := by
  ext x
  constructor
  · rintro ⟨d, -, hx⟩
    by_cases hd : d = c
    · exact .inl (hd ▸ hx)
    · exact .inr ⟨d, hd, hx⟩
  · rintro (hx | ⟨d, -, hx⟩)
    · exact ⟨c, hne, hx⟩
    · refine ⟨d, ?_, hx⟩
      rintro rfl
      rw [hfresh] at hx
      exact hx

end Ferryx.Lib
