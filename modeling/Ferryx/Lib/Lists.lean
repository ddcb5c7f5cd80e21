import Mathlib

/-! # Positions in lists -/

namespace Ferryx.Lib
open List
variable {α β : Type*}

theorem eq_of_nodup {l : List α} (h : l.Nodup) {j j' : Nat} {x : α} (hx : l[j]? = some x) (hx' : l[j']? = some x) :
    j = j' := by
  obtain ⟨hj, rfl⟩ := List.getElem?_eq_some_iff.mp hx
  obtain ⟨hj', he⟩ := List.getElem?_eq_some_iff.mp hx'
  exact (h.getElem_inj_iff.mp he).symm

/-- When the lists of the elements have no duplicates together, an entry is at one position of one of them. -/
theorem position_of_nodup_flatMap {l : List α} {f : α → List β} (h : (l.flatMap f).Nodup) {p p' j j' : Nat}
    {o o' : α} {x : β} (ho : l[p]? = some o) (ho' : l[p']? = some o') (hx : (f o)[j]? = some x)
    (hx' : (f o')[j']? = some x) : p = p' ∧ j = j' := by
  obtain ⟨hin, hdisj⟩ := nodup_flatMap.mp h
  have hmem := mem_of_getElem? hx
  have hmem' := mem_of_getElem? hx'
  obtain ⟨hp, rfl⟩ := List.getElem?_eq_some_iff.mp ho
  obtain ⟨hp', rfl⟩ := List.getElem?_eq_some_iff.mp ho'
  have hpair := pairwise_iff_getElem.mp hdisj
  rcases Nat.lt_trichotomy p p' with hlt | rfl | hlt
  · exact (hpair p p' hp hp' hlt hmem hmem').elim
  · exact ⟨rfl, eq_of_nodup (hin _ (getElem_mem hp)) hx hx'⟩
  · exact (hpair p' p hp' hp hlt hmem' hmem).elim

theorem position_of_nodup_filterMap {l : List α} {f : α → Option β} (h : (l.filterMap f).Nodup) {p p' : Nat}
    {o o' : α} {x : β} (ho : l[p]? = some o) (ho' : l[p']? = some o') (hx : f o = some x) (hx' : f o' = some x) :
      p = p' := by
  rw [filterMap_eq_flatMap_toList] at h
  have hget : ∀ {o}, f o = some x → (f o).toList[0]? = some x := fun ho => by rw [ho]; rfl
  exact (position_of_nodup_flatMap h ho ho' (hget hx) (hget hx')).1

theorem split_concat {l pre post : List α} {x m : α} (h : l ++ [m] = pre ++ x :: post) :
    (∃ post', l = pre ++ x :: post' ∧ post = post' ++ [m]) ∨ l = pre ∧ x = m ∧ post = [] := by
  rcases eq_nil_or_concat post with rfl | ⟨post', y, rfl⟩
  · obtain ⟨rfl, hx⟩ := append_inj' h rfl
    exact .inr ⟨rfl, (singleton_inj.mp hx).symm, rfl⟩
  · rw [concat_eq_append] at h ⊢
    rw [← cons_append, ← append_assoc] at h
    obtain ⟨rfl, hx⟩ := append_inj' h rfl
    rw [singleton_inj] at hx
    exact .inl ⟨post', rfl, by rw [hx]⟩

theorem getElem?_concat_lt {α : Type*} {l : List α} {i : Nat} {a : α} (h : l[i]? = some a) (b : α) :
    (l ++ [b])[i]? = some a := by
  rw [List.getElem?_append_left (List.getElem?_eq_some_iff.mp h).1]
  exact h

theorem getElem?_concat_cases {α : Type*} {l : List α} {i : Nat} {a b : α} (h : (l ++ [b])[i]? = some a) :
    l[i]? = some a ∨ i = l.length ∧ a = b := by
  rcases Nat.lt_trichotomy i l.length with hi | hi | hi
  · exact .inl (by rwa [getElem?_append_left hi] at h)
  · subst hi
    exact .inr ⟨rfl, by simpa using h.symm⟩
  · rw [getElem?_eq_none (by simp; omega)] at h
    cases h

end Ferryx.Lib
