import Mathlib

/-! # Lookups in tree maps, with equality of keys

The library states lookups with `compare`; where its order is lawful, they read with `=`. -/

namespace Ferryx.Lib
open Std
variable {κ ν : Type*} [Ord κ] [TransOrd κ] [LawfulEqOrd κ] (m : ExtTreeMap κ ν) (k a : κ)

theorem lookup_map (f : κ → ν → ν) : (m.map f)[a]? = m[a]?.map (f a) := by
  simp

theorem lookup_filter {f : κ → ν → Bool} {v : ν} : (m.filter f)[a]? = some v ↔ m[a]? = some v ∧ f a v = true := by
  simp

omit [LawfulEqOrd κ] in
variable {m k} in
theorem mem_iff_lookup : k ∈ m ↔ ∃ v, m[k]? = some v := by
  rw [← ExtTreeMap.isSome_getElem?_iff_mem, Option.isSome_iff_exists]

theorem setOf_mem_insert (d : ExtTreeSet κ) (s : κ) : { s' | s' ∈ d.insert s } = insert s { s' | s' ∈ d } := by
  ext s'
  simp [eq_comm (a := s')]

theorem setOf_mem_erase (d : ExtTreeSet κ) (s : κ) : { s' | s' ∈ d.erase s } = { s' | s' ∈ d } \ {s} := by
  ext s'
  simp [and_comm, eq_comm (a := s')]

variable [DecidableEq κ]

theorem lookup_insert (v : ν) : (m.insert k v)[a]? = if k = a then some v else m[a]? := by
  simp only [ExtTreeMap.getElem?_insert, Std.compare_eq_iff_eq]

theorem lookup_erase : (m.erase k)[a]? = if k = a then none else m[a]? := by
  simp only [ExtTreeMap.getElem?_erase, Std.compare_eq_iff_eq]

theorem lookup_modify (f : ν → ν) : (m.modify k f)[a]? = if k = a then m[a]?.map f else m[a]? := by
  simp only [ExtTreeMap.getElem?_modify, Std.compare_eq_iff_eq]
  split
  next h => rw [h]
  · rfl

end Ferryx.Lib
