import Ferryx.Lib.TreeMap

/-! # Sets of numbers as maps of 64-bit blocks -/

namespace Ferryx.Lib
open Std ExtTreeMap

abbrev BitBlocks := ExtTreeMap Nat Nat

namespace BitBlocks
variable {m : BitBlocks} {c d : Nat}

def contains (m : BitBlocks) (c : Nat) : Bool := (m.getD (c / 64) 0).testBit (c % 64)

def insert (m : BitBlocks) (c : Nat) : BitBlocks := ExtTreeMap.insert m (c / 64) (m.getD (c / 64) 0 ||| 1 <<< (c % 64))

theorem contains_insert (m : BitBlocks) (c d : Nat) : (m.insert c).contains d = (decide (d = c) || m.contains d) := by
  unfold contains insert
  rw [getD_insert]
  by_cases hb : c / 64 = d / 64
  · rw [if_pos (by simpa using hb), hb, Nat.testBit_or, Nat.one_shiftLeft, Nat.testBit_two_pow, Bool.or_comm]
    congr 1
    by_cases hd : d = c
    · simp [hd]
    · simp only [hd, decide_false, decide_eq_false_iff_not]
      omega
  · rw [if_neg (by simpa using hb)]
    have hd : d ≠ c := fun h => hb (by rw [h])
    simp [hd]

theorem mem_insert {b : Nat} : b ∈ m.insert c ↔ b = c / 64 ∨ b ∈ m := by
  unfold insert
  rw [ExtTreeMap.mem_insert, Std.compare_eq_iff_eq, eq_comm]

theorem all_mask_iff : (m[c / 64]?.all fun seen => seen &&& 1 <<< (c % 64) == 0) = !m.contains c := by
  unfold contains
  rw [getD_eq_getD_getElem?]
  cases m[c / 64]? with
  | none => simp
  | some seen =>
    rw [Option.all_some, Option.getD_some, Nat.one_shiftLeft, Nat.and_two_pow]
    cases seen.testBit (c % 64) <;> simp

def since (m : BitBlocks) (lo : Nat) : BitBlocks := ExtTreeMap.filter (fun b _ => decide (lo ≤ b)) m

theorem contains_since {lo : Nat} (h : lo ≤ c / 64) : (m.since lo).contains c = m.contains c := by
  unfold contains since
  rw [getD_eq_getD_getElem?, getD_eq_getD_getElem?, getElem?_filter']
  cases m[c / 64]? <;> simp [h, Option.filter]

theorem mem_since {b lo : Nat} : b ∈ m.since lo ↔ b ∈ m ∧ lo ≤ b := by
  unfold since
  rw [mem_filter]
  simp

theorem size_le (lo n : Nat) (h : ∀ b ∈ m, lo ≤ b ∧ b < lo + n) : size m ≤ n := by
  rw [← length_keys, ← List.toFinset_card_of_nodup nodup_keys]
  calc m.keys.toFinset.card ≤ (Finset.Ico lo (lo + n)).card := Finset.card_le_card fun b hb => by
        rw [List.mem_toFinset, mem_keys] at hb
        exact Finset.mem_Ico.mpr (h b hb)
    _ = n := by simp

end BitBlocks
end Ferryx.Lib
