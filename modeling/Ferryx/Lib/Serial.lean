import Mathlib

/-! # Serial numbers

Numbers on a ring of `2 ^ 32`, compared by how far one is ahead of the other. -/

namespace Ferryx.Lib

def ahead (a b : UInt32) : Nat := (b - a).toNat

/-- `b` is after `a`, by less than half the ring. -/
def Forward (a b : UInt32) : Prop := 0 < ahead a b ∧ ahead a b < 2 ^ 31

instance (a b : UInt32) : Decidable (Forward a b) := inferInstanceAs (Decidable (_ ∧ _))

variable {a b c : UInt32}

theorem ahead_eq (a b : UInt32) : ahead a b = (2 ^ 32 - a.toNat + b.toNat) % 2 ^ 32 := UInt32.toNat_sub b a

@[simp] theorem ahead_self (a : UInt32) : ahead a a = 0 := by simp [ahead]

/-- Distances add up as long as they stay on the ring. -/
theorem ahead_trans (h : ahead a b + ahead b c < 2 ^ 32) : ahead a c = ahead a b + ahead b c := by
  have ha := a.toNat_lt
  have hb := b.toNat_lt
  have hc := c.toNat_lt
  rw [ahead_eq, ahead_eq] at h
  rw [ahead_eq, ahead_eq, ahead_eq]
  omega

theorem ahead_of_forward (hab : ahead a b < 2 ^ 31) (hbc : Forward b c) : ahead a c = ahead a b + ahead b c :=
  ahead_trans (by have := hbc.2; omega)

theorem ahead_eq_one_iff : ahead a b = 1 ↔ b = a + 1 := by
  have ha := a.toNat_lt
  have hb := b.toNat_lt
  rw [ahead_eq, ← UInt32.toNat_inj, UInt32.toNat_add]
  simp only [UInt32.toNat_one]
  omega

end Ferryx.Lib
