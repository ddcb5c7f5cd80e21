import Mathlib

/-! # Numbers as bytes -/

namespace Ferryx.Lib

def beBytes : Nat → Nat → List UInt8
  | 0, _ => []
  | k + 1, v => UInt8.ofNat (v / 256 ^ k) :: beBytes k v

def beValue : List UInt8 → Nat
  | [] => 0
  | b :: bs => b.toNat * 256 ^ bs.length + beValue bs

@[simp] theorem length_beBytes (k v : Nat) : (beBytes k v).length = k := by
  induction k with
  | zero => rfl
  | succ k ih => simp [beBytes, ih]

theorem beValue_lt (bs : List UInt8) : beValue bs < 256 ^ bs.length := by
  induction bs with
  | nil => simp [beValue]
  | cons b bs ih =>
    have hb : b.toNat < 256 := UInt8.toNat_lt b
    calc b.toNat * 256 ^ bs.length + beValue bs < b.toNat * 256 ^ bs.length + 256 ^ bs.length := by omega
      _ = (b.toNat + 1) * 256 ^ bs.length := by ring
      _ ≤ 256 * 256 ^ bs.length := Nat.mul_le_mul_right _ hb
      _ = 256 ^ (b :: bs).length := by rw [List.length_cons, pow_succ, mul_comm]

theorem beValue_beBytes (k v : Nat) : beValue (beBytes k v) = v % 256 ^ k := by
  induction k with
  | zero => simp [beBytes, beValue, Nat.mod_one]
  | succ k ih =>
    have hpow : 256 ^ (k + 1) = 256 ^ k * 256 := pow_succ ..
    rw [beBytes, beValue, ih, length_beBytes, UInt8.toNat_ofNat', hpow, Nat.mod_mul, Nat.add_comm, Nat.mul_comm]

theorem beBytes_add_mul (k v c : Nat) : beBytes k (c * 256 ^ k + v) = beBytes k v := by
  induction k generalizing c with
  | zero => rfl
  | succ k ih =>
    have hhigh : (c * 256 ^ (k + 1) + v) / 256 ^ k = c * 256 + v / 256 ^ k := by
      rw [pow_succ, mul_comm (256 ^ k), ← mul_assoc, Nat.add_comm, Nat.add_mul_div_right _ _ (by positivity), Nat.add_comm]
    have hlow : c * 256 ^ (k + 1) + v = c * 256 * 256 ^ k + v := by ring
    rw [beBytes, beBytes, hhigh, hlow, ih]
    congr 1
    apply UInt8.toNat_inj.mp
    simp

theorem beBytes_beValue (bs : List UInt8) : beBytes bs.length (beValue bs) = bs := by
  induction bs with
  | nil => rfl
  | cons b bs ih =>
    have hhigh : (b.toNat * 256 ^ bs.length + beValue bs) / 256 ^ bs.length = b.toNat := by
      rw [Nat.add_comm, Nat.add_mul_div_right _ _ (by positivity), Nat.div_eq_of_lt (beValue_lt bs), Nat.zero_add]
    rw [List.length_cons, beValue, beBytes, hhigh, beBytes_add_mul, ih, UInt8.ofNat_toNat]

/-! ## The least significant byte first -/

def leBytes (k v : Nat) : List UInt8 := (beBytes k v).reverse

def leValue (bs : List UInt8) : Nat := beValue bs.reverse

@[simp] theorem length_leBytes (k v : Nat) : (leBytes k v).length = k := by simp [leBytes]

theorem leValue_leBytes (k v : Nat) : leValue (leBytes k v) = v % 256 ^ k := by
  rw [leValue, leBytes, List.reverse_reverse, beValue_beBytes]

end Ferryx.Lib
