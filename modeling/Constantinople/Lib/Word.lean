/-
Checked arithmetic and single bits of 64-bit machine words, in terms of the natural number a word
stands for: `checkedAdd` and `checkedSub` fail exactly where the result does not fit, and testing,
setting and shifting out bits of a word is testing, setting and shifting bits of its value.
-/
import Mathlib.Data.Nat.Bitwise
import Mathlib.Tactic

namespace Word

/-! ## Checked arithmetic -/

/-- `u64::checked_add`. -/
def checkedAdd (a b : UInt64) : Option UInt64 :=
  if a.toNat + b.toNat < 2 ^ 64 then some (a + b) else none

/-- `u64::checked_sub`. -/
def checkedSub (a b : UInt64) : Option UInt64 :=
  if b.toNat ≤ a.toNat then some (a - b) else none

theorem checkedAdd_eq_some {a b c : UInt64} :
    checkedAdd a b = some c ↔ c.toNat = a.toNat + b.toNat := by
  unfold checkedAdd
  split
  · rename_i h
    have hab : (a + b).toNat = a.toNat + b.toNat := by rw [UInt64.toNat_add]; omega
    rw [Option.some.injEq, ← UInt64.toNat_inj, hab]
    exact eq_comm
  · have := c.toNat_lt
    simp only [reduceCtorEq, false_iff]; omega

theorem checkedSub_eq_some {a b c : UInt64} :
    checkedSub a b = some c ↔ c.toNat + b.toNat = a.toNat := by
  unfold checkedSub
  split
  · rename_i h
    have hab : (a - b).toNat = a.toNat - b.toNat := UInt64.toNat_sub_of_le a b (UInt64.le_iff_toNat_le.2 h)
    rw [Option.some.injEq, ← UInt64.toNat_inj, hab]
    omega
  · simp only [reduceCtorEq, false_iff]; omega

theorem checkedAdd_of_lt {a b : UInt64} (h : a.toNat + b.toNat < 2 ^ 64) :
    ∃ c, checkedAdd a b = some c ∧ c.toNat = a.toNat + b.toNat := by
  have hc : checkedAdd a b = some (a + b) := if_pos h
  exact ⟨a + b, hc, checkedAdd_eq_some.1 hc⟩

theorem checkedSub_of_le {a b : UInt64} (h : b.toNat ≤ a.toNat) :
    ∃ c, checkedSub a b = some c ∧ c.toNat + b.toNat = a.toNat := by
  have hc : checkedSub a b = some (a - b) := if_pos h
  exact ⟨a - b, hc, checkedSub_eq_some.1 hc⟩

theorem toNat_ofNat {n : Nat} (h : n < 2 ^ 64) : (UInt64.ofNat n).toNat = n := UInt64.toNat_ofNat_of_lt' h

theorem toNat_max (a b : UInt64) : (max a b).toNat = max a.toNat b.toNat := by
  show (if a ≤ b then b else a).toNat = _
  split
  · rename_i h
    exact (max_eq_right (UInt64.le_iff_toNat_le.1 h)).symm
  · rename_i h
    rw [UInt64.le_iff_toNat_le] at h
    exact (max_eq_left (by omega)).symm

instance lawfulOrderMaxUInt64 : Std.LawfulOrderMax UInt64 where
  max_le_iff a b c := by
    simp only [UInt64.le_iff_toNat_le, toNat_max, max_le_iff]
  max_eq_or a b := by
    simp only [← UInt64.toNat_inj, toNat_max]
    exact max_choice a.toNat b.toNat

/-- The largest word of a list that is not empty, counted from zero. -/
theorem max?_eq_foldl {l : List UInt64} (h : l ≠ []) : l.max? = some (l.foldl max 0) := by
  obtain ⟨a, ha⟩ := Option.ne_none_iff_exists'.1 (mt List.max?_eq_none_iff.1 h)
  have hzero : max 0 a = a := by
    rw [← UInt64.toNat_inj, toNat_max, UInt64.toNat_zero, Nat.zero_max]
  rw [List.foldl_max, ha, Option.getD_some, hzero]

/-! ## Single bits -/

/-- The word with only bit `i` set. -/
theorem toNat_one_shiftLeft {i : Nat} (hi : i < 64) :
    ((1 : UInt64) <<< UInt64.ofNat i).toNat = 2 ^ i := by
  have h64 : (2 : Nat) ^ i < 2 ^ 64 := Nat.pow_lt_pow_right (by norm_num) hi
  rw [UInt64.toNat_shiftLeft, toNat_ofNat (by omega), Nat.mod_eq_of_lt hi]
  simp only [UInt64.toNat_one, Nat.shiftLeft_eq, one_mul]
  exact Nat.mod_eq_of_lt h64

/-- Masking with a single bit tests that bit. -/
theorem and_bit_eq_zero {b : UInt64} {i : Nat} (hi : i < 64) :
    b &&& ((1 : UInt64) <<< UInt64.ofNat i) = 0 ↔ b.toNat.testBit i = false := by
  rw [← UInt64.toNat_inj, UInt64.toNat_and, toNat_one_shiftLeft hi, UInt64.toNat_zero, Nat.and_two_pow]
  cases b.toNat.testBit i <;> simp

/-- Setting a single bit adds it to the set bits. -/
theorem testBit_or_bit {b : UInt64} {i : Nat} (hi : i < 64) (j : Nat) :
    (b ||| ((1 : UInt64) <<< UInt64.ofNat i)).toNat.testBit j = (b.toNat.testBit j || decide (i = j)) := by
  rw [UInt64.toNat_or, toNat_one_shiftLeft hi, Nat.testBit_or, Nat.testBit_two_pow]

theorem testBit_shiftRight {b : UInt64} {a : Nat} (ha : a < 64) (j : Nat) :
    (b >>> UInt64.ofNat a).toNat.testBit j = b.toNat.testBit (a + j) := by
  rw [UInt64.toNat_shiftRight, toNat_ofNat (by omega), Nat.mod_eq_of_lt ha,
    Nat.testBit_shiftRight]

/-- No bit at or above position 64 is set. -/
theorem testBit_of_ge (b : UInt64) {i : Nat} (hi : 64 ≤ i) : b.toNat.testBit i = false := by
  apply Nat.testBit_lt_two_pow
  exact lt_of_lt_of_le b.toNat_lt (Nat.pow_le_pow_right (by norm_num) hi)

end Word
