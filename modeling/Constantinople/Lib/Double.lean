/-
Whole numbers as a double holds them: with 53 significant bits, rounded to the nearest such number and, of two
equally near, to the one whose last bit is zero. Up to 2 ^ 53 every whole number is held as it is, so a count
that is added up one double at a time is exact while the whole of it stays there.
-/
import Mathlib.Data.Int.Order.Basic
import Mathlib.Algebra.Order.BigOperators.Group.List
import Mathlib.Tactic

namespace Double

/-- Below this bound no whole number is rounded. -/
def exactBound : ℕ := 2 ^ 53

/-- The value of the last bit a double keeps of a number. -/
def lastBit (n : ℕ) : ℕ := 2 ^ (n.log2 - 52)

def roundNat (n : ℕ) : ℕ :=
  let kept := n / lastBit n
  let lost := n % lastBit n
  if 2 * lost < lastBit n ∨ (2 * lost = lastBit n ∧ kept % 2 = 0) then kept * lastBit n
  else (kept + 1) * lastBit n

/-- The double nearest to a whole number. -/
def round (z : ℤ) : ℤ := z.sign * roundNat z.natAbs

def add (a b : ℤ) : ℤ := round (a + b)

theorem roundNat_of_dvd {n : ℕ} (h : lastBit n ∣ n) : roundNat n = n := by
  have hpos : 0 < lastBit n := Nat.two_pow_pos _
  have hlost : n % lastBit n = 0 := Nat.mod_eq_zero_of_dvd h
  unfold roundNat
  simp only [hlost, Nat.mul_zero, hpos, true_or, if_true]
  exact Nat.div_mul_cancel h

theorem roundNat_of_le {n : ℕ} (h : n ≤ exactBound) : roundNat n = n := by
  apply roundNat_of_dvd
  rcases Nat.lt_or_eq_of_le h with hlt | rfl
  · have hlog : n.log2 ≤ 52 := by
      rcases Nat.eq_zero_or_pos n with rfl | hpos
      · decide
      · exact Nat.lt_succ_iff.1 ((Nat.log2_lt (Nat.pos_iff_ne_zero.1 hpos)).2 hlt)
    rw [lastBit, Nat.sub_eq_zero_of_le hlog]
    exact one_dvd n
  · decide +kernel

theorem round_of_le {z : ℤ} (hpos : 0 ≤ z) (h : z ≤ exactBound) : round z = z := by
  obtain ⟨n, rfl⟩ := Int.eq_ofNat_of_zero_le hpos
  rcases Nat.eq_zero_or_pos n with rfl | hn
  · rfl
  · rw [round, Int.natAbs_natCast, roundNat_of_le (by exact_mod_cast h), Int.sign_eq_one_of_pos (by exact_mod_cast hn),
      one_mul]

/-- Counts added up one by one. -/
theorem foldl_add {counts : List ℤ} {start : ℤ} (hstart : 0 ≤ start) (hcounts : ∀ count ∈ counts, 0 ≤ count)
    (h : start + counts.sum ≤ exactBound) : counts.foldl add start = start + counts.sum := by
  induction counts generalizing start with
  | nil => simp
  | cons count counts ih =>
    obtain ⟨hcount, hrest⟩ := List.forall_mem_cons.1 hcounts
    have hsum : 0 ≤ counts.sum := List.sum_nonneg hrest
    rw [List.sum_cons, ← add_assoc] at h ⊢
    have hstep : add start count = start + count := round_of_le (by omega) (by omega)
    rw [List.foldl_cons, hstep]
    exact ih (by omega) hrest h

end Double
