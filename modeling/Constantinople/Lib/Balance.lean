/-
Moving an amount between two accounts of a balance sheet, over any type of accounts. Stated as one
equation per account, it covers a move from an account to itself: both sides change by the amount.
-/
import Mathlib.Algebra.BigOperators.Group.Finset.Piecewise
import Mathlib.Tactic

namespace Balance

variable {K : Type} [DecidableEq K]

/-- `after` is `before` with `amount` moved from `source` to `target`. -/
def Moved (source target : K) (amount : ℕ) (before after : K → ℕ) : Prop :=
  ∀ k, after k + (if k = source then amount else 0) = before k + if k = target then amount else 0

namespace Moved

variable {source target : K} {amount : ℕ} {before after : K → ℕ}

/-- The sum over any accounts that include both ends does not change. -/
theorem sum_eq (h : Moved source target amount before after) {accounts : Finset K} (hs : source ∈ accounts)
    (ht : target ∈ accounts) : ∑ k ∈ accounts, after k = ∑ k ∈ accounts, before k := by
  have hsum : ∑ k ∈ accounts, (after k + if k = source then amount else 0) =
      ∑ k ∈ accounts, (before k + if k = target then amount else 0) :=
    Finset.sum_congr rfl fun k _ => h k
  rw [Finset.sum_add_distrib, Finset.sum_add_distrib, Finset.sum_ite_eq_of_mem' _ _ _ hs,
    Finset.sum_ite_eq_of_mem' _ _ _ ht] at hsum
  omega

/-- Only the source can lose. -/
theorem le_of_ne (h : Moved source target amount before after) {k : K} (hk : k ≠ source) : before k ≤ after k := by
  have := h k
  rw [if_neg hk] at this
  omega

theorem eq_of_self (h : Moved source source amount before after) (k : K) : after k = before k := by
  have := h k
  omega

/-- An amount that is passed on has gone from the first account to the last one. -/
theorem trans {middle : K} {between : K → ℕ} (h : Moved source middle amount before between)
    (h' : Moved middle target amount between after) : Moved source target amount before after := by
  intro k
  have hfirst := h k
  have hsecond := h' k
  omega

end Moved

end Balance
