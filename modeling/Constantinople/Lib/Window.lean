/-
Sets of used numbers with a window of fixed width. A number near the least unused one is used alone;
one further ahead takes every number below it along. Uses do not commute: a number skipped by a jump
can no longer be used. Two orders of the same numbers in which every number was unused at its turn
still end in the same set.
-/
import Mathlib.Data.Set.Insert
import Mathlib.Data.List.Basic
import Mathlib.Data.List.Perm.Basic
import Mathlib.Tactic

namespace Window

variable {W : ℕ}

/-- `n` lies beyond the window of some unused number. -/
def Ahead (W : ℕ) (used : Set ℕ) (n : ℕ) : Prop := ∃ b ∉ used, b + W < n

/-- Using `n`: beyond the window everything up to it is used with it. -/
def use (W : ℕ) (used : Set ℕ) (n : ℕ) : Set ℕ := {m | m ∈ used ∨ m = n ∨ m ≤ n ∧ Ahead W used n}

/-- Every number is unused at its turn. -/
def Valid (W : ℕ) : Set ℕ → List ℕ → Prop
  | _, [] => True
  | used, n :: ns => n ∉ used ∧ Valid W (use W used n) ns

/-- `n` is used in the run, at a turn where it lies beyond the window. -/
def Jump (W : ℕ) : Set ℕ → List ℕ → ℕ → Prop
  | _, [], _ => False
  | used, x :: ns, n => x = n ∧ Ahead W used n ∨ Jump W (use W used x) ns n

theorem Jump.mem {n : ℕ} : ∀ {ns : List ℕ} {used : Set ℕ}, Jump W used ns n → n ∈ ns
  | [], _, h => h.elim
  | _ :: _, _, .inl ⟨hx, _⟩ => hx ▸ List.mem_cons_self ..
  | _ :: _, _, .inr h => List.mem_cons_of_mem _ h.mem

theorem jump_append {n : ℕ} (ns' : List ℕ) : ∀ (ns : List ℕ) (used : Set ℕ),
    Jump W used (ns ++ ns') n ↔ Jump W used ns n ∨ Jump W (ns.foldl (use W) used) ns' n
  | [], used => by simp [Jump]
  | x :: ns, used => by
    rw [List.cons_append, Jump, Jump, List.foldl_cons, jump_append ns' ns, or_assoc]

theorem valid_append (ns' : List ℕ) : ∀ (ns : List ℕ) (used : Set ℕ),
    Valid W used (ns ++ ns') ↔ Valid W used ns ∧ Valid W (ns.foldl (use W) used) ns'
  | [], used => by simp [Valid]
  | x :: ns, used => by
    rw [List.cons_append, Valid, Valid, List.foldl_cons, valid_append ns' ns, and_assoc]

/-- What a run has used: what was used before, its own numbers, and everything below its jumps. -/
theorem mem_foldl_use {m : ℕ} : ∀ (ns : List ℕ) (used : Set ℕ),
    m ∈ ns.foldl (use W) used ↔ m ∈ used ∨ m ∈ ns ∨ ∃ n, Jump W used ns n ∧ m ≤ n
  | [], used => by simp [Jump]
  | x :: ns, used => by
    rw [List.foldl_cons, mem_foldl_use ns, List.mem_cons]
    constructor
    · rintro ((hm | rfl | ⟨hm, ha⟩) | hm | ⟨n, hn, hm⟩)
      · exact .inl hm
      · exact .inr (.inl (.inl rfl))
      · exact .inr (.inr ⟨x, .inl ⟨rfl, ha⟩, hm⟩)
      · exact .inr (.inl (.inr hm))
      · exact .inr (.inr ⟨n, .inr hn, hm⟩)
    · rintro (hm | (rfl | hm) | ⟨n, ⟨rfl, ha⟩ | hn, hm⟩)
      · exact .inl (.inl hm)
      · exact .inl (.inr (.inl rfl))
      · exact .inr (.inl hm)
      · exact .inl (.inr (.inr ⟨hm, ha⟩))
      · exact .inr (.inr ⟨n, hn, hm⟩)

/-- No number of a valid run was used before it. -/
theorem Valid.notMem {ns : List ℕ} {used : Set ℕ} (h : Valid W used ns) {n : ℕ} (hn : n ∈ ns) : n ∉ used := by
  obtain ⟨pre, post, rfl⟩ := List.append_of_mem hn
  have hfresh := ((valid_append _ _ _).1 h).2.1
  exact fun hu => hfresh ((mem_foldl_use _ _).2 (.inl hu))

/-- After a jump a valid run uses only larger numbers. -/
theorem Valid.lt_of_jump {post : List ℕ} {used : Set ℕ} {n m : ℕ} (h : Valid W used (n :: post))
    (ha : Ahead W used n) (hm : m ∈ post) : n < m := by
  by_contra hle
  exact h.2.notMem hm (.inr (.inr ⟨not_lt.1 hle, ha⟩))

/-- Valid orders of the same numbers jump at the same numbers. -/
theorem Jump.of_perm {used : Set ℕ} {n : ℕ} : ∀ {ns ns' : List ℕ}, ns.Perm ns' → Valid W used ns → Valid W used ns' →
    Jump W used ns n → Jump W used ns' n := by
  -- at the least number with a jump in one order only, the other order has already skipped the
  -- number `b` that made it a jump, and skipped it at a smaller jump
  induction n using Nat.strong_induction_on with
  | _ n ih =>
    intro ns ns' hperm hv hv' hj
    obtain ⟨pre, post, rfl⟩ := List.append_of_mem hj.mem
    obtain ⟨pre', post', rfl⟩ := List.append_of_mem (hperm.subset hj.mem)
    obtain ⟨-, hvn⟩ := (valid_append _ _ _).1 hv
    obtain ⟨-, hvn'⟩ := (valid_append _ _ _).1 hv'
    rw [jump_append] at hj ⊢
    rcases hj with hj | ⟨-, ha⟩ | hj
    · exact absurd ((mem_foldl_use _ _).2 (.inr (.inl hj.mem))) hvn.1
    · by_cases ha' : Ahead W (pre'.foldl (use W) used) n
      · exact .inr (.inl ⟨rfl, ha'⟩)
      have ⟨b, hb, hbn⟩ := ha
      have hb' : b ∈ pre'.foldl (use W) used := by
        by_contra hb'
        exact ha' ⟨b, hb', hbn⟩
      rcases (mem_foldl_use _ _).1 hb' with hbu | hbmem | ⟨m, hm, hbm⟩
      · exact absurd ((mem_foldl_use _ _).2 (.inl hbu)) hb
      · -- `b` would be used in the first order too, but there the jump skips it
        have hbns : b ∈ pre ++ n :: post := hperm.symm.subset (List.mem_append_left _ hbmem)
        rcases List.mem_append.1 hbns with hbpre | hbpost
        · exact absurd ((mem_foldl_use _ _).2 (.inr (.inl hbpre))) hb
        · rcases List.mem_cons.1 hbpost with rfl | hbpost
          · omega
          · have := hvn.lt_of_jump ha hbpost
            omega
      · have hmn : m < n := by
          by_contra hle
          exact hvn'.1 ((mem_foldl_use _ _).2 (.inr (.inr ⟨m, hm, not_lt.1 hle⟩)))
        have hmj := ih m hmn hperm.symm hv' hv ((jump_append _ _ _).2 (.inl hm))
        rcases (jump_append _ _ _).1 hmj with hpre | ⟨rfl, -⟩ | hpost
        · exact absurd ((mem_foldl_use _ _).2 (.inr (.inr ⟨m, hpre, hbm⟩))) hb
        · omega
        · have := hvn.lt_of_jump ha hpost.mem
          omega
    · exact absurd (.inr (.inl rfl)) (hvn.2.notMem hj.mem)

/-- All valid orders of the same numbers end with the same numbers used. -/
theorem foldl_use_perm {used : Set ℕ} {ns ns' : List ℕ} (hperm : ns.Perm ns') (hv : Valid W used ns)
    (hv' : Valid W used ns') : ns.foldl (use W) used = ns'.foldl (use W) used := by
  ext m
  rw [mem_foldl_use, mem_foldl_use, hperm.mem_iff]
  have hjump : ∀ n, Jump W used ns n ↔ Jump W used ns' n := fun n => ⟨.of_perm hperm hv hv', .of_perm hperm.symm hv' hv⟩
  simp only [hjump]

end Window
