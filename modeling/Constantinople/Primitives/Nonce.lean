/-
What a nonce state records. The spent nonces of a state are those below the base and those whose
run-ahead bit is set. Consuming a nonce succeeds only on an unspent nonce, and adds it to the spent
ones: exactly it inside the run-ahead window, and everything up to it beyond the window. These facts
hold in every state, reachable or not. In the states reached from the default by consuming nonces the
converse holds too: every unspent nonce but the maximum can be consumed.
-/
import Constantinople.Lib.Window
import Constantinople.Primitives.Account

namespace Constantinople

open Word

namespace Nonce

/-- The nonces a state has used: below `base`, or recorded in the run-ahead bitmap. -/
def Spent (s : Nonce) (n : Nat) : Prop :=
  n < s.base.toNat ∨ ∃ i, s.bitmap.toNat.testBit i = true ∧ n = s.base.toNat + 1 + i

/-! ## The compaction loop -/

/-- The loop stops at the first clear bit, or one past the last bit, before its fuel runs out. -/
theorem advanceLoop_spec (bitmap : UInt64) :
    ∀ (fuel advance : Nat), 1 ≤ advance → advance + fuel = nonceBitmapCapacity + 1 →
      (∀ i, i + 1 < advance → bitmap.toNat.testBit i = true) →
      let a := advanceLoop bitmap fuel advance
      1 ≤ a ∧ a ≤ nonceBitmapCapacity + 1 ∧ (∀ i, i + 1 < a → bitmap.toNat.testBit i = true) ∧
        bitmap.toNat.testBit (a - 1) = false
  | 0, advance, h1, hf, hset => by
    simp only [advanceLoop]
    refine ⟨h1, by omega, hset, testBit_of_ge bitmap ?_⟩
    simp only [nonceBitmapCapacity] at hf; omega
  | fuel + 1, advance, h1, hf, hset => by
    have hle : advance ≤ nonceBitmapCapacity := by omega
    have hlt : advance - 1 < 64 := by simp only [nonceBitmapCapacity] at hle; omega
    simp only [advanceLoop, if_pos hle]
    split
    · rename_i hbit
      exact ⟨h1, by omega, hset, (and_bit_eq_zero hlt).1 hbit⟩
    · rename_i hbit
      refine advanceLoop_spec bitmap fuel (advance + 1) (by omega) (by omega) fun i hi => ?_
      -- the bit just tested is set, the lower ones were set before
      by_cases hia : i + 1 < advance
      · exact hset i hia
      · have : i = advance - 1 := by omega
        subst this
        rw [nonceBit, and_bit_eq_zero hlt, Bool.not_eq_false] at hbit
        exact hbit

/-- What consuming the base does: the base moves past the contiguous used prefix, and the spent
nonces are the old ones and the base. -/
theorem consumeCurrentNonce_spec {base bitmap : UInt64} {s : Nonce}
    (h : consumeCurrentNonce base bitmap = some s) (m : Nat) :
    s.Spent m ↔ (⟨base, bitmap⟩ : Nonce).Spent m ∨ m = base.toNat := by
  obtain ⟨h1, h65, hset, hclear⟩ :=
    advanceLoop_spec bitmap nonceBitmapCapacity 1 le_rfl (by decide) (fun i hi => by omega)
  unfold consumeCurrentNonce at h
  generalize advanceLoop bitmap nonceBitmapCapacity 1 = a at h h1 h65 hset hclear
  have hcap : nonceBitmapCapacity = 64 := rfl
  rcases hn : checkedAdd base (UInt64.ofNat a) with _ | next
  · simp only [hn] at h; cases h
  · simp only [hn] at h
    cases h
    have hbase : next.toNat = base.toNat + a := by
      rw [checkedAdd_eq_some.1 hn, toNat_ofNat (by omega)]
    -- bit `i` of the new bitmap is bit `a + i` of the old one, also when nothing is left of it
    have hbits : ∀ i, (if nonceBitmapCapacity ≤ a then (0 : UInt64) else bitmap >>> UInt64.ofNat a).toNat.testBit i
        = bitmap.toNat.testBit (a + i) := by
      intro i
      split
      · rw [testBit_of_ge bitmap (by omega)]; simp
      · exact testBit_shiftRight (by omega) i
    unfold Spent
    simp only [hbits, hbase]
    constructor
    · rintro (hm | ⟨i, hi, rfl⟩)
      · by_cases hlt : m < base.toNat
        · exact .inl (.inl hlt)
        · by_cases heq : m = base.toNat
          · exact .inr heq
          · exact .inl (.inr ⟨m - base.toNat - 1, hset _ (by omega), by omega⟩)
      · exact .inl (.inr ⟨a + i, hi, by omega⟩)
    · rintro ((hm | ⟨j, hj, rfl⟩) | rfl)
      · exact .inl (by omega)
      · by_cases hlt : j + 1 < a
        · exact .inl (by omega)
        · have hne : j ≠ a - 1 := by rintro rfl; rw [hclear] at hj; cases hj
          exact .inr ⟨j - a, by rwa [Nat.add_sub_cancel' (by omega)], by omega⟩
      · exact .inl (by omega)

/-! ## Consuming a nonce -/

/-- Inside the window a consumed nonce joins the spent ones; beyond it everything up to it does.
Only an unspent nonce below the maximum is consumed. -/
theorem nextNonceState_spec {base bitmap n : UInt64} {s : Nonce} (h : nextNonceState base bitmap n = some s) :
    ¬ (⟨base, bitmap⟩ : Nonce).Spent n.toNat ∧ n.toNat + 1 < 2 ^ 64 ∧
    ∀ m, s.Spent m ↔ if n.toNat ≤ base.toNat + 64 then (⟨base, bitmap⟩ : Nonce).Spent m ∨ m = n.toNat
      else m ≤ n.toNat := by
  unfold nextNonceState at h
  rcases hn : checkedAdd n 1 with _ | next
  · rw [hn] at h; cases h
  rw [hn] at h
  have hnext : next.toNat = n.toNat + 1 := by simpa using checkedAdd_eq_some.1 hn
  have hmax : n.toNat + 1 < 2 ^ 64 := by have := next.toNat_lt; omega
  simp only at h
  split at h
  · cases h
  rename_i hle
  have hle : base.toNat ≤ n.toNat := by rw [UInt64.lt_iff_toNat_lt] at hle; omega
  have hdelta : (n - base).toNat = n.toNat - base.toNat := UInt64.toNat_sub_of_le n base (UInt64.le_iff_toNat_le.2 hle)
  simp only [hdelta, nonceBitmapCapacity] at h
  split at h
  · -- the base itself
    rename_i h0
    have heq : n.toNat = base.toNat := by omega
    refine ⟨?_, hmax, fun m => ?_⟩
    · rintro (hlt | ⟨i, -, hi⟩)
      · simp only at hlt; omega
      · simp only at hi; omega
    · rw [if_pos (by omega), consumeCurrentNonce_spec h, heq]
  · split at h
    · -- beyond the window
      rename_i h0 hfar
      cases h
      refine ⟨?_, hmax, fun m => ?_⟩
      · rintro (hlt | ⟨i, hi, hni⟩)
        · simp only at hlt; omega
        · simp only at hi hni
          rw [testBit_of_ge bitmap (by omega)] at hi; cases hi
      · rw [if_neg (by omega)]
        simp only [Spent, hnext, UInt64.toNat_zero, Nat.zero_testBit, Bool.false_eq_true, false_and, exists_false,
          or_false]
        omega
    · -- inside the window
      rename_i h0 hnear
      have hi : n.toNat - base.toNat - 1 < 64 := by omega
      split at h
      · cases h
      · rename_i hclear
        rw [nonceBit, not_not, and_bit_eq_zero hi] at hclear
        cases h
        refine ⟨?_, hmax, fun m => ?_⟩
        · rintro (hlt | ⟨i, hset, hni⟩)
          · simp only at hlt; omega
          · simp only at hset hni
            rw [show i = n.toNat - base.toNat - 1 by omega, hclear] at hset; cases hset
        · rw [if_pos (by omega)]
          simp only [Spent, nonceBit, testBit_or_bit hi, Bool.or_eq_true, decide_eq_true_eq]
          constructor
          · rintro (hlt | ⟨i, hset | rfl, rfl⟩)
            · exact .inl (.inl hlt)
            · exact .inl (.inr ⟨i, hset, rfl⟩)
            · exact .inr (by omega)
          · rintro ((hlt | ⟨i, hset, rfl⟩) | rfl)
            · exact .inl hlt
            · exact .inr ⟨i, .inl hset, rfl⟩
            · exact .inr ⟨_, .inr rfl, by omega⟩

/-- Nonces taken in order leave the bitmap empty. -/
theorem nextNonceState_base {base : UInt64} (h : base.toNat + 1 < 2 ^ 64) :
    nextNonceState base 0 base = some ⟨base + 1, 0⟩ := by
  have hnext : checkedAdd base 1 = some (base + 1) := if_pos (by simpa using h)
  have hadvance : advanceLoop 0 64 1 = 1 := rfl
  unfold nextNonceState consumeCurrentNonce
  simp [hnext, hadvance, nonceBitmapCapacity]

theorem Spent.lt_window {s : Nonce} {n : Nat} (h : s.Spent n) : n ≤ s.base.toNat + 64 := by
  rcases h with h | ⟨i, hi, rfl⟩
  · omega
  · by_contra hc
    rw [testBit_of_ge s.bitmap (by omega)] at hi; cases hi

/-- A consumed nonce was not spent before, is spent after, and no spent nonce is forgotten. -/
theorem nextNonceState_spent {s s' : Nonce} {n : UInt64} (h : nextNonceState s.base s.bitmap n = some s') :
    ¬ s.Spent n.toNat ∧ s'.Spent n.toNat ∧ ∀ m, s.Spent m → s'.Spent m := by
  obtain ⟨hfresh, -, hspent⟩ := nextNonceState_spec h
  refine ⟨hfresh, (hspent _).2 ?_, fun m hm => (hspent m).2 ?_⟩
  · split
    · exact .inr rfl
    · exact le_rfl
  · split
    · exact .inl hm
    · have := hm.lt_window; omega

/-! ## The spent set -/

/-- The spent nonces as a set. -/
def spent (s : Nonce) : Set ℕ := {m | s.Spent m}

@[simp] theorem mem_spent {s : Nonce} {m : ℕ} : m ∈ s.spent ↔ s.Spent m := Iff.rfl

theorem not_spent_base (s : Nonce) : ¬ s.Spent s.base.toNat := by
  rintro (h | ⟨i, -, h⟩) <;> omega

theorem isLeast_base (s : Nonce) : IsLeast s.spentᶜ s.base.toNat := by
  constructor
  · exact s.not_spent_base
  · intro m hm
    by_contra hlt
    exact hm (.inl (not_le.1 hlt))

/-- Bit `i` of the bitmap is the nonce `base + 1 + i`. -/
theorem testBit_bitmap (s : Nonce) (i : ℕ) : s.bitmap.toNat.testBit i = true ↔ s.Spent (s.base.toNat + 1 + i) := by
  constructor
  · intro hi
    exact .inr ⟨i, hi, rfl⟩
  · rintro (hlt | ⟨j, hj, hij⟩)
    · omega
    · rwa [show i = j by omega]

/-- A state is determined by what it has spent. -/
theorem eq_of_spent_eq {s t : Nonce} (h : s.spent = t.spent) : s = t := by
  have hbase : s.base.toNat = t.base.toNat := (h ▸ s.isLeast_base).unique t.isLeast_base
  have hbits : s.bitmap.toNat = t.bitmap.toNat := by
    refine Nat.eq_of_testBit_eq fun i => ?_
    rw [Bool.eq_iff_iff, testBit_bitmap, testBit_bitmap, hbase, ← mem_spent, ← mem_spent, h]
  cases s
  cases t
  simpa [UInt64.toNat_inj] using And.intro hbase hbits

theorem ahead_spent {s : Nonce} {n : ℕ} : Window.Ahead 64 s.spent n ↔ s.base.toNat + 64 < n := by
  constructor
  · rintro ⟨b, hb, hn⟩
    have := s.isLeast_base.2 hb
    omega
  · intro hn
    exact ⟨_, s.not_spent_base, hn⟩

/-- Consuming a nonce uses a number in the window of the spent ones. -/
theorem nextNonceState_use {s s' : Nonce} {n : UInt64} (h : nextNonceState s.base s.bitmap n = some s') :
    n.toNat ∉ s.spent ∧ s'.spent = Window.use 64 s.spent n.toNat := by
  obtain ⟨hfresh, -, hspent⟩ := nextNonceState_spec h
  refine ⟨hfresh, Set.ext fun m => ?_⟩
  rw [mem_spent, hspent]
  simp only [Window.use, Set.mem_ofPred_eq, ahead_spent, mem_spent]
  split
  · rename_i hnear
    have hnot : ¬ s.base.toNat + 64 < n.toNat := by omega
    simp [hnot]
  · rename_i hfar
    constructor
    · intro hm
      exact .inr (.inr ⟨hm, by omega⟩)
    · rintro (hm | rfl | ⟨hm, -⟩)
      · have := hm.lt_window
        omega
      · exact le_rfl
      · exact hm

/-! ## Reachable states -/

/-- Every spent nonce has a successor in `u64`. -/
def Bounded (s : Nonce) : Prop := ∀ m, s.Spent m → m + 1 < 2 ^ 64

/-- The state after a sequence of `consume` calls on the default state. -/
def consumeAll (ns : List UInt64) : Nonce := ns.foldl (fun s n => (s.consume n).2) default

/-- A call returns whether there is a next state, and moves to it. -/
theorem consume_cases (s : Nonce) (n : UInt64) :
    (∃ s', nextNonceState s.base s.bitmap n = some s' ∧ s.consume n = (true, s')) ∨
      (nextNonceState s.base s.bitmap n = none ∧ s.consume n = (false, s)) := by
  unfold Nonce.consume
  cases nextNonceState s.base s.bitmap n with
  | none => exact .inr ⟨rfl, rfl⟩
  | some s' => exact .inl ⟨s', rfl, rfl⟩

theorem Bounded.next {s s' : Nonce} (h : s.Bounded) {n : UInt64} (hn : nextNonceState s.base s.bitmap n = some s') :
    s'.Bounded := by
  obtain ⟨-, hmax, hspent⟩ := nextNonceState_spec hn
  intro m hm
  have hm := (hspent m).1 hm
  split at hm
  · rcases hm with hm | rfl
    · exact h m hm
    · exact hmax
  · omega

theorem Bounded.consume {s : Nonce} (h : s.Bounded) (n : UInt64) : (s.consume n).2.Bounded := by
  obtain ⟨s', hn, hs⟩ | ⟨-, hs⟩ := s.consume_cases n
  · rw [hs]
    exact h.next hn
  · rwa [hs]

theorem bounded_default : Bounded default := by
  rintro m (hm | ⟨i, hi, -⟩)
  · exact absurd hm (Nat.not_lt_zero m)
  · simp [default] at hi

theorem bounded_consumeAll (ns : List UInt64) : (consumeAll ns).Bounded :=
  List.foldlRecOn ns _ bounded_default fun _ hs n _ => hs.consume n

/-- The base moves past spent nonces only, so not beyond `u64`. -/
theorem Bounded.base_add_advance {s : Nonce} (h : s.Bounded) (hbase : s.base.toNat + 1 < 2 ^ 64) :
    s.base.toNat + advanceLoop s.bitmap nonceBitmapCapacity 1 < 2 ^ 64 := by
  obtain ⟨h1, -, hset, -⟩ :=
    advanceLoop_spec s.bitmap nonceBitmapCapacity 1 le_rfl (by decide) (fun i hi => by omega)
  generalize advanceLoop s.bitmap nonceBitmapCapacity 1 = a at h1 hset ⊢
  by_cases ha : a = 1
  · rwa [ha]
  · have := h _ ((s.testBit_bitmap (a - 2)).1 (hset _ (by omega)))
    omega

theorem Bounded.checkedAdd_advance {s : Nonce} (h : s.Bounded) (hbase : s.base.toNat + 1 < 2 ^ 64) :
    ∃ next, checkedAdd s.base (UInt64.ofNat (advanceLoop s.bitmap nonceBitmapCapacity 1)) = some next := by
  have hlt := h.base_add_advance hbase
  refine ⟨UInt64.ofNat (s.base.toNat + advanceLoop s.bitmap nonceBitmapCapacity 1), checkedAdd_eq_some.2 ?_⟩
  rw [toNat_ofNat hlt, toNat_ofNat (by omega)]

/-- An unspent nonce below the maximum is consumed. -/
theorem Bounded.nextNonceState_isSome {s : Nonce} (h : s.Bounded) {n : UInt64} (hfresh : ¬ s.Spent n.toNat)
    (hmax : n.toNat + 1 < 2 ^ 64) : ∃ s', nextNonceState s.base s.bitmap n = some s' := by
  have hle : s.base.toNat ≤ n.toNat := s.isLeast_base.2 hfresh
  have hdelta : (n - s.base).toNat = n.toNat - s.base.toNat :=
    UInt64.toNat_sub_of_le n s.base (UInt64.le_iff_toNat_le.2 hle)
  obtain ⟨next, hnext⟩ : ∃ next, checkedAdd n 1 = some next :=
    ⟨UInt64.ofNat (n.toNat + 1), checkedAdd_eq_some.2 (by rw [toNat_ofNat hmax]; rfl)⟩
  have hnlt : ¬ n < s.base := by rw [UInt64.lt_iff_toNat_lt]; omega
  unfold nextNonceState
  simp only [hnext, if_neg hnlt, hdelta, nonceBitmapCapacity]
  by_cases h0 : n.toNat - s.base.toNat = 0
  · obtain ⟨base, hbase⟩ := h.checkedAdd_advance (by omega)
    rw [if_pos h0]
    unfold consumeCurrentNonce
    simp only [hbase]
    exact ⟨_, rfl⟩
  rw [if_neg h0]
  by_cases hfar : 64 < n.toNat - s.base.toNat
  · exact ⟨_, if_pos hfar⟩
  rw [if_neg hfar]
  have hi : n.toNat - s.base.toNat - 1 < 64 := by omega
  have hclear : s.bitmap.toNat.testBit (n.toNat - s.base.toNat - 1) = false := by
    rw [← Bool.not_eq_true, testBit_bitmap, show s.base.toNat + 1 + (n.toNat - s.base.toNat - 1) = n.toNat by omega]
    exact hfresh
  exact ⟨_, if_neg (not_not.2 ((and_bit_eq_zero hi).2 hclear))⟩

/-- The meaning of the nonce bitmap in every state reached from the default one: a nonce is consumed
iff it is unspent and not the maximum, nothing else changes the state, and the addition that moves
the base never overflows where it is reached. -/
theorem consume_exact (ns : List UInt64) (n : UInt64) :
    (((consumeAll ns).consume n).1 = true ↔ n.toNat ∉ (consumeAll ns).spent ∧ n.toNat ≠ 2 ^ 64 - 1) ∧
    (((consumeAll ns).consume n).1 = false → ((consumeAll ns).consume n).2 = consumeAll ns) ∧
    (((consumeAll ns).consume n).1 = true → ((consumeAll ns).consume n).2.spent =
      if n.toNat ≤ (consumeAll ns).base.toNat + 64 then (consumeAll ns).spent ∪ {n.toNat} else {m | m ≤ n.toNat}) ∧
    IsLeast (consumeAll ns).spentᶜ (consumeAll ns).base.toNat ∧
    (∀ m ∈ (consumeAll ns).spent, m ≤ 2 ^ 64 - 1 - 1) ∧
    (checkedAdd n 1 ≠ none → n = (consumeAll ns).base → checkedAdd (consumeAll ns).base
      (UInt64.ofNat (advanceLoop (consumeAll ns).bitmap nonceBitmapCapacity 1)) ≠ none) := by
  have hb := bounded_consumeAll ns
  generalize consumeAll ns = s at hb ⊢
  have hlt := n.toNat_lt
  refine ⟨?_, ?_, ?_, s.isLeast_base, fun m hm => ?_, ?_⟩
  · constructor
    · intro hc
      obtain ⟨s', hn, -⟩ | ⟨-, hs⟩ := s.consume_cases n
      · obtain ⟨hfresh, hmax, -⟩ := nextNonceState_spec hn
        exact ⟨hfresh, by omega⟩
      · rw [hs] at hc; cases hc
    · rintro ⟨hfresh, hmax⟩
      obtain ⟨s', hs'⟩ := hb.nextNonceState_isSome hfresh (by omega)
      simp [Nonce.consume, hs']
  · intro hc
    obtain ⟨s', -, hs⟩ | ⟨-, hs⟩ := s.consume_cases n
    · rw [hs] at hc; cases hc
    · rw [hs]
  · intro hc
    obtain ⟨s', hn, hs⟩ | ⟨-, hs⟩ := s.consume_cases n
    · obtain ⟨-, -, hspent⟩ := nextNonceState_spec hn
      rw [hs]
      ext m
      rw [mem_spent, hspent]
      split <;> rfl
    · rw [hs] at hc; cases hc
  · have := hb m hm
    omega
  · intro hnext hbase
    obtain ⟨next, hnext⟩ := Option.ne_none_iff_exists'.1 hnext
    have hmax : n.toNat + 1 = next.toNat := by simpa using (checkedAdd_eq_some.1 hnext).symm
    have := next.toNat_lt
    obtain ⟨base, hadd⟩ := hb.checkedAdd_advance (by rw [← hbase]; omega)
    rw [hadd]
    simp

end Nonce

end Constantinople
