/-
Merging nonce states, as in the explorer's `nonce.ts`. The wallet merges what it has reserved with what the
node reports: it starts from the larger base and replays both bitmaps. No replayed nonce is beyond the
window of the base it meets, so no nonce is skipped, and the merged state has spent what either side has.
-/
import Constantinople.Explorer.Nonce

namespace Constantinople

namespace Explorer

/-! ## The explorer's functions -/

def emptyNonceState : NonceState := ⟨0, 0⟩

def nextAvailableNonce (state : NonceState) : Nat := state.base

/-- The values the generator yields, in order. -/
def consumedBitmapNonces (state : NonceState) (base : Nat) : List Nat :=
  (List.range nonceBitmapCapacity).filterMap fun offset =>
    let bit := 1 <<< offset
    if state.bitmap &&& bit = 0 then none
    else
      let nonce := state.base + offset + 1
      if nonce ≥ base then some nonce else none

/-- `consumeNonce(merged, nonce) ?? merged`. -/
def consumeOrKeep (merged : NonceState) (nonce : Nat) : NonceState := (consumeNonce merged nonce).getD merged

def mergeNonceStates (left right : NonceState) : NonceState :=
  let merged : NonceState := if left.base > right.base then ⟨left.base, 0⟩ else ⟨right.base, 0⟩
  let merged := (consumedBitmapNonces left merged.base).foldl consumeOrKeep merged
  (consumedBitmapNonces right merged.base).foldl consumeOrKeep merged

/-! ## What a state has spent -/

namespace NonceState

/-- The nonces below the base and those whose bit is set. -/
def spent (s : NonceState) : Set ℕ := {n | n < s.base ∨ ∃ i, s.bitmap.testBit i = true ∧ n = s.base + 1 + i}

/-- A state that `consumeNonce` calls lead to. -/
inductive Reachable : NonceState → Prop
  | empty : Reachable emptyNonceState
  | consume {s s' : NonceState} (nonce : Nat) (h : Reachable s) (hs : consumeNonce s nonce = some s') : Reachable s'

/-- A state in the node's words, whose spent nonces have successors there. -/
def Bounded (s : NonceState) : Prop := ∃ t : Nonce, s = ofNonce t ∧ t.Bounded

theorem Reachable.bounded {s : NonceState} (h : s.Reachable) : s.Bounded := by
  induction h with
  | empty => exact ⟨default, rfl, Nonce.bounded_default⟩
  | @consume s s' nonce _ hs ih =>
    obtain ⟨t, rfl, ht⟩ := ih
    have hfits : nonce < 2 ^ 64 := by
      by_contra hge
      have hmax := maxU64_eq
      unfold consumeNonce at hs
      split at hs
      · cases hs
      · rw [if_pos (by omega)] at hs
        cases hs
    have hnext := consumeNonce_eq t (UInt64.ofNat nonce)
    rw [Word.toNat_ofNat hfits, hs] at hnext
    obtain ⟨t', ht', rfl⟩ := Option.map_eq_some_iff.1 hnext.symm
    exact ⟨t', rfl, ht.next ht'⟩

end NonceState

/-! ## The replay -/

/-- Replaying a nonce that is not beyond the window adds it, whether or not it was spent already. -/
theorem consumeOrKeep_spent {s : Nonce} (hs : s.Bounded) {n : Nat} (hwindow : n ≤ s.base.toNat + 64)
    (hmax : n + 1 < 2 ^ 64) :
    ∃ s' : Nonce, consumeOrKeep (.ofNonce s) n = .ofNonce s' ∧ s'.Bounded ∧ s'.spent = s.spent ∪ {n} := by
  have hn : (UInt64.ofNat n).toNat = n := Word.toNat_ofNat (by omega)
  have hconsume := consumeNonce_eq s (UInt64.ofNat n)
  rw [hn] at hconsume
  unfold consumeOrKeep
  rw [hconsume]
  rcases hnext : nextNonceState s.base s.bitmap (UInt64.ofNat n) with _ | s'
  · -- an unspent nonce would have been consumed
    refine ⟨s, rfl, hs, ?_⟩
    have hspent : n ∈ s.spent := by
      by_contra hfresh
      obtain ⟨s', hs'⟩ := hs.nextNonceState_isSome (n := UInt64.ofNat n) (by rwa [hn]) (by rwa [hn])
      rw [hnext] at hs'
      cases hs'
    exact (Set.union_eq_left.2 (Set.singleton_subset_iff.2 hspent)).symm
  · obtain ⟨-, -, hspent⟩ := Nonce.nextNonceState_spec hnext
    refine ⟨s', rfl, hs.next hnext, ?_⟩
    ext m
    rw [Nonce.mem_spent, hspent, hn, if_pos hwindow]
    rfl

theorem base_le_of_spent_subset {s s' : Nonce} (h : s.spent ⊆ s'.spent) : s.base.toNat ≤ s'.base.toNat :=
  s.isLeast_base.2 fun hmem => s'.not_spent_base (h hmem)

/-- Nonces that all lie in the window of the base at the start are all added. -/
theorem foldl_consumeOrKeep {ns : List Nat} : ∀ {s : Nonce}, s.Bounded →
    (∀ n ∈ ns, n ≤ s.base.toNat + 64 ∧ n + 1 < 2 ^ 64) →
    ∃ s' : Nonce, ns.foldl consumeOrKeep (.ofNonce s) = .ofNonce s' ∧ s'.Bounded ∧ s'.spent = s.spent ∪ {n | n ∈ ns} := by
  induction ns with
  | nil =>
    intro s hs _
    exact ⟨s, rfl, hs, by simp⟩
  | cons n ns ih =>
    intro s hs hns
    obtain ⟨⟨hwindow, hmax⟩, hrest⟩ := List.forall_mem_cons.1 hns
    obtain ⟨s₁, hs₁, hbounded, hspent₁⟩ := consumeOrKeep_spent hs hwindow hmax
    -- the base only moves up, so the rest stays in its window
    have hbase : s.base.toNat ≤ s₁.base.toNat :=
      base_le_of_spent_subset (by rw [hspent₁]; exact Set.subset_union_left)
    obtain ⟨s', hs', hbounded', hspent'⟩ := ih hbounded fun m hm => ⟨by have := (hrest m hm).1; omega, (hrest m hm).2⟩
    refine ⟨s', ?_, hbounded', ?_⟩
    · rw [List.foldl_cons, hs₁, hs']
    · rw [hspent', hspent₁]
      ext m
      simp only [Set.mem_union, Set.mem_singleton_iff, Set.mem_ofPred_eq, List.mem_cons, or_assoc]

theorem and_bit_eq_zero_iff {s : Nonce} {i : Nat} (hi : i < 64) :
    (NonceState.ofNonce s).bitmap &&& 1 <<< i = 0 ↔ s.base.toNat + 1 + i ∉ s.spent := by
  show s.bitmap.toNat &&& 1 <<< i = 0 ↔ _
  rw [and_bit_toNat hi, nonceBit, Word.and_bit_eq_zero hi, Nonce.mem_spent, ← Nonce.testBit_bitmap, Bool.not_eq_true]

/-- The nonces of the set bits that are not below the base. -/
theorem mem_consumedBitmapNonces {s : Nonce} {base n : Nat} :
    n ∈ consumedBitmapNonces (.ofNonce s) base ↔ (n ∈ s.spent ∧ s.base.toNat ≤ n) ∧ base ≤ n := by
  unfold consumedBitmapNonces
  simp only [List.mem_filterMap, List.mem_range]
  constructor
  · rintro ⟨i, hi, hn⟩
    split at hn
    · cases hn
    rename_i hbit
    rw [and_bit_eq_zero_iff hi, not_not] at hbit
    split at hn
    · rename_i hbase
      obtain rfl : s.base.toNat + i + 1 = n := Option.some.inj hn
      rw [show s.base.toNat + i + 1 = s.base.toNat + 1 + i by omega]
      exact ⟨⟨hbit, by omega⟩, by rw [show s.base.toNat + 1 + i = s.base.toNat + i + 1 by omega]; exact hbase⟩
    · cases hn
  · rintro ⟨⟨hspent, hle⟩, hbase⟩
    have hwindow := Nonce.Spent.lt_window hspent
    have hne : n ≠ s.base.toNat := by
      rintro rfl
      exact s.not_spent_base hspent
    obtain ⟨i, rfl⟩ : ∃ i, n = s.base.toNat + 1 + i := ⟨n - s.base.toNat - 1, by omega⟩
    have hi : i < 64 := by omega
    have hnonce : (NonceState.ofNonce s).base + i + 1 = s.base.toNat + 1 + i := by
      show s.base.toNat + i + 1 = _
      omega
    refine ⟨i, hi, ?_⟩
    rw [if_neg (mt (and_bit_eq_zero_iff hi).1 (not_not.2 hspent)), hnonce, if_pos hbase]

/-! ## Merging -/

/-- Where the merge starts: everything below the larger base is spent. -/
theorem exists_larger_base {l r : Nonce} (hl : l.Bounded) (hr : r.Bounded) :
    ∃ s : Nonce, (if (NonceState.ofNonce l).base > (NonceState.ofNonce r).base then
        (⟨(NonceState.ofNonce l).base, 0⟩ : NonceState) else ⟨(NonceState.ofNonce r).base, 0⟩) = .ofNonce s ∧ s.Bounded ∧
      s.spent = {n | n < l.base.toNat ∨ n < r.base.toNat} ∧ l.base.toNat ≤ s.base.toNat ∧ r.base.toNat ≤ s.base.toNat := by
  have hspent : ∀ base : UInt64, (⟨base, 0⟩ : Nonce).spent = {n | n < base.toNat} := by
    intro base
    ext m
    simp [Nonce.spent, Nonce.Spent]
  have hbounded : ∀ t : Nonce, t.Bounded → (⟨t.base, 0⟩ : Nonce).Bounded := by
    rintro t ht m hm
    rw [← Nonce.mem_spent, hspent] at hm
    exact ht m (.inl hm)
  by_cases hlt : r.base.toNat < l.base.toNat
  · refine ⟨⟨l.base, 0⟩, if_pos hlt, hbounded l hl, ?_, le_rfl, hlt.le⟩
    rw [hspent]
    ext m
    simp only [Set.mem_ofPred_eq]
    omega
  · refine ⟨⟨r.base, 0⟩, if_neg hlt, hbounded r hr, ?_, not_lt.1 hlt, le_rfl⟩
    rw [hspent]
    ext m
    simp only [Set.mem_ofPred_eq]
    omega

/-- The nonces replayed from one side lie in the window of every base that is not below its own. -/
theorem replay_side {s t : Nonce} (hs : s.Bounded) (ht : t.Bounded) (hbase : t.base.toNat ≤ s.base.toNat) :
    ∃ s' : Nonce, (consumedBitmapNonces (.ofNonce t) (NonceState.ofNonce s).base).foldl consumeOrKeep (.ofNonce s) =
      .ofNonce s' ∧ s'.Bounded ∧ s'.spent = s.spent ∪ t.spent := by
  have hwindow : ∀ n ∈ consumedBitmapNonces (.ofNonce t) (NonceState.ofNonce s).base,
      n ≤ s.base.toNat + 64 ∧ n + 1 < 2 ^ 64 := by
    intro n hn
    obtain ⟨⟨hspent, -⟩, -⟩ := mem_consumedBitmapNonces.1 hn
    have hlt := Nonce.Spent.lt_window hspent
    exact ⟨by omega, ht n hspent⟩
  obtain ⟨s', hs', hbounded, hspent⟩ := foldl_consumeOrKeep hs hwindow
  refine ⟨s', hs', hbounded, hspent.trans ?_⟩
  ext m
  simp only [Set.mem_union, Set.mem_ofPred_eq, mem_consumedBitmapNonces]
  constructor
  · rintro (hm | ⟨⟨hm, -⟩, -⟩)
    · exact .inl hm
    · exact .inr hm
  · rintro (hm | hm)
    · exact .inl hm
    · -- below the base of `s` it is spent already
      by_cases hlt : m < s.base.toNat
      · exact .inl (.inl hlt)
      · exact .inr ⟨⟨hm, by omega⟩, not_lt.1 hlt⟩

theorem mergeNonceStates_spent {l r : Nonce} (hl : l.Bounded) (hr : r.Bounded) :
    ∃ s : Nonce, mergeNonceStates (.ofNonce l) (.ofNonce r) = .ofNonce s ∧ s.Bounded ∧ s.spent = l.spent ∪ r.spent := by
  obtain ⟨s₀, hs₀, hbounded₀, hspent₀, hl₀, hr₀⟩ := exists_larger_base hl hr
  obtain ⟨s₁, hs₁, hbounded₁, hspent₁⟩ := replay_side hbounded₀ hl hl₀
  have hbase : s₀.base.toNat ≤ s₁.base.toNat :=
    base_le_of_spent_subset (by rw [hspent₁]; exact Set.subset_union_left)
  obtain ⟨s₂, hs₂, hbounded₂, hspent₂⟩ := replay_side hbounded₁ hr (hr₀.trans hbase)
  refine ⟨s₂, ?_, hbounded₂, ?_⟩
  · unfold mergeNonceStates
    simp only [hs₀, hs₁, hs₂]
  · rw [hspent₂, hspent₁, hspent₀]
    ext m
    simp only [Set.mem_union, Set.mem_ofPred_eq]
    constructor
    · rintro (((hm | hm) | hm) | hm)
      · exact .inl (.inl hm)
      · exact .inr (.inl hm)
      · exact .inl hm
      · exact .inr hm
    · rintro (hm | hm)
      · exact .inl (.inr hm)
      · exact .inr hm

theorem ofNonce_eq_of_spent {s t : Nonce} (h : s.spent = t.spent) : NonceState.ofNonce s = .ofNonce t := by
  rw [Nonce.eq_of_spent_eq h]

/-- The merge of two reachable states has spent what either has. Its base is the least nonce that neither
has spent, which is the one the wallet takes next, and its bitmap fits 64 bits. So merging is commutative,
idempotent and associative. -/
theorem mergeNonceStates_union {l r : NonceState} (hleft : l.Reachable) (hright : r.Reachable) :
    (mergeNonceStates l r).spent = l.spent ∪ r.spent ∧
    IsLeast (l.spent ∪ r.spent)ᶜ (mergeNonceStates l r).base ∧ (mergeNonceStates l r).bitmap < 2 ^ 64 ∧
    mergeNonceStates l r = mergeNonceStates r l ∧ mergeNonceStates l l = l ∧
    (∀ t, t.Reachable → mergeNonceStates (mergeNonceStates l r) t = mergeNonceStates l (mergeNonceStates r t)) ∧
    nextAvailableNonce (mergeNonceStates l r) ∉ l.spent ∧ nextAvailableNonce (mergeNonceStates l r) ∉ r.spent := by
  obtain ⟨l, rfl, hl⟩ := hleft.bounded
  obtain ⟨r, rfl, hr⟩ := hright.bounded
  obtain ⟨s, hs, hbounded, hspent⟩ := mergeNonceStates_spent hl hr
  have hleast : IsLeast (l.spent ∪ r.spent)ᶜ s.base.toNat := hspent ▸ s.isLeast_base
  rw [hs]
  refine ⟨hspent, hleast, s.bitmap.toNat_lt, ?_, ?_, ?_, ?_, ?_⟩
  · obtain ⟨s', hs', -, hspent'⟩ := mergeNonceStates_spent hr hl
    rw [hs']
    apply ofNonce_eq_of_spent
    rw [hspent, hspent', Set.union_comm]
  · obtain ⟨s', hs', -, hspent'⟩ := mergeNonceStates_spent hl hl
    rw [hs']
    apply ofNonce_eq_of_spent
    rw [hspent', Set.union_self]
  · rintro t hreachable
    obtain ⟨t, rfl, ht⟩ := hreachable.bounded
    obtain ⟨outer, houter, -, houterSpent⟩ := mergeNonceStates_spent hbounded ht
    obtain ⟨inner, hinner, hinnerBounded, hinnerSpent⟩ := mergeNonceStates_spent hr ht
    obtain ⟨whole, hwhole, -, hwholeSpent⟩ := mergeNonceStates_spent hl hinnerBounded
    rw [houter, hinner, hwhole]
    apply ofNonce_eq_of_spent
    rw [houterSpent, hspent, hwholeSpent, hinnerSpent, Set.union_assoc]
  · exact fun hmem => hleast.1 (.inl hmem)
  · exact fun hmem => hleast.1 (.inr hmem)

/-- Two windows that complete each other: nonces 0 and 2 on one side, 1 and 3 on the other. -/
theorem mergeNonceStates_union_sample :
    mergeNonceStates ⟨1, 1⟩ ⟨0, 5⟩ = ⟨4, 0⟩ ∧
    (mergeNonceStates ⟨1, 1⟩ ⟨0, 5⟩).spent = (⟨1, 1⟩ : NonceState).spent ∪ (⟨0, 5⟩ : NonceState).spent := by
  have hl : (⟨1, 1⟩ : NonceState).Reachable := .consume 2 (.consume 0 .empty rfl) rfl
  have hr : (⟨0, 5⟩ : NonceState).Reachable := .consume 3 (.consume 1 .empty rfl) rfl
  exact ⟨by decide, (mergeNonceStates_union hl hr).1⟩

end Explorer

end Constantinople
