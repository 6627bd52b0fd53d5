/-
The explorer's nonce tracking. The wallet predicts an account's nonce state before its transactions
are finalized, with its own `consumeNonce` over unbounded integers. It agrees with the node's
`Nonce::consume` on all pairs of 64-bit words and every 64-bit nonce, also on states no chain reaches.
-/
import Constantinople.Primitives.Nonce

namespace Constantinople

open Word

namespace Explorer

/-! ## The explorer's functions

A `bigint` is a natural number: no value below is ever negative. -/

/-- `MAX_U64`. -/
def maxU64 : Nat := (1 <<< 64) - 1

structure NonceState where
  base : Nat
  bitmap : Nat
deriving DecidableEq, Repr

/-- The `while` loop of `consumeBaseNonce`. -/
def baseAdvanceLoop (bitmap : Nat) : (fuel advance : Nat) → Nat
  | 0, advance => advance
  | fuel + 1, advance =>
    if advance ≤ nonceBitmapCapacity then
      let bit := 1 <<< (advance - 1)
      if bitmap &&& bit = 0 then advance else baseAdvanceLoop bitmap fuel (advance + 1)
    else advance

def consumeBaseNonce (state : NonceState) : Option NonceState :=
  let advance := baseAdvanceLoop state.bitmap nonceBitmapCapacity 1
  let base := state.base + advance
  if base > maxU64 then none
  else
    let bitmap := if advance ≥ nonceBitmapCapacity then 0 else state.bitmap >>> advance
    some ⟨base, bitmap⟩

def consumeNonce (state : NonceState) (nonce : Nat) : Option NonceState :=
  if nonce < state.base then none
  else if nonce > maxU64 then none
  else
    let nextUsedNonce := nonce + 1
    if nextUsedNonce > maxU64 then none
    else
      let delta := nonce - state.base
      if delta = 0 then consumeBaseNonce state
      else if delta > nonceBitmapCapacity then some ⟨nextUsedNonce, 0⟩
      else
        let bit := 1 <<< (delta - 1)
        if state.bitmap &&& bit ≠ 0 then none else some ⟨state.base, state.bitmap ||| bit⟩

/-! ## Agreement with the node -/

/-- The node's state in the explorer's numbers. -/
def NonceState.ofNonce (s : Nonce) : NonceState := ⟨s.base.toNat, s.bitmap.toNat⟩

theorem maxU64_eq : maxU64 = 2 ^ 64 - 1 := rfl

/-- Both languages test the same bit. -/
theorem and_bit_toNat {bitmap : UInt64} {i : Nat} (hi : i < 64) :
    bitmap.toNat &&& 1 <<< i = 0 ↔ bitmap &&& nonceBit i = 0 := by
  rw [← UInt64.toNat_inj, UInt64.toNat_and, nonceBit, toNat_one_shiftLeft hi, Nat.one_shiftLeft, UInt64.toNat_zero]

theorem or_bit_toNat {bitmap : UInt64} {i : Nat} (hi : i < 64) :
    bitmap.toNat ||| 1 <<< i = (bitmap ||| nonceBit i).toNat := by
  rw [UInt64.toNat_or, nonceBit, toNat_one_shiftLeft hi, Nat.one_shiftLeft]

theorem baseAdvanceLoop_eq (bitmap : UInt64) : ∀ fuel advance,
    1 ≤ advance → baseAdvanceLoop bitmap.toNat fuel advance = advanceLoop bitmap fuel advance
  | 0, _, _ => rfl
  | fuel + 1, advance, h1 => by
    rw [baseAdvanceLoop, advanceLoop]
    split
    · rename_i hle
      have hi : advance - 1 < 64 := by simp only [nonceBitmapCapacity] at hle; omega
      simp only [and_bit_toNat hi]
      rw [baseAdvanceLoop_eq bitmap fuel (advance + 1) (by omega)]
    · rfl

theorem consumeBaseNonce_eq (s : Nonce) :
    consumeBaseNonce (.ofNonce s) = (consumeCurrentNonce s.base s.bitmap).map .ofNonce := by
  obtain ⟨-, h65, -⟩ :=
    Nonce.advanceLoop_spec s.bitmap nonceBitmapCapacity 1 le_rfl (by decide) (fun i hi => by omega)
  unfold consumeBaseNonce consumeCurrentNonce
  simp only [NonceState.ofNonce, baseAdvanceLoop_eq s.bitmap nonceBitmapCapacity 1 le_rfl]
  generalize advanceLoop s.bitmap nonceBitmapCapacity 1 = a at h65 ⊢
  have ha : (UInt64.ofNat a).toNat = a := toNat_ofNat (by simp only [nonceBitmapCapacity] at h65; omega)
  have hmax := maxU64_eq
  rcases hadd : checkedAdd s.base (UInt64.ofNat a) with _ | base
  · have hover : ¬ s.base.toNat + a < 2 ^ 64 := by
      intro hlt
      obtain ⟨c, hc, -⟩ := checkedAdd_of_lt (a := s.base) (b := UInt64.ofNat a) (by rwa [ha])
      rw [hadd] at hc; cases hc
    rw [if_pos (by omega)]
    rfl
  · have hbase : base.toNat = s.base.toNat + a := by rw [checkedAdd_eq_some.1 hadd, ha]
    have := base.toNat_lt
    rw [if_neg (by omega)]
    simp only [Option.map_some, NonceState.ofNonce, hbase, ge_iff_le]
    split
    · rfl
    · rename_i hlt
      simp only [nonceBitmapCapacity] at hlt
      rw [UInt64.toNat_shiftRight, ha, Nat.mod_eq_of_lt (by omega)]

theorem consumeNonce_eq (s : Nonce) (nonce : UInt64) :
    consumeNonce (.ofNonce s) nonce.toNat = (nextNonceState s.base s.bitmap nonce).map .ofNonce := by
  have hmax := maxU64_eq
  have hlt := nonce.toNat_lt
  show consumeNonce ⟨s.base.toNat, s.bitmap.toNat⟩ nonce.toNat = _
  unfold consumeNonce nextNonceState
  by_cases hstale : nonce.toNat < s.base.toNat
  · rw [if_pos hstale]
    rcases checkedAdd nonce 1 with _ | next
    · rfl
    · simp [UInt64.lt_iff_toNat_lt, hstale]
  rw [if_neg hstale, if_neg (by omega)]
  rcases hnext : checkedAdd nonce 1 with _ | next
  · have hlast : nonce.toNat + 1 > maxU64 := by
      by_contra hle
      obtain ⟨c, hc, -⟩ := checkedAdd_of_lt (a := nonce) (b := 1) (by rw [UInt64.toNat_one]; omega)
      rw [hnext] at hc; cases hc
    rw [if_pos hlast]
    rfl
  have hval : next.toNat = nonce.toNat + 1 := by simpa using checkedAdd_eq_some.1 hnext
  have := next.toNat_lt
  have hdelta : (nonce - s.base).toNat = nonce.toNat - s.base.toNat :=
    UInt64.toNat_sub_of_le nonce s.base (UInt64.le_iff_toNat_le.2 (not_lt.1 hstale))
  rw [if_neg (by omega)]
  simp only [hdelta, UInt64.lt_iff_toNat_lt, if_neg hstale]
  by_cases h0 : nonce.toNat - s.base.toNat = 0
  · rw [if_pos h0, if_pos h0]
    exact consumeBaseNonce_eq s
  rw [if_neg h0, if_neg h0]
  by_cases hfar : nonceBitmapCapacity < nonce.toNat - s.base.toNat
  · rw [if_pos hfar, if_pos hfar]
    simp [NonceState.ofNonce, hval]
  rw [if_neg hfar, if_neg hfar]
  have hi : nonce.toNat - s.base.toNat - 1 < 64 := by simp only [nonceBitmapCapacity] at hfar; omega
  simp only [ne_eq, and_bit_toNat hi, or_bit_toNat hi]
  split <;> rfl

/-- On every 64-bit state and nonce, `consumeNonce` returns null exactly when `Nonce::consume` returns
false, and otherwise the state the node's call leaves behind. -/
theorem consumeNonce_agrees (base bitmap nonce : UInt64) :
    (consumeNonce ⟨base.toNat, bitmap.toNat⟩ nonce.toNat = none ↔ ((Nonce.mk base bitmap).consume nonce).1 = false) ∧
    ∀ next, consumeNonce ⟨base.toNat, bitmap.toNat⟩ nonce.toNat = some next →
      next = .ofNonce ((Nonce.mk base bitmap).consume nonce).2 := by
  have heq : consumeNonce ⟨base.toNat, bitmap.toNat⟩ nonce.toNat = _ := consumeNonce_eq ⟨base, bitmap⟩ nonce
  rw [heq]
  obtain ⟨s, hn, hs⟩ | ⟨hn, hs⟩ := (Nonce.mk base bitmap).consume_cases nonce
  · rw [hs, hn]
    refine ⟨⟨nofun, nofun⟩, fun next hnext => ?_⟩
    exact (Option.some.inj hnext).symm
  · rw [hs, hn]
    exact ⟨⟨fun _ => rfl, fun _ => rfl⟩, nofun⟩

end Explorer

end Constantinople
