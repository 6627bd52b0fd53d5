/-
Execution does not depend on the order of a body's transfers, as long as it succeeds. The balance of
an account is its old balance, less what it sent, plus what it received. Its nonce state records the
numbers used in the run-ahead window, and all orders in which every nonce was unspent at its turn use
the same numbers.
-/
import Constantinople.Executor.Safety

namespace Constantinople

open Run

variable {D : Type}

/-- What the transfers take from an account, in total. -/
def sentBy (k : AccountKey) (ts : List (PreparedTransfer D)) : ℕ :=
  (ts.map fun t => if k = t.sender then t.value.toNat else 0).sum

/-- What the transfers pay to an account, in total. -/
def receivedBy (k : AccountKey) (ts : List (PreparedTransfer D)) : ℕ :=
  (ts.map fun t => if k = t.recipient then t.value.toNat else 0).sum

/-- The nonces of the transfers an account sends, in order. -/
def noncesOf (k : AccountKey) (ts : List (PreparedTransfer D)) : List ℕ :=
  (ts.filter fun t => t.sender = k).map fun t => t.nonce.toNat

namespace Ledger

theorem run_balance {L L' : Ledger} {ts : List (PreparedTransfer D)} (h : run step L ts = some L') (k : AccountKey) :
    (L' k).balance.toNat + sentBy k ts = (L k).balance.toNat + receivedBy k ts := by
  induction ts generalizing L with
  | nil => cases h; rfl
  | cons t ts ih =>
    obtain ⟨M, hM, h⟩ := run_cons.1 h
    have hrest := ih h
    have hstep := (step_moves hM).balance k
    simp only [sentBy, receivedBy, List.map_cons, List.sum_cons] at hrest ⊢
    simp only at hstep
    omega

/-- A run uses the sender's nonces in the window of the spent ones, one after the other. -/
theorem run_nonces {L L' : Ledger} {ts : List (PreparedTransfer D)} (h : run step L ts = some L') (k : AccountKey) :
    Window.Valid 64 (L k).nonce.spent (noncesOf k ts) ∧
      (L' k).nonce.spent = (noncesOf k ts).foldl (Window.use 64) (L k).nonce.spent := by
  induction ts generalizing L with
  | nil => cases h; exact ⟨trivial, rfl⟩
  | cons t ts ih =>
    obtain ⟨M, hM, h⟩ := run_cons.1 h
    obtain ⟨hvalid, hspent⟩ := ih h
    have hmoves := step_moves hM
    by_cases hk : t.sender = k
    · subst hk
      obtain ⟨hfresh, huse⟩ := Nonce.nextNonceState_use hmoves.nonce
      have hcons : noncesOf t.sender (t :: ts) = t.nonce.toNat :: noncesOf t.sender ts := by simp [noncesOf]
      rw [huse] at hvalid hspent
      rw [hcons]
      exact ⟨⟨hfresh, hvalid⟩, hspent⟩
    · have hcons : noncesOf k (t :: ts) = noncesOf k ts := by simp [noncesOf, hk]
      rw [hmoves.nonceOther k (Ne.symm hk)] at hvalid hspent
      rw [hcons]
      exact ⟨hvalid, hspent⟩

/-- Two successful orders of the same transfers end in the same ledger. -/
theorem run_perm {L L₁ L₂ : Ledger} {ts ts' : List (PreparedTransfer D)} (hperm : ts.Perm ts')
    (h₁ : run step L ts = some L₁) (h₂ : run step L ts' = some L₂) : L₁ = L₂ := by
  funext k
  have hbalance : (L₁ k).balance.toNat = (L₂ k).balance.toNat := by
    have hb₁ := run_balance h₁ k
    have hb₂ := run_balance h₂ k
    have hsent : sentBy k ts = sentBy k ts' := (hperm.map _).sum_eq
    have hreceived : receivedBy k ts = receivedBy k ts' := (hperm.map _).sum_eq
    omega
  have hnonce : (L₁ k).nonce = (L₂ k).nonce := by
    obtain ⟨hv₁, hs₁⟩ := run_nonces h₁ k
    obtain ⟨hv₂, hs₂⟩ := run_nonces h₂ k
    apply Nonce.eq_of_spent_eq
    rw [hs₁, hs₂]
    exact Window.foldl_use_perm ((hperm.filter _).map _) hv₁ hv₂
  show (⟨(L₁ k).balance, (L₁ k).nonce⟩ : Account) = ⟨(L₂ k).balance, (L₂ k).nonce⟩
  rw [UInt64.toNat_inj.1 hbalance, hnonce]

end Ledger

theorem accountKeys_perm {ts ts' : List (PreparedTransfer D)} (hperm : ts.Perm ts') :
    (accountKeys ts).Perm (accountKeys ts') := hperm.flatMap_right _

/-- `execute` returns the same changeset for any two orders of the same transfers on which it
succeeds, from any state. -/
theorem execute_perm {state : State} {ts ts' : List (PreparedTransfer D)} {cs cs' : Changeset} (hperm : ts.Perm ts')
    (h : execute state ts = some cs) (h' : execute state ts' = some cs') : cs = cs' := by
  have hview : State.ViewOf state (Overlay.new state).ledger := (Overlay.new state).represents_ledger.view
  obtain ⟨L₁, hL₁, rfl⟩ := execute_sound hview h
  obtain ⟨L₂, hL₂, rfl⟩ := execute_sound hview h'
  obtain rfl := Ledger.run_perm hperm hL₁ hL₂
  refine Ledger.eq_changeset (L₁.pairwise_changeset _) fun p => ?_
  rw [Ledger.mem_changeset, (accountKeys_perm hperm).mem_iff]

/-- Two nonces inside the window in both orders, then one beyond it. -/
def sampleBody (first second : UInt64) : List (PreparedTransfer Unit) :=
  [⟨.filled 1, .filled 2, 60, first, ()⟩, ⟨.filled 1, .filled 2, 60, second, ()⟩, ⟨.filled 1, .filled 3, 20, 80, ()⟩]

set_option maxRecDepth 20000 in
theorem execute_perm_jump :
    let state : State := .ofPairs [(.filled 1, ⟨500, default⟩), (.filled 2, default), (.filled 3, default)]
    ∃ cs cs', execute state (sampleBody 1 2) = some cs ∧ execute state (sampleBody 2 1) = some cs' ∧ cs = cs' := by
  intro state
  obtain ⟨cs, hcs⟩ := Option.isSome_iff_exists.1 (by decide : (execute state (sampleBody 1 2)).isSome = true)
  obtain ⟨cs', hcs'⟩ := Option.isSome_iff_exists.1 (by decide : (execute state (sampleBody 2 1)).isSome = true)
  exact ⟨cs, cs', hcs, hcs', execute_perm (.swap ..) hcs hcs'⟩

end Constantinople
