/-
The ledger a block executes on: every account key has an account, and a transfer is one partial step
that moves its value and consumes its nonce. The executor refines it. An overlay over a loaded state
represents a ledger, `apply_transfer` is the ledger step on it, and the changeset of a body is the
final ledger on the accounts the body touches, in key order, whichever path computed it.
-/
import Constantinople.Executor.Basic
import Constantinople.Lib.Balance
import Constantinople.Primitives.Nonce

namespace Constantinople

open Word Run

variable {D : Type}

/-- The accounts as the protocol sees them: an account nobody wrote is the default one. -/
abbrev Ledger := AccountKey → Account

namespace Ledger

/-- One transfer. It fails on a missing balance, a spent nonce, or an overflow at the recipient. -/
def step (L : Ledger) (t : PreparedTransfer D) : Option Ledger :=
  if (L t.sender).balance < t.value then none
  else
    match nextNonceState (L t.sender).nonce.base (L t.sender).nonce.bitmap t.nonce with
    | none => none
    | some nonce =>
      if t.sender = t.recipient then some (Function.update L t.sender ⟨(L t.sender).balance, nonce⟩)
      else
        match checkedAdd (L t.recipient).balance t.value with
        | none => none
        | some balance =>
          some (Function.update (Function.update L t.sender ⟨(L t.sender).balance - t.value, nonce⟩) t.recipient
            ⟨balance, (L t.recipient).nonce⟩)

/-- What a successful transfer does, for the sender, the recipient and everyone else. -/
structure Moves (L : Ledger) (t : PreparedTransfer D) (L' : Ledger) : Prop where
  funded : t.value.toNat ≤ (L t.sender).balance.toNat
  nonce : nextNonceState (L t.sender).nonce.base (L t.sender).nonce.bitmap t.nonce = some (L' t.sender).nonce
  nonceOther : ∀ k, k ≠ t.sender → (L' k).nonce = (L k).nonce
  balance : Balance.Moved t.sender t.recipient t.value.toNat (fun k => (L k).balance.toNat)
    (fun k => (L' k).balance.toNat)

theorem step_eq_some {L L' : Ledger} {t : PreparedTransfer D} :
    L.step t = some L' ↔ ¬ (L t.sender).balance < t.value ∧ ∃ nonce,
      nextNonceState (L t.sender).nonce.base (L t.sender).nonce.bitmap t.nonce = some nonce ∧
      ((t.sender = t.recipient ∧ L' = Function.update L t.sender ⟨(L t.sender).balance, nonce⟩) ∨
       (t.sender ≠ t.recipient ∧ ∃ balance, checkedAdd (L t.recipient).balance t.value = some balance ∧
        L' = Function.update (Function.update L t.sender ⟨(L t.sender).balance - t.value, nonce⟩) t.recipient
          ⟨balance, (L t.recipient).nonce⟩)) := by
  unfold step
  split
  · rename_i hb; simp [hb]
  rename_i hb
  rw [and_iff_right hb]
  rcases hn : nextNonceState (L t.sender).nonce.base (L t.sender).nonce.bitmap t.nonce with _ | nonce
  · simp
  by_cases hself : t.sender = t.recipient
  · simp [hself, eq_comm]
  rcases hadd : checkedAdd (L t.recipient).balance t.value with _ | balance
  · simp [hself]
  · simp [hself, eq_comm]

theorem step_moves {L L' : Ledger} {t : PreparedTransfer D} (h : L.step t = some L') : Moves L t L' := by
  obtain ⟨hb, nonce, hn, hcase⟩ := step_eq_some.1 h
  have hfund : t.value.toNat ≤ (L t.sender).balance.toNat := by
    rw [UInt64.lt_iff_toNat_lt] at hb; omega
  rcases hcase with ⟨hself, rfl⟩ | ⟨hne, balance, hadd, rfl⟩
  · refine ⟨hfund, by simpa using hn, fun k hk => by simp [hk], fun k => ?_⟩
    rw [← hself]
    by_cases hk : k = t.sender
    · subst hk; simp
    · simp [hk]
  · have hsub := UInt64.toNat_sub_of_le (L t.sender).balance t.value (UInt64.le_iff_toNat_le.2 hfund)
    have hadd := checkedAdd_eq_some.1 hadd
    refine ⟨hfund, by simpa [hne] using hn, fun k hk => ?_, fun k => ?_⟩
    · by_cases hr : k = t.recipient
      · subst hr; simp
      · simp [hr, hk]
    · by_cases hr : k = t.recipient
      · subst hr; simp [hadd, Ne.symm hne]
      · by_cases hk : k = t.sender
        · subst hk; simp [hne, hsub, Nat.sub_add_cancel hfund]
        · simp [hr, hk]

/-- A transfer touches its sender and its recipient only. -/
theorem step_other {L L' : Ledger} {t : PreparedTransfer D} (h : L.step t = some L') {k : AccountKey}
    (hs : k ≠ t.sender) (hr : k ≠ t.recipient) : L' k = L k := by
  obtain ⟨-, nonce, -, ⟨-, rfl⟩ | ⟨-, balance, -, rfl⟩⟩ := step_eq_some.1 h
  · simp [hs]
  · simp [hs, hr]

theorem run_other {L L' : Ledger} {ts : List (PreparedTransfer D)} (h : run step L ts = some L') {k : AccountKey}
    (hk : k ∉ accountKeys ts) : L' k = L k := by
  refine run_invariant (I := fun M : Ledger => M k = L k) (fun M M' t ht hi hstep => ?_) rfl h
  have hkeys : ∀ a ∈ [t.sender, t.recipient], k ≠ a := fun a ha hka =>
    hk (List.mem_flatMap.2 ⟨t, ht, hka ▸ ha⟩)
  rw [step_other hstep (hkeys _ (by simp)) (hkeys _ (by simp)), hi]

theorem accountKeys_cons (t : PreparedTransfer D) (ts : List (PreparedTransfer D)) :
    accountKeys (t :: ts) = t.sender :: t.recipient :: accountKeys ts := rfl

/-- On distinct accounts every sender pays and every recipient gets exactly its own transfer. -/
theorem run_distinct {L L' : Ledger} {ts : List (PreparedTransfer D)} (h : run step L ts = some L')
    (hnd : (accountKeys ts).Nodup) : ∀ t ∈ ts,
      (L' t.sender).balance.toNat + t.value.toNat = (L t.sender).balance.toNat ∧
      (L' t.recipient).balance.toNat = (L t.recipient).balance.toNat + t.value.toNat := by
  induction ts generalizing L with
  | nil => intro t ht; cases ht
  | cons u ts ih =>
    rw [accountKeys_cons] at hnd
    obtain ⟨hs, hnd⟩ := List.nodup_cons.1 hnd
    obtain ⟨hr, hnd⟩ := List.nodup_cons.1 hnd
    obtain ⟨hne, hs⟩ := not_or.1 (mt List.mem_cons.2 hs)
    obtain ⟨M, hM, hrest⟩ := run_cons.1 h
    intro t ht
    rcases List.mem_cons.1 ht with rfl | ht
    · rw [run_other hrest hs, run_other hrest hr]
      have hb := (step_moves hM).balance
      have hbs := hb t.sender
      have hbr := hb t.recipient
      simp only [hne, Ne.symm hne, if_true, if_false] at hbs hbr
      omega
    · -- the accounts of a later transfer are untouched by `u`
      have hother : ∀ k ∈ [t.sender, t.recipient], M k = L k := fun k hk =>
        have hk : k ∈ accountKeys ts := List.mem_flatMap.2 ⟨t, ht, hk⟩
        step_other hM (fun h => hs (h ▸ hk)) (fun h => hr (h ▸ hk))
      rw [← hother t.sender (by simp), ← hother t.recipient (by simp)]
      exact ih hrest hnd t ht

/-! ## Changesets of a ledger -/

/-- The accounts of `keys` in key order. -/
def changeset (L : Ledger) (keys : List AccountKey) : Changeset := sortByKey (keys.dedup.map fun k => (k, L k))

theorem mem_changeset {L : Ledger} {keys : List AccountKey} {p : AccountKey × Account} :
    p ∈ L.changeset keys ↔ p.1 ∈ keys ∧ p.2 = L p.1 := by
  unfold changeset sortByKey
  rw [(List.perm_insertionSort _ _).mem_iff]
  obtain ⟨k, a⟩ := p
  simp only [List.mem_map, List.mem_dedup, Prod.mk.injEq]
  constructor
  · rintro ⟨k', hk, rfl, rfl⟩; exact ⟨hk, rfl⟩
  · rintro ⟨hk, rfl⟩; exact ⟨k, hk, rfl, rfl⟩

theorem pairwise_changeset (L : Ledger) (keys : List AccountKey) :
    (L.changeset keys).Pairwise fun a b => a.1 < b.1 := by
  refine pairwise_lt_insertionSort ?_
  simpa [Function.comp_def] using keys.nodup_dedup

/-- A list of accounts sorted by key is the changeset of what it contains. -/
theorem eq_changeset {L : Ledger} {keys : List AccountKey} {cs : Changeset}
    (hs : cs.Pairwise fun a b => a.1 < b.1) (hm : ∀ p, p ∈ cs ↔ p.1 ∈ keys ∧ p.2 = L p.1) : cs = L.changeset keys :=
  eq_of_pairwise_lt_of_mem hs (pairwise_changeset L keys) fun p => (hm p).trans mem_changeset.symm

end Ledger

/-! ## Applying a changeset -/

theorem applyChangeset_not_mem {cs : Changeset} {k : AccountKey} :
    ∀ {db : StateDb}, (∀ p ∈ cs, p.1 ≠ k) → applyChangeset db cs k = db k := by
  induction cs with
  | nil => intro db _; rfl
  | cons p cs ih =>
    intro db h
    show applyChangeset (Function.update db p.1 (some p.2)) cs k = db k
    rw [ih fun q hq => h q (List.mem_cons_of_mem _ hq)]
    exact Function.update_of_ne (h p (List.mem_cons_self ..)).symm ..

theorem applyChangeset_mem {cs : Changeset} {p : AccountKey × Account} :
    ∀ {db : StateDb}, cs.Pairwise (fun a b => a.1 < b.1) → p ∈ cs → applyChangeset db cs p.1 = some p.2 := by
  induction cs with
  | nil => intro db _ h; cases h
  | cons q cs ih =>
    intro db hs h
    obtain ⟨hq, hs⟩ := List.pairwise_cons.1 hs
    show applyChangeset (Function.update db q.1 (some q.2)) cs p.1 = some p.2
    rcases List.mem_cons.1 h with rfl | h
    · rw [applyChangeset_not_mem fun r hr => (hq r hr).ne']
      exact Function.update_self ..
    · exact ih hs h

/-- Writing the changeset of a run turns the database's accounts into the run's final ledger. -/
theorem account_applyChangeset {db : StateDb} {L' : Ledger} {ts : List (PreparedTransfer D)}
    (h : run Ledger.step db.account ts = some L') :
    (applyChangeset db (L'.changeset (accountKeys ts))).account = L' := by
  funext k
  unfold StateDb.account
  by_cases hk : k ∈ accountKeys ts
  · rw [applyChangeset_mem (p := (k, L' k)) (L'.pairwise_changeset _) (Ledger.mem_changeset.2 ⟨hk, rfl⟩)]
    rfl
  · rw [applyChangeset_not_mem, Ledger.run_other h hk]
    · rfl
    · rintro p hp rfl; exact hk (Ledger.mem_changeset.1 hp).1

end Constantinople
