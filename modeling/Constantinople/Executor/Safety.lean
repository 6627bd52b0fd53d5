/-
What execution guarantees over whole chains. A chain executes block after block, each on the accounts
its parent left, by the proposal loop, the overlay path or the fast path. Every chain is one ledger
run, so facts of a single ledger step carry over: no sender spends a nonce twice, and no batch
creates or destroys balance.
-/
import Constantinople.Executor.Refinement

namespace Constantinople

open Word Run

variable {D : Type}

/-! ## Chains -/

/-- One block on the database of its parent, with its successful transfers. -/
inductive BlockStep : StateDb → List (PreparedTransfer D) → StateDb → Prop
  | propose {db : StateDb} {state : State} {input : ProposalInput D} (view : State.ViewOf state db.account) :
    BlockStep db (proposePrepared state input).transfers (applyChangeset db (proposePrepared state input).changeset)
  | execute {db : StateDb} {state : State} {ts : List (PreparedTransfer D)} {cs : Changeset}
    (view : State.ViewOf state db.account) (ok : execute state ts = some cs) : BlockStep db ts (applyChangeset db cs)
  | unique {db : StateDb} {ts : List (PreparedTransfer D)} {cs : Changeset} (distinct : (accountKeys ts).Nodup)
    (ok : executeUnique ts ((accountKeys ts).map db.account) = some cs) : BlockStep db ts (applyChangeset db cs)

/-- The blocks of a chain, with the successful transfers of each. -/
abbrev Chain (genesis : StateDb) (blocks : List (List (PreparedTransfer D))) (db : StateDb) : Prop :=
  Trace BlockStep genesis blocks db

/-- The verifier's path is one of the three, whichever way it loaded the accounts. -/
theorem BlockStep.ofLoaded {db : StateDb} {ts : List (PreparedTransfer D)} {cs : Changeset}
    (h : executeLoaded (loadExecutionState db ts) ts = some cs) : BlockStep db ts (applyChangeset db cs) := by
  unfold loadExecutionState at h
  split at h
  · rename_i hnil
    obtain rfl := List.isEmpty_iff.1 hnil
    exact .unique List.nodup_nil h
  by_cases hu : (accountKeys ts).dedup.length = (accountKeys ts).length
  · simp only [if_pos hu] at h
    exact .unique (nodup_of_length_dedup hu) h
  · simp only [if_neg hu] at h
    exact .execute (loadAccounts_viewOf db _) h

/-- The proposal loop ran its transfers on the ledger, whatever the state had loaded. -/
theorem proposePrepared_sound {state : State} {L : Ledger} (hview : State.ViewOf state L) (input : ProposalInput D) :
    ∃ L', run Ledger.step L (proposePrepared state input).transfers = some L' ∧
      (proposePrepared state input).changeset = L'.changeset (accountKeys (proposePrepared state input).transfers) := by
  have hrun := run_greedy (candidateStep applyStep) (.new state) input.candidates
  rw [run_candidateStep] at hrun
  obtain ⟨L', hL', hrep⟩ := run_applyStep_sound (.new hview) hrun
  unfold proposePrepared
  simp only [foldl_next, List.nil_append]
  exact ⟨L', hL', intoChangeset_run hrep hrun⟩

/-- Each of the three paths is a ledger run from the parent's accounts to the block's. -/
theorem BlockStep.run {db db' : StateDb} {ts : List (PreparedTransfer D)} (h : BlockStep db ts db') :
    run Ledger.step db.account ts = some db'.account := by
  have key : ∀ {ts : List (PreparedTransfer D)} {cs : Changeset} {L' : Ledger},
      Run.run Ledger.step db.account ts = some L' → cs = L'.changeset (accountKeys ts) →
      Run.run Ledger.step db.account ts = some (applyChangeset db cs).account := by
    rintro ts cs L' hL' rfl
    rw [account_applyChangeset hL', hL']
  cases h with
  | propose view =>
    obtain ⟨L', hL', hcs⟩ := proposePrepared_sound view _
    exact key hL' hcs
  | execute view ok =>
    obtain ⟨L', hL', hcs⟩ := execute_sound view ok
    exact key hL' hcs
  | unique distinct ok =>
    rw [executeUnique_eq db.account distinct] at ok
    obtain ⟨L', hL', hcs⟩ := Option.map_eq_some_iff.1 ok
    exact key hL' hcs.symm

theorem Chain.run {genesis db : StateDb} {blocks : List (List (PreparedTransfer D))} (h : Chain genesis blocks db) :
    run Ledger.step genesis.account blocks.flatten = some db.account := by
  induction h with
  | nil => rfl
  | cons head tail ih => exact run_append head.run ih

/-! ## Replay protection -/

/-- What a transfer spends. -/
def PreparedTransfer.slot (t : PreparedTransfer D) : AccountKey × UInt64 := (t.sender, t.nonce)

/-- The account has used the nonce. -/
def Ledger.Spent (L : Ledger) (slot : AccountKey × UInt64) : Prop := (L slot.1).nonce.Spent slot.2.toNat

theorem Ledger.step_spent {L L' : Ledger} {t : PreparedTransfer D} (h : L.step t = some L') :
    ¬ L.Spent t.slot ∧ L'.Spent t.slot ∧ ∀ slot, L.Spent slot → L'.Spent slot := by
  have hm := Ledger.step_moves h
  obtain ⟨hfresh, hspent, hkeep⟩ := Nonce.nextNonceState_spent hm.nonce
  refine ⟨hfresh, hspent, fun slot hs => ?_⟩
  unfold Ledger.Spent at hs ⊢
  by_cases hk : slot.1 = t.sender
  · rw [hk] at hs ⊢; exact hkeep _ hs
  · rwa [hm.nonceOther _ hk]

/-- No slot is spent twice in a ledger run, and what a run spent cannot be spent after it. -/
theorem Ledger.run_slots {L L' : Ledger} {ts : List (PreparedTransfer D)} (h : Run.run Ledger.step L ts = some L') :
    (ts.map PreparedTransfer.slot).Nodup ∧ ∀ t ∈ ts, L'.Spent t.slot := by
  obtain ⟨hnd, -, -, hspent⟩ := Trace.nodup_ids PreparedTransfer.slot Ledger.Spent
    (fun _ _ _ hs => (step_spent hs).1) (fun _ _ _ hs => (step_spent hs).2.1)
    (fun _ _ _ slot hs => (step_spent hs).2.2 slot) (trace_of_run h)
  exact ⟨hnd, hspent⟩

theorem applyTransfer_of_spent {o : Overlay} {base L : Ledger} (hrep : o.Represents base L) {t : PreparedTransfer D}
    (hs : L.Spent t.slot) : (applyTransfer o t).1 = false := by
  rw [applyTransfer_eq]
  rcases ho : applyStep o t with _ | o'
  · rfl
  · obtain ⟨L', hL, -⟩ := hrep.applyStep_sound ho
    exact absurd hs (Ledger.step_spent hL).1

/-- Over a whole chain no (sender, nonce) pair succeeds twice, and once a transfer succeeded, in the
chain or among the attempts made on top of it, every later attempt with its pair fails. -/
theorem replay_protection {genesis db : StateDb} {blocks : List (List (PreparedTransfer D))}
    (h : Chain genesis blocks db) :
    (blocks.flatten.map fun t => (t.sender, t.nonce)).Nodup ∧
    ∀ state : State, State.ViewOf state db.account → ∀ attempts : List (PreparedTransfer D),
      ∀ t ∈ blocks.flatten ++ greedy applyStep (.new state) attempts, ∀ t' : PreparedTransfer D,
        t'.sender = t.sender → t'.nonce = t.nonce →
        (applyTransfer (final applyStep (.new state) attempts) t').1 = false := by
  constructor
  · exact (Ledger.run_slots h.run).1
  · intro state hview attempts t ht t' hs hn
    -- the successful attempts extend the chain's run
    obtain ⟨L', hL', hrep⟩ := run_applyStep_sound (.new hview) (run_greedy applyStep (.new state) attempts)
    have hspent := (Ledger.run_slots (run_append h.run hL')).2 t ht
    apply applyTransfer_of_spent hrep
    rwa [show t'.slot = t.slot from Prod.ext hs hn]

theorem replay_protection_far_ahead :
    ∃ db, Chain (fun _ => none) [[(⟨.filled 1, .filled 2, 5, 80, ()⟩ : PreparedTransfer Unit)],
        [⟨.filled 2, .filled 1, 7, 3, ()⟩, ⟨.filled 2, .filled 2, 1, 0, ()⟩]] db ∧
      ∀ state, State.ViewOf state db.account →
        (applyTransfer (.new state) (⟨.filled 1, .filled 3, 1, 80, ()⟩ : PreparedTransfer Unit)).1 = false := by
  obtain ⟨db, h⟩ : ∃ db, Chain (fun _ => none) [[(⟨.filled 1, .filled 2, 5, 80, ()⟩ : PreparedTransfer Unit)],
      [⟨.filled 2, .filled 1, 7, 3, ()⟩, ⟨.filled 2, .filled 2, 1, 0, ()⟩]] db :=
    ⟨_, .cons (.ofLoaded rfl) (.cons (.ofLoaded rfl) (.nil _))⟩
  exact ⟨db, h, fun state hview =>
    (replay_protection h).2 state hview [] ⟨.filled 1, .filled 2, 5, 80, ()⟩ (by simp) _ rfl rfl⟩

/-! ## Supply -/

/-- The balances of `keys` added up. -/
def Ledger.total (L : Ledger) (keys : Finset AccountKey) : ℕ := ∑ k ∈ keys, (L k).balance.toNat

/-- The balances of `keys` in the database, absent accounts at the default balance. -/
def StateDb.total (db : StateDb) (keys : Finset AccountKey) : ℕ := Ledger.total db.account keys

theorem Ledger.run_total {L L' : Ledger} {ts : List (PreparedTransfer D)} (h : Run.run Ledger.step L ts = some L')
    {keys : Finset AccountKey} (hkeys : ∀ k ∈ accountKeys ts, k ∈ keys) : L'.total keys = L.total keys := by
  refine run_invariant (I := fun M : Ledger => M.total keys = L.total keys) (fun M M' t ht hi hM => ?_) rfl h
  rw [← hi]
  exact (step_moves hM).balance.sum_eq (hkeys _ (mem_accountKeys.2 ⟨t, ht, .inl rfl⟩))
    (hkeys _ (mem_accountKeys.2 ⟨t, ht, .inr rfl⟩))

/-- The accounts an overlay shows, the unloaded ones as default accounts. -/
def Overlay.ledger (o : Overlay) : Ledger := fun k => (o.get k).getD default

theorem Overlay.Represents.eq_ledger {o : Overlay} {L : Ledger}
    (h : o.Represents (fun k => (o.base.get k).getD default) L) : L = o.ledger := by
  funext k
  rw [h.writes k, Overlay.ledger, Overlay.get]
  rcases o.writes.get k with _ | w <;> rfl

theorem Overlay.represents_ledger (o : Overlay) :
    o.Represents (fun k => (o.base.get k).getD default) o.ledger := by
  constructor
  · intro k a h
    simp [h]
  · intro k
    rw [Overlay.ledger, Overlay.get]
    rcases o.writes.get k with _ | w <;> rfl

/-- An applied transfer moves its value in natural numbers: neither balance wraps. -/
theorem applyTransfer_moves {o o' : Overlay} {t : PreparedTransfer D} (h : applyTransfer o t = (true, o')) :
    Ledger.Moves o.ledger t o'.ledger := by
  have hstep : applyStep o t = some o' := by unfold applyStep; rw [h]
  obtain ⟨L', hL, hrep⟩ := o.represents_ledger.applyStep_sound hstep
  rw [← applyStep_base hstep] at hrep
  rw [← hrep.eq_ledger]
  exact Ledger.step_moves hL

/-- A block changes the sum of balances over no set that holds all its accounts. -/
theorem BlockStep.total_eq {db db' : StateDb} {ts : List (PreparedTransfer D)} (h : BlockStep db ts db')
    {keys : Finset AccountKey} (hkeys : ∀ k ∈ accountKeys ts, k ∈ keys) : db'.total keys = db.total keys :=
  Ledger.run_total h.run hkeys

theorem proposePrepared_transfers_sublist (state : State) (input : ProposalInput D) :
    (proposePrepared state input).transfers.Sublist (input.candidates.map PreparedTransaction.transfer) := by
  unfold proposePrepared
  simp only [foldl_next, List.nil_append]
  exact (greedy_sublist ..).map _

/-- Supply conservation on every path, with the balances of each transfer moved without wrapping and
none moved by a transfer to oneself. -/
theorem supply_conservation (db : StateDb) (keys : Finset AccountKey) :
    (∀ (state : State) (ts : List (PreparedTransfer D)) (cs : Changeset), State.ViewOf state db.account →
      (∀ k ∈ accountKeys ts, k ∈ keys) → execute state ts = some cs →
      (applyChangeset db cs).total keys = db.total keys) ∧
    (∀ (ts : List (PreparedTransfer D)) (cs : Changeset), (accountKeys ts).Nodup → (∀ k ∈ accountKeys ts, k ∈ keys) →
      executeUnique ts ((accountKeys ts).map db.account) = some cs →
      (applyChangeset db cs).total keys = db.total keys ∧
      ∀ t ∈ ts, ((applyChangeset db cs).account t.sender).balance.toNat + t.value.toNat =
          (db.account t.sender).balance.toNat ∧
        ((applyChangeset db cs).account t.recipient).balance.toNat =
          (db.account t.recipient).balance.toNat + t.value.toNat) ∧
    (∀ (sha256 : Sha256) (state : State) (transactions : List (SignedTransaction D)), State.ViewOf state db.account →
      (∀ k ∈ accountKeys ((prepareProposal sha256 transactions).candidates.map PreparedTransaction.transfer), k ∈ keys) →
      (applyChangeset db (propose sha256 state transactions).changeset).total keys = db.total keys) ∧
    (∀ (o o' : Overlay) (t : PreparedTransfer D), applyTransfer o t = (true, o') →
      Balance.Moved t.sender t.recipient t.value.toNat (fun k => (o.ledger k).balance.toNat)
        (fun k => (o'.ledger k).balance.toNat) ∧
      (t.sender = t.recipient → ∀ k, (o'.ledger k).balance = (o.ledger k).balance)) := by
  refine ⟨?_, ?_, ?_, ?_⟩
  · intro state ts cs hview hkeys h
    exact (BlockStep.execute hview h).total_eq hkeys
  · intro ts cs hnd hkeys h
    constructor
    · exact (BlockStep.unique hnd h).total_eq hkeys
    · exact Ledger.run_distinct (BlockStep.unique hnd h).run hnd
  · -- the proposal keeps some of the candidates, so `keys` holds the accounts of those it kept
    intro sha256 state txs hview hkeys
    apply (BlockStep.propose hview).total_eq
    intro k hk
    obtain ⟨t, ht, hk⟩ := mem_accountKeys.1 hk
    exact hkeys k (mem_accountKeys.2 ⟨t, (proposePrepared_transfers_sublist state _).subset ht, hk⟩)
  · intro o o' t h
    have hm := applyTransfer_moves h
    constructor
    · exact hm.balance
    · intro hself k
      exact UInt64.toNat_inj.1 ((hself ▸ hm.balance).eq_of_self k)

theorem supply_conservation_two_transfers :
    let ts : List (PreparedTransfer Unit) := [⟨.filled 1, .filled 2, 60, 0, ()⟩, ⟨.filled 2, .filled 3, 150, 1, ()⟩]
    let state := loadState (fun _ => none) ts
    ∃ cs, execute state ts = some cs ∧
      (applyChangeset (fun _ => none) cs).total {.filled 1, .filled 2, .filled 3} =
        StateDb.total (fun _ => none) {.filled 1, .filled 2, .filled 3} := by
  intro ts state
  exact ⟨_, rfl, (supply_conservation _ _).1 state ts _ (loadState_viewOf _ ts) (by simp [ts, accountKeys]) rfl⟩

end Constantinople
