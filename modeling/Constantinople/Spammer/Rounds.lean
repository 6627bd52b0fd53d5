/-
What the load generator signs can be executed. The value of a transfer is handed round the ring: after `k`
transfers it has gone from the first account to account `k`, so every account can pay when its turn comes, and
after whole rounds all balances are back. Nonces are taken in order. Neither depends on where the blocks end,
and both last until an account has taken every nonce but the last one, which no account can take.
-/
import Constantinople.Executor.Refinement
import Constantinople.Spammer.Signer

namespace Constantinople

open Word Run

namespace Spammer

variable {K D : Type}

/-! ## Blocks -/

/-- One block on the database of its parent. -/
def executeBlock (sha256 : Sha256) (db : StateDb) (block : List (SignedTransaction D)) : Option StateDb :=
  match block.mapM (prepareTransfer sha256) with
  | none => none
  | some transfers => (execute (loadState db transfers) transfers).map (applyChangeset db)

theorem executeBlock_eq {sha256 : Sha256} {block : List (SignedTransaction D)} {transfers : List (PreparedTransfer D)}
    (h : block.map (prepareTransfer sha256) = transfers.map some) (db : StateDb) :
    (executeBlock sha256 db block).map StateDb.account = run Ledger.step db.account transfers := by
  unfold executeBlock
  rw [mapM_eq_some_iff.2 h]
  simp only [execute_eq (loadState_viewOf db transfers) (loadState_loads db transfers), Option.map_map]
  rcases hrun : run Ledger.step db.account transfers with _ | L
  · rfl
  · exact congrArg some (account_applyChangeset hrun)

/-- The boundaries of the blocks do not matter. -/
theorem run_executeBlock {sha256 : Sha256} {blocks : List (List (SignedTransaction D))}
    {transfers : List (PreparedTransfer D)} (h : blocks.flatten.map (prepareTransfer sha256) = transfers.map some)
    (db : StateDb) :
    (run (executeBlock sha256) db blocks).map StateDb.account = run Ledger.step db.account transfers := by
  induction blocks generalizing transfers db with
  | nil =>
    obtain rfl : transfers = [] := List.map_eq_nil_iff.1 h.symm
    rfl
  | cons block blocks ih =>
    rw [List.flatten_cons, List.map_append, eq_comm] at h
    obtain ⟨first, rest, rfl, hfirst, hrest⟩ := List.map_eq_append_iff.1 h
    have hblock := executeBlock_eq hfirst.symm db
    rw [run_append_eq, ← hblock, run]
    rcases executeBlock sha256 db block with _ | next
    · rfl
    · exact ih hrest.symm next

/-! ## The ring -/

/-- The key of an account on chain. -/
def SpamAccount.key (account : SpamAccount K) : AccountKey := ⟨account.publicKey.1, account.publicKey.2⟩

theorem SpamAccount.fromPublicKeyBytes_key (sha256 : Sha256) (account : SpamAccount K) :
    AccountKey.fromPublicKeyBytes sha256 (TransactionPublicKey.ed25519 account.publicKey).encoded = some account.key := by
  unfold AccountKey.fromPublicKeyBytes
  rw [dif_pos (TransactionPublicKey.length_encoded _)]
  exact congrArg some (AccountKey.ext_bytes (List.take_left' account.publicKey.2))

section Rounds

variable {accounts : List (SpamAccount K)} (hn : 0 < accounts.length) (S : Signer K D) (value : NonZeroU64)

/-- The `k`-th transfer. -/
def transferAt (k : Nat) : PreparedTransfer D :=
  ⟨(accountAt hn k).key, (accountAt hn (k + 1)).key, value.1, UInt64.ofNat (k / accounts.length),
    (transactionAt hn S value k).messageDigest⟩

theorem prepareTransfer_transactionAt (k : Nat) :
    prepareTransfer S.sha256 (transactionAt hn S value k) = some (transferAt hn S value k) := by
  have hsender : accountKeyFromSender S.sha256 (transactionAt hn S value k).value.sender = some (accountAt hn k).key :=
    SpamAccount.fromPublicKeyBytes_key S.sha256 _
  have hrecipient : (transactionAt hn S value k).value.toKey = (accountAt hn (k + 1)).key :=
    Option.get_of_eq_some _ (SpamAccount.fromPublicKeyBytes_key S.sha256 _)
  unfold prepareTransfer
  simp only [hsender, hrecipient]
  rfl

/-- Blocks that make up the first `m` transactions run the first `m` transfers. -/
theorem run_stream {m : Nat} {blocks : List (List (SignedTransaction D))}
    (h : blocks.flatten = (List.range m).map (transactionAt hn S value)) (db : StateDb) :
    (run (executeBlock S.sha256) db blocks).map StateDb.account =
      run Ledger.step db.account ((List.range m).map (transferAt hn S value)) := by
  refine run_executeBlock ?_ db
  rw [h, List.map_map, List.map_map]
  exact List.map_congr_left fun k _ => prepareTransfer_transactionAt hn S value k

theorem accountAt_mod (k : Nat) : accountAt hn (k % accounts.length) = accountAt hn k := by
  unfold accountAt
  simp only [Nat.mod_mod]

variable {hn}

theorem key_accountAt (hdistinct : (accounts.map SpamAccount.publicKey).Nodup) {i j : Nat} :
    (accountAt hn i).key = (accountAt hn j).key ↔ i % accounts.length = j % accounts.length := by
  constructor
  · intro h
    have hkey : (accountAt hn i).publicKey = (accountAt hn j).publicKey := Subtype.ext (congrArg AccountKey.bytes h)
    refine (List.getElem?_inj (by simpa using Nat.mod_lt i hn) hdistinct).1 ?_
    simp only [List.getElem?_map, getElem?_accountAt hn, Option.map_some, hkey]
  · intro h
    rw [← accountAt_mod hn i, h, accountAt_mod]

/-- At least two accounts with keys of their own, all with the default account, whose balance covers the value. -/
structure Ready (hn : 0 < accounts.length) (value : NonZeroU64) (start : Ledger) : Prop where
  two_le : 2 ≤ accounts.length
  distinct : (accounts.map SpamAccount.publicKey).Nodup
  covered : value.1.toNat ≤ defaultAccountBalance.toNat
  untouched : ∀ k, start (accountAt hn k).key = default

/-- The ledger after `k` transfers: the value has gone from the first account to account `k`, and every
account has taken its nonces in order. -/
structure Rotated (hn : 0 < accounts.length) (value : NonZeroU64) (start : Ledger) (k : Nat) (L : Ledger) : Prop where
  balance : Balance.Moved (accountAt hn 0).key (accountAt hn k).key value.1.toNat
    (fun key => (start key).balance.toNat) (fun key => (L key).balance.toNat)
  nonce : ∀ i < accounts.length, (L (accountAt hn i).key).nonce = ⟨UInt64.ofNat (signed accounts.length k i), 0⟩

variable {S value} {start L : Ledger}

theorem Ready.rotated (hready : Ready hn value start) : Rotated hn value start 0 start := by
  constructor
  · intro key
    rfl
  · intro i _
    rw [hready.untouched]
    rfl

theorem Rotated.sender_nonce {k : Nat} (h : Rotated hn value start k L) :
    (L (accountAt hn k).key).nonce = ⟨UInt64.ofNat (k / accounts.length), 0⟩ := by
  have hnonce := h.nonce (k % accounts.length) (Nat.mod_lt k hn)
  rwa [accountAt_mod, signed_sender hn] at hnonce

theorem Rotated.funded {k : Nat} (hready : Ready hn value start) (h : Rotated hn value start k L) :
    value.1.toNat ≤ (L (accountAt hn k).key).balance.toNat := by
  have hmoved := h.balance (accountAt hn k).key
  simp only [hready.untouched, if_true] at hmoved
  split at hmoved
  · have hcovered : value.1.toNat ≤ (default : Account).balance.toNat := hready.covered
    omega
  · omega

/-- While the next nonce is not the last one, the next transfer succeeds. -/
theorem Rotated.step {k : Nat} (hready : Ready hn value start) (hk : k / accounts.length + 1 < 2 ^ 64)
    (h : Rotated hn value start k L) :
    ∃ L', L.step (transferAt hn S value k) = some L' ∧ Rotated hn value start (k + 1) L' := by
  have hne : (accountAt hn k).key ≠ (accountAt hn (k + 1)).key := by
    rw [Ne, key_accountAt hready.distinct]
    intro hsame
    have hdvd := (Nat.modEq_iff_dvd' (Nat.le_succ k)).1 hsame
    rw [Nat.succ_eq_add_one, Nat.add_sub_cancel_left] at hdvd
    exact absurd (hready.two_le.trans (Nat.le_of_dvd Nat.one_pos hdvd)) (by decide)
  have hword : (UInt64.ofNat (k / accounts.length)).toNat = k / accounts.length := toNat_ofNat (by omega)
  have hnext : nextNonceState (L (accountAt hn k).key).nonce.base (L (accountAt hn k).key).nonce.bitmap
      (UInt64.ofNat (k / accounts.length)) = some ⟨UInt64.ofNat (k / accounts.length) + 1, 0⟩ := by
    rw [h.sender_nonce]
    exact Nonce.nextNonceState_base (by rwa [hword])
  -- the recipient is not the account that holds the value, so it has at most its own balance
  have hreceives : (L (accountAt hn (k + 1)).key).balance.toNat + value.1.toNat < 2 ^ 64 := by
    have hmoved := h.balance (accountAt hn (k + 1)).key
    simp only [hready.untouched, if_neg hne.symm] at hmoved
    have hcovered := hready.covered
    have hdefault : (default : Account).balance.toNat = 100 := rfl
    have hbalance : defaultAccountBalance.toNat = 100 := rfl
    omega
  obtain ⟨balance, hbalance, -⟩ := checkedAdd_of_lt hreceives
  have hfunded : ¬ (L (accountAt hn k).key).balance < value.1 := by
    rw [UInt64.lt_iff_toNat_lt]
    exact Nat.not_lt.2 (h.funded hready)
  have hstep : L.step (transferAt hn S value k) = some _ :=
    Ledger.step_eq_some.2 ⟨hfunded, _, hnext, .inr ⟨hne, balance, hbalance, rfl⟩⟩
  have hmoves := Ledger.step_moves hstep
  refine ⟨_, hstep, h.balance.trans hmoves.balance, ?_⟩
  intro i hi
  rw [signed_succ hi]
  split
  · rename_i hturn
    have hsender : (accountAt hn i).key = (accountAt hn k).key := by
      rw [key_accountAt hready.distinct, Nat.mod_eq_of_lt hi, hturn]
    rw [hsender, hturn, signed_sender hn, UInt64.ofNat_add]
    exact (Option.some.inj (hnext.symm.trans hmoves.nonce)).symm
  · rename_i hturn
    rw [hmoves.nonceOther, h.nonce i hi]
    show (accountAt hn i).key ≠ (accountAt hn k).key
    rwa [Ne, key_accountAt hready.distinct, Nat.mod_eq_of_lt hi]

/-- The last nonce is never taken. -/
theorem step_last {k : Nat} (hk : k / accounts.length + 1 = 2 ^ 64) : L.step (transferAt hn S value k) = none := by
  rw [Option.eq_none_iff_forall_ne_some]
  intro L' hstep
  have hmax := (Nonce.nextNonceState_spec (Ledger.step_moves hstep).nonce).2.1
  rw [show (transferAt hn S value k).nonce = UInt64.ofNat (k / accounts.length) from rfl, toNat_ofNat (by omega)] at hmax
  omega

/-- The first `m` transfers succeed while no account has to take its last nonce. -/
theorem run_transfers (hready : Ready hn value start) {m : Nat} (hm : m ≤ accounts.length * (2 ^ 64 - 1)) :
    ∃ L, run Ledger.step start ((List.range m).map (transferAt hn S value)) = some L ∧ Rotated hn value start m L := by
  induction m with
  | zero => exact ⟨start, rfl, hready.rotated⟩
  | succ m ih =>
    obtain ⟨L, hrun, hrotated⟩ := ih (by omega)
    have hround : m / accounts.length + 1 < 2 ^ 64 := by
      have := (Nat.div_lt_iff_lt_mul hn).2 (Nat.mul_comm _ _ ▸ hm : m < (2 ^ 64 - 1) * accounts.length)
      omega
    obtain ⟨L', hstep, hrotated'⟩ := hrotated.step hready hround
    refine ⟨L', ?_, hrotated'⟩
    rw [List.range_succ, List.map_append]
    exact run_append hrun (run_cons.2 ⟨L', hstep, rfl⟩)

theorem run_transfers_none (hready : Ready hn value start) {m : Nat} (hm : accounts.length * (2 ^ 64 - 1) < m) :
    run Ledger.step start ((List.range m).map (transferAt hn S value)) = none := by
  obtain ⟨L, hrun, -⟩ := run_transfers (S := S) hready le_rfl
  obtain ⟨rest, rfl⟩ := Nat.exists_eq_add_of_lt hm
  have hlast : accounts.length * (2 ^ 64 - 1) / accounts.length + 1 = 2 ^ 64 := by
    rw [Nat.mul_div_cancel_left _ hn]
    rfl
  rw [Nat.add_assoc, List.range_add, List.map_append, run_append_eq, hrun, Option.bind_some, List.map_map,
    List.range_succ_eq_map, List.map_cons, run, Function.comp_apply, Nat.add_zero, step_last hlast]

/-- Whole rounds leave every account with its first balance. -/
theorem Rotated.rounds {rounds : Nat} (hready : Ready hn value start) (hrounds : rounds < 2 ^ 64)
    (h : Rotated hn value start (accounts.length * rounds) L) {i : Nat} (hi : i < accounts.length) :
    (L (accountAt hn i).key).balance = defaultAccountBalance ∧ (L (accountAt hn i).key).nonce.base.toNat = rounds ∧
      (L (accountAt hn i).key).nonce.bitmap = 0 := by
  have hback : accountAt hn (accounts.length * rounds) = accountAt hn 0 := by
    rw [← accountAt_mod hn (accounts.length * rounds), Nat.mul_mod_right]
  have hbalance := (hback ▸ h.balance).eq_of_self (accountAt hn i).key
  simp only [hready.untouched] at hbalance
  rw [h.nonce i hi, signed_rounds hn]
  exact ⟨UInt64.toNat_inj.1 hbalance, toNat_ofNat hrounds, rfl⟩

end Rounds

/-- What the load generator signs is executed in blocks of any sizes, and after whole rounds all balances
are back and all nonces in order, until an account has to take the last nonce. -/
theorem spam_executes (S : Signer K D) (strategy : Strategy) (accounts : List (SpamAccount K)) (value : NonZeroU64)
    (db : StateDb) (counts : List Nat) (hparameters : validateParameters accounts.length value.1 = .ok value)
    (hdistinct : (accounts.map SpamAccount.publicKey).Nodup)
    (hdb : ∀ account ∈ accounts, db.account account.key = default)
    (hcounts : ∀ count ∈ counts, 0 < count) :
    ∃ transactions ring, signBatches S strategy accounts value (.start accounts.length) counts = .ok (transactions, ring) ∧
      transactions.length = counts.sum ∧
      ∀ m ≤ counts.sum, ∀ blocks : List (List (SignedTransaction D)), blocks.flatten = transactions.take m →
        ((run (executeBlock S.sha256) db blocks).isSome = true ↔ m ≤ accounts.length * (2 ^ 64 - 1)) ∧
        ∀ db' rounds, run (executeBlock S.sha256) db blocks = some db' → m = accounts.length * rounds →
          ∀ account ∈ accounts, (db'.account account.key).balance = defaultAccountBalance ∧
            (db'.account account.key).nonce.base.toNat = rounds ∧ (db'.account account.key).nonce.bitmap = 0 := by
  obtain ⟨htwo, hvalue⟩ := validateParameters_ok hparameters
  have hn : 0 < accounts.length := by omega
  have hsigned := signBatches_after hn S value strategy hcounts 0
  rw [Ring.after_zero] at hsigned
  refine ⟨_, _, hsigned, by simp, ?_⟩
  intro m hm blocks hblocks
  have hready : Ready hn value db.account := ⟨htwo, hdistinct, hvalue, fun k => hdb _ (List.get_mem _ _)⟩
  rw [← List.range_eq_range', ← List.map_take, List.take_range, Nat.min_eq_left hm] at hblocks
  have hrun := run_stream hn S value hblocks db
  rcases Nat.lt_or_ge (accounts.length * (2 ^ 64 - 1)) m with hlarge | hsmall
  · rw [run_transfers_none hready hlarge, Option.map_eq_none_iff] at hrun
    rw [hrun]
    constructor
    · simpa using hlarge
    · rintro db' rounds ⟨⟩
  · obtain ⟨L, hL, hrotated⟩ := run_transfers (S := S) hready hsmall
    rw [hL] at hrun
    obtain ⟨last, hlast, rfl⟩ := Option.map_eq_some_iff.1 hrun
    rw [hlast]
    constructor
    · simpa using hsmall
    · rintro db' rounds ⟨⟩ rfl account hmem
      obtain ⟨i, hi, rfl⟩ := List.getElem_of_mem hmem
      have hat : accounts[i] = accountAt hn i := by
        unfold accountAt
        simp [Nat.mod_eq_of_lt hi]
      rw [hat]
      exact hrotated.rounds hready (by have := Nat.le_of_mul_le_mul_left hsmall hn; omega) hi

def sampleSigner : Signer Unit Unit where
  sha256 := fun _ => filledBytes 32 0
  hasher := ⟨fun _ => (), fun _ => []⟩
  sign := fun _ _ _ => filledBytes 64 0

def samplePair : List (SpamAccount Unit) := [⟨(), filledBytes 32 1⟩, ⟨(), filledBytes 32 2⟩]

theorem samplePair_distinct : (samplePair.map SpamAccount.publicKey).Nodup := by decide

theorem wholeBalance_ne_zero : defaultAccountBalance ≠ 0 := by decide

def wholeBalance : NonZeroU64 := ⟨defaultAccountBalance, wholeBalance_ne_zero⟩

/-- Two accounts hand their whole balance on, in two batches and in blocks that end within a round. -/
theorem spam_executes_sample :
    ∃ transactions ring, signBatches sampleSigner .sequential samplePair wholeBalance (.start 2) [1, 3] =
        .ok (transactions, ring) ∧
      ∀ blocks : List (List (SignedTransaction Unit)), blocks.flatten = transactions →
        (run (executeBlock sampleSigner.sha256) (fun _ => none) blocks).isSome = true := by
  obtain ⟨transactions, ring, hsigned, hlength, hblocks⟩ := spam_executes sampleSigner .sequential samplePair wholeBalance
    (fun _ => none) [1, 3] rfl samplePair_distinct (fun _ _ => rfl) (by decide)
  refine ⟨transactions, ring, hsigned, ?_⟩
  intro blocks hflatten
  exact (hblocks 4 le_rfl blocks (hflatten.trans (List.take_of_length_le hlength.le).symm)).1.2 (by decide)

/-- After `2 ^ 64 - 1` rounds of two accounts the next transfer carries the last nonce and fails. -/
theorem spam_exhausts_nonces :
    ∃ counts : List Nat, (∀ count ∈ counts, 0 < count) ∧
      ∃ transactions ring, signBatches sampleSigner .sequential samplePair wholeBalance (.start 2) counts =
          .ok (transactions, ring) ∧
        run (executeBlock sampleSigner.sha256) (fun _ => none) (transactions.map fun transaction => [transaction]) = none := by
  obtain ⟨m, hm⟩ : ∃ m, samplePair.length * (2 ^ 64 - 1) < m := ⟨_, Nat.lt_succ_self _⟩
  have hcounts : ∀ count ∈ List.replicate m 1, 0 < count := by
    intro count hmem
    rw [List.eq_of_mem_replicate hmem]
    exact Nat.one_pos
  have hn : 0 < samplePair.length := Nat.two_pos
  have hsigned := signBatches_after hn sampleSigner wholeBalance .sequential hcounts 0
  rw [Ring.after_zero, List.sum_replicate, smul_eq_mul, Nat.mul_one, ← List.range_eq_range'] at hsigned
  refine ⟨_, hcounts, _, _, hsigned, ?_⟩
  have hrun := run_stream (m := m) hn sampleSigner wholeBalance (List.flatMap_singleton' _) fun _ => none
  rw [run_transfers_none ⟨le_rfl, samplePair_distinct, le_rfl, fun _ => rfl⟩ hm] at hrun
  exact Option.map_eq_none_iff.1 hrun

end Spammer

end Constantinople
