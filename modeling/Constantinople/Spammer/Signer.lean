/-
The load generator, as in `bin/spammer` (`signer.rs`, and the parameter checks and the presigner of
`main.rs`). Accounts stand in a ring and each pays the next one. The signer walks the ring and counts a
nonce for every account, so what it signs does not depend on the sizes of its batches: the `k`-th
transaction is from account `k` modulo the ring to the one after it, with the number of completed rounds as
its nonce. Signing with a private key is a parameter. A nonce wraps, as in a release build.
-/
import Constantinople.Executor.Basic
import Mathlib.Data.Int.CardIntervalMod

namespace Constantinople

/-- `TRANSACTION_NAMESPACE`. -/
def transactionNamespace : Bytes := "constantinople-tx".toUTF8.toList

namespace Spammer

variable {K D : Type}

/-! ## The generator -/

abbrev NonZeroU64 := {value : UInt64 // value ≠ 0}

/-- A spam account with its signing key. -/
structure SpamAccount (K : Type) where
  privateKey : K
  publicKey : FixedBytes 32

/-- The checks of `main` on the number of accounts and the value of a transfer. -/
def validateParameters (accountsCount : Nat) (value : UInt64) : Except String NonZeroU64 :=
  if accountsCount < 2 then .error "need at least 2 accounts for a ring"
  else if h : value = 0 then .error "transfer value must be > 0"
  else if defaultAccountBalance < value then
    .error ("transfer value (" ++ toString value ++ ") must be <= DEFAULT_ACCOUNT_BALANCE (" ++
      toString defaultAccountBalance ++ ")")
  else .ok ⟨value, h⟩

/-- What signing rests on. -/
structure Signer (K D : Type) where
  sha256 : Sha256
  hasher : Hasher D
  sign : K → Bytes → Bytes → FixedBytes 64

def signOne (S : Signer K D) (sender : SpamAccount K) (recipient : FixedBytes 32) (value : NonZeroU64) (nonce : UInt64) :
    SignedTransaction D :=
  SignedTransaction.sealAndSign S.hasher (fun domain message => .ed25519 (S.sign sender.privateKey domain message))
    transactionNamespace (.new S.sha256 (.ed25519 sender.publicKey) (.ed25519 recipient) value nonce)

/-- The arguments that a batch changes: the next nonce of every account, and the next sender. -/
structure Ring where
  nonces : List UInt64
  cursor : Nat

/-- As `spawn_presigner` starts. -/
def Ring.start (n : Nat) : Ring := ⟨List.replicate n 0, 0⟩

/-- The loop of `sign_batch` over `count` transactions: the senders and their nonces. -/
def signWork (n : Nat) : Nat → Ring → Except String (List (Nat × UInt64) × Ring)
  | 0, ring => .ok ([], ring)
  | count + 1, ring =>
    match ring.nonces[ring.cursor]? with
    | none => .error "index out of bounds"
    | some nonce =>
      match signWork n count ⟨ring.nonces.set ring.cursor (nonce + 1), (ring.cursor + 1) % n⟩ with
      | .error message => .error message
      | .ok (work, last) => .ok ((ring.cursor, nonce) :: work, last)

/-- One item of the work; the recipient is the next account of the ring. -/
def signItem (S : Signer K D) (accounts : List (SpamAccount K)) (value : NonZeroU64) (item : Nat × UInt64) :
    Option (SignedTransaction D) :=
  match accounts[item.1]?, accounts[(item.1 + 1) % accounts.length]? with
  | some sender, some recipient => some (signOne S sender recipient.publicKey value item.2)
  | _, _ => none

/-- A batch; its asserts fail with their messages. -/
def signBatch (S : Signer K D) (strategy : Strategy) (accounts : List (SpamAccount K)) (value : NonZeroU64) (ring : Ring)
    (count : Nat) : Except String (List (SignedTransaction D) × Ring) :=
  if accounts.length ≠ ring.nonces.length then .error "nonces must match accounts"
  else if accounts.isEmpty then .error "need at least one account"
  else if ¬ 0 < count then .error "need at least one transaction"
  else
    match signWork accounts.length count ring with
    | .error message => .error message
    | .ok (work, ring) =>
      match (strategy.mapCollectVec work (signItem S accounts value)).mapM id with
      | none => .error "index out of bounds"
      | some transactions => .ok (transactions, ring)

/-- One batch after the other, as the presigner signs them. -/
def signBatches (S : Signer K D) (strategy : Strategy) (accounts : List (SpamAccount K)) (value : NonZeroU64) :
    Ring → List Nat → Except String (List (SignedTransaction D) × Ring)
  | ring, [] => .ok ([], ring)
  | ring, count :: counts =>
    match signBatch S strategy accounts value ring count with
    | .error message => .error message
    | .ok (batch, ring) =>
      match signBatches S strategy accounts value ring counts with
      | .error message => .error message
      | .ok (rest, ring) => .ok (batch ++ rest, ring)

/-! ## What it signs -/

theorem validateParameters_ok {n : Nat} {value : NonZeroU64} (h : validateParameters n value.1 = .ok value) :
    2 ≤ n ∧ value.1.toNat ≤ defaultAccountBalance.toNat := by
  unfold validateParameters at h
  split at h
  · cases h
  split at h
  · cases h
  split at h
  · cases h
  rename_i hn _ hle
  rw [UInt64.lt_iff_toNat_lt] at hle
  omega

/-- How many of the first `k` transactions account `i` of a ring of `n` has signed. -/
def signed (n k i : Nat) : Nat := k.count (· ≡ i [MOD n])

theorem signed_sender {n k : Nat} (hn : 0 < n) : signed n k (k % n) = k / n := by
  rw [signed, Nat.count_modEq_card k hn, Nat.mod_mod, if_neg (lt_irrefl _), Nat.add_zero]

theorem signed_rounds {n : Nat} (hn : 0 < n) (rounds i : Nat) : signed n (n * rounds) i = rounds := by
  rw [signed, Nat.count_modEq_card _ hn, Nat.mul_mod_right, if_neg (Nat.not_lt_zero _), Nat.mul_div_cancel_left _ hn,
    Nat.add_zero]

theorem signed_succ {n k i : Nat} (hi : i < n) : signed n (k + 1) i = if i = k % n then signed n k i + 1 else signed n k i := by
  have hmod : k ≡ i [MOD n] ↔ i = k % n := by
    unfold Nat.ModEq
    rw [Nat.mod_eq_of_lt hi]
    exact eq_comm
  unfold signed
  rw [Nat.count_succ]
  simp only [hmod]
  split
  · rfl
  · rfl

/-- The ring after `k` transactions. -/
def Ring.after (n k : Nat) : Ring := ⟨(List.range n).map fun i => UInt64.ofNat (signed n k i), k % n⟩

theorem Ring.after_zero (n : Nat) : Ring.after n 0 = Ring.start n := by
  unfold Ring.after Ring.start
  rw [Nat.zero_mod]
  congr 1
  exact List.eq_replicate_iff.2 ⟨by simp, by simp [signed]⟩

/-- One iteration takes the ring from `k` transactions to `k + 1`. -/
theorem Ring.after_succ {n : Nat} (hn : 0 < n) (k : Nat) :
    (Ring.after n k).nonces[k % n]? = some (UInt64.ofNat (k / n)) ∧
    (⟨(Ring.after n k).nonces.set (k % n) (UInt64.ofNat (k / n) + 1), (k % n + 1) % n⟩ : Ring) = Ring.after n (k + 1) := by
  have hlt : k % n < n := Nat.mod_lt k hn
  constructor
  · simp [Ring.after, hlt, signed_sender hn]
  · unfold Ring.after
    rw [Nat.mod_add_mod]
    congr 1
    refine List.ext_getElem (by simp) ?_
    intro i hi _
    have hi : i < n := by simpa using hi
    simp only [List.getElem_set, List.getElem_map, List.getElem_range, signed_succ hi, eq_comm (a := k % n)]
    split
    · rename_i h
      rw [h, signed_sender hn, UInt64.ofNat_add]
      rfl
    · rfl

theorem signWork_after {n : Nat} (hn : 0 < n) (count k : Nat) :
    signWork n count (Ring.after n k) =
      .ok ((List.range' k count).map fun j => (j % n, UInt64.ofNat (j / n)), Ring.after n (k + count)) := by
  induction count generalizing k with
  | zero => rfl
  | succ count ih =>
    obtain ⟨hget, hset⟩ := Ring.after_succ hn k
    unfold signWork
    rw [show (Ring.after n k).cursor = k % n from rfl, hget]
    simp only [hset, ih, List.range'_succ, List.map_cons, Nat.add_assoc, Nat.add_comm 1]

section Stream

variable {accounts : List (SpamAccount K)} (hn : 0 < accounts.length) (S : Signer K D) (value : NonZeroU64)

/-- The account at a position of the ring. -/
def accountAt (k : Nat) : SpamAccount K := accounts.get ⟨k % accounts.length, Nat.mod_lt k hn⟩

/-- The `k`-th transaction that is signed. -/
def transactionAt (k : Nat) : SignedTransaction D :=
  signOne S (accountAt hn k) (accountAt hn (k + 1)).publicKey value (UInt64.ofNat (k / accounts.length))

theorem getElem?_accountAt (k : Nat) : accounts[k % accounts.length]? = some (accountAt hn k) :=
  List.getElem?_eq_getElem (Nat.mod_lt k hn)

theorem signItem_at (k : Nat) :
    signItem S accounts value (k % accounts.length, UInt64.ofNat (k / accounts.length)) = some (transactionAt hn S value k) := by
  unfold signItem
  simp only [Nat.mod_add_mod, getElem?_accountAt hn]
  rfl

theorem signBatch_after (strategy : Strategy) {count : Nat} (hcount : 0 < count) (k : Nat) :
    signBatch S strategy accounts value (Ring.after accounts.length k) count =
      .ok ((List.range' k count).map (transactionAt hn S value), Ring.after accounts.length (k + count)) := by
  unfold signBatch
  rw [if_neg (by simp [Ring.after]), if_neg (by simpa using List.length_pos_iff.1 hn), if_neg (not_not.2 hcount),
    signWork_after hn]
  have hwork : ((List.range' k count).map fun j => (j % accounts.length, UInt64.ofNat (j / accounts.length))).map
      (signItem S accounts value) = ((List.range' k count).map (transactionAt hn S value)).map some := by
    rw [List.map_map, List.map_map]
    exact List.map_congr_left fun j _ => signItem_at hn S value j
  have hcollect : (strategy.mapCollectVec
      ((List.range' k count).map fun j => (j % accounts.length, UInt64.ofNat (j / accounts.length)))
      (signItem S accounts value)).mapM id = some ((List.range' k count).map (transactionAt hn S value)) := by
    rw [strategy.mapCollectVec_eq, mapM_eq_some_iff, List.map_id, hwork]
  simp only [hcollect]

/-- Batches of any sizes sign one stream of transactions. -/
theorem signBatches_after (strategy : Strategy) {counts : List Nat} (hcounts : ∀ count ∈ counts, 0 < count) (k : Nat) :
    signBatches S strategy accounts value (Ring.after accounts.length k) counts =
      .ok ((List.range' k counts.sum).map (transactionAt hn S value), Ring.after accounts.length (k + counts.sum)) := by
  induction counts generalizing k with
  | nil => rfl
  | cons count counts ih =>
    obtain ⟨hcount, hcounts⟩ := List.forall_mem_cons.1 hcounts
    unfold signBatches
    simp only [signBatch_after hn S value strategy hcount, ih hcounts, List.sum_cons, ← List.map_append,
      List.range'_append_1, Nat.add_assoc]

end Stream

end Spammer

end Constantinople
