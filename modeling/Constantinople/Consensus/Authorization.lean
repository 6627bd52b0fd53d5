/-
Every debit is authorized. Execution debits the account derived from the raw sender bytes; the
signature task checks the key decoded from the same bytes. In a block verification accepts, whoever
loses balance or changes nonce is the sender of a transaction whose signature is valid for its digest.
-/
import Constantinople.Consensus.Lifecycle
import Constantinople.Executor.Safety
import Constantinople.Primitives.Verification

namespace Constantinople

open Run

variable {C D : Type}

/-! ## Valid signatures -/

/-- An accepted signature task verified the batch of the whole body. -/
theorem verifySignatures_valid {A : Application D} (hc : A.env.crypto.BatchSound) {rng : Nat}
    {body : List (LazySignedTransaction D)} (h : A.verifySignatures rng body = .ok ()) :
    ∀ t ∈ body, ∃ tx key, t.get A.env = some tx ∧ tx.value.sender.get A.env.crypto = some key ∧
      signatureValid A.env.crypto A.transactionNamespace (A.env.hasher.bytes tx.messageDigest) key tx.signature = true := by
  unfold Application.verifySignatures at h
  split at h
  · cases h
  rename_i ts hts
  obtain ⟨hload, hbatch⟩ := Option.filter_eq_some_iff.1 hts
  obtain rfl := preloadTransactionChunks_some hload
  exact verifyTransactionBatch_valid hc hbatch

/-! ## Frames -/

/-- An account no transfer of a run debits keeps its nonce and loses nothing. -/
theorem Ledger.run_not_sender {L L' : Ledger} {ts : List (PreparedTransfer D)} (h : Run.run Ledger.step L ts = some L')
    {k : AccountKey} (hk : ∀ t ∈ ts, t.sender ≠ k) :
    (L k).balance.toNat ≤ (L' k).balance.toNat ∧ (L' k).nonce = (L k).nonce := by
  refine run_invariant (I := fun M : Ledger => (L k).balance.toNat ≤ (M k).balance.toNat ∧ (M k).nonce = (L k).nonce)
    (fun M M' t ht hi hM => ?_) ⟨le_rfl, rfl⟩ h
  have hm := step_moves hM
  have hne := (hk t ht).symm
  exact ⟨hi.1.trans (hm.balance.le_of_ne hne), (hm.nonceOther k hne).trans hi.2⟩

theorem StateBatch.get_applyChangeset (cs : Changeset) :
    ∀ batch : StateBatch, (batch.applyChangeset cs).get = Constantinople.applyChangeset batch.get cs := by
  induction cs with
  | nil => intro batch; rfl
  | cons entry cs ih =>
    intro batch
    show ((batch.write entry.1 (some entry.2)).applyChangeset cs).get = _
    rw [ih]
    simp [StateBatch.write, StateBatch.get, Constantinople.applyChangeset]

/-- A decoded transaction carries the hash of its own encoding. -/
theorem messageDigest_of_deferred {E : Env D} {pending : Bytes} {tx : SignedTransaction D}
    (h : (LazySignedTransaction.deferred pending).get E = some tx) :
    tx.messageDigest = E.hasher.hash tx.value.write := by
  unfold LazySignedTransaction.get at h
  rcases hd : Reader.decode (SignedTransaction.read E.crypto E.hasher) pending with e | t
  · simp only [hd] at h; cases h
  simp only [hd] at h
  cases h
  obtain ⟨hdig, hw⟩ := SignedTransaction.read_ok (Reader.decode_ok.1 hd)
  rw [hdig, hw]

/-- The ledger run behind an accepted block, from the state under it to the state it leaves. -/
theorem Accepted.run [DecidableEq D] {A : Application D} {rng : Nat} {block parent : SealedBlock C D}
    {sb : StateBatch} {tb : TransactionBatch D} {transfers : List (PreparedTransfer D)} {changeset : Changeset}
    {execution : BlockExecution D} (h : Accepted A rng block parent sb tb transfers changeset execution) :
    Run.run Ledger.step sb.get.account transfers = some execution.intoMerkleized.1.batch.get.account := by
  obtain ⟨floor, -, hdb, -⟩ := finalizeChild_ok h.finalized
  obtain ⟨hbatch, -⟩ := finalizeExecution_transactions hdb
  rw [show execution.intoMerkleized.1.batch = _ from hbatch, StateBatch.get_applyChangeset]
  exact (BlockStep.ofLoaded h.executed).run

/-! ## Authorization -/

/-- Some transaction of the body debits `k`: its sender bytes give the account key, decode as a public
key, and its signature has that key's scheme and verifies over the hash of the transaction. -/
def Authorizes (A : Application D) (body : List (LazySignedTransaction D)) (k : AccountKey) : Prop :=
  ∃ t ∈ body, ∃ tx key, t.get A.env = some tx ∧
    AccountKey.fromPublicKeyBytes A.env.crypto.sha256 tx.value.sender.write = some k ∧
    tx.value.sender.get A.env.crypto = some key ∧ tx.signature.scheme = key.scheme ∧
    tx.messageDigest = A.env.hasher.hash tx.value.write ∧
    signatureValid A.env.crypto A.transactionNamespace (A.env.hasher.bytes tx.messageDigest) key tx.signature = true

/-- In an accepted block read from the wire, an account that loses balance or changes nonce is debited
by an authorized transaction, and any other account keeps its nonce and loses nothing. -/
theorem debits_authorized [DecidableEq D] (A : Application D) (hc : A.env.crypto.BatchSound)
    (codecs : HeaderCodecs C D) (maxTransactions rng : Nat) (wire rest : Bytes) (block : Block C D)
    (parent : SealedBlock C D) (sb : StateBatch) (tb : TransactionBatch D) (dbs : MerkleizedDatabases D)
    (hread : Block.read A.env codecs maxTransactions wire = .ok (block, rest))
    (h : A.verifyChild rng (block.sealWith A.env codecs) parent sb tb = .ok (some dbs)) (k : AccountKey) :
    ((dbs.1.batch.get.account k).balance < (sb.get.account k).balance ∨
      (dbs.1.batch.get.account k).nonce ≠ (sb.get.account k).nonce → Authorizes A block.body k) ∧
    ((∀ t ∈ block.body, ∀ tx, t.get A.env = some tx →
        AccountKey.fromPublicKeyBytes A.env.crypto.sha256 tx.value.sender.write ≠ some k) →
      (sb.get.account k).balance ≤ (dbs.1.batch.get.account k).balance ∧
      (dbs.1.batch.get.account k).nonce = (sb.get.account k).nonce) := by
  obtain ⟨transfers, changeset, execution, hacc, rfl⟩ := verifyChild_accepted h
  have hprep := mapM_eq_some_iff.1 hacc.prepared
  -- every transfer comes from a transaction of the body
  have hsource : ∀ t ∈ transfers, ∃ lazy ∈ block.body, ∃ tx, lazy.get A.env = some tx ∧
      AccountKey.fromPublicKeyBytes A.env.crypto.sha256 tx.value.sender.write = some t.sender := by
    intro t ht
    obtain ⟨lazy, hl, hlt⟩ := List.mem_map.1 (hprep ▸ List.mem_map_of_mem ht : some t ∈ block.body.map _)
    obtain ⟨tx, htx, hpt⟩ := Option.bind_eq_some_iff.1 hlt
    exact ⟨lazy, hl, tx, htx, (prepareTransfer_some hpt).1⟩
  have hframe := fun hk => Ledger.run_not_sender hacc.run (k := k) hk
  constructor
  · intro hchange
    by_contra hno
    obtain ⟨hbal, hnonce⟩ := hframe fun t ht htk => hno <| by
      obtain ⟨lazy, hl, tx, htx, hkey⟩ := hsource t ht
      obtain ⟨tx', pk, htx', hpk, hvalid⟩ := verifySignatures_valid hc hacc.signatures lazy hl
      obtain rfl : tx = tx' := Option.some.inj (htx ▸ htx')
      obtain ⟨pending, rfl, -⟩ := Block.read_deferred hread lazy hl
      exact ⟨_, hl, tx, pk, htx, htk ▸ hkey, hpk, (scheme_eq_of_valid hvalid).symm, messageDigest_of_deferred htx, hvalid⟩
    rcases hchange with hlt | hne
    · rw [UInt64.lt_iff_toNat_lt] at hlt; omega
    · exact hne hnonce
  · intro hnot
    obtain ⟨hbal, hnonce⟩ := hframe fun t ht htk => by
      obtain ⟨lazy, hl, tx, htx, hkey⟩ := hsource t ht
      exact hnot lazy hl tx htx (htk ▸ hkey)
    exact ⟨UInt64.le_iff_toNat_le.2 hbal, hnonce⟩

set_option maxRecDepth 20000 in
theorem debits_authorized_sample :
    ∃ block dbs, Block.read countingApplication.env countingCodecs 10
        (sampleChild.inner.write countingApplication.env countingCodecs) = .ok (block, []) ∧
      countingApplication.verifyChild 0 (block.sealWith countingApplication.env countingCodecs) sampleGenesis
        ⟨fun _ => none, []⟩ ⟨[.commit none 0], [], 0⟩ = .ok (some dbs) ∧
      Authorizes countingApplication block.body (.filled 1) := by
  refine ⟨_, _, rfl, rfl, ?_⟩
  refine (debits_authorized countingApplication (fun _ _ _ _ _ => rfl) countingCodecs 10 0
    (sampleChild.inner.write countingApplication.env countingCodecs) [] _ sampleGenesis ⟨fun _ => none, []⟩
    ⟨[.commit none 0], [], 0⟩ _ rfl rfl (.filled 1)).1 (.inl ?_)
  decide

end Constantinople
