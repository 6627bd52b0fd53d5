/-
Propose, verify and apply, as in `crates/application/src/consensus/lifecycle.rs`. Verification joins a
signature task with the execution of the body; a spawned task runs to its end here, so the reasons
for a closed task do not arise. The certified apply of a block that was verified computes what
verification computed.
-/
import Constantinople.Consensus.Execution
import Mathlib.Tactic

namespace Constantinople

variable {C D : Type}

/-- The parts of the application that proposing, verifying and applying use. -/
structure Application (D : Type) where
  env : Env D
  qmdb : Qmdb D
  signatureStrategy : Strategy
  hashStrategy : Strategy
  transactionNamespace : Bytes

/-- Fixed consensus cutoff for block timestamps. -/
def maxBlockTimestampMs : UInt64 := 7258118400000

def isValidChildTimestamp (parentTimestampMs childTimestampMs : UInt64) : Bool :=
  decide (parentTimestampMs < childTimestampMs) && decide (childTimestampMs ≤ maxBlockTimestampMs)

namespace Application

variable (A : Application D)

/-- All bodies decode and all signatures verify. -/
def verifySignatures (rng : Nat) (body : List (LazySignedTransaction D)) : Except String Unit :=
  match (preloadTransactionChunks A.env A.hashStrategy body).filter
      (verifyTransactionBatch A.env A.signatureStrategy A.transactionNamespace rng) with
  | none => .error invalidSignature
  | some _ => .ok ()

def materializeBody (transactions : List (LazySignedTransaction D)) : Except String (List (SignedTransaction D)) :=
  match materializeTransactionChunks A.env A.hashStrategy transactions with
  | none => .error malformedTransaction
  | some transactions => .ok transactions

/-- Proposes a child from the transactions the input source gave. -/
def proposeChild (codecs : HeaderCodecs C D) (context : C) (timestamp : UInt64) (parent : SealedBlock C D)
    (stateBatch : StateBatch) (transactionBatch : TransactionBatch D) (body : List (SignedTransaction D)) :
    Panics (SealedBlock C D × MerkleizedDatabases D) := do
  let input := prepareProposal A.env.crypto.sha256 body
  let candidateTransfers := input.candidates.map PreparedTransaction.transfer
  let (execution, body) ← executeProposal A.qmdb stateBatch transactionBatch parent.inner input candidateTransfers
  let header : Header C D :=
    ⟨context, parent.sealDigest, parent.inner.header.height + 1, timestamp, execution.state.root,
      execution.stateSyncRange, execution.transactions.root, execution.transactionsRange⟩
  return ((Block.new header body).sealWith A.env codecs, execution.intoMerkleized)

/-- Verifies a child against its parent: the databases after it, or `none` for a rejected block. -/
def verifyChild [DecidableEq D] (rng : Nat) (block parent : SealedBlock C D) (stateBatch : StateBatch)
    (transactionBatch : TransactionBatch D) : Panics (Option (MerkleizedDatabases D)) :=
  let header := block.inner.header
  let body := block.inner.body
  if !isValidChildTimestamp parent.inner.header.timestamp header.timestamp then .ok none
  else
    match A.verifySignatures rng body with
    | .error _ => .ok none
    | .ok () =>
      match executeBody A.env A.qmdb stateBatch transactionBatch parent.inner body with
      | .error panic => .error panic
      | .ok (.error _) => .ok none
      | .ok (.ok execution) =>
        if commitmentsMatch header execution then .ok (some execution.intoMerkleized) else .ok none

/-- Applies a certified block; what it cannot apply makes it panic. -/
def applyCertified (block : SealedBlock C D) (stateBatch : StateBatch) (transactionBatch : TransactionBatch D) :
    Panics (MerkleizedDatabases D) :=
  match A.materializeBody block.inner.body with
  | .error reason => .error (.expect ("certified block contained " ++ reason))
  | .ok materialized =>
    match materialized.mapM (prepareTransfer A.env.crypto.sha256) with
    | none => .error (.expect ("certified block contained " ++ malformedTransaction))
    | some transfers =>
      match applyPreparedBody A.qmdb stateBatch transactionBatch block.inner.header.transactionsRange.start
          transfers with
      | .error reason => .error (.expect ("certified block contained " ++ reason))
      | .ok databases => .ok databases

end Application

/-! ## What an accepted block satisfies -/

theorem rangeFromBounds_ok {bounds : Bounds} {range : NonEmptyRange} (h : rangeFromBounds bounds = .ok range) :
    range.start = bounds.inactivityFloor ∧ range.stop = bounds.totalSize := by
  unfold rangeFromBounds at h
  split at h
  · rename_i r hr; cases h; exact NonEmptyRange.new_eq_some hr
  · cases h

/-- Everything a finished child execution went through. -/
theorem finalizeChild_ok {Q : Qmdb D} {sb : StateBatch} {tb : TransactionBatch D} {parent : Block C D} {n : Nat}
    {msg : String} {ex : BlockExecution D} (h : finalizeChild Q sb tb parent n msg = .ok ex) :
    ∃ floor, parentTransactionsInactivityFloor parent = .ok floor ∧
      finalizeExecution Q sb (tb.withInactivityFloor floor) = .ok (ex.state, ex.transactions) ∧
      rangeFromBounds ex.state.bounds = .ok ex.stateSyncRange ∧
      rangeFromBounds ex.transactions.bounds = .ok ex.transactionsRange ∧ ex.transactionCount = n := by
  unfold finalizeChild at h
  rcases hfloor : parentTransactionsInactivityFloor parent with p | floor
  · rw [hfloor] at h; cases h
  rw [hfloor] at h
  simp only [bind, Except.bind, pure, Except.pure] at h
  rcases hfin : finalizeExecution Q sb (tb.withInactivityFloor floor) with e | ⟨state, transactions⟩
  · rw [hfin] at h; cases h
  rw [hfin] at h
  simp only at h
  rcases hs : rangeFromBounds state.bounds with p | sr
  · rw [hs] at h; cases h
  rcases ht : rangeFromBounds transactions.bounds with p | tr
  · rw [hs, ht] at h; cases h
  rw [hs, ht] at h
  cases h
  exact ⟨floor, rfl, hfin, hs, ht, rfl⟩

/-- What verification established about an accepted block: the transfers of its body, their changeset,
and the execution whose databases it returned. -/
structure Accepted [DecidableEq D] (A : Application D) (rng : Nat) (block parent : SealedBlock C D) (sb : StateBatch)
    (tb : TransactionBatch D) (transfers : List (PreparedTransfer D)) (changeset : Changeset)
    (execution : BlockExecution D) : Prop where
  timestamp : isValidChildTimestamp parent.inner.header.timestamp block.inner.header.timestamp = true
  signatures : A.verifySignatures rng block.inner.body = .ok ()
  prepared : block.inner.body.mapM (fun t => (t.get A.env).bind (prepareTransfer A.env.crypto.sha256)) = some transfers
  executed : executeLoaded (loadExecutionState sb.get transfers) transfers = some changeset
  finalized : finalizeChild A.qmdb (sb.applyChangeset changeset)
    (tb.applyTransactionDigests (transferDigests transfers)) parent.inner transfers.length
    "database merkleization during verification must succeed" = .ok execution
  committed : commitmentsMatch block.inner.header execution = true

theorem verifyChild_accepted [DecidableEq D] {A : Application D} {rng : Nat} {block parent : SealedBlock C D}
    {sb : StateBatch} {tb : TransactionBatch D} {dbs : MerkleizedDatabases D}
    (h : A.verifyChild rng block parent sb tb = .ok (some dbs)) :
    ∃ transfers changeset execution, Accepted A rng block parent sb tb transfers changeset execution ∧
      dbs = execution.intoMerkleized := by
  unfold Application.verifyChild at h
  simp only at h
  split at h
  · cases h
  rename_i htime
  split at h
  · cases h
  rename_i hsig
  split at h
  · cases h
  · cases h
  rename_i ex hex
  split at h
  · rename_i hmatch
    cases h
    unfold executeBody at hex
    split at hex
    · cases hex
    rename_i transfers hprep
    split at hex
    · cases hex
    rename_i changeset hcs
    rcases hfin : finalizeChild A.qmdb (sb.applyChangeset changeset)
      (tb.applyTransactionDigests (transferDigests transfers)) parent.inner transfers.length
      "database merkleization during verification must succeed" with p | ex'
    · rw [hfin] at hex; cases hex
    rw [hfin] at hex
    cases hex
    exact ⟨transfers, changeset, ex, ⟨by simpa using htime, hsig, hprep, hcs, hfin, hmatch⟩, rfl⟩
  · cases h

namespace Accepted

variable [DecidableEq D] {A : Application D} {rng : Nat} {block parent : SealedBlock C D} {sb : StateBatch}
  {tb : TransactionBatch D} {transfers : List (PreparedTransfer D)} {changeset : Changeset}
  {execution : BlockExecution D} (h : Accepted A rng block parent sb tb transfers changeset execution)

include h

theorem range : execution.transactionsRange = block.inner.header.transactionsRange := by
  have hmatch := h.committed
  simp only [commitmentsMatch, Bool.and_eq_true, decide_eq_true_eq] at hmatch
  exact hmatch.2.2.2

theorem length_transfers : transfers.length = block.inner.body.length := by
  have := congrArg List.length (mapM_eq_some_iff.1 h.prepared)
  simpa using this.symm

end Accepted

/-! ## Digests of a body -/

theorem applyTransactionDigests_eq (digests : List D) : ∀ batch : TransactionBatch D,
    batch.applyTransactionDigests digests = { batch with appends := batch.appends ++ digests } := by
  induction digests with
  | nil => intro batch; simp [TransactionBatch.applyTransactionDigests]
  | cons d digests ih =>
    intro batch
    show (batch.append d).applyTransactionDigests digests = _
    rw [ih]
    simp [TransactionBatch.append]

theorem prepareTransfer_some {sha256 : Sha256} {tx : SignedTransaction D} {t : PreparedTransfer D}
    (h : prepareTransfer sha256 tx = some t) :
    AccountKey.fromPublicKeyBytes sha256 tx.value.sender.write = some t.sender ∧ t.digest = tx.messageDigest := by
  unfold prepareTransfer at h
  simp only at h
  split at h
  · cases h
  · rename_i key hkey; cases h; exact ⟨hkey, rfl⟩

/-- The digests of the transfers are those of the body they were prepared from. -/
theorem transferDigests_eq {E : Env D} : ∀ {body : List (LazySignedTransaction D)} {ts : List (PreparedTransfer D)},
    body.map (fun t => (t.get E).bind (prepareTransfer E.crypto.sha256)) = ts.map some →
    transferDigests ts = bodyDigests E body
  | [], [], _ => rfl
  | [], _ :: _, h => by cases h
  | _ :: _, [], h => by cases h
  | lazy :: body, t :: ts, h => by
    obtain ⟨hhead, htail⟩ := List.cons.inj h
    obtain ⟨tx, htx, hprep⟩ := Option.bind_eq_some_iff.1 hhead
    have ih := transferDigests_eq htail
    unfold transferDigests bodyDigests at ih ⊢
    rw [List.map_cons, ih, List.filterMap_cons, htx, Option.map_some, (prepareTransfer_some hprep).2]

/-! ## Certified apply -/

theorem materializeTransactionChunks_eq (E : Env D) (strategy : Strategy) (ts : List (LazySignedTransaction D)) :
    materializeTransactionChunks E strategy ts = ts.mapM fun t => t.get E := by
  unfold materializeTransactionChunks
  split
  · rename_i h; rw [List.isEmpty_iff.1 h]; rfl
  split
  · rfl
  · rw [Strategy.mapCollectVec_eq]
    simp only [List.mapM_map, Function.comp_def, id]

/-- A floor set on a batch is the floor its bounds report. -/
def Qmdb.ReportsFloor (Q : Qmdb D) : Prop :=
  ∀ (batch : TransactionBatch D) (root : D) (bounds : Bounds), Q.merkleizeTransactions batch = .ok (root, bounds) →
    bounds.inactivityFloor = batch.inactivityFloor

theorem finalizeExecution_transactions {Q : Qmdb D} {sb : StateBatch} {tb : TransactionBatch D}
    {dbs : MerkleizedDatabases D} (h : finalizeExecution Q sb tb = .ok dbs) :
    dbs.1.batch = sb ∧ dbs.2.batch = tb ∧ Q.merkleizeTransactions tb = .ok (dbs.2.root, dbs.2.bounds) := by
  unfold finalizeExecution at h
  split at h
  · cases h
  · cases h
  · rename_i ht; cases h; exact ⟨rfl, rfl, ht⟩

theorem finalizeExecution_state {Q : Qmdb D} {sb : StateBatch} {tb : TransactionBatch D}
    {dbs : MerkleizedDatabases D} (h : finalizeExecution Q sb tb = .ok dbs) :
    Q.merkleizeState sb = .ok (dbs.1.root, dbs.1.bounds) := by
  unfold finalizeExecution at h
  split at h
  · cases h
  · cases h
  · rename_i hs _; cases h; exact hs

/-- The floor the certified apply reads from the header is the one verification derived from the parent. -/
theorem Accepted.floor_eq [DecidableEq D] {A : Application D} {rng : Nat} {block parent : SealedBlock C D}
    {sb : StateBatch} {tb : TransactionBatch D} {transfers : List (PreparedTransfer D)} {changeset : Changeset}
    {execution : BlockExecution D} (h : Accepted A rng block parent sb tb transfers changeset execution)
    (hQ : A.qmdb.ReportsFloor) :
    finalizeExecution A.qmdb (sb.applyChangeset changeset)
      ((tb.applyTransactionDigests (transferDigests transfers)).withInactivityFloor
        block.inner.header.transactionsRange.start) = .ok execution.intoMerkleized := by
  obtain ⟨floor, -, hdb, -, hrange, -⟩ := finalizeChild_ok h.finalized
  obtain ⟨-, -, hm⟩ := finalizeExecution_transactions hdb
  have hstart : block.inner.header.transactionsRange.start = floor := by
    rw [← h.range, (rangeFromBounds_ok hrange).1, hQ _ _ _ hm]
    rfl
  rw [hstart]
  exact hdb

/-- Certified apply reproduces verification: the same writes, appended digests and floor, with the
same roots and bounds, and no panic. -/
theorem applyCertified_reproduces [DecidableEq D] (A : Application D) (hQ : A.qmdb.ReportsFloor) (rng : Nat)
    (block parent : SealedBlock C D) (sb : StateBatch) (tb : TransactionBatch D) (dbs : MerkleizedDatabases D)
    (h : A.verifyChild rng block parent sb tb = .ok (some dbs)) : A.applyCertified block sb tb = .ok dbs := by
  obtain ⟨transfers, changeset, execution, hacc, rfl⟩ := verifyChild_accepted h
  obtain ⟨txs, htxs, hprep⟩ := mapM_bind_some hacc.prepared
  have hmat : A.materializeBody block.inner.body = .ok txs := by
    unfold Application.materializeBody
    rw [materializeTransactionChunks_eq, htxs]
  have happly : applyPreparedBody A.qmdb sb tb block.inner.header.transactionsRange.start transfers =
      .ok execution.intoMerkleized := by
    unfold applyPreparedBody
    simp only [hacc.executed, hacc.floor_eq hQ]
  unfold Application.applyCertified
  simp only [hmat, hprep, happly]

/-! ## A small instance -/

/-- An application whose digests are byte counts and whose roots count operations. -/
def countingApplication : Application Nat where
  env :=
    { crypto := permissiveCrypto
      hasher := ⟨fun bytes => bytes.length, fun n => [UInt8.ofNat n]⟩
      usize := ⟨fun n => [UInt8.ofNat n], do let n ← Reader.u8; return n.toNat⟩ }
  qmdb :=
    { merkleizeState := fun batch => .ok (batch.writes.length, ⟨0, UInt64.ofNat (batch.writes.length + 1)⟩)
      merkleizeTransactions := fun batch =>
        if batch.base.length + batch.appends.length + 1 < 2 ^ 64 then
          .ok (batch.appends.length,
            ⟨batch.inactivityFloor, UInt64.ofNat (batch.base.length + batch.appends.length + 1)⟩)
        else .error "too many operations" }
  signatureStrategy := .sequential
  hashStrategy := .sequential
  transactionNamespace := []

/-- An ed25519 transfer of `value` between two keys of repeated bytes. -/
def sampleTransaction (sender recipient : UInt8) (value nonce : UInt64) (h : value ≠ 0) : SignedTransaction Nat :=
  ⟨(⟨.value (.ed25519 ⟨List.replicate 32 sender, rfl⟩), .filled recipient, value, h, nonce⟩ : Transaction).sealWith
      countingApplication.env.hasher, .ed25519 ⟨List.replicate 64 0, rfl⟩⟩

theorem sampleValue_ne_zero : (5 : UInt64) ≠ 0 := by decide

/-- Codecs for the unit context and one-byte digests. -/
def countingCodecs : HeaderCodecs Unit Nat :=
  ⟨⟨fun _ => [], pure ()⟩, ⟨fun n => [UInt8.ofNat n], do let n ← Reader.u8; return n.toNat⟩⟩

def sampleGenesis : SealedBlock Unit Nat :=
  (Block.new ⟨(), 0, 0, 0, 0, ⟨0, 1, by decide⟩, 0, ⟨0, 1, by decide⟩⟩ []).sealWith countingApplication.env countingCodecs

/-- A child of the genesis block with one transfer. -/
def sampleChild : SealedBlock Unit Nat :=
  (Block.new ⟨(), 51, 1, 1, 2, ⟨0, 3, by decide⟩, 1, ⟨0, 3, by decide⟩⟩
    [sampleTransaction 1 2 5 0 sampleValue_ne_zero]).sealWith countingApplication.env countingCodecs

theorem countingApplication_reportsFloor : countingApplication.qmdb.ReportsFloor := by
  intro batch root bounds h
  simp only [countingApplication] at h
  split at h
  · cases h; rfl
  · cases h

theorem applyCertified_reproduces_sample :
    ∃ dbs, countingApplication.verifyChild 0 sampleChild sampleGenesis ⟨fun _ => none, []⟩ ⟨[.commit none 0], [], 0⟩ =
        .ok (some dbs) ∧
      countingApplication.applyCertified sampleChild ⟨fun _ => none, []⟩ ⟨[.commit none 0], [], 0⟩ = .ok dbs :=
  ⟨_, rfl, applyCertified_reproduces countingApplication countingApplication_reportsFloor 0 sampleChild sampleGenesis
    _ _ _ rfl⟩

end Constantinople
