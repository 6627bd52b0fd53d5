/-
Execution and commitment checks for consensus blocks, as in `crates/application/src/consensus`
(`execution.rs`, `db.rs`, `history.rs`, `genesis.rs`). A database batch is what lies under it and what
it adds; its root and bounds are functions of that, the parameter `Qmdb`. Reads of a database succeed.
-/
import Constantinople.Executor.Basic
import Constantinople.Primitives.Block

namespace Constantinople

variable {C D : Type}

/-! ## Panics -/

/-- A panic: a failed `expect` with its message, or an empty range where one must not be. -/
inductive Panic
  | expect (message : String)
  | emptyRange
deriving DecidableEq, Repr

/-- The outcome of code that may panic. -/
abbrev Panics (α : Type) := Except Panic α

/-! ## Database batches -/

/-- An operation of the append-only transaction history. -/
inductive HistoryOp (D : Type)
  | append (digest : D)
  | commit (metadata : Option D) (inactivityFloor : UInt64)
deriving DecidableEq

/-- An unmerkleized batch of account writes. -/
structure StateBatch where
  base : StateDb
  writes : List (AccountKey × Option Account)

namespace StateBatch

def write (batch : StateBatch) (key : AccountKey) (account : Option Account) : StateBatch :=
  { batch with writes := batch.writes ++ [(key, account)] }

/-- Reads through the batch: its latest write, else what lies under it. -/
def get (batch : StateBatch) : StateDb :=
  batch.writes.foldl (fun db w => Function.update db w.1 w.2) batch.base

def applyChangeset (batch : StateBatch) (changeset : Changeset) : StateBatch :=
  changeset.foldl (fun batch entry => batch.write entry.1 (some entry.2)) batch

end StateBatch

/-- An unmerkleized batch of the transaction history, over the operations it continues. -/
structure TransactionBatch (D : Type) where
  base : List (HistoryOp D)
  appends : List D
  inactivityFloor : UInt64

namespace TransactionBatch

def append (batch : TransactionBatch D) (digest : D) : TransactionBatch D :=
  { batch with appends := batch.appends ++ [digest] }

def withInactivityFloor (batch : TransactionBatch D) (floor : UInt64) : TransactionBatch D :=
  { batch with inactivityFloor := floor }

def applyTransactionDigests (batch : TransactionBatch D) (digests : List D) : TransactionBatch D :=
  digests.foldl append batch

/-- What merkleizing the batch writes: its appends, then one commit. -/
def ops (batch : TransactionBatch D) : List (HistoryOp D) :=
  batch.appends.map .append ++ [.commit none batch.inactivityFloor]

end TransactionBatch

/-- The bounds of a merkleized batch. -/
structure Bounds where
  inactivityFloor : UInt64
  totalSize : UInt64
deriving DecidableEq

/-- A merkleized batch: the batch with its root and bounds. -/
structure Merkleized (B D : Type) where
  batch : B
  root : D
  bounds : Bounds

/-- The authenticated databases: the root and bounds of a batch, or the error merkleization ends with. -/
structure Qmdb (D : Type) where
  merkleizeState : StateBatch → Except String (D × Bounds)
  merkleizeTransactions : TransactionBatch D → Except String (D × Bounds)

abbrev MerkleizedDatabases (D : Type) := Merkleized StateBatch D × Merkleized (TransactionBatch D) D

def finalizeExecution (Q : Qmdb D) (stateBatch : StateBatch) (transactionBatch : TransactionBatch D) :
    Except String (MerkleizedDatabases D) :=
  match Q.merkleizeState stateBatch, Q.merkleizeTransactions transactionBatch with
  | .error e, _ => .error e
  | .ok _, .error e => .error e
  | .ok (stateRoot, stateBounds), .ok (transactionsRoot, transactionsBounds) =>
    .ok (⟨stateBatch, stateRoot, stateBounds⟩, ⟨transactionBatch, transactionsRoot, transactionsBounds⟩)

/-! ## Ranges -/

def rangeFromBounds (bounds : Bounds) : Panics NonEmptyRange :=
  match NonEmptyRange.new bounds.inactivityFloor bounds.totalSize with
  | some range => .ok range
  | none => .error .emptyRange

/-- The floor a child sets: where the operations of its parent start. -/
def parentTransactionsInactivityFloor (parent : Block C D) : Panics UInt64 :=
  if 2 ^ 64 ≤ parent.body.length then .error (.expect "transaction count exceeded u64")
  else
    match (Word.checkedSub parent.header.transactionsRange.stop (UInt64.ofNat parent.body.length)).bind fun stop =>
        Word.checkedSub stop 1 with
    | none => .error (.expect "parent transaction range must include the parent commit")
    | some floor => .ok floor

/-! ## Executing a block -/

def malformedTransaction : String := "malformed transaction"

def staticInvalidTransaction : String := "statically invalid transaction"

def invalidSignature : String := "invalid signature"

/-- A finished execution. -/
structure BlockExecution (D : Type) where
  state : Merkleized StateBatch D
  transactions : Merkleized (TransactionBatch D) D
  stateSyncRange : NonEmptyRange
  transactionsRange : NonEmptyRange
  transactionCount : Nat

def BlockExecution.intoMerkleized (execution : BlockExecution D) : MerkleizedDatabases D :=
  (execution.state, execution.transactions)

def finalizeChild (Q : Qmdb D) (stateBatch : StateBatch) (transactionBatch : TransactionBatch D) (parent : Block C D)
    (transactionCount : Nat) (expectMessage : String) : Panics (BlockExecution D) := do
  let floor ← parentTransactionsInactivityFloor parent
  match finalizeExecution Q stateBatch (transactionBatch.withInactivityFloor floor) with
  | .error _ => .error (.expect expectMessage)
  | .ok (state, transactions) =>
    let stateSyncRange ← rangeFromBounds state.bounds
    let transactionsRange ← rangeFromBounds transactions.bounds
    return ⟨state, transactions, stateSyncRange, transactionsRange, transactionCount⟩

/-- Executes proposal candidates on their parent. -/
def executeProposal (Q : Qmdb D) (stateBatch : StateBatch) (transactionBatch : TransactionBatch D)
    (parent : Block C D) (input : ProposalInput D) (candidateTransfers : List (PreparedTransfer D)) :
    Panics (BlockExecution D × List (SignedTransaction D)) := do
  let state := loadState stateBatch.get candidateTransfers
  let output := proposePrepared state input
  let digests := transferDigests output.transfers
  let block ← finalizeChild Q (stateBatch.applyChangeset output.changeset)
    (transactionBatch.applyTransactionDigests digests) parent output.valid.length "database merkleization must succeed"
  return (block, output.valid)

/-- Executes a received body on its parent; the inner result is the rejection reason. -/
def executeBody (E : Env D) (Q : Qmdb D) (stateBatch : StateBatch) (transactionBatch : TransactionBatch D)
    (parent : Block C D) (body : List (LazySignedTransaction D)) : Panics (Except String (BlockExecution D)) :=
  match body.mapM fun t => (t.get E).bind (prepareTransfer E.crypto.sha256) with
  | none => .ok (.error malformedTransaction)
  | some transfers =>
    match executeLoaded (loadExecutionState stateBatch.get transfers) transfers with
    | none => .ok (.error staticInvalidTransaction)
    | some changeset => do
      let execution ← finalizeChild Q (stateBatch.applyChangeset changeset)
        (transactionBatch.applyTransactionDigests (transferDigests transfers)) parent transfers.length
        "database merkleization during verification must succeed"
      return .ok execution

/-- Executes prepared transfers with the given history floor. -/
def applyPreparedBody (Q : Qmdb D) (stateBatch : StateBatch) (transactionBatch : TransactionBatch D)
    (transactionFloor : UInt64) (transfers : List (PreparedTransfer D)) : Except String (MerkleizedDatabases D) :=
  match executeLoaded (loadExecutionState stateBatch.get transfers) transfers with
  | none => .error staticInvalidTransaction
  | some changeset =>
    match finalizeExecution Q (stateBatch.applyChangeset changeset)
        ((transactionBatch.applyTransactionDigests (transferDigests transfers)).withInactivityFloor
          transactionFloor) with
    | .error _ => .error staticInvalidTransaction
    | .ok databases => .ok databases

/-- The header's roots and ranges are those of the execution. -/
def commitmentsMatch [DecidableEq D] (header : Header C D) (execution : BlockExecution D) : Bool :=
  decide (execution.state.root = header.stateRoot) && (decide (execution.stateSyncRange = header.stateRange) &&
    (decide (execution.transactions.root = header.transactionsRoot) &&
      decide (execution.transactionsRange = header.transactionsRange)))

/-! ## Genesis -/

/-- The genesis block: height 0, no transactions, the history of `leafCount` operations. `empty` is
the empty digest its parent field holds. -/
def genesisBlockWithParent (E : Env D) (codecs : HeaderCodecs C D) (context : C) (empty : D) (timestamp : UInt64)
    (stateRoot : D) (stateRange : NonEmptyRange) (transactionsRoot : D) (leafCount : UInt64) :
    Panics (SealedBlock C D) :=
  match NonEmptyRange.new 0 leafCount with
  | none => .error .emptyRange
  | some transactionsRange =>
    .ok ((Block.new ⟨context, empty, 0, timestamp, stateRoot, stateRange, transactionsRoot, transactionsRange⟩
      []).sealWith E codecs)

end Constantinople
