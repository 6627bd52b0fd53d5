/-
The rows the indexer derives from a finalized block and its state delta, as in
`crates/indexer/src/publisher/block.rs`, `sql.rs` and the row helpers of `qmdb.rs`. A row is kept as
the typed record it is encoded from. Transactions are indexed from their encoded bytes alone.
-/
import Constantinople.Consensus.Execution

namespace Constantinople

variable {C D : Type}

/-! ## Rows -/

inductive TxActivityRole
  | sender
  | receiver
deriving DecidableEq, Repr

def TxActivityRole.asU64 : TxActivityRole → UInt64
  | .sender => 0
  | .receiver => 1

structure BlockMetaRow (D : Type) where
  height : UInt64
  digest : D
  txCount : UInt64
  transactionsRoot : D
  transactionsTip : UInt64
  view : UInt64
  finalizedTsMicros : Int

structure TxMetaRow (D : Type) where
  digest : D
  qmdbLocation : UInt64
  body : Bytes
deriving DecidableEq

structure TxActivityRow (D : Type) where
  account : AccountKey
  role : TxActivityRole
  height : UInt64
  index : UInt32
  digest : D
  counterparty : AccountKey
  value : UInt64
  nonce : UInt64

/-- Latest account row stored in `account_meta`. -/
structure AccountMetaRow where
  account : AccountKey
  balance : UInt64
  nonceBase : UInt64
  nonceBitmap : UInt64
  qmdbLocation : UInt64
deriving DecidableEq

/-- One row destined for a SQL metadata table. -/
inductive SqlRow (D : Type)
  | blockMeta (row : BlockMetaRow D)
  | txMeta (row : TxMetaRow D)
  | txActivity (row : TxActivityRow D)
  | accountMeta (row : AccountMetaRow)

/-! ## Indexing a block -/

structure IndexedTransaction (D : Type) where
  blockIndex : Nat
  digest : D
  bytes : Bytes
  sender : AccountKey
  toKey : AccountKey
  value : UInt64
  nonce : UInt64

structure IndexedBlockRows (D : Type) where
  sql : List (SqlRow D)
  transactionDigests : List D

/-- `bytes[start..start + 8]` as a big-endian integer. -/
def readU64 (bytes : Bytes) (start : Nat) : UInt64 := UInt64.ofNat (ofBE ((bytes.drop start).take 8))

/-- The row data of one transaction, or `none` for a payload the indexer skips. -/
def indexTransaction (E : Env D) (blockIndex : Nat) (transaction : LazySignedTransaction D) :
    Option (IndexedTransaction D) :=
  let signedBytes := transaction.encodedSignedTransaction
  if h : signedBytes.length < Transaction.size then none
  else
    let transactionBytes := signedBytes.take Transaction.size
    match AccountKey.fromPublicKeyBytes E.crypto.sha256 (transactionBytes.take transactionPublicKeySize) with
    | none => none
    | some sender =>
      let toStart := transactionPublicKeySize
      let valueStart := toStart + accountKeySize
      let nonceStart := valueStart + 8
      let value := readU64 transactionBytes valueStart
      if value = 0 then none
      else
        some {
          blockIndex
          digest := E.hasher.hash transactionBytes
          bytes := signedBytes
          sender
          toKey := ⟨(transactionBytes.drop toStart).take accountKeySize, by
            simp only [transactionBytes, toStart, List.length_take, List.length_drop]
            simp only [Transaction.size, transactionPublicKeySize, accountKeySize] at h ⊢
            omega⟩
          value
          nonce := readU64 transactionBytes nonceStart }

/-- The rows of one indexed transaction: its metadata and the activity of both accounts. -/
def transactionRows (height appendStart : UInt64) (materializedIdx : Nat) (tx : IndexedTransaction D)
    (index : UInt32) : List (SqlRow D) :=
  [.txMeta ⟨tx.digest, appendStart + UInt64.ofNat materializedIdx, tx.bytes⟩,
    .txActivity ⟨tx.sender, .sender, height, index, tx.digest, tx.toKey, tx.value, tx.nonce⟩] ++
  if tx.toKey ≠ tx.sender then
    [.txActivity ⟨tx.toKey, .receiver, height, index, tx.digest, tx.sender, tx.value, tx.nonce⟩]
  else []

/-- The loop over the indexed transactions, from position `materializedIdx` on. -/
def transactionsRows (height appendStart : UInt64) : Nat → List (IndexedTransaction D) → Panics (List (SqlRow D))
  | _, [] => .ok []
  | materializedIdx, tx :: rest =>
    if 2 ^ 32 ≤ tx.blockIndex then .error (.expect "transaction index fits u32")
    else
      match transactionsRows height appendStart (materializedIdx + 1) rest with
      | .error panic => .error panic
      | .ok rows =>
        .ok (transactionRows height appendStart materializedIdx tx (UInt32.ofNat tx.blockIndex) ++ rows)

/-- The indexed transactions of a body, in body order. -/
def indexTransactions (E : Env D) (body : List (LazySignedTransaction D)) : List (IndexedTransaction D) :=
  body.zipIdx.filterMap fun entry => indexTransaction E entry.2 entry.1

/-- The rows once the first append location is known. -/
def blockRowsFrom (block : SealedBlock C D) (finalizedTsMicros : Int) (indexedTxs : List (IndexedTransaction D))
    (appendStart : UInt64) : Panics (IndexedBlockRows D) :=
  let header := block.inner.header
  match transactionsRows header.height appendStart 0 indexedTxs with
  | .error panic => .error panic
  | .ok rows =>
    .ok {
      sql := .blockMeta ⟨header.height, block.sealDigest, UInt64.ofNat indexedTxs.length, header.transactionsRoot,
        header.transactionsRange.stop - 1, 0, finalizedTsMicros⟩ :: rows
      transactionDigests := indexedTxs.map fun tx => tx.digest }

/-- Build every row for a finalized block. -/
def encodeIndexedBlockRowsAt (E : Env D) (block : SealedBlock C D) (finalizedTsMicros : Int) :
    Panics (IndexedBlockRows D) :=
  let indexedTxs := indexTransactions E block.inner.body
  if 2 ^ 64 ≤ indexedTxs.length then .error (.expect "transaction count fits u64")
  else
    let txCount := UInt64.ofNat indexedTxs.length
    match Word.checkedSub block.inner.header.transactionsRange.stop (txCount + 1) with
    | none => .error (.expect "transaction range includes appends plus commit")
    | some appendStart => blockRowsFrom block finalizedTsMicros indexedTxs appendStart

/-! ## Account rows -/

def encodeAccount (account : Account) : FixedBytes accountSize := ⟨account.write, account.length_write⟩

/-- An operation of the state database, with accounts in their encoding. -/
inductive StateOperation
  | delete (key : AccountKey)
  | update (key : AccountKey) (account : FixedBytes accountSize)
  | commitFloor (account : Option (FixedBytes accountSize)) (floor : UInt64)
deriving DecidableEq

/-- The `account_meta` row of one operation at a location; only updates have one. -/
def accountRow (location : UInt64) : StateOperation → Option AccountMetaRow
  | .update key account => some ⟨key, readU64 account.1 0, readU64 account.1 8, readU64 account.1 16, location⟩
  | _ => none

/-- One row per update of the delta, with the location of its operation. -/
def accountRows (delta : List StateOperation) (startLocation : UInt64) : List AccountMetaRow :=
  delta.zipIdx.filterMap fun entry => accountRow (startLocation + UInt64.ofNat entry.2) entry.1

end Constantinople
