/-
Preparing finalized-block uploads, as in `crates/indexer/src/publisher/qmdb.rs`: the cursor checks,
the durable queue entry, and the operations and rows that are derived from it when it is uploaded.
-/
import Constantinople.Indexer.Rows

namespace Constantinople

variable {C D : Type}

/-- QMDB upload failure; the variants this code returns by itself, and those of the Store. -/
inductive PublishError
  | qmdb (message : String)
  | store (message : String)
  | storeEmptyPastGenesis (height : UInt64)
  | writerOutOfSync (writerNext blockStart : UInt64)
  | committerStopped (height : UInt64)
deriving DecidableEq, Repr

/-- Where the transaction writer is after the block, if the block continues where it stands. -/
def transactionUploadEnd (writerNext : UInt64) (block : Block C D) : Panics (Except PublishError UInt64) :=
  if writerNext = 0 ∧ 1 < block.header.height then .ok (.error (.storeEmptyPastGenesis block.header.height))
  else if 2 ^ 64 ≤ block.body.length then .error (.expect "transaction count fits u64")
  else
    match Word.checkedAdd (UInt64.ofNat block.body.length) 1 with
    | none => .error (.expect "transaction operation count does not overflow")
    | some opCount =>
      match if writerNext = 0 then Word.checkedAdd opCount 1 else some opCount with
      | none => .error (.expect "genesis transaction operation count does not overflow")
      | some opCount =>
        match Word.checkedSub block.header.transactionsRange.stop opCount with
        | none => .error (.expect "block transaction range must include this batch")
        | some blockStart =>
          if writerNext ≠ blockStart then .ok (.error (.writerOutOfSync writerNext blockStart))
          else
            match Word.checkedAdd writerNext opCount with
            | none => .error (.expect "transaction writer reservation does not overflow")
            | some stop => .ok (.ok stop)

def validateWriterRange (writerNext blockEnd height : UInt64) : Except PublishError Unit :=
  if writerNext = 0 ∧ 1 < height then .error (.storeEmptyPastGenesis height)
  else if blockEnd < writerNext then .error (.writerOutOfSync writerNext blockEnd)
  else .ok ()

/-- The operations of one block: the initial commit if the writer is at 0, the appends, the commit. -/
def transactionOps (block : Block C D) (writerNext : UInt64) (digests : List D) : List (HistoryOp D) :=
  (if writerNext = 0 then [.commit none 0] else []) ++ digests.map .append ++
    [.commit none block.header.transactionsRange.start]

def transactionOpsFromDigests (block : Block C D) (writerNext : UInt64) (digests : List D) :
    Panics (Except PublishError (List (HistoryOp D))) :=
  let ops := transactionOps block writerNext digests
  if 2 ^ 64 ≤ ops.length then .error (.expect "operation count fits u64")
  else
    match Word.checkedSub block.header.transactionsRange.stop (UInt64.ofNat ops.length) with
    | none => .error (.expect "block transaction range must include this batch")
    | some blockStart =>
      if writerNext ≠ blockStart then .ok (.error (.writerOutOfSync writerNext blockStart)) else .ok (.ok ops)

def buildTransactionUploadFromDigests (block : Block C D) (writerNext : UInt64) (digests : List D) :
    Panics (Except PublishError (List (HistoryOp D))) :=
  if writerNext = 0 ∧ 1 < block.header.height then .ok (.error (.storeEmptyPastGenesis block.header.height))
  else transactionOpsFromDigests block writerNext digests

/-! ## Queue entries -/

/-- Finalized-block data captured before application pruning. -/
structure QueuedFinalizedUpload (C D : Type) where
  block : SealedBlock C D
  finalizedTsMicros : Int
  stateStart : UInt64
  transactionStart : UInt64
  stateDelta : List StateOperation

namespace QueuedFinalizedUpload

def height (upload : QueuedFinalizedUpload C D) : UInt64 := upload.block.inner.header.height

def stateEnd (upload : QueuedFinalizedUpload C D) : UInt64 := upload.block.inner.header.stateRange.stop

def transactionEnd (upload : QueuedFinalizedUpload C D) : Panics UInt64 :=
  match transactionUploadEnd upload.transactionStart upload.block.inner with
  | .error panic => .error panic
  | .ok (.error _) => .error (.expect "queued finalized upload stores a validated transaction cursor")
  | .ok (.ok stop) => .ok stop

end QueuedFinalizedUpload

/-- A pair of writer positions: where the state and the transaction operations continue. -/
structure FinalizedUploadCursor where
  stateNext : UInt64
  transactionNext : UInt64
deriving DecidableEq, Repr

instance : Inhabited FinalizedUploadCursor := ⟨⟨0, 0⟩⟩

/-- Hands an upload to the preparer at the publisher's positions: the positions after it, or `none` for
an upload that is already there. -/
def enqueueQueuedFinalized (next : FinalizedUploadCursor) (upload : QueuedFinalizedUpload C D) :
    Panics (Except PublishError (Option FinalizedUploadCursor)) :=
  match upload.transactionEnd with
  | .error panic => .error panic
  | .ok transactionEnd =>
    let stateEnd := upload.stateEnd
    if stateEnd ≤ next.stateNext ∧ transactionEnd ≤ next.transactionNext then .ok (.ok none)
    else if next.stateNext ≠ upload.stateStart then .ok (.error (.writerOutOfSync next.stateNext upload.stateStart))
    else if next.transactionNext ≠ upload.transactionStart then
      .ok (.error (.writerOutOfSync next.transactionNext upload.transactionStart))
    else .ok (.ok (some ⟨stateEnd, transactionEnd⟩))

/-- An upload with everything derived from its queue entry. -/
structure ExpandedUpload (D : Type) where
  height : UInt64
  sqlRows : List (SqlRow D)
  stateDelta : List StateOperation
  transactionOps : List (HistoryOp D)

def expandQueuedFinalizedUpload (E : Env D) (upload : QueuedFinalizedUpload C D) :
    Panics (Except PublishError (ExpandedUpload D)) :=
  match encodeIndexedBlockRowsAt E upload.block upload.finalizedTsMicros with
  | .error panic => .error panic
  | .ok blockRows =>
    match buildTransactionUploadFromDigests upload.block.inner upload.transactionStart
        blockRows.transactionDigests with
    | .error panic => .error panic
    | .ok (.error error) => .ok (.error error)
    | .ok (.ok ops) =>
      .ok (.ok {
        height := upload.height
        sqlRows := blockRows.sql ++ (accountRows upload.stateDelta upload.stateStart).map .accountMeta
        stateDelta := upload.stateDelta
        transactionOps := ops })

end Constantinople
