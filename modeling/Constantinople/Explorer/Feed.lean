/-
The live block feed of the explorer, as in `explorer/src/indexer.ts` and the part of `explorer/src/App.tsx` that
shows it. A subscription to the `block_meta` table delivers frames of rows, of which those not seen before are
yielded as blocks; the blocks wait for the next flush, which puts them into the table of the newest ones and adds
them to the counters. A subscription that breaks is opened again, or the error is thrown.
-/
import Constantinople.Explorer.BlockSequence
import Constantinople.Explorer.Proofs
import Constantinople.Indexer.Rows
import Constantinople.Lib.Double
import Constantinople.Lib.LastWrite
import Constantinople.Lib.Newest

namespace Constantinople.Explorer

open Constantinople

/-! ## Frames -/

structure ObservedBlock where
  height : Int
  digest : Bytes
  txCount : Int
  /-- In milliseconds. -/
  arrivedAt : Nat
  sequence : Nat
deriving DecidableEq

instance observedBlockHeighted : HeightedBlock ObservedBlock := ⟨ObservedBlock.height⟩

structure DecodedSubscribeFrame where
  sequenceNumber : Nat
  columns : List String
  rows : List (List CellValue)

def compareBigint (a b : Int) : Int :=
  if a < b then -1
  else if a > b then 1
  else 0

/-- The body of the loop over the rows: nothing is pushed for a row whose cells have other types. -/
def decodeRow (heightIdx digestIdx txCountIdx arrivedAt sequenceNumber : Nat) (cells : List CellValue) :
    Option ObservedBlock :=
  match cells[heightIdx]?, cells[digestIdx]?, cells[txCountIdx]? with
  | some (.bigint height), some (.bytes digest), some (.bigint txCount) =>
    some ⟨height, digest, Double.round txCount, arrivedAt, sequenceNumber⟩
  | _, _, _ => none

/-- `sort` is stable. -/
def decodeFrame (arrivedAt : Nat) (frame : DecodedSubscribeFrame) : List ObservedBlock :=
  match frame.columns.idxOf? "height", frame.columns.idxOf? "digest", frame.columns.idxOf? "tx_count" with
  | some heightIdx, some digestIdx, some txCountIdx =>
    let blocks := frame.rows.filterMap (decodeRow heightIdx digestIdx txCountIdx arrivedAt frame.sequenceNumber)
    blocks.insertionSort fun a b => compareBigint a.height b.height ≤ 0
  | _, _, _ => []

/-! ## Errors -/

inductive Code
  | canceled
  | unknown
  | invalidArgument
  | deadlineExceeded
  | notFound
  | alreadyExists
  | permissionDenied
  | resourceExhausted
  | failedPrecondition
  | aborted
  | outOfRange
  | unimplemented
  | internal
  | unavailable
  | dataLoss
  | unauthenticated
deriving DecidableEq, Repr

/-- What a subscription can throw: a `ConnectError`, a `TypeError`, or something else with its text. -/
inductive StreamError
  | connect (code : Code) (message : List Char)
  | type (message : List Char)
  | other (text : List Char)
deriving DecidableEq

def errorMessage : StreamError → List Char
  | .connect _ message => message
  | .type message => message
  | .other text => text

/-- A test for one of some words in lower case, in any case. -/
def mentions (words : List String) (message : List Char) : Bool :=
  words.any fun word => decide (word.toList <:+: message.map Char.toLower)

def isTransientBatchRaceError : StreamError → Bool
  | .connect code message => code = .outOfRange ∧ mentions ["evicted", "out_of_range"] message
  | _ => false

def isNetworkError : StreamError → Bool
  | .connect code message =>
    code = .unavailable ∨ code = .aborted ∨ code = .deadlineExceeded ∨
      (code = .unknown ∧ mentions ["fetch", "network", "transport", "failed"] message)
  | .type message => mentions ["fetch", "network", "load", "failed"] message
  | .other _ => false

/-! ## The subscription -/

def maxTransientRetries : Nat := 10

/-- The variables of `subscribeBlocks`. -/
structure Subscription where
  transientRetries : Nat
  nextSequence : Option Nat
  cursor : BlockSequenceCursor

def Subscription.new : Subscription := ⟨0, none, createBlockSequenceCursor none⟩

/-- The body of the loop over the frames, with the blocks it yields. -/
def Subscription.onFrame (subscription : Subscription) (arrivedAt : Nat) (frame : DecodedSubscribeFrame) :
    Subscription × List ObservedBlock :=
  let collected := collectLiveBlocks subscription.cursor (decodeFrame arrivedAt frame)
  (⟨0, some (frame.sequenceNumber + 1), collected.1⟩, collected.2)

/-- The handler of errors: the subscription is opened again, or the error is thrown. -/
def Subscription.onError (subscription : Subscription) (error : StreamError) : Except StreamError Subscription :=
  if isNetworkError error then .ok subscription
  else if ¬isTransientBatchRaceError error ∨ maxTransientRetries ≤ subscription.transientRetries then .error error
  else .ok { subscription with transientRetries := subscription.transientRetries + 1 }

/-! ## The page -/

inductive Status
  | connecting
  | live
  | error (message : List Char)
deriving DecidableEq

structure ObservedRateWindow where
  firstBlockAt : Option Nat
  latestBlockAt : Option Nat
deriving DecidableEq

/-- The state of the page that follows the feed. -/
structure Board where
  blocks : List ObservedBlock
  totalTxObserved : Int
  totalBlocksObserved : Int
  observedRateWindow : ObservedRateWindow
  status : Status
  pendingBlocks : List ObservedBlock
  /-- `blockFlushTimeoutRef.current !== null`. -/
  flushDue : Bool

def Board.new : Board := ⟨[], 0, 0, ⟨none, none⟩, .connecting, [], false⟩

def histogramMaxColumns : Nat := 180

def compareBlockHeightDesc (a b : Int) : Int :=
  if a > b then -1
  else if a < b then 1
  else 0

def upsertBoundedBatch (blocks current : List ObservedBlock) : List ObservedBlock :=
  let byHeight := blocks.foldl (fun byHeight block => byHeight.insert (heightKey block.height) block)
    (Assoc.ofPairs (current.map fun entry => (heightKey entry.height, entry)))
  let next := (byHeight.toList.map Prod.snd).insertionSort fun a b => compareBlockHeightDesc a.height b.height ≤ 0
  if histogramMaxColumns < next.length then next.take histogramMaxColumns else next

def queueObservedBlocks (board : Board) (nextBlocks : List ObservedBlock) : Board :=
  if nextBlocks.length = 0 then board
  else { board with pendingBlocks := board.pendingBlocks ++ nextBlocks, flushDue := true }

/-- The callback of the flush timer. -/
def flush (board : Board) : Board :=
  match board.pendingBlocks with
  | [] => { board with flushDue := false }
  | first :: rest =>
    let flushed := first :: rest
    { blocks := upsertBoundedBatch flushed board.blocks
      totalTxObserved :=
        Double.add board.totalTxObserved ((flushed.map ObservedBlock.txCount).foldl Double.add 0)
      totalBlocksObserved := Double.add board.totalBlocksObserved flushed.length
      observedRateWindow :=
        ⟨board.observedRateWindow.firstBlockAt.or (some first.arrivedAt),
          some (rest.getLast?.getD first).arrivedAt⟩
      status := .live
      pendingBlocks := []
      flushDue := false }

/-! ## What the indexer publishes -/

section Published

variable {D : Type} (digestBytes : D → Bytes)

/-- The columns of `block_meta`. -/
def blockMetaColumns : List String :=
  ["height", "digest", "tx_count", "transactions_root", "transactions_tip", "view", "finalized_ts"]

/-- The cells of a row; the explorer does not read the time. -/
def encodeBlockMetaRow (block : BlockMetaRow D) : List CellValue :=
  [.bigint block.height.toNat, .bytes (digestBytes block.digest), .bigint block.txCount.toNat,
    .bytes (digestBytes block.transactionsRoot), .bigint block.transactionsTip.toNat, .bigint block.view.toNat, .other]

/-- The rows of `block_meta` in one ingest batch. -/
structure MetaBatch (D : Type) where
  sequenceNumber : Nat
  rows : List (BlockMetaRow D)

def MetaBatch.frame (batch : MetaBatch D) : DecodedSubscribeFrame :=
  ⟨batch.sequenceNumber, blockMetaColumns, batch.rows.map (encodeBlockMetaRow digestBytes)⟩

/-- The block the explorer shows for a row. -/
def observe (arrivedAt sequence : Nat) (row : BlockMetaRow D) : ObservedBlock :=
  ⟨row.height.toNat, digestBytes row.digest, Double.round row.txCount.toNat, arrivedAt, sequence⟩

/-- The explorer finds its columns in a frame of the indexer and keeps every row. -/
theorem decodeFrame_frame (arrivedAt : Nat) (batch : MetaBatch D) :
    (decodeFrame arrivedAt (batch.frame digestBytes)).Perm
      (batch.rows.map (observe digestBytes arrivedAt batch.sequenceNumber)) := by
  have hrows : (batch.frame digestBytes).rows.filterMap
      (decodeRow 0 1 2 arrivedAt (batch.frame digestBytes).sequenceNumber) =
        batch.rows.map (observe digestBytes arrivedAt batch.sequenceNumber) := by
    rw [← List.filterMap_eq_map]
    exact List.filterMap_map ..
  exact (List.perm_insertionSort _ _).trans (hrows ▸ .refl _)

end Published

/-! ## The newest blocks -/

theorem compareBlockHeightDesc_le_zero {a b : Int} : compareBlockHeightDesc a b ≤ 0 ↔ b ≤ a := by
  unfold compareBlockHeightDesc
  split
  · omega
  · split
    · omega
    · omega

theorem upsertBoundedBatch_eq (blocks current : List ObservedBlock) :
    upsertBoundedBatch blocks current =
      (Newest.ranked ObservedBlock.height (Newest.overlay heightKey ObservedBlock.height current blocks)).take
        histogramMaxColumns := by
  have hmap : blocks.foldl (fun byHeight block => byHeight.insert (heightKey block.height) block)
      (Assoc.ofPairs (current.map fun entry => (heightKey entry.height, entry))) =
        Newest.overlay heightKey ObservedBlock.height current blocks := by
    simp only [Newest.overlay, Assoc.ofPairs, List.map_append, List.foldl_append, List.foldl_map]
  unfold upsertBoundedBatch Newest.ranked
  simp only [hmap, compareBlockHeightDesc_le_zero]
  split
  · rfl
  · rename_i hfits
    rw [List.take_of_length_le (not_lt.1 hfits)]

/-- The page keeps the newest of the blocks flushed so far. -/
def ShowsNewest (flushed blocks : List ObservedBlock) : Prop :=
  Newest.Keeps ObservedBlock.height histogramMaxColumns (Newest.lastOf ObservedBlock.height flushed) blocks

theorem ShowsNewest.upsert {flushed current : List ObservedBlock} (h : ShowsNewest flushed current)
    (blocks : List ObservedBlock) : ShowsNewest (flushed ++ blocks) (upsertBoundedBatch blocks current) := by
  unfold ShowsNewest
  rw [upsertBoundedBatch_eq]
  exact h.batch heightKey_injective blocks

/-! ## The counters -/

/-- Blocks whose transactions a double can count. -/
structure Countable (blocks : List ObservedBlock) : Prop where
  nonneg : ∀ block ∈ blocks, 0 ≤ block.txCount
  transactions : (blocks.map ObservedBlock.txCount).sum ≤ Double.exactBound

theorem Countable.left {blocks blocks' : List ObservedBlock} (h : Countable (blocks ++ blocks')) :
    Countable blocks := by
  have hnonneg := List.forall_mem_append.1 h.nonneg
  have hsum := h.transactions
  have hrest : 0 ≤ (blocks'.map ObservedBlock.txCount).sum := List.sum_nonneg (by simpa using hnonneg.2)
  rw [List.map_append, List.sum_append] at hsum
  exact ⟨hnonneg.1, by omega⟩

/-- A page that has flushed these blocks. -/
structure Board.Shows (board : Board) (flushed : List ObservedBlock) : Prop where
  newest : ShowsNewest flushed board.blocks
  transactions : Countable flushed → board.totalTxObserved = (flushed.map ObservedBlock.txCount).sum
  blocks : flushed.length ≤ Double.exactBound → board.totalBlocksObserved = flushed.length
  window : board.observedRateWindow =
    ⟨flushed.head?.map ObservedBlock.arrivedAt, flushed.getLast?.map ObservedBlock.arrivedAt⟩

theorem Board.new_shows : Board.new.Shows [] :=
  ⟨Newest.Keeps.empty _ _, fun _ => rfl, fun _ => rfl, rfl⟩

/-- A flush shows what was pending. -/
theorem Board.Shows.flush {board : Board} {flushed : List ObservedBlock} (h : board.Shows flushed) :
    (flush board).Shows (flushed ++ board.pendingBlocks) := by
  unfold Explorer.flush
  cases hpending : board.pendingBlocks with
  | nil =>
    rw [List.append_nil]
    exact ⟨h.newest, h.transactions, h.blocks, h.window⟩
  | cons first rest =>
    refine ⟨h.newest.upsert _, ?_, ?_, ?_⟩
    · intro hcount
      have hsum := hcount.transactions
      have hbefore := h.transactions hcount.left
      obtain ⟨hnonneg, hnonneg'⟩ := List.forall_mem_append.1 hcount.nonneg
      have hpos : 0 ≤ (flushed.map ObservedBlock.txCount).sum := List.sum_nonneg (by simpa using hnonneg)
      have hpos' : 0 ≤ ((first :: rest).map ObservedBlock.txCount).sum := List.sum_nonneg (by simpa using hnonneg')
      rw [List.map_append, List.sum_append] at hsum ⊢
      have hbatch : ((first :: rest).map ObservedBlock.txCount).foldl Double.add 0 =
          0 + ((first :: rest).map ObservedBlock.txCount).sum :=
        Double.foldl_add le_rfl (by simpa using hnonneg') (by omega)
      show Double.add board.totalTxObserved (((first :: rest).map ObservedBlock.txCount).foldl Double.add 0) = _
      rw [hbatch, hbefore, Int.zero_add]
      exact Double.round_of_le (by omega) (by omega)
    · intro hlength
      rw [List.length_append] at hlength ⊢
      have hbefore := h.blocks (by omega)
      show Double.add board.totalBlocksObserved (first :: rest).length = _
      rw [hbefore, Nat.cast_add]
      exact Double.round_of_le (by omega) (by omega)
    · have hlast : (first :: rest).getLast? = some (rest.getLast?.getD first) := List.getLast?_cons
      show ObservedRateWindow.mk (board.observedRateWindow.firstBlockAt.or _) _ = _
      rw [h.window, List.head?_append, List.getLast?_append, hlast, Option.map_or]
      rfl

theorem queueObservedBlocks_pending (board : Board) (nextBlocks : List ObservedBlock) :
    queueObservedBlocks board nextBlocks = { board with
      pendingBlocks := board.pendingBlocks ++ nextBlocks
      flushDue := board.flushDue || !nextBlocks.isEmpty } := by
  cases nextBlocks with
  | nil => simp [queueObservedBlocks]
  | cons block nextBlocks => simp [queueObservedBlocks]

/-- The page queues each block as it comes. -/
theorem foldl_queueObservedBlocks (nextBlocks : List ObservedBlock) (board : Board) :
    nextBlocks.foldl (fun board block => queueObservedBlocks board [block]) board =
      queueObservedBlocks board nextBlocks := by
  induction nextBlocks generalizing board with
  | nil => rfl
  | cons block nextBlocks ih =>
    rw [List.foldl_cons, ih]
    simp [queueObservedBlocks_pending]

end Constantinople.Explorer
