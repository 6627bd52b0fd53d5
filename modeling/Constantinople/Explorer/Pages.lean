/-
Completeness of the account activity pages. For every transfer of a finalized block the indexer writes a row
of `tx_activity` for the sender, and one for the recipient unless the two are the same account. Following the
explorer's pages over these rows lists the transfers of an account, newest first.
-/
import Constantinople.Explorer.Activity
import Constantinople.Indexer.Rebuild

namespace Constantinople.Explorer

open Constantinople Run

variable {C D : Type}

/-! ## The rows of the table -/

/-- The columns `encode_tx_activity_row` writes. -/
def encodeTxActivityRow (hasher : Hasher D) (row : TxActivityRow D) : ActivityRow where
  account := row.account.bytes
  height := row.height
  index := row.index.toUInt64
  role := row.role.asU64
  txDigest := hasher.bytes row.digest
  counterparty := row.counterparty.bytes
  value := row.value
  nonce := row.nonce

def activityOf (hasher : Hasher D) : SqlRow D → Option ActivityRow
  | .txActivity row => some (encodeTxActivityRow hasher row)
  | _ => none

/-- The rows of `tx_activity` among the rows of a block. -/
def activityRows (hasher : Hasher D) (rows : IndexedBlockRows D) : List ActivityRow :=
  rows.sql.filterMap (activityOf hasher)

/-! ## The transfers of a chain -/

/-- A transfer with its place in the chain. -/
structure FinalizedTransfer (D : Type) where
  height : UInt64
  index : Nat
  transfer : PreparedTransfer D

/-- The transfers of a block, in body order. -/
def blockTransfers (E : Env D) (block : SealedBlock C D) : List (FinalizedTransfer D) :=
  block.inner.body.zipIdx.filterMap fun entry =>
    ((entry.1.get E).bind (prepareTransfer E.crypto.sha256)).map (⟨block.inner.header.height, entry.2, ·⟩)

/-- The transfers of a chain, in chain order. -/
def finalizedTransfers (E : Env D) (blocks : List (SealedBlock C D)) : List (FinalizedTransfer D) :=
  blocks.flatMap (blockTransfers E)

namespace FinalizedTransfer

variable (hasher : Hasher D) (t : FinalizedTransfer D)

def position : Nat ×ₗ Nat := toLex (t.height.toNat, t.index)

/-- The row of the account that has the role. -/
def row : TxActivityRole → TxActivityRow D
  | .sender => ⟨t.transfer.sender, .sender, t.height, UInt32.ofNat t.index, t.transfer.digest, t.transfer.recipient,
      t.transfer.value, t.transfer.nonce⟩
  | .receiver => ⟨t.transfer.recipient, .receiver, t.height, UInt32.ofNat t.index, t.transfer.digest,
      t.transfer.sender, t.transfer.value, t.transfer.nonce⟩

/-- The roles of a transfer that have a row. -/
def roles : List TxActivityRole :=
  .sender :: if t.transfer.recipient ≠ t.transfer.sender then [.receiver] else []

def rows : List ActivityRow := t.roles.map fun role => encodeTxActivityRow hasher (t.row role)

/-- The role a mode lists an account's transfer under; a transfer to oneself counts as sent. -/
def listed (account : AccountKey) (mode : AccountActivityMode) : Option TxActivityRole :=
  if t.transfer.sender = account then
    if mode = .received then none else some .sender
  else if t.transfer.recipient = account then
    if mode = .sent then none else some .receiver
  else none

/-- What the explorer is to show of a transfer to the account that has the role. -/
def line : TxActivityRole → AccountTransactionRow
  | .sender => ⟨toHex (hasher.bytes t.transfer.digest), .sent, toHex t.transfer.recipient.bytes,
      t.transfer.value.toNat, t.transfer.nonce.toNat, t.height.toNat, t.index⟩
  | .receiver => ⟨toHex (hasher.bytes t.transfer.digest), .received, toHex t.transfer.sender.bytes,
      t.transfer.value.toNat, t.transfer.nonce.toNat, t.height.toNat, t.index⟩

end FinalizedTransfer

def AccountTransactionRow.position (line : AccountTransactionRow) : Nat ×ₗ Nat := toLex (line.height, line.blockIndex)

/-! ## What the indexer writes -/

/-- What verification leaves known of a body: every transaction prepares, and its seal is computed from it. -/
structure Prepared (E : Env D) (block : SealedBlock C D) : Prop where
  seals : ∀ value, .new value ∈ block.inner.body → value.messageDigest = value.value.hashSlow E.hasher
  transfers : ∀ lazy ∈ block.inner.body, ∃ t, (lazy.get E).bind (prepareTransfer E.crypto.sha256) = some t

theorem prepared_of_verified [DecidableEq D] {A : Application D} (hfloor : A.qmdb.ReportsFloor)
    {s s' : ChainState C D} {block : SealedBlock C D} (h : VerifiedStep A s block s') : Prepared A.env block := by
  obtain ⟨-, -, -, ts, hprep⟩ := h.facts hfloor
  obtain ⟨-, -, -, hheld, -⟩ := h
  refine ⟨hheld.seals, fun lazy hmem => ?_⟩
  have hmap := List.mem_map_of_mem (f := fun t => (t.get A.env).bind (prepareTransfer A.env.crypto.sha256)) hmem
  rw [hprep] at hmap
  obtain ⟨t, -, ht⟩ := List.mem_map.1 hmap
  exact ⟨t, ht.symm⟩

/-- An indexed transaction as a transfer of the chain. -/
def finalizedAt (height : UInt64) (tx : IndexedTransaction D) : FinalizedTransfer D :=
  ⟨height, tx.blockIndex, tx.sender, tx.toKey, tx.value, tx.nonce, tx.digest⟩

theorem blockTransfers_eq {E : Env D} {block : SealedBlock C D} (h : Prepared E block) :
    blockTransfers E block = (indexTransactions E block.inner.body).map (finalizedAt block.inner.header.height) := by
  unfold blockTransfers indexTransactions
  rw [List.map_filterMap]
  -- entry by entry: what prepares is never skipped by the indexer
  refine List.filterMap_congr fun entry hentry => ?_
  have hmem : entry.1 ∈ block.inner.body := List.fst_mem_of_mem_zipIdx hentry
  obtain ⟨t, ht⟩ := h.transfers _ hmem
  rw [ht, indexTransaction_of_prepared entry.2 (fun value hvalue => h.seals value (hvalue ▸ hmem)) ht]
  rfl

theorem filterMap_transactionRows (hasher : Hasher D) (height appendStart : UInt64) (i : Nat) (tx : IndexedTransaction D) :
    (transactionRows height appendStart i tx (UInt32.ofNat tx.blockIndex)).filterMap (activityOf hasher) =
      (finalizedAt height tx).rows hasher := by
  unfold transactionRows FinalizedTransfer.rows FinalizedTransfer.roles
  by_cases hself : tx.toKey = tx.sender
  · have hno : ¬ (finalizedAt height tx).transfer.recipient ≠ (finalizedAt height tx).transfer.sender := not_not.2 hself
    rw [if_neg hno, if_neg (not_not.2 hself)]
    rfl
  · have hyes : (finalizedAt height tx).transfer.recipient ≠ (finalizedAt height tx).transfer.sender := hself
    rw [if_pos hyes, if_pos hself]
    rfl

/-- The activity rows of a block are those of its transfers, whose indices fit 32 bits. -/
theorem activityRows_block {E : Env D} {block : SealedBlock C D} {now : Int} {rows : IndexedBlockRows D}
    (hblock : Prepared E block) (h : encodeIndexedBlockRowsAt E block now = .ok rows) :
    activityRows E.hasher rows = (blockTransfers E block).flatMap (FinalizedTransfer.rows E.hasher) ∧
      ∀ t ∈ blockTransfers E block, t.index < 2 ^ 32 := by
  obtain ⟨hindex, appendStart, header, hsql⟩ := encodeIndexedBlockRowsAt_ok h
  rw [blockTransfers_eq hblock]
  constructor
  · have hfst : ∀ txs : List (IndexedTransaction D), txs.zipIdx.flatMap (fun entry =>
        (finalizedAt block.inner.header.height entry.1).rows E.hasher) =
        txs.flatMap fun tx => (finalizedAt block.inner.header.height tx).rows E.hasher := by
      intro txs
      conv_rhs => rw [← List.zipIdx_map_fst 0 txs]
      rw [List.flatMap_map]
    rw [activityRows, hsql, List.filterMap_cons_none rfl, List.filterMap_flatMap, List.flatMap_map, ← hfst]
    simp only [filterMap_transactionRows]
  · intro t ht
    obtain ⟨tx, htx, rfl⟩ := List.mem_map.1 ht
    exact hindex tx htx

/-- The rows of a chain are those of its transfers. -/
theorem activityRows_chain {E : Env D} {now : SealedBlock C D → Int} {blocks : List (SealedBlock C D)}
    {written : List (IndexedBlockRows D)} (hblocks : ∀ block ∈ blocks, Prepared E block)
    (h : List.Forall₂ (fun block rows => encodeIndexedBlockRowsAt E block (now block) = .ok rows) blocks written) :
    written.flatMap (activityRows E.hasher) = (finalizedTransfers E blocks).flatMap (FinalizedTransfer.rows E.hasher) ∧
      ∀ t ∈ finalizedTransfers E blocks, t.index < 2 ^ 32 := by
  induction h with
  | nil => exact ⟨rfl, fun t ht => by cases ht⟩
  | @cons block rows blocks written hrows _ ih =>
    rw [List.forall_mem_cons] at hblocks
    obtain ⟨hhead, hheadIndex⟩ := activityRows_block hblocks.1 hrows
    obtain ⟨htail, htailIndex⟩ := ih hblocks.2
    unfold finalizedTransfers at htail htailIndex ⊢
    rw [List.flatMap_cons, List.flatMap_cons, List.flatMap_append, hhead, htail]
    refine ⟨rfl, fun t ht => ?_⟩
    rcases List.mem_append.1 ht with ht | ht
    · exact hheadIndex t ht
    · exact htailIndex t ht

/-! ## The rows of an account -/

namespace FinalizedTransfer

variable (hasher : Hasher D) (t : FinalizedTransfer D)

/-- Which rows the conditions for an account and a mode select. -/
theorem inMode_row {account : AccountKey} {mode : AccountActivityMode} {role : TxActivityRole} :
    inMode account.bytes mode (encodeTxActivityRow hasher (t.row role)) = true ↔
      (t.row role).account = account ∧ (mode = .sent → role = .sender) ∧ (mode = .received → role = .receiver) := by
  unfold inMode
  rw [Bool.and_eq_true, decide_eq_true_iff]
  refine and_congr ⟨AccountKey.ext_bytes, congrArg AccountKey.bytes⟩ ?_
  have hrole : (encodeTxActivityRow hasher (t.row role)).role = role.asU64 := by
    cases role with
    | sender => rfl
    | receiver => rfl
  rw [hrole]
  cases role with
  | sender => cases mode <;> decide
  | receiver => cases mode <;> decide

/-- Of the rows of a transfer, the row of the listed role is selected. -/
theorem filter_rows (account : AccountKey) (mode : AccountActivityMode) :
    (t.rows hasher).filter (inMode account.bytes mode) =
      ((t.listed account mode).map fun role => encodeTxActivityRow hasher (t.row role)).toList := by
  have hroles : t.roles.filter (inMode account.bytes mode ∘ fun role => encodeTxActivityRow hasher (t.row role)) =
      (t.listed account mode).toList := by
    have hselects : ∀ role, (inMode account.bytes mode ∘ fun role => encodeTxActivityRow hasher (t.row role)) role =
        decide ((t.row role).account = account ∧ (mode = .sent → role = .sender) ∧
          (mode = .received → role = .receiver)) := by
      intro role
      rw [Bool.eq_iff_iff, decide_eq_true_iff]
      exact t.inMode_row hasher
    rw [List.filter_congr fun role _ => hselects role]
    unfold roles listed
    by_cases hself : t.transfer.recipient = t.transfer.sender
    · by_cases hsender : t.transfer.sender = account
      · cases mode <;> simp [row, hself, hsender]
      · simp [row, hself, hsender]
    · by_cases hsender : t.transfer.sender = account
      · -- the row of the recipient is another account's
        rw [hsender] at hself
        cases mode <;> simp [row, hself, hsender]
      · by_cases hrecipient : t.transfer.recipient = account
        · cases mode <;> simp [row, hsender, hrecipient, Ne.symm hsender]
        · simp [row, hself, hsender, hrecipient]
  rw [rows, List.filter_map, hroles]
  cases t.listed account mode with
  | none => rfl
  | some role => rfl

theorem toNat_index {t : FinalizedTransfer D} (h : t.index < 2 ^ 32) : (UInt32.ofNat t.index).toUInt64.toNat = t.index := by
  rw [UInt32.toNat_toUInt64, UInt32.toNat_ofNat_of_lt' h]

/-- Rows are ordered as their transfers. -/
theorem key_lt_key {t t' : FinalizedTransfer D} (h : t.position < t'.position) (hindex : t.index < 2 ^ 32)
    (hindex' : t'.index < 2 ^ 32) (role role' : TxActivityRole) :
    (encodeTxActivityRow hasher (t.row role)).key < (encodeTxActivityRow hasher (t'.row role')).key := by
  have hkey : ∀ {t : FinalizedTransfer D}, t.index < 2 ^ 32 → ∀ role,
      (encodeTxActivityRow hasher (t.row role)).key =
        toLex (t.height.toNat, toLex (t.index, (encodeTxActivityRow hasher (t.row role)).role.toNat)) := by
    intro t hindex role
    cases role with
    | sender => simp only [ActivityRow.key, encodeTxActivityRow, row, toNat_index hindex]
    | receiver => simp only [ActivityRow.key, encodeTxActivityRow, row, toNat_index hindex]
  rw [hkey hindex, hkey hindex']
  unfold position at h
  rw [Prod.Lex.toLex_lt_toLex] at h ⊢
  rcases h with hheight | ⟨hheight, hidx⟩
  · exact .inl hheight
  · exact .inr ⟨hheight, Prod.Lex.toLex_lt_toLex.2 (.inl hidx)⟩

/-- The explorer shows of a row what it is to show of the transfer. -/
theorem shown_row {t : FinalizedTransfer D} (hindex : t.index < 2 ^ 32) (role : TxActivityRole) :
    (encodeTxActivityRow hasher (t.row role)).shown = t.line hasher role := by
  cases role with
  | sender =>
    simp only [ActivityRow.shown, encodeTxActivityRow, row, line, toNat_index hindex]
    rfl
  | receiver =>
    simp only [ActivityRow.shown, encodeTxActivityRow, row, line, toNat_index hindex]
    rfl

theorem decode_row {t : FinalizedTransfer D} (hdigest : ∀ d, (hasher.bytes d).length = digestBytes)
    (hindex : t.index < 2 ^ 32) (role : TxActivityRole) :
    decodeAccountActivityRow (encodeTxActivityRow hasher (t.row role)) =
      .ok (encodeTxActivityRow hasher (t.row role)).shown := by
  have hsafe : (UInt32.ofNat t.index).toUInt64.toNat ≤ maxSafeInteger := by
    rw [toNat_index hindex, maxSafeInteger]
    omega
  cases role with
  | sender => exact decodeAccountActivityRow_ok (hdigest _) t.transfer.recipient.size hsafe
  | receiver => exact decodeAccountActivityRow_ok (hdigest _) t.transfer.sender.size hsafe

end FinalizedTransfer

/-! ## The order of the chain -/

theorem mem_blockTransfers {E : Env D} {block : SealedBlock C D} {t : FinalizedTransfer D} :
    t ∈ blockTransfers E block ↔ t.height = block.inner.header.height ∧ ∃ lazy, block.inner.body[t.index]? = some lazy ∧
      (lazy.get E).bind (prepareTransfer E.crypto.sha256) = some t.transfer := by
  unfold blockTransfers
  rw [List.mem_filterMap]
  constructor
  · rintro ⟨⟨lazy, i⟩, hmem, ht⟩
    obtain ⟨transfer, hprep, rfl⟩ := Option.map_eq_some_iff.1 ht
    exact ⟨rfl, lazy, List.mem_zipIdx_iff_getElem?.1 hmem, hprep⟩
  · rintro ⟨hheight, lazy, hlazy, hprep⟩
    refine ⟨(lazy, t.index), List.mem_zipIdx_iff_getElem?.2 hlazy, ?_⟩
    rw [hprep, ← hheight]
    rfl

theorem pairwise_blockTransfers (E : Env D) (block : SealedBlock C D) :
    (blockTransfers E block).Pairwise fun t t' => t.position < t'.position := by
  have hindex : block.inner.body.zipIdx.Pairwise fun entry entry' => entry.2 < entry'.2 := by
    rw [← List.pairwise_map, List.zipIdx_map_snd]
    exact List.pairwise_lt_range'
  rw [blockTransfers, List.pairwise_filterMap]
  refine hindex.imp fun {entry entry'} hlt t ht t' ht' => ?_
  obtain ⟨transfer, -, rfl⟩ := Option.map_eq_some_iff.1 ht
  obtain ⟨transfer', -, rfl⟩ := Option.map_eq_some_iff.1 ht'
  exact Prod.Lex.toLex_lt_toLex.2 (.inr ⟨rfl, hlt⟩)

theorem pairwise_finalizedTransfers (E : Env D) {blocks : List (SealedBlock C D)}
    (h : blocks.Pairwise fun b b' => b.inner.header.height.toNat < b'.inner.header.height.toNat) :
    (finalizedTransfers E blocks).Pairwise fun t t' => t.position < t'.position := by
  rw [finalizedTransfers, List.pairwise_flatMap]
  -- within a block the index decides, between blocks the height
  refine ⟨fun block _ => pairwise_blockTransfers E block, h.imp fun {b b'} hlt t ht t' ht' => ?_⟩
  have hheight := (mem_blockTransfers.1 ht).1
  have hheight' := (mem_blockTransfers.1 ht').1
  refine Prod.Lex.toLex_lt_toLex.2 (.inl ?_)
  rwa [hheight, hheight']

/-! ## Completeness of the pages -/

/-- The lines an account's pages are to list, newest first. -/
def listedLines (E : Env D) (blocks : List (SealedBlock C D)) (account : AccountKey) (mode : AccountActivityMode) :
    List AccountTransactionRow :=
  ((finalizedTransfers E blocks).filterMap fun t => (t.listed account mode).map (t.line E.hasher)).reverse

/-- The rows behind these lines. -/
def listedRows (E : Env D) (blocks : List (SealedBlock C D)) (account : AccountKey) (mode : AccountActivityMode) :
    List ActivityRow :=
  ((finalizedTransfers E blocks).filterMap fun t =>
    (t.listed account mode).map fun role => encodeTxActivityRow E.hasher (t.row role)).reverse

section Chain

variable {E : Env D} {blocks : List (SealedBlock C D)} (account : AccountKey) (mode : AccountActivityMode)

/-- What is made of the listed transfers, newest first, is ordered as they are. -/
theorem pairwise_listed {β : Type} {R : β → β → Prop} {f : FinalizedTransfer D → TxActivityRole → β}
    (horder : (finalizedTransfers E blocks).Pairwise fun t t' => t.position < t'.position)
    (hf : ∀ t ∈ finalizedTransfers E blocks, ∀ t' ∈ finalizedTransfers E blocks, t.position < t'.position →
      ∀ role role', R (f t' role') (f t role)) :
    ((finalizedTransfers E blocks).filterMap fun t => (t.listed account mode).map (f t)).reverse.Pairwise R := by
  rw [List.pairwise_reverse, List.pairwise_filterMap]
  refine horder.imp_of_mem fun {t t'} ht ht' hlt y hy y' hy' => ?_
  obtain ⟨role, -, rfl⟩ := Option.map_eq_some_iff.1 hy
  obtain ⟨role', -, rfl⟩ := Option.map_eq_some_iff.1 hy'
  exact hf t ht t' ht' hlt role role'

theorem mem_listedRows {row : ActivityRow} : row ∈ listedRows E blocks account mode ↔
    ∃ t ∈ finalizedTransfers E blocks, ∃ role, t.listed account mode = some role ∧
      encodeTxActivityRow E.hasher (t.row role) = row := by
  unfold listedRows
  simp only [List.mem_reverse, List.mem_filterMap, Option.map_eq_some_iff]

/-- The table of a chain holds these rows of the account. -/
theorem filter_chain_rows : ((finalizedTransfers E blocks).flatMap (FinalizedTransfer.rows E.hasher)).filter
    (inMode account.bytes mode) = (listedRows E blocks account mode).reverse := by
  unfold listedRows
  rw [List.filter_flatMap, List.reverse_reverse, List.filterMap_eq_flatMap_toList]
  refine List.flatMap_congr fun t _ => ?_
  exact t.filter_rows E.hasher account mode

variable (hindex : ∀ t ∈ finalizedTransfers E blocks, t.index < 2 ^ 32)

include hindex

theorem map_shown_listedRows :
    (listedRows E blocks account mode).map ActivityRow.shown = listedLines E blocks account mode := by
  unfold listedRows listedLines
  rw [List.map_reverse, List.map_filterMap]
  refine congrArg List.reverse (List.filterMap_congr fun t ht => ?_)
  rw [Option.map_map]
  refine Option.map_congr fun role _ => ?_
  exact FinalizedTransfer.shown_row E.hasher (hindex t ht) role

/-- The rows are the account's listing of any table that holds the rows of the chain. -/
theorem listing_of_chain (horder : (finalizedTransfers E blocks).Pairwise fun t t' => t.position < t'.position)
    {table : List ActivityRow} (hnodup : table.Nodup) (htable : ∀ row, row ∈ table ↔
      row ∈ (finalizedTransfers E blocks).flatMap (FinalizedTransfer.rows E.hasher)) :
    Listing table account.bytes mode (listedRows E blocks account mode) := by
  have hdesc : Keyset.Descending ActivityRow.key (listedRows E blocks account mode) := by
    refine pairwise_listed account mode horder fun t ht t' ht' hlt role role' => ?_
    exact FinalizedTransfer.key_lt_key E.hasher hlt (hindex t ht) (hindex t' ht') role role'
  refine ⟨?_, hdesc⟩
  have hrows : (listedRows E blocks account mode).Nodup := hdesc.imp fun hlt heq => hlt.ne' (congrArg _ heq)
  -- neither has a row twice, so it is enough that they have the same rows
  rw [List.perm_ext_iff_of_nodup hrows (hnodup.filter _)]
  intro row
  rw [← List.mem_reverse, ← filter_chain_rows, List.mem_filter, List.mem_filter, htable]

end Chain

/-- A database that holds the table. -/
def answerFrom (table : List ActivityRow) (query : ActivityQuery) : List ActivityRow :=
  ((table.filter query.selects).mergeSort fun a b => b.key ≤ a.key).take query.limit

theorem answers_answerFrom (table : List ActivityRow) : Answers table (answerFrom table) := by
  intro query
  refine ⟨_, List.mergeSort_perm _ _, ?_, rfl⟩
  have hsorted : ((table.filter query.selects).mergeSort fun a b => b.key ≤ a.key).Pairwise
      fun a b => decide (b.key ≤ a.key) = true := by
    refine List.pairwise_mergeSort (fun a b c hab hbc => ?_) (fun a b => ?_) _
    · exact decide_eq_true (le_trans (of_decide_eq_true hbc) (of_decide_eq_true hab))
    · simpa using le_total b.key a.key
  exact hsorted.imp of_decide_eq_true

/-- The application whose digests are byte counts, with the counts written in 32 bytes. -/
def paddedApplication : Application Nat :=
  { countingApplication with
    env := { countingApplication.env with hasher := ⟨List.length, fun n => List.replicate digestBytes (UInt8.ofNat n)⟩ } }

theorem elevenTransfers_range : (0 : UInt64) < 13 := by decide

/-- A child of the genesis block with eleven transfers, one more than a page shows. -/
def elevenTransfers : SealedBlock Unit Nat :=
  (Block.new { sampleChild.inner.header with transactionsRoot := 11, transactionsRange := ⟨0, 13, elevenTransfers_range⟩ }
    ((List.range 11).map fun nonce => sampleTransaction 1 2 5 (UInt64.ofNat nonce) sampleValue_ne_zero)).sealWith
      countingApplication.env countingCodecs

set_option maxRecDepth 20000 in
theorem elevenTransfers_verified : ∃ tip, VerifiedStep paddedApplication
    ⟨sampleGenesis, fun _ => none, [.commit none 0]⟩ elevenTransfers tip := by
  have hheld : elevenTransfers.inner.Held paddedApplication.env := by
    refine ⟨⟨[11], [], rfl⟩, fun value hmem => ?_⟩
    obtain ⟨_, htx, ⟨⟩⟩ := List.mem_map.1 hmem
    obtain ⟨nonce, -, rfl⟩ := List.mem_map.1 htx
    rfl
  exact ⟨_, 0, 0, _, hheld, rfl, rfl, rfl⟩

end Constantinople.Explorer
