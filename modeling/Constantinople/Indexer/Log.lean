/-
The indexer's cursor arithmetic against the chain's: on every chain from genesis the range checks of
the indexer hold.
-/
import Constantinople.Consensus.History
import Constantinople.Indexer.Upload

namespace Constantinople

open Run

variable {C D : Type}

/-! ## The cursor checks -/

/-- The number of operations a block adds to a writer. -/
def opCount (writerNext : UInt64) (block : Block C D) : Nat :=
  block.body.length + 1 + if writerNext = 0 then 1 else 0

/-- Everything `transaction_upload_end` can return when the range holds the block's operations. -/
theorem transactionUploadEnd_eq (writerNext : UInt64) (block : Block C D)
    (h : opCount writerNext block ≤ block.header.transactionsRange.stop.toNat) :
    ∃ blockStart : UInt64,
      blockStart.toNat + opCount writerNext block = block.header.transactionsRange.stop.toNat ∧
      transactionUploadEnd writerNext block =
        if writerNext = 0 ∧ 1 < block.header.height then .ok (.error (.storeEmptyPastGenesis block.header.height))
        else if writerNext ≠ blockStart then .ok (.error (.writerOutOfSync writerNext blockStart))
        else .ok (.ok block.header.transactionsRange.stop) := by
  have hstop := block.header.transactionsRange.stop.toNat_lt
  have hlen : (UInt64.ofNat block.body.length).toNat = block.body.length :=
    Word.toNat_ofNat (by unfold opCount at h; omega)
  obtain ⟨n, hn, hnNat⟩ := Word.checkedAdd_of_lt (a := UInt64.ofNat block.body.length) (b := 1)
    (by simp only [hlen, UInt64.toNat_one]; unfold opCount at h; omega)
  rw [hlen, UInt64.toNat_one] at hnNat
  -- one more operation when the writer is still empty
  obtain ⟨m, hm, hmNat⟩ : ∃ m, (if writerNext = 0 then Word.checkedAdd n 1 else some n) = some m ∧
      m.toNat = opCount writerNext block := by
    unfold opCount at h ⊢
    split at h
    · rename_i h0
      rw [if_pos h0, if_pos h0]
      obtain ⟨m, hm, hmNat⟩ := Word.checkedAdd_of_lt (a := n) (b := 1) (by simp only [UInt64.toNat_one]; omega)
      exact ⟨m, hm, by rw [hmNat, hnNat, UInt64.toNat_one]⟩
    · rename_i h0
      rw [if_neg h0, if_neg h0]
      exact ⟨n, rfl, hnNat⟩
  obtain ⟨start, hstart, hstartNat⟩ := Word.checkedSub_of_le (a := block.header.transactionsRange.stop) (b := m)
    (by omega)
  refine ⟨start, by omega, ?_⟩
  unfold transactionUploadEnd
  split
  · rfl
  rw [if_neg (by unfold opCount at h; omega)]
  simp only [hn, hm, hstart]
  split
  · rfl
  · rename_i heq
    obtain rfl := not_not.1 heq
    rw [Word.checkedAdd_eq_some.2 (show block.header.transactionsRange.stop.toNat = _ by omega)]

/-- A block that is accepted continues where the writer stands, and the writer ends where its range does. -/
theorem transactionUploadEnd_ok {writerNext stop : UInt64} {block : Block C D}
    (h : transactionUploadEnd writerNext block = .ok (.ok stop)) :
    ¬ (writerNext = 0 ∧ 1 < block.header.height) ∧ writerNext.toNat + opCount writerNext block = stop.toNat ∧
      stop = block.header.transactionsRange.stop := by
  unfold transactionUploadEnd at h
  split at h
  · cases h
  rename_i hgenesis
  split at h
  · cases h
  rename_i hfits
  split at h
  · cases h
  rename_i count hcount
  split at h
  · cases h
  rename_i total htotal
  split at h
  · cases h
  rename_i blockStart hstart
  split at h
  · cases h
  rename_i heq
  split at h
  · cases h
  rename_i stop' hstop
  cases h
  have htotal : total.toNat = opCount writerNext block := by
    have h1 := Word.checkedAdd_eq_some.1 hcount
    rw [UInt64.toNat_one, Word.toNat_ofNat (by omega)] at h1
    unfold opCount
    split at htotal
    · rename_i h0
      have h2 := Word.checkedAdd_eq_some.1 htotal
      rw [h2, h1, if_pos h0, UInt64.toNat_one]
    · rename_i h0
      cases htotal
      rw [h1, if_neg h0]
  have hbegin := Word.checkedSub_eq_some.1 hstart
  have hend := Word.checkedAdd_eq_some.1 hstop
  rw [← not_not.1 heq] at hbegin
  exact ⟨hgenesis, by omega, UInt64.toNat_inj.1 (by omega)⟩

theorem indexTransactions_bound (E : Env D) (body : List (LazySignedTransaction D)) :
    (indexTransactions E body).length ≤ body.length ∧ ∀ tx ∈ indexTransactions E body, tx.blockIndex < body.length := by
  unfold indexTransactions
  constructor
  · exact (List.length_filterMap_le ..).trans (List.length_zipIdx ..).le
  · intro tx htx
    obtain ⟨⟨lazy, i⟩, hmem, hi⟩ := List.mem_filterMap.1 htx
    have hlt := (List.mem_zipIdx hmem).2.1
    unfold indexTransaction at hi
    simp only at hi
    split at hi
    · cases hi
    split at hi
    · cases hi
    split at hi
    · cases hi
    · cases hi; simpa using hlt

/-- The rows of the loop, when every index fits. -/
theorem transactionsRows_ok {height appendStart : UInt64} :
    ∀ {txs : List (IndexedTransaction D)} {i : Nat}, (∀ tx ∈ txs, tx.blockIndex < 2 ^ 32) →
      transactionsRows height appendStart i txs = .ok ((txs.zipIdx i).flatMap fun entry =>
        transactionRows height appendStart entry.2 entry.1 (UInt32.ofNat entry.1.blockIndex))
  | [], _, _ => rfl
  | tx :: txs, i, h => by
    rw [transactionsRows, if_neg (by have := h tx (List.mem_cons_self ..); omega),
      transactionsRows_ok fun t ht => h t (List.mem_cons_of_mem _ ht)]
    rfl

/-- An index past 32 bits makes the loop panic. -/
theorem transactionsRows_panics {height appendStart : UInt64} :
    ∀ {txs : List (IndexedTransaction D)} {i : Nat}, (∃ tx ∈ txs, 2 ^ 32 ≤ tx.blockIndex) →
      transactionsRows height appendStart i txs = .error (.expect "transaction index fits u32")
  | [], _, ⟨_, hmem, _⟩ => nomatch hmem
  | tx :: txs, i, ⟨wide, hmem, hge⟩ => by
    rw [transactionsRows]
    split
    · rfl
    · rename_i hlt
      rcases List.mem_cons.1 hmem with rfl | hmem
      · exact absurd hge hlt
      · rw [transactionsRows_panics ⟨wide, hmem, hge⟩]

/-- Of a transaction's rows the first is its metadata row, and the only one. -/
theorem txMeta_mem_transactionRows {height appendStart : UInt64} {i : Nat} {tx : IndexedTransaction D} {index : UInt32}
    {row : TxMetaRow D} (h : .txMeta row ∈ transactionRows height appendStart i tx index) :
    row = ⟨tx.digest, appendStart + UInt64.ofNat i, tx.bytes⟩ := by
  simp only [transactionRows, List.mem_append, List.mem_cons, List.not_mem_nil, or_false] at h
  rcases h with (h | h) | h
  · cases h; rfl
  · cases h
  · split at h
    · rcases List.mem_singleton.1 h with h
      cases h
    · cases h

/-- With room for the body and its commit, the range check of the row encoder passes. -/
theorem encodeIndexedBlockRowsAt_range (E : Env D) (block : SealedBlock C D) (now : Int)
    (h : block.inner.body.length + 1 ≤ block.inner.header.transactionsRange.stop.toNat) :
    ∃ appendStart : UInt64,
      appendStart.toNat + (indexTransactions E block.inner.body).length + 1 =
        block.inner.header.transactionsRange.stop.toNat ∧
      encodeIndexedBlockRowsAt E block now =
        blockRowsFrom block now (indexTransactions E block.inner.body) appendStart := by
  have hle := (indexTransactions_bound E block.inner.body).1
  have hstop := block.inner.header.transactionsRange.stop.toNat_lt
  have hn : (UInt64.ofNat (indexTransactions E block.inner.body).length + 1).toNat =
      (indexTransactions E block.inner.body).length + 1 := by
    rw [UInt64.toNat_add, Word.toNat_ofNat (by omega), UInt64.toNat_one]; omega
  obtain ⟨start, hstart, hstartNat⟩ := Word.checkedSub_of_le (a := block.inner.header.transactionsRange.stop)
    (b := UInt64.ofNat (indexTransactions E block.inner.body).length + 1) (by omega)
  refine ⟨start, by omega, ?_⟩
  unfold encodeIndexedBlockRowsAt
  simp only
  rw [if_neg (by omega), hstart]

/-- The rows of a block, when there are any: its own, then those of its transactions, whose indices fit. -/
theorem encodeIndexedBlockRowsAt_ok {E : Env D} {block : SealedBlock C D} {now : Int} {rows : IndexedBlockRows D}
    (h : encodeIndexedBlockRowsAt E block now = .ok rows) :
    (∀ tx ∈ indexTransactions E block.inner.body, tx.blockIndex < 2 ^ 32) ∧
    ∃ appendStart header, rows.sql = .blockMeta header :: (indexTransactions E block.inner.body).zipIdx.flatMap fun entry =>
      transactionRows block.inner.header.height appendStart entry.2 entry.1 (UInt32.ofNat entry.1.blockIndex) := by
  unfold encodeIndexedBlockRowsAt at h
  simp only at h
  split at h
  · cases h
  split at h
  · cases h
  rename_i appendStart _
  unfold blockRowsFrom at h
  simp only at h
  split at h
  · cases h
  rename_i sql hsql
  cases h
  have hindex : ∀ tx ∈ indexTransactions E block.inner.body, tx.blockIndex < 2 ^ 32 := by
    -- otherwise the loop would have panicked
    intro tx htx
    by_contra hge
    rw [transactionsRows_panics ⟨tx, htx, Nat.not_lt.1 hge⟩] at hsql
    cases hsql
  rw [transactionsRows_ok hindex] at hsql
  cases hsql
  exact ⟨hindex, appendStart, _, rfl⟩

/-! ## Ranges over a chain -/

/-- Over every chain from genesis: how each range follows from the one before, and that no check of the
application or of the indexer fails. A body is no longer than a length prefix can say. -/
theorem history_ranges {Q : Qmdb D} (hfloor : Q.ReportsFloor) (hops : Q.AddsOps) (E : Env D)
    (husize : ∀ bs n rest, E.usize.read bs = .ok (n, rest) → n < 2 ^ 32)
    (codecs : HeaderCodecs C D) (context : C) (empty : D) (timestamp : UInt64) (stateRoot : D)
    (stateRange : NonEmptyRange) (transactionsRoot : D) (leafCount : UInt64) (genesis : SealedBlock C D)
    (hgenesis : genesisBlockWithParent E codecs context empty timestamp stateRoot stateRange transactionsRoot leafCount =
      .ok genesis) {log : List (HistoryOp D)} (hlog : log.length = leafCount.toNat) {blocks : List (Block C D)}
    (hlength : ∀ b ∈ blocks, ∃ wire rest, E.usize.read wire = .ok (b.body.length, rest))
    {tip : Tip C D} (h : Trace (HistoryStep Q) ⟨genesis.inner, log⟩ blocks tip) :
    let chain := genesis.inner :: blocks
    (∀ k parent child, chain[k]? = some parent → chain[k + 1]? = some child → RangeLink parent child) ∧
    (∀ k grandparent parent child, chain[k]? = some grandparent → chain[k + 1]? = some parent →
      chain[k + 2]? = some child →
      child.header.transactionsRange.start = grandparent.header.transactionsRange.stop) ∧
    (∀ b ∈ chain, ∃ floor, parentTransactionsInactivityFloor b = .ok floor) ∧
    (∀ b ∈ blocks, ∀ writerNext, ∃ r, transactionUploadEnd writerNext b = .ok r) ∧
    (∀ b ∈ chain, ∀ (digest : D) (now : Int), ∃ rows, encodeIndexedBlockRowsAt E ⟨b, digest⟩ now = .ok rows) := by
  intro chain
  obtain ⟨hgenesisStep, -, -, hempty, -⟩ := genesis_inStep hgenesis hlog
  obtain ⟨hlinks, hinStep, hparents⟩ := chain_links hfloor hops hgenesisStep h
  have hlink : ∀ k parent child, chain[k]? = some parent → chain[k + 1]? = some child → RangeLink parent child := by
    intro k parent child hp hc
    obtain ⟨hk, rfl⟩ := List.getElem?_eq_some_iff.1 hp
    obtain ⟨hk', rfl⟩ := List.getElem?_eq_some_iff.1 hc
    exact List.isChain_iff_getElem.1 hlinks k hk'
  refine ⟨hlink, ?_, ?_, ?_, ?_⟩
  · intro k g p c hg hp hc
    have h1 := hlink k g p hg hp
    have h2 := hlink (k + 1) p c hp hc
    have := h1.stop
    have := h2.start
    exact UInt64.toNat_inj.1 (by omega)
  · intro b hb
    obtain ⟨t, rfl, ht⟩ := hinStep b hb
    exact ht.floor_ok
  · -- the range of a child holds its own operations and at least one of its parent's
    intro b hb w
    obtain ⟨parent, hlink, hpos⟩ := hparents b hb
    have hstop := hlink.stop
    obtain ⟨start, -, heq⟩ := transactionUploadEnd_eq w b
      (by unfold opCount; split <;> omega)
    rw [heq]
    split
    · exact ⟨_, rfl⟩
    split
    · exact ⟨_, rfl⟩
    · exact ⟨_, rfl⟩
  · intro b hb digest now
    have hfit : b.body.length < 2 ^ 32 := by
      rcases List.mem_cons.1 hb with rfl | hb
      · rw [hempty]
        exact Nat.two_pow_pos 32
      · obtain ⟨wire, rest, hread⟩ := hlength b hb
        exact husize wire _ rest hread
    obtain ⟨t, rfl, ht⟩ := hinStep b hb
    have hown := ht.own
    obtain ⟨start, -, heq⟩ := encodeIndexedBlockRowsAt_range E ⟨t.block, digest⟩ now
      (show t.block.body.length + 1 ≤ _ by simp only; omega)
    have hindex : ∀ tx ∈ indexTransactions E t.block.body, tx.blockIndex < 2 ^ 32 :=
      fun tx htx => ((indexTransactions_bound E _).2 tx htx).trans hfit
    rw [heq, blockRowsFrom]
    simp only [transactionsRows_ok hindex]
    exact ⟨_, rfl⟩

theorem countingApplication_addsOps : countingApplication.qmdb.AddsOps := by
  intro batch root bounds h
  simp only [countingApplication] at h
  split at h
  · rename_i hlt; cases h; exact Word.toNat_ofNat hlt
  · cases h

theorem countingApplication_usize (bs : Bytes) (n : Nat) (rest : Bytes)
    (h : countingApplication.env.usize.read bs = .ok (n, rest)) : n < 2 ^ 32 := by
  obtain ⟨b, _, -, h⟩ := Reader.bind_ok h
  obtain ⟨rfl, -⟩ := Reader.pure_ok h
  have := b.toNat_lt
  omega

theorem history_ranges_sample :
    RangeLink sampleGenesis.inner sampleChild.inner ∧
      (∃ r, transactionUploadEnd 0 sampleChild.inner = .ok r) ∧
      ∃ rows, encodeIndexedBlockRowsAt countingApplication.env sampleChild 0 = .ok rows := by
  have hstep : Trace (HistoryStep countingApplication.qmdb) ⟨sampleGenesis.inner, [.commit none 0]⟩ [sampleChild.inner]
      ⟨sampleChild.inner, [.commit none 0, .append 82, .commit none 0]⟩ :=
    .cons ⟨⟨fun _ => none, []⟩, ⟨[.commit none 0], [82], 0⟩, "", _, rfl, rfl, rfl, rfl, rfl⟩ (.nil _)
  have hlength : ∀ b ∈ [sampleChild.inner], ∃ wire rest,
      countingApplication.env.usize.read wire = .ok (b.body.length, rest) := by
    rintro b hb
    rw [List.mem_singleton.1 hb]
    exact ⟨[1], [], rfl⟩
  obtain ⟨hlinks, -, -, hends, hrows⟩ := history_ranges countingApplication_reportsFloor countingApplication_addsOps
    countingApplication.env countingApplication_usize countingCodecs () 0 0 0 ⟨0, 1, by decide⟩ 0 1 sampleGenesis rfl rfl
    hlength hstep
  exact ⟨hlinks 0 _ _ rfl rfl, hends _ (List.mem_singleton.2 rfl) 0, hrows sampleChild.inner (List.mem_cons_of_mem _ (List.mem_singleton_self _)) _ 0⟩

end Constantinople
