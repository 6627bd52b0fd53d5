/-
Rebuilding the transaction history from finalized blocks. Feeding a chain of verified blocks to the
indexer, from an empty writer on, gives the operations the application's history holds, and each
transaction row points at its own append.
-/
import Constantinople.Indexer.Log

namespace Constantinople

open Run

variable {C D : Type}

/-! ## Feeding blocks to the indexer -/

/-- One block at a writer position: the next position, the operations and the rows. -/
def rebuildBlock (E : Env D) (writerNext : UInt64) (block : SealedBlock C D) (now : Int) :
    Panics (Except PublishError (UInt64 × List (HistoryOp D) × List (SqlRow D))) :=
  match transactionUploadEnd writerNext block.inner with
  | .error panic => .error panic
  | .ok (.error error) => .ok (.error error)
  | .ok (.ok next) =>
    match encodeIndexedBlockRowsAt E block now with
    | .error panic => .error panic
    | .ok rows =>
      match transactionOpsFromDigests block.inner writerNext rows.transactionDigests with
      | .error panic => .error panic
      | .ok (.error error) => .ok (.error error)
      | .ok (.ok ops) => .ok (.ok (next, ops, rows.sql))

/-- Blocks in order, each from where the one before left the writer. -/
def rebuild (E : Env D) (now : SealedBlock C D → Int) :
    UInt64 → List (SealedBlock C D) → Panics (Except PublishError (List (HistoryOp D) × List (SqlRow D)))
  | _, [] => .ok (.ok ([], []))
  | writerNext, block :: blocks =>
    match rebuildBlock E writerNext block (now block) with
    | .error panic => .error panic
    | .ok (.error error) => .ok (.error error)
    | .ok (.ok (next, ops, rows)) =>
      match rebuild E now next blocks with
      | .error panic => .error panic
      | .ok (.error error) => .ok (.error error)
      | .ok (.ok (ops', rows')) => .ok (.ok (ops ++ ops', rows ++ rows'))

/-! ## Chains of verified blocks -/

/-- The tip of a verified chain, with the two databases after it. -/
structure ChainState (C D : Type) where
  block : SealedBlock C D
  state : StateDb
  log : List (HistoryOp D)

def ChainState.tip (s : ChainState C D) : Tip C D := ⟨s.block.inner, s.log⟩

/-- A block as a node holds it, read from the wire or built by its proposer: its length is one that a
length prefix can carry, and a transaction that is already decoded has the seal computed from it. -/
structure Block.Held (E : Env D) (b : Block C D) : Prop where
  length : ∃ wire rest, E.usize.read wire = .ok (b.body.length, rest)
  seals : ∀ value, .new value ∈ b.body → value.messageDigest = value.value.hashSlow E.hasher

/-- A block one above its parent that verification accepted on the databases its parent left; the
history then holds the operations of the merkleized batch. -/
def VerifiedStep [DecidableEq D] (A : Application D) (s : ChainState C D) (child : SealedBlock C D)
    (s' : ChainState C D) : Prop :=
  ∃ (rng : Nat) (floor : UInt64) (dbs : MerkleizedDatabases D),
    child.inner.Held A.env ∧ child.inner.header.height = s.block.inner.header.height + 1 ∧
    A.verifyChild rng child s.block ⟨s.state, []⟩ ⟨s.log, [], floor⟩ = .ok (some dbs) ∧
    s' = ⟨child, dbs.1.batch.get, s.log ++ dbs.2.batch.ops⟩

/-- What a block writes to the history: its digests, then a commit with its floor. -/
def blockOps (E : Env D) (block : SealedBlock C D) : List (HistoryOp D) :=
  (bodyDigests E block.inner.body).map .append ++ [.commit none block.inner.header.transactionsRange.start]

section Verified

variable [DecidableEq D] {A : Application D} {s s' : ChainState C D} {child : SealedBlock C D}

/-- The transfers of a verified block, with what it does to the history. -/
theorem VerifiedStep.facts (hfloor : A.qmdb.ReportsFloor) (h : VerifiedStep A s child s') :
    s'.block = child ∧ s'.log = s.log ++ blockOps A.env child ∧ HistoryStep A.qmdb s.tip child.inner s'.tip ∧
    ∃ ts : List (PreparedTransfer D), child.inner.body.map
      (fun t => (t.get A.env).bind (prepareTransfer A.env.crypto.sha256)) = ts.map some := by
  obtain ⟨rng, _, dbs, -, -, hver, rfl⟩ := h
  obtain ⟨ts, changeset, ex, hacc, rfl⟩ := verifyChild_accepted hver
  have hprep := mapM_eq_some_iff.1 hacc.prepared
  obtain ⟨-, hbatch, -⟩ := finalizeExecution_transactions (hacc.floor_eq hfloor)
  have hlog : s.log ++ ex.transactions.batch.ops = s.log ++ blockOps A.env child := by
    rw [show ex.transactions.batch = _ from hbatch, applyTransactionDigests_eq, transferDigests_eq hprep]
    rfl
  refine ⟨rfl, hlog, ?_, ts, hprep⟩
  refine ⟨_, _, _, ex, ?_, ?_, hacc.length_transfers ▸ hacc.finalized, hacc.range.symm, rfl⟩
  · rw [applyTransactionDigests_eq]; rfl
  · rw [applyTransactionDigests_eq]
    simp [transferDigests, hacc.length_transfers]

/-- Along a chain heights increase: the history has more operations than the height, and its length is a word. -/
theorem chain_heights (hfloor : A.qmdb.ReportsFloor) (hops : A.qmdb.AddsOps) {blocks : List (SealedBlock C D)}
    (h : Trace (VerifiedStep A) s blocks s') (hs : s.tip.InStep)
    (hheight : s.block.inner.header.height.toNat < s.log.length) :
    (s.block :: blocks).Pairwise fun b b' => b.inner.header.height.toNat < b'.inner.header.height.toNat := by
  induction h with
  | nil s => exact List.pairwise_singleton _ _
  | @cons s m s' child blocks head tail ih =>
    obtain ⟨hblock, hlog, hstep, -⟩ := head.facts hfloor
    obtain ⟨-, -, -, -, hnext, -⟩ := head
    obtain ⟨-, -, hm⟩ := hstep.link hfloor hops hs
    have hroom : s.log.length < 2 ^ 64 := by
      rw [show s.log.length = _ from hs.log]
      exact UInt64.toNat_lt _
    -- so the height of the child does not wrap around
    have hchild : child.inner.header.height.toNat = s.block.inner.header.height.toNat + 1 := by
      rw [hnext, UInt64.toNat_add, UInt64.toNat_one, Nat.mod_eq_of_lt (by omega)]
    have hlonger : m.block.inner.header.height.toNat < m.log.length := by
      rw [hblock, hchild, hlog, List.length_append, blockOps, List.length_append, List.length_singleton]
      omega
    have hrest := ih hm hlonger
    rw [hblock] at hrest
    refine List.pairwise_cons.2 ⟨fun b hb => ?_, hrest⟩
    rcases List.mem_cons.1 hb with rfl | hb
    · omega
    · have hlt := (List.pairwise_cons.1 hrest).1 b hb
      omega

end Verified

/-! ## Indexing a verified body -/

/-- The decoded transaction and the bytes the indexer reads agree on the digest and on the fields. -/
theorem LazySignedTransaction.get_encoded {E : Env D} {lazy : LazySignedTransaction D} {signed : SignedTransaction D}
    (hseal : ∀ value, lazy = .new value → value.messageDigest = value.value.hashSlow E.hasher)
    (h : lazy.get E = some signed) :
    signed.messageDigest = E.hasher.hash (lazy.encodedSignedTransaction.take Transaction.size) ∧
      signed.value.write = lazy.encodedSignedTransaction.take Transaction.size := by
  cases lazy with
  | new value =>
    cases h
    have htake : signed.write.take Transaction.size = signed.value.write := List.take_left' signed.value.length_write
    refine ⟨?_, htake.symm⟩
    rw [hseal signed rfl, encodedSignedTransaction, htake]
    rfl
  | deferred pending =>
    unfold get at h
    rcases hd : Reader.decode (SignedTransaction.read E.crypto E.hasher) pending with e | u
    · simp only [hd] at h; cases h
    · simp only [hd] at h
      cases h
      exact SignedTransaction.read_ok (Reader.decode_ok.1 hd)

theorem readU64_eq {bytes : Bytes} {start : Nat} {n : UInt64} (h : (bytes.drop start).take 8 = toBE 8 n.toNat) :
    readU64 bytes start = n := by
  have hn := n.toNat_lt
  rw [readU64, h, ofBE_toBE, Nat.mod_eq_of_lt (by omega), UInt64.ofNat_toNat]

/-- The indexer reads from the encoded bytes what decoding and preparing the transaction gave. -/
theorem indexTransaction_of_prepared {E : Env D} {lazy : LazySignedTransaction D} {t : PreparedTransfer D} (i : Nat)
    (hseal : ∀ value, lazy = .new value → value.messageDigest = value.value.hashSlow E.hasher)
    (h : (lazy.get E).bind (prepareTransfer E.crypto.sha256) = some t) :
    indexTransaction E i lazy =
      some ⟨i, t.digest, lazy.encodedSignedTransaction, t.sender, t.recipient, t.value, t.nonce⟩ := by
  obtain ⟨signed, hget, hprep⟩ := Option.bind_eq_some_iff.1 h
  obtain ⟨hdigest, hwrite⟩ := LazySignedTransaction.get_encoded hseal hget
  set bytes := lazy.encodedSignedTransaction with hbytes
  have hlen : ¬ bytes.length < Transaction.size := by
    have := congrArg List.length hwrite
    rw [signed.value.length_write, List.length_take] at this
    omega
  unfold prepareTransfer accountKeyFromSender at hprep
  simp only at hprep
  split at hprep
  · cases hprep
  rename_i sender hsender
  cases hprep
  have hvalue : readU64 (bytes.take Transaction.size) (transactionPublicKeySize + accountKeySize) =
      signed.value.value := by
    rw [← hwrite]
    exact readU64_eq signed.value.drop_value
  have hnonce : readU64 (bytes.take Transaction.size) (transactionPublicKeySize + accountKeySize + 8) =
      signed.value.nonce := by
    rw [← hwrite]
    exact readU64_eq signed.value.drop_nonce
  have hrecipient : ((bytes.take Transaction.size).drop transactionPublicKeySize).take accountKeySize =
      signed.value.toKey.bytes := by
    rw [← hwrite]
    exact signed.value.drop_recipient
  have hkey : AccountKey.fromPublicKeyBytes E.crypto.sha256
      ((bytes.take Transaction.size).take transactionPublicKeySize) = some sender := by
    rw [← hwrite, signed.value.take_sender, hsender]
  unfold indexTransaction
  simp only [← hbytes]
  rw [dif_neg hlen]
  simp only [hkey, hvalue, hnonce, hrecipient, if_neg signed.value.nonZero, hdigest]

/-- Every transaction of a verified body is indexed, with its own digest. -/
theorem indexTransactions_digests {E : Env D} {body : List (LazySignedTransaction D)}
    (hseal : ∀ value, .new value ∈ body → value.messageDigest = value.value.hashSlow E.hasher)
    {ts : List (PreparedTransfer D)}
    (h : body.map (fun t => (t.get E).bind (prepareTransfer E.crypto.sha256)) = ts.map some) :
    (indexTransactions E body).map (fun tx => tx.digest) = bodyDigests E body := by
  rw [← transferDigests_eq h]
  -- the positions only number the transactions, so the induction is over any first position
  suffices key : ∀ n, ((body.zipIdx n).filterMap fun entry => indexTransaction E entry.2 entry.1).map
      (fun tx => tx.digest) = transferDigests ts from key 0
  induction body generalizing ts with
  | nil =>
    cases ts with
    | nil => exact fun _ => rfl
    | cons => cases h
  | cons lazy body ih =>
    cases ts with
    | nil => cases h
    | cons t ts =>
      intro n
      obtain ⟨hhead, htail⟩ := List.cons.inj h
      have htx := indexTransaction_of_prepared n (fun value hv => hseal value (hv ▸ List.mem_cons_self ..)) hhead
      have ih := ih (fun value hv => hseal value (List.mem_cons_of_mem _ hv)) htail (n + 1)
      rw [List.zipIdx_cons, List.filterMap_cons, htx, List.map_cons, ih]
      rfl

theorem length_bodyDigests {E : Env D} {body : List (LazySignedTransaction D)} {ts : List (PreparedTransfer D)}
    (h : body.map (fun t => (t.get E).bind (prepareTransfer E.crypto.sha256)) = ts.map some) :
    (bodyDigests E body).length = body.length := by
  rw [← transferDigests_eq h]
  have hlength := congrArg List.length h
  simpa [transferDigests] using hlength.symm

theorem transactionOpsFromDigests_ok {block : Block C D} {writerNext : UInt64} {digests : List D}
    (h : writerNext.toNat + (transactionOps block writerNext digests).length =
      block.header.transactionsRange.stop.toNat) :
    transactionOpsFromDigests block writerNext digests = .ok (.ok (transactionOps block writerNext digests)) := by
  have hstop := block.header.transactionsRange.stop.toNat_lt
  have hsub : Word.checkedSub block.header.transactionsRange.stop
      (UInt64.ofNat (transactionOps block writerNext digests).length) = some writerNext := by
    rw [Word.checkedSub_eq_some, Word.toNat_ofNat (by omega), h]
  unfold transactionOpsFromDigests
  simp only
  rw [if_neg (by omega), hsub]
  simp only [ne_eq, not_true_eq_false, if_false]

/-- The rows of a block whose indices fit, and where its transaction rows point. -/
theorem blockRowsFrom_ok (block : SealedBlock C D) (now : Int) {txs : List (IndexedTransaction D)} {appendStart : UInt64}
    (hidx : ∀ tx ∈ txs, tx.blockIndex < 2 ^ 32) (hfit : appendStart.toNat + txs.length < 2 ^ 64) :
    ∃ rows, blockRowsFrom block now txs appendStart = .ok rows ∧
      rows.transactionDigests = txs.map (fun tx => tx.digest) ∧
      ∀ row, .txMeta row ∈ rows.sql → ∃ i, row.qmdbLocation.toNat = appendStart.toNat + i ∧
        rows.transactionDigests[i]? = some row.digest := by
  unfold blockRowsFrom
  simp only [transactionsRows_ok hidx]
  refine ⟨_, rfl, rfl, fun row hrow => ?_⟩
  rcases List.mem_cons.1 hrow with hrow | hrow
  · cases hrow
  obtain ⟨⟨tx, i⟩, hmem, hrow⟩ := List.mem_flatMap.1 hrow
  obtain ⟨-, hi, htx⟩ := List.mem_zipIdx hmem
  have hmeta := txMeta_mem_transactionRows hrow
  subst hmeta
  simp only [Nat.sub_zero] at htx hi
  refine ⟨i, ?_, ?_⟩
  · rw [UInt64.toNat_add, Word.toNat_ofNat (by omega), Nat.mod_eq_of_lt (by omega)]
  · rw [List.getElem?_map, List.getElem?_eq_getElem (by omega), Option.map_some, htx]

theorem length_transactionOps {block : Block C D} {digests : List D} (writerNext : UInt64)
    (h : digests.length = block.body.length) : (transactionOps block writerNext digests).length = opCount writerNext block := by
  unfold transactionOps opCount
  split
  · simp [h]
  · simp [h]

/-- The rows of a block all of whose transactions are prepared: one digest for each, in body order, and a
metadata row for each at the location of its append. -/
theorem encodeIndexedBlockRowsAt_prepared {E : Env D} (block : SealedBlock C D) (now : Int)
    (hseal : ∀ value, .new value ∈ block.inner.body → value.messageDigest = value.value.hashSlow E.hasher)
    {ts : List (PreparedTransfer D)}
    (hprep : block.inner.body.map (fun t => (t.get E).bind (prepareTransfer E.crypto.sha256)) = ts.map some)
    (hfit : block.inner.body.length < 2 ^ 32)
    (hstop : block.inner.body.length + 1 ≤ block.inner.header.transactionsRange.stop.toNat) :
    ∃ (rows : IndexedBlockRows D) (appendStart : UInt64), encodeIndexedBlockRowsAt E block now = .ok rows ∧
      rows.transactionDigests = bodyDigests E block.inner.body ∧
      appendStart.toNat + block.inner.body.length + 1 = block.inner.header.transactionsRange.stop.toNat ∧
      ∀ row, .txMeta row ∈ rows.sql → ∃ i, row.qmdbLocation.toNat = appendStart.toNat + i ∧
        rows.transactionDigests[i]? = some row.digest := by
  have hdigests := indexTransactions_digests hseal hprep
  have hindexed : (indexTransactions E block.inner.body).length = block.inner.body.length := by
    rw [← length_bodyDigests hprep, ← hdigests, List.length_map]
  have hstopNat := block.inner.header.transactionsRange.stop.toNat_lt
  obtain ⟨appendStart, happ, henc⟩ := encodeIndexedBlockRowsAt_range E block now hstop
  rw [hindexed] at happ
  obtain ⟨rows, hrows, hrowDigests, hmeta⟩ := blockRowsFrom_ok block now
    (fun tx htx => ((indexTransactions_bound E _).2 tx htx).trans hfit)
    (show appendStart.toNat + (indexTransactions E block.inner.body).length < 2 ^ 64 by omega)
  exact ⟨rows, appendStart, henc.trans hrows, hrowDigests.trans hdigests, happ, hmeta⟩

/-! ## The rebuilt history -/

/-- Where the writer is when the indexer has seen the blocks up to the tip: still empty at genesis,
then at the end of the history. -/
inductive WriterAt : UInt64 → ChainState C D → Prop
  | empty {s : ChainState C D} (log : s.log = [.commit none 0]) (height : s.block.inner.header.height = 0) :
    WriterAt 0 s
  | past {writerNext : UInt64} {s : ChainState C D} (pos : writerNext ≠ 0)
    (log : writerNext.toNat = s.log.length) : WriterAt writerNext s

/-- What the writer holds: nothing while it is empty. -/
def written (writerNext : UInt64) (s : ChainState C D) : List (HistoryOp D) := if writerNext = 0 then [] else s.log

section Rebuilt

variable [DecidableEq D] {A : Application D} (hfloor : A.qmdb.ReportsFloor) (hops : A.qmdb.AddsOps)
  (husize : ∀ bs n rest, A.env.usize.read bs = .ok (n, rest) → n < 2 ^ 32)

include hfloor hops husize

/-- One block: the indexer accepts it where the writer stands and writes what the application wrote. -/
theorem VerifiedStep.rebuilt {s s' : ChainState C D} {child : SealedBlock C D} {writerNext : UInt64}
    (hs : s.tip.InStep) (hw : WriterAt writerNext s) (h : VerifiedStep A s child s') (now : Int) :
    s'.tip.InStep ∧ ∃ next ops rows, rebuildBlock A.env writerNext child now = .ok (.ok (next, ops, rows)) ∧
      next ≠ 0 ∧ next.toNat = s'.log.length ∧ written writerNext s ++ ops = s'.log ∧
      ∀ row, .txMeta row ∈ rows → s'.log[row.qmdbLocation.toNat]? = some (.append row.digest) := by
  obtain ⟨hblock, hlog, hstep, ts, hprep⟩ := h.facts hfloor
  obtain ⟨_, _, _, hheld, hheight, -, -⟩ := h
  obtain ⟨-, hlink, hs'⟩ := hstep.link hfloor hops hs
  have hstop := hlink.stop
  have hslog : s.log.length = s.block.inner.header.transactionsRange.stop.toNat := hs.log
  have hstopNat := child.inner.header.transactionsRange.stop.toNat_lt
  change child.inner.header.transactionsRange.stop.toNat =
    s.block.inner.header.transactionsRange.stop.toNat + child.inner.body.length + 1 at hstop
  -- the operations end where the header's range ends, from either kind of position
  have hcursor : writerNext.toNat + opCount writerNext child.inner = child.inner.header.transactionsRange.stop.toNat ∧
      ¬ (writerNext = 0 ∧ 1 < child.inner.header.height) ∧
      written writerNext s ++ transactionOps child.inner writerNext (bodyDigests A.env child.inner.body) = s'.log := by
    rw [hlog]
    unfold opCount written transactionOps blockOps
    cases hw with
    | empty log height =>
      rw [log] at hslog
      refine ⟨?_, ?_, ?_⟩
      · simp only [UInt64.toNat_zero, if_true]
        simp only [List.length_singleton] at hslog
        omega
      · rw [hheight, height]; decide
      · simp [log]
    | past pos log =>
      refine ⟨?_, fun h => pos h.1, ?_⟩
      · rw [if_neg pos]; omega
      · simp [pos]
  obtain ⟨hcur, hpast, hlog'⟩ := hcursor
  obtain ⟨blockStart, hbs, hend⟩ := transactionUploadEnd_eq writerNext child.inner (by omega)
  have hstart : writerNext = blockStart := UInt64.toNat_inj.1 (by omega)
  rw [if_neg hpast, if_neg (not_not.2 hstart)] at hend
  obtain ⟨wire, rest, hlen⟩ := hheld.length
  obtain ⟨rows, appendStart, hrows, hrowDigests, happ, hmeta⟩ :=
    encodeIndexedBlockRowsAt_prepared child now hheld.seals hprep (husize _ _ _ hlen) (by omega)
  have hopsOk := transactionOpsFromDigests_ok (length_transactionOps writerNext (length_bodyDigests hprep) ▸ hcur)
  refine ⟨hs', child.inner.header.transactionsRange.stop, _, rows.sql, ?_, ?_, ?_, hlog', fun row hrow => ?_⟩
  · unfold rebuildBlock
    simp only [hend, hrows, hrowDigests, hopsOk]
  · intro h0
    rw [h0] at hstop
    simp only [UInt64.toNat_zero] at hstop
    omega
  · rw [← hblock]; exact hs'.log.symm
  · obtain ⟨i, hloc, hi⟩ := hmeta row hrow
    rw [hrowDigests] at hi
    have hlt := (List.getElem?_eq_some_iff.1 hi).1
    rw [hlog, hloc, show appendStart.toNat + i = s.log.length + i by omega, List.getElem?_append_right (by omega),
      Nat.add_sub_cancel_left, blockOps, List.getElem?_append_left (by rw [List.length_map]; exact hlt),
      List.getElem?_map, hi]
    rfl

/-- A chain: the operations of all blocks complete what the writer held to the application's history. -/
theorem rebuild_chain (now : SealedBlock C D → Int) {s s' : ChainState C D} {blocks : List (SealedBlock C D)}
    (h : Trace (VerifiedStep A) s blocks s') : ∀ {writerNext : UInt64}, s.tip.InStep → WriterAt writerNext s →
    ∃ ops rows, rebuild A.env now writerNext blocks = .ok (.ok (ops, rows)) ∧
      (blocks ≠ [] → written writerNext s ++ ops = s'.log) ∧
      s'.log = s.log ++ blocks.flatMap (blockOps A.env) ∧
      ∀ row, .txMeta row ∈ rows → s'.log[row.qmdbLocation.toNat]? = some (.append row.digest) := by
  induction h with
  | nil s =>
    intro writerNext _ _
    exact ⟨[], [], rfl, fun h => absurd rfl h, by simp, fun row hrow => by cases hrow⟩
  | @cons s m s' child blocks head tail ih =>
    intro writerNext hs hw
    obtain ⟨hm, next, ops, rows, hblock, hnext, hpos, hlog, hmeta⟩ :=
      head.rebuilt hfloor hops husize hs hw (now child)
    obtain ⟨-, happ, -⟩ := head.facts hfloor
    obtain ⟨ops', rows', hrest, hlog', happ', hmeta'⟩ := ih hm (.past hnext hpos)
    refine ⟨ops ++ ops', rows ++ rows', ?_, fun _ => ?_, ?_, fun row hrow => ?_⟩
    · simp only [rebuild, hblock, hrest]
    · rw [← List.append_assoc, hlog]
      cases tail with
      | nil => cases hrest; simp
      | cons => simpa [written, hnext] using hlog' (by simp)
    · rw [happ', happ]; simp
    · rcases List.mem_append.1 hrow with hrow | hrow
      · have hloc := hmeta row hrow
        rw [happ', List.getElem?_append_left (List.getElem?_eq_some_iff.1 hloc).1, hloc]
      · exact hmeta' row hrow

end Rebuilt

end Constantinople
