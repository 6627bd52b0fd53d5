/-
The durable queue of finalized uploads and what is indexed from it. `QueuedFinalizedUpload` is written
and read as in `crates/indexer/src/publisher/qmdb.rs`; after that the block's transactions are bytes
again, and the indexer slices its fields from them. What it finds is what decoding finds, before and after
the queue, so no transaction of a verified block is skipped.
-/
import Constantinople.Primitives.Wire
import Constantinople.Indexer.Rebuild
import Constantinople.Validator.Producer

namespace Constantinople

variable {C D : Type}

/-! ## The queue codec -/

/-- `QueuedFinalizedUploadCfg`: the most transactions and the most state operations that are read. -/
structure QueuedFinalizedUploadCfg where
  maxTransactions : Nat
  maxStateOps : Nat

/-- `RangeCfg::from(0..)` allows every `usize`. -/
def QueuedFinalizedUploadCfg.default : QueuedFinalizedUploadCfg := ⟨Block.defaultMaxTransactions, 2 ^ 64 - 1⟩

namespace QueuedFinalizedUpload

def write (E : Env D) (codecs : HeaderCodecs C D) (operations : Reader.Codec StateOperation)
    (upload : QueuedFinalizedUpload C D) : Bytes :=
  upload.block.inner.write E codecs ++ intToBE 8 upload.finalizedTsMicros ++ toBE 8 upload.stateStart.toNat ++
    toBE 8 upload.transactionStart.toNat ++ E.usize.write upload.stateDelta.length ++
    upload.stateDelta.flatMap operations.write

def read (E : Env D) (codecs : HeaderCodecs C D) (operations : Reader.Codec StateOperation)
    (cfg : QueuedFinalizedUploadCfg) : Reader (QueuedFinalizedUpload C D) := do
  let block ← SealedBlock.read E codecs cfg.maxTransactions
  let finalizedTsMicros ← Reader.i64
  let stateStart ← Reader.u64
  let transactionStart ← Reader.u64
  let len ← E.usize.read
  if cfg.maxStateOps < len then Reader.fail (.invalidLength len)
  else
    let stateDelta ← Reader.replicate operations.read len
    return ⟨block, finalizedTsMicros, stateStart, transactionStart, stateDelta⟩

/-- The form an upload has once it was written and read: its block sealed again, its transactions bytes. -/
def onWire (E : Env D) (codecs : HeaderCodecs C D) (upload : QueuedFinalizedUpload C D) : QueuedFinalizedUpload C D :=
  { upload with block := upload.block.inner.onWire.sealWith E codecs }

/-- An upload as the queue holds it: lengths that a length prefix can carry, a timestamp that is an `i64`,
and transactions that were decoded, newly signed or read from the wire. -/
structure Formed (E : Env D) (upload : QueuedFinalizedUpload C D) : Prop where
  length : ∃ wire rest, E.usize.read wire = .ok (upload.block.inner.body.length, rest)
  transactions : ∀ t ∈ upload.block.inner.body, t.Formed E
  timestamp : -2 ^ 63 ≤ upload.finalizedTsMicros ∧ upload.finalizedTsMicros < 2 ^ 63
  deltaLength : ∃ wire rest, E.usize.read wire = .ok (upload.stateDelta.length, rest)

/-- An upload is read back from its encoding, with its transactions not decoded. -/
theorem read_write {E : Env D} {codecs : HeaderCodecs C D} {operations : Reader.Codec StateOperation}
    (hu : E.usize.RoundTrips (· < 2 ^ 32)) (hc : codecs.RoundTrips) {upload : QueuedFinalizedUpload C D}
    (ho : ∀ op ∈ upload.stateDelta, ∀ rest, operations.read (operations.write op ++ rest) = .ok (op, rest))
    (h : upload.Formed E) {cfg : QueuedFinalizedUploadCfg}
    (htransactions : upload.block.inner.body.length ≤ cfg.maxTransactions)
    (hstateOps : upload.stateDelta.length ≤ cfg.maxStateOps) (rest : Bytes) :
    read E codecs operations cfg (upload.write E codecs operations ++ rest) = .ok (upload.onWire E codecs, rest) := by
  obtain ⟨_, _, hlength⟩ := h.length
  obtain ⟨_, _, hdelta⟩ := h.deltaLength
  have hlength := hu.valid _ _ _ hlength
  have hdelta := hu.valid _ _ _ hdelta
  have hblock : ∀ bs, SealedBlock.read E codecs cfg.maxTransactions
      (upload.block.inner.write E codecs ++ bs) = .ok (upload.block.inner.onWire.sealWith E codecs, bs) := by
    intro bs
    have hsize : ∀ n ≤ LazySignedTransaction.maxEncodedSize, n < 2 ^ 32 := fun n hn => hn.trans_lt (by decide)
    have hread := Block.read_write hc hu hsize htransactions hlength (fun t ht => (h.transactions t ht).fits) bs
    unfold SealedBlock.read
    rw [Reader.bind_eq hread]
    rfl
  unfold read
  simp only [write, List.append_assoc]
  rw [Reader.bind_eq (hblock _), Reader.bind_eq (Reader.i64_reads h.timestamp _),
    Reader.bind_eq (Reader.u64_reads upload.stateStart _), Reader.bind_eq (Reader.u64_reads upload.transactionStart _),
    Reader.bind_eq (hu.reads _ hdelta _), if_neg (by omega),
    Reader.bind_eq (Reader.replicate_reads (f := id) ho), List.map_id]
  rfl

end QueuedFinalizedUpload

/-! ## Indexing without decoding -/

namespace LazySignedTransaction

variable {E : Env D} {lazy : LazySignedTransaction D} {signed : SignedTransaction D} {t : PreparedTransfer D}

theorem Formed.get_onWire (h : lazy.Formed E) (hget : lazy.get E = some signed) :
    lazy.onWire.get E = some (signed.onWire E.hasher) := by
  show (Reader.decode _ lazy.encodedSignedTransaction).toOption = _
  rw [(h.decode_encoded hget).1]
  rfl

/-- Execution prepares the same transfer from a transaction and from its bytes. -/
theorem Formed.prepared_onWire (h : lazy.Formed E)
    (hprep : (lazy.get E).bind (prepareTransfer E.crypto.sha256) = some t) :
    (lazy.onWire.get E).bind (prepareTransfer E.crypto.sha256) = some t := by
  obtain ⟨signed, hget, hsigned⟩ := Option.bind_eq_some_iff.1 hprep
  rw [h.get_onWire hget, Option.bind_some, ← hsigned]
  unfold prepareTransfer
  simp only [← (h.decode_encoded hget).2.digest]
  rfl

/-- The row data cut out of the bytes, before and after the queue: the digest, the parties and the fields
that execution works with, and bytes that decode to the transaction. -/
theorem Formed.indexed (h : lazy.Formed E) (hget : lazy.get E = some signed)
    (hprep : prepareTransfer E.crypto.sha256 signed = some t) (blockIndex : Nat) {held : LazySignedTransaction D}
    (hheld : held ∈ [lazy, lazy.onWire]) :
    ∃ tx, indexTransaction E blockIndex held = some tx ∧ tx.blockIndex = blockIndex ∧
      tx.digest = signed.messageDigest ∧ tx.sender = t.sender ∧ tx.toKey = t.recipient ∧ tx.value = t.value ∧
      tx.nonce = t.nonce ∧
      ∃ decoded, Reader.decode (SignedTransaction.read E.crypto E.hasher) tx.bytes = .ok decoded ∧
        SignedTransaction.Same E.crypto signed decoded := by
  have hlazy : (lazy.get E).bind (prepareTransfer E.crypto.sha256) = some t :=
    Option.bind_eq_some_iff.2 ⟨signed, hget, hprep⟩
  obtain ⟨hseal, hprepared, hbytes⟩ :
      (∀ value, held = .new value → value.messageDigest = value.value.hashSlow E.hasher) ∧
      (held.get E).bind (prepareTransfer E.crypto.sha256) = some t ∧
      held.encodedSignedTransaction = lazy.encodedSignedTransaction := by
    rcases List.mem_pair.1 hheld with rfl | rfl
    · refine ⟨?_, hlazy, rfl⟩
      rintro value rfl
      exact SignedTransaction.Formed.messageDigest_eq h
    · refine ⟨?_, h.prepared_onWire hlazy, rfl⟩
      rintro value ⟨⟩
  refine ⟨_, indexTransaction_of_prepared blockIndex hseal hprepared, rfl, (prepareTransfer_some hprep).2, rfl, rfl, rfl,
    rfl, signed.onWire E.hasher, ?_⟩
  rw [hbytes]
  exact h.decode_encoded hget

end LazySignedTransaction

theorem transactionUploadEnd_onWire (writerNext : UInt64) (block : Block C D) :
    transactionUploadEnd writerNext block.onWire = transactionUploadEnd writerNext block := by
  unfold transactionUploadEnd
  simp only [Block.onWire, List.length_map]

/-- A queued block is expanded to one append for each of its transactions. -/
theorem expandQueuedFinalizedUpload_ok {E : Env D} {upload : QueuedFinalizedUpload C D}
    (hseal : ∀ value, .new value ∈ upload.block.inner.body → value.messageDigest = value.value.hashSlow E.hasher)
    {ts : List (PreparedTransfer D)}
    (hprep : upload.block.inner.body.map (fun t => (t.get E).bind (prepareTransfer E.crypto.sha256)) = ts.map some)
    (hfit : upload.block.inner.body.length < 2 ^ 32) {stop : UInt64}
    (hend : transactionUploadEnd upload.transactionStart upload.block.inner = .ok (.ok stop)) :
    ∃ expanded, expandQueuedFinalizedUpload E upload = .ok (.ok expanded) ∧
      expanded.transactionOps = transactionOps upload.block.inner upload.transactionStart (transferDigests ts) := by
  obtain ⟨hgenesis, hcount, rfl⟩ := transactionUploadEnd_ok hend
  obtain ⟨rows, -, hrows, hdigests, -⟩ := encodeIndexedBlockRowsAt_prepared upload.block upload.finalizedTsMicros hseal
    hprep hfit (by unfold opCount at hcount; omega)
  have hops := transactionOpsFromDigests_ok
    (length_transactionOps upload.transactionStart (length_bodyDigests hprep) ▸ hcount)
  have hbuild : buildTransactionUploadFromDigests upload.block.inner upload.transactionStart rows.transactionDigests =
      .ok (.ok (transactionOps upload.block.inner upload.transactionStart (bodyDigests E upload.block.inner.body))) := by
    rw [buildTransactionUploadFromDigests, if_neg hgenesis, hdigests, hops]
  rw [transferDigests_eq hprep]
  unfold expandQueuedFinalizedUpload
  simp only [hrows, hbuild]
  exact ⟨_, rfl, rfl⟩

/-- In a body that was prepared, each transaction decodes and is prepared. -/
theorem prepared_of_mem {E : Env D} {body : List (LazySignedTransaction D)} {ts : List (PreparedTransfer D)}
    (h : body.map (fun t => (t.get E).bind (prepareTransfer E.crypto.sha256)) = ts.map some)
    {lazy : LazySignedTransaction D} (hlazy : lazy ∈ body) :
    ∃ signed t, lazy.get E = some signed ∧ prepareTransfer E.crypto.sha256 signed = some t := by
  obtain ⟨t, -, ht⟩ : ∃ t ∈ ts, some t = (lazy.get E).bind (prepareTransfer E.crypto.sha256) := by
    apply List.mem_map.1
    rw [← h]
    exact List.mem_map.2 ⟨lazy, hlazy, rfl⟩
  obtain ⟨signed, hget, hprep⟩ := Option.bind_eq_some_iff.1 ht.symm
  exact ⟨signed, t, hget, hprep⟩

/-- The digests of the transfers, transaction by transaction. -/
theorem map_transferDigests {E : Env D} {body : List (LazySignedTransaction D)} {ts : List (PreparedTransfer D)}
    (h : body.map (fun t => (t.get E).bind (prepareTransfer E.crypto.sha256)) = ts.map some) :
    (transferDigests ts).map some = body.map fun lazy => (lazy.get E).map SignedTransaction.messageDigest := by
  have hmap : (transferDigests ts).map some = (ts.map some).map (Option.map PreparedTransfer.digest) := by
    simp [transferDigests]
  rw [hmap, ← h, List.map_map]
  apply List.map_congr_left
  intro lazy hlazy
  obtain ⟨signed, t, hget, hprep⟩ := prepared_of_mem h hlazy
  simp [hget, hprep, (prepareTransfer_some hprep).2]

theorem buildQueuedFinalizedUpload_ok {env : ProducerEnv} {cursor : FinalizedUploadCursor} {block : SealedBlock C D}
    {upload : QueuedFinalizedUpload C D} (h : buildQueuedFinalizedUpload env cursor block = .ok (.ok upload)) :
    upload.block = block ∧ ∃ stop, transactionUploadEnd upload.transactionStart block.inner = .ok (.ok stop) := by
  unfold buildQueuedFinalizedUpload at h
  split at h
  · cases h
  split at h
  · cases h
  · cases h
  rename_i stop hstop
  split at h
  · cases h
  · cases h
    exact ⟨rfl, stop, hstop⟩

/-- Verification appends the digests of the transfers that the body was prepared to. -/
theorem verifyChild_appends [DecidableEq D] {A : Application D} {rng : Nat} {block parent : SealedBlock C D}
    {sb : StateBatch} {tb : TransactionBatch D} {dbs : MerkleizedDatabases D}
    (h : A.verifyChild rng block parent sb tb = .ok (some dbs)) :
    ∃ ts : List (PreparedTransfer D),
      block.inner.body.map (fun t => (t.get A.env).bind (prepareTransfer A.env.crypto.sha256)) = ts.map some ∧
      dbs.2.batch.appends = tb.appends ++ transferDigests ts := by
  obtain ⟨ts, changeset, execution, hacc, rfl⟩ := verifyChild_accepted h
  obtain ⟨floor, -, hdb, -⟩ := finalizeChild_ok hacc.finalized
  obtain ⟨-, hbatch, -⟩ := finalizeExecution_transactions hdb
  refine ⟨ts, mapM_eq_some_iff.1 hacc.prepared, ?_⟩
  rw [show execution.intoMerkleized.2.batch = _ from hbatch, applyTransactionDigests_eq]
  rfl

/-- Slicing agrees with decoding. An upload comes back from the queue. Each transaction of its block that
decodes and has a sender account is indexed, both as the block held it and as the queue gives it back, under
its digest and with the fields that execution prepares from it. And a verified block that was queued is
expanded to the appends that verification made, one for each transaction, in body order. -/
theorem offset_indexing_agrees [DecidableEq D] (A : Application D) (hu : A.env.usize.RoundTrips (· < 2 ^ 32))
    (codecs : HeaderCodecs C D) (hc : codecs.RoundTrips) (upload : QueuedFinalizedUpload C D)
    (hupload : upload.Formed A.env) (operations : Reader.Codec StateOperation)
    (ho : ∀ op ∈ upload.stateDelta, ∀ rest, operations.read (operations.write op ++ rest) = .ok (op, rest)) :
    ∃ queued : QueuedFinalizedUpload C D,
      QueuedFinalizedUpload.read A.env codecs operations .default (upload.write A.env codecs operations) =
        .ok (queued, []) ∧
      (∀ (i : Nat) lazy signed t blockIndex, upload.block.inner.body[i]? = some lazy → lazy.get A.env = some signed →
        prepareTransfer A.env.crypto.sha256 signed = some t →
        ∃ deferred, queued.block.inner.body[i]? = some deferred ∧ ∀ held ∈ [lazy, deferred],
          ∃ tx, indexTransaction A.env blockIndex held = some tx ∧ tx.blockIndex = blockIndex ∧
            tx.digest = signed.messageDigest ∧ tx.sender = t.sender ∧ tx.toKey = t.recipient ∧ tx.value = t.value ∧
            tx.nonce = t.nonce ∧
            ∃ decoded, Reader.decode (SignedTransaction.read A.env.crypto A.env.hasher) tx.bytes = .ok decoded ∧
              SignedTransaction.Same A.env.crypto signed decoded) ∧
      (∀ rng parent sb tb dbs env cursor, A.verifyChild rng upload.block parent sb tb = .ok (some dbs) →
        buildQueuedFinalizedUpload env cursor upload.block = .ok (.ok upload) →
        ∃ expanded digests, expandQueuedFinalizedUpload A.env queued = .ok (.ok expanded) ∧
          expanded.transactionOps = (if upload.transactionStart = 0 then [.commit none 0] else []) ++
            digests.map .append ++ [.commit none upload.block.inner.header.transactionsRange.start] ∧
          digests.map some = upload.block.inner.body.map (fun lazy =>
            (lazy.get A.env).map SignedTransaction.messageDigest) ∧
          dbs.2.batch.appends = tb.appends ++ digests) := by
  obtain ⟨_, _, hlength⟩ := hupload.length
  have hlength := hu.valid _ _ _ hlength
  obtain ⟨_, _, hdelta⟩ := hupload.deltaLength
  have hdelta := hu.valid _ _ _ hdelta
  have hread := QueuedFinalizedUpload.read_write hu hc ho hupload
    (show _ ≤ QueuedFinalizedUploadCfg.default.maxTransactions from hlength.le.trans (by decide))
    (hdelta.le.trans (by decide)) []
  rw [List.append_nil] at hread
  refine ⟨_, hread, ?_, ?_⟩
  · intro i lazy signed t blockIndex hlazy hget hprep
    have hformed := hupload.transactions lazy (List.mem_of_getElem? hlazy)
    refine ⟨lazy.onWire, ?_, fun held hheld => hformed.indexed hget hprep blockIndex hheld⟩
    simp [QueuedFinalizedUpload.onWire, Block.sealWith, Block.onWire, hlazy]
  · intro rng parent sb tb dbs env cursor hverify hbuild
    obtain ⟨ts, hprep, happends⟩ := verifyChild_appends hverify
    obtain ⟨-, stop, hend⟩ := buildQueuedFinalizedUpload_ok hbuild
    -- the transactions from the queue are prepared to the same transfers
    have hprep' : (upload.onWire A.env codecs).block.inner.body.map
        (fun t => (t.get A.env).bind (prepareTransfer A.env.crypto.sha256)) = ts.map some := by
      rw [← hprep]
      simp only [QueuedFinalizedUpload.onWire, Block.sealWith, Block.onWire, List.map_map]
      apply List.map_congr_left
      intro lazy hlazy
      obtain ⟨signed, t, hget, ht⟩ := prepared_of_mem hprep hlazy
      have hbind := Option.bind_eq_some_iff.2 ⟨signed, hget, ht⟩
      exact ((hupload.transactions lazy hlazy).prepared_onWire hbind).trans hbind.symm
    have hseal' : ∀ value, .new value ∈ (upload.onWire A.env codecs).block.inner.body →
        value.messageDigest = value.value.hashSlow A.env.hasher := by
      rintro value hvalue
      obtain ⟨lazy, -, hlazy⟩ := List.mem_map.1 hvalue
      cases hlazy
    have hlength' : (upload.onWire A.env codecs).block.inner.body.length < 2 ^ 32 := by
      simpa [QueuedFinalizedUpload.onWire, Block.sealWith, Block.onWire] using hlength
    have hend' : transactionUploadEnd (upload.onWire A.env codecs).transactionStart
        (upload.onWire A.env codecs).block.inner = .ok (.ok stop) :=
      (transactionUploadEnd_onWire _ _).trans hend
    obtain ⟨expanded, hexpanded, hops⟩ := expandQueuedFinalizedUpload_ok hseal' hprep' hlength' hend'
    exact ⟨expanded, transferDigests ts, hexpanded, hops, map_transferDigests hprep, happends⟩

/-! ## A small instance -/

def queueApplication : Application UInt64 where
  env := wordEnv
  qmdb :=
    { merkleizeState := fun batch => .ok (0, ⟨0, UInt64.ofNat (batch.writes.length + 1)⟩)
      merkleizeTransactions := fun batch => .ok (UInt64.ofNat batch.appends.length,
        ⟨batch.inactivityFloor, UInt64.ofNat (batch.base.length + batch.appends.length + 1)⟩) }
  signatureStrategy := .sequential
  hashStrategy := .sequential
  transactionNamespace := []

theorem queueValue_ne_zero : (5 : UInt64) ≠ 0 := by decide

/-- A transfer whose sender is held as a parsed key. -/
def queueTransaction : SignedTransaction UInt64 :=
  ⟨(⟨.value (.ed25519 (filledBytes 32 1)), .filled 2, 5, queueValue_ne_zero, 0⟩ :
    Transaction).sealWith wordEnv.hasher, ed25519Sample⟩

theorem queueRange_nonempty : (0 : UInt64) < 3 := by decide

def queueParent : SealedBlock Unit UInt64 := (Block.new wordHeader []).sealWith wordEnv wordCodecs

def queueChild : SealedBlock Unit UInt64 :=
  (Block.new ⟨(), 0, 2, 2, 0, ⟨0, 3, queueRange_nonempty⟩, 1, ⟨0, 3, queueRange_nonempty⟩⟩ [queueTransaction]).sealWith
    wordEnv wordCodecs

def queueUpload : QueuedFinalizedUpload Unit UInt64 := ⟨queueChild, 7, 1, 1, [.delete (.filled 1)]⟩

/-- Deletions as their keys. -/
def deleteCodec : Reader.Codec StateOperation where
  write
    | .delete key => key.bytes
    | _ => []
  read := do let key ← AccountKey.read; return .delete key

theorem queueUpload_formed : queueUpload.Formed wordEnv where
  length := ⟨[0, 0, 0, 1], [], rfl⟩
  transactions t ht := by
    obtain rfl := List.mem_singleton.1 ht
    refine ⟨rfl, ?_, rfl⟩
    rintro key ⟨⟩
    rfl
  timestamp := by decide
  deltaLength := ⟨[0, 0, 0, 1], [], rfl⟩

set_option maxRecDepth 20000 in
theorem offset_indexing_agrees_sample :
    ∃ queued deferred tx expanded,
      QueuedFinalizedUpload.read wordEnv wordCodecs deleteCodec .default
        (queueUpload.write wordEnv wordCodecs deleteCodec) = .ok (queued, []) ∧
      queued.block.inner.body[0]? = some deferred ∧ indexTransaction wordEnv 0 deferred = some tx ∧
      tx.digest = queueTransaction.messageDigest ∧ tx.value = 5 ∧
      expandQueuedFinalizedUpload wordEnv queued = .ok (.ok expanded) ∧
      ∃ dbs, queueApplication.verifyChild 0 queueChild queueParent ⟨fun _ => none, []⟩ ⟨[.commit none 0], [], 0⟩ =
          .ok (some dbs) ∧
        expanded.transactionOps = dbs.2.batch.appends.map .append ++ [.commit none 0] := by
  obtain ⟨queued, hread, hindexed, hexpanded⟩ := offset_indexing_agrees queueApplication wordEnv_usize wordCodecs
    wordCodecs_roundTrips queueUpload queueUpload_formed deleteCodec (by
      rintro op hop rest
      obtain rfl := List.mem_singleton.1 hop
      show (AccountKey.read >>= _) ((AccountKey.filled 1).bytes ++ rest) = _
      rw [Reader.bind_eq (AccountKey.read_append _ rest)]
      rfl)
  obtain ⟨deferred, hdeferred, hheld⟩ := hindexed 0 (.new queueTransaction) queueTransaction _ 0 rfl rfl rfl
  obtain ⟨tx, htx, -, hdigest, -, -, hvalue, -⟩ := hheld deferred (List.mem_pair.2 (.inr rfl))
  obtain ⟨expanded, digests, hexpand, hops, -, happends⟩ := hexpanded 0 queueParent ⟨fun _ => none, []⟩
    ⟨[.commit none 0], [], 0⟩ _ ⟨fun _ _ => some [.delete (.filled 1)], 7, ⟨0, 0⟩⟩ ⟨1, 1⟩ rfl rfl
  refine ⟨queued, deferred, tx, expanded, hread, hdeferred, htx, hdigest, hvalue, hexpand, _, rfl, ?_⟩
  rw [hops, happends]
  rfl

end Constantinople
