/-
What the explorer's proofs are worth. A finalized chain is what its certificates certify and no second header
has the digest of one of its headers; a proof that verifies against a root shows an operation of the history
with that root. Then what the explorer has verified is on the chain, whatever the index and the servers answered:
a transaction in the block at the height that was asked for or in its parent, and a row of an account page at or
below the target.
-/
import Constantinople.Explorer.Proofs
import Constantinople.Indexer.Rebuild

namespace Constantinople

open Run

/-! ## Roots and histories -/

section Verified

variable {C D : Type} [DecidableEq D] {A : Application D} {s s' : ChainState C D} {child : SealedBlock C D}

/-- The root in the header of a verified block is that of the history after it. -/
theorem VerifiedStep.root (hfloor : A.qmdb.ReportsFloor) (h : VerifiedStep A s child s') :
    ∃ batch bounds, A.qmdb.merkleizeTransactions batch = .ok (child.inner.header.transactionsRoot, bounds) ∧
      bounds.totalSize = child.inner.header.transactionsRange.stop ∧ batch.base ++ batch.ops = s'.log := by
  obtain ⟨rng, _, dbs, -, -, hver, rfl⟩ := h
  obtain ⟨ts, changeset, ex, hacc, rfl⟩ := verifyChild_accepted hver
  obtain ⟨-, hbatch, hroot⟩ := finalizeExecution_transactions (hacc.floor_eq hfloor)
  obtain ⟨-, -, -, -, hrange, -⟩ := finalizeChild_ok hacc.finalized
  have hmatch := hacc.committed
  simp only [commitmentsMatch, Bool.and_eq_true, decide_eq_true_eq] at hmatch
  rw [← hbatch] at hroot
  refine ⟨ex.transactions.batch, ex.transactions.bounds, ?_, ?_, ?_⟩
  · rw [← hmatch.2.2.1]
    exact hroot
  · rw [← hmatch.2.2.2]
    exact (rangeFromBounds_ok hrange).2.symm
  · have hbase : ex.transactions.batch.base = s.log := by
      rw [show ex.transactions.batch = _ from hbatch, applyTransactionDigests_eq]
      rfl
    rw [hbase]
    rfl

theorem chain_log (hfloor : A.qmdb.ReportsFloor) {blocks : List (SealedBlock C D)}
    (h : Trace (VerifiedStep A) s blocks s') : s'.log = s.log ++ blocks.flatMap (blockOps A.env) := by
  induction h with
  | nil s => simp
  | cons head tail ih =>
    obtain ⟨-, hlog, -⟩ := head.facts hfloor
    rw [ih, hlog]
    simp

omit [DecidableEq D] in
theorem mem_blockOps {E : Env D} {block : SealedBlock C D} {digest : D}
    (h : .append digest ∈ blockOps E block) : digest ∈ bodyDigests E block.inner.body := by
  simpa [blockOps] using h

theorem VerifiedStep.length_blockOps (hfloor : A.qmdb.ReportsFloor) (h : VerifiedStep A s child s') :
    (blockOps A.env child).length = child.inner.body.length + 1 := by
  obtain ⟨-, -, -, ts, hprep⟩ := h.facts hfloor
  rw [blockOps, List.length_append, List.length_map, length_bodyDigests hprep, List.length_singleton]

theorem chain_inStep (hfloor : A.qmdb.ReportsFloor) (hops : A.qmdb.AddsOps) {blocks : List (SealedBlock C D)}
    (hs : s.tip.InStep) (h : Trace (VerifiedStep A) s blocks s') : s'.tip.InStep := by
  refine Trace.invariant (I := fun s : ChainState C D => s.tip.InStep) (fun s child s' hs hstep => ?_) hs h
  obtain ⟨-, -, hhistory, -⟩ := hstep.facts hfloor
  exact (hhistory.link hfloor hops hs).2.2

end Verified

namespace Explorer

theorem bind_eq_ok_iff {α β : Type} {x : Except Thrown α} {f : α → Except Thrown β} {b : β} :
    (x >>= f) = .ok b ↔ ∃ a, x = .ok a ∧ f a = .ok b := by
  cases x with
  | error e => simp [bind, Except.bind]
  | ok a => simp [bind, Except.bind]

/-! ## Finalized chains -/

/-- A chain of verified blocks from genesis, each sealed with the digest of its header. -/
structure FinalizedChain (A : Application Digest) (codecs : HeaderCodecs Context Digest) where
  genesis : SealedBlock Context Digest
  state : StateDb
  blocks : List (SealedBlock Context Digest)
  tip : ChainState Context Digest
  height : genesis.inner.header.height = 0
  inStep : (⟨genesis.inner, [.commit none 0]⟩ : Tip Context Digest).InStep
  trace : Trace (VerifiedStep A) ⟨genesis, state, [.commit none 0]⟩ blocks tip
  sealed : ∀ block ∈ blocks, block.sealDigest = A.env.hasher.hash (block.inner.header.write codecs)

namespace FinalizedChain

variable {A : Application Digest} {codecs : HeaderCodecs Context Digest} (chain : FinalizedChain A codecs)

def start : ChainState Context Digest := ⟨chain.genesis, chain.state, [.commit none 0]⟩

/-- A transaction with the digest is in the block at the height. -/
def Includes (height : Nat) (digest : Bytes) : Prop :=
  ∃ block ∈ chain.blocks, block.inner.header.height.toNat = height ∧
    ∃ d ∈ bodyDigests A.env block.inner.body, d.1 = digest

/-- The state of the chain at the height. -/
def Reaches (height : Nat) (s : ChainState Context Digest) : Prop :=
  ∃ before after, chain.blocks = before ++ after ∧ Trace (VerifiedStep A) chain.start before s ∧
    s.block.inner.header.height.toNat = height

variable {chain}

/-- The step of the chain that a block is. -/
theorem exists_step {block : SealedBlock Context Digest} (hblock : block ∈ chain.blocks) :
    ∃ before after s s', chain.blocks = before ++ block :: after ∧ Trace (VerifiedStep A) chain.start before s ∧
      VerifiedStep A s block s' ∧ Trace (VerifiedStep A) s' after chain.tip := by
  obtain ⟨before, after, hblocks⟩ := List.append_of_mem hblock
  have htrace := chain.trace
  rw [hblocks] at htrace
  obtain ⟨s, hbefore, hrest⟩ := htrace.split
  cases hrest with
  | cons head tail => exact ⟨before, after, s, _, hblocks, hbefore, head, tail⟩

section Histories

variable (hfloor : A.qmdb.ReportsFloor)

include hfloor

/-- The chain reaches the state that a block leaves, at the height of the block. -/
theorem reaches_step {block : SealedBlock Context Digest} {before after : List (SealedBlock Context Digest)}
    {s s' : ChainState Context Digest} (hblocks : chain.blocks = before ++ block :: after)
    (hbefore : Trace (VerifiedStep A) chain.start before s) (hstep : VerifiedStep A s block s') :
    chain.Reaches block.inner.header.height.toNat s' := by
  obtain ⟨hs', -⟩ := hstep.facts hfloor
  exact ⟨before ++ [block], after, by rw [hblocks]; simp, hbefore.append (.cons hstep (.nil _)), by rw [hs']⟩

/-- An append in the history is of a block of the chain. -/
theorem of_mem_log {before : List (SealedBlock Context Digest)} {s : ChainState Context Digest}
    (h : Trace (VerifiedStep A) chain.start before s) {digest : Digest} (hmem : .append digest ∈ s.log) :
    ∃ block ∈ before, digest ∈ bodyDigests A.env block.inner.body := by
  rw [chain_log hfloor h] at hmem
  rcases List.mem_append.1 hmem with hmem | hmem
  · simp [start] at hmem
  · obtain ⟨block, hblock, hop⟩ := List.mem_flatMap.1 hmem
    exact ⟨block, hblock, mem_blockOps hop⟩

variable (hops : A.qmdb.AddsOps)

include hops

variable (chain) in
theorem heights : (chain.genesis :: chain.blocks).Pairwise fun b b' =>
    b.inner.header.height.toNat < b'.inner.header.height.toNat :=
  chain_heights hfloor hops chain.trace chain.inStep (by simp [chain.height])

/-- What stands in the range of a block is of the block or of its parent. -/
theorem includes_of_range {block : SealedBlock Context Digest} {before after : List (SealedBlock Context Digest)}
    {s s' : ChainState Context Digest} (hblocks : chain.blocks = before ++ block :: after)
    (hbefore : Trace (VerifiedStep A) chain.start before s) (hstep : VerifiedStep A s block s') {i : Nat}
    {digest : Digest} (hstart : block.inner.header.transactionsRange.start.toNat ≤ i)
    (hi : s'.log[i]? = some (.append digest)) :
    ∃ height, (height = block.inner.header.height.toNat ∨ height + 1 = block.inner.header.height.toNat) ∧
      chain.Includes height digest.1 := by
  obtain ⟨-, hlog, hhistory, -⟩ := hstep.facts hfloor
  have hs := chain_inStep hfloor hops chain.inStep hbefore
  obtain ⟨-, hlink, -⟩ := hhistory.link hfloor hops hs
  have hslog : s.log.length = s.block.inner.header.transactionsRange.stop.toNat := hs.log
  rw [hlog] at hi
  by_cases hown : s.log.length ≤ i
  · -- an operation of the block itself
    rw [List.getElem?_append_right hown] at hi
    refine ⟨_, .inl rfl, block, by rw [hblocks]; simp, rfl, digest, ?_, rfl⟩
    exact mem_blockOps (List.mem_of_getElem? hi)
  rw [List.getElem?_append_left (by omega)] at hi
  rcases List.eq_nil_or_concat before with rfl | ⟨earlier, parent, rfl⟩
  · -- the history of the genesis block has no append
    cases hbefore
    obtain ⟨_, hmem, -⟩ := of_mem_log hfloor (.nil chain.start) (List.mem_of_getElem? hi)
    cases hmem
  · rw [List.concat_eq_append] at hbefore hblocks
    obtain ⟨s₀, -, hparent⟩ := hbefore.split
    cases hparent with
    | cons hparent hnil =>
      cases hnil
      obtain ⟨hblock, hlog₀, -⟩ := hparent.facts hfloor
      have hlen := hparent.length_blockOps hfloor
      have hlength := congrArg List.length hlog₀
      have hfirst := hlink.start
      simp only [ChainState.tip] at hfirst
      rw [hblock] at hfirst hslog
      rw [List.length_append] at hlength
      rw [hlog₀, List.getElem?_append_right (by omega)] at hi
      have hheights := (List.pairwise_cons.1 (heights chain hfloor hops)).2
      rw [hblocks] at hheights
      have hlt : parent.inner.header.height.toNat < block.inner.header.height.toNat :=
        (List.pairwise_append.1 hheights).2.2 parent (by simp) block (by simp)
      obtain ⟨_, _, _, -, hnext, -, -⟩ := hstep
      rw [hblock] at hnext
      have hheight : parent.inner.header.height.toNat + 1 = block.inner.header.height.toNat := by
        rw [hnext, UInt64.toNat_add, UInt64.toNat_one] at hlt ⊢
        omega
      refine ⟨_, .inr hheight, parent, by rw [hblocks]; simp, rfl, digest, ?_, rfl⟩
      exact mem_blockOps (List.mem_of_getElem? hi)

/-- What stands in the history up to a block is of a block at or below it. -/
theorem includes_below {block : SealedBlock Context Digest} {before after : List (SealedBlock Context Digest)}
    {s s' : ChainState Context Digest} (hblocks : chain.blocks = before ++ block :: after)
    (hbefore : Trace (VerifiedStep A) chain.start before s) (hstep : VerifiedStep A s block s') {digest : Digest}
    (hmem : .append digest ∈ s'.log) :
    ∃ height ≤ block.inner.header.height.toNat, chain.Includes height digest.1 := by
  obtain ⟨found, hfound, hdigest⟩ := of_mem_log hfloor (hbefore.append (.cons hstep (.nil _))) hmem
  have hheights := (List.pairwise_cons.1 (heights chain hfloor hops)).2
  rw [hblocks] at hheights
  refine ⟨found.inner.header.height.toNat, ?_, found, ?_, rfl, digest, hdigest, rfl⟩
  · rcases List.mem_append.1 hfound with hfound | hfound
    · exact ((List.pairwise_append.1 hheights).2.2 found hfound block (by simp)).le
    · rw [List.mem_singleton.1 hfound]
  · rw [hblocks]
    rcases List.mem_append.1 hfound with hfound | hfound
    · simp [hfound]
    · simp [List.mem_singleton.1 hfound]

end Histories

end FinalizedChain

/-! ## Headers -/

/-- The parser returns the fields of a header at a cursor. -/
theorem decodeBlockHeader_at {codecs : HeaderCodecs Context Digest} (hcodecs : LaidOut codecs)
    {header : Header Context Digest} {bytes rest : Bytes} {offset : Nat}
    (h : Cursor bytes offset (header.write codecs ++ rest)) :
    decodeBlockHeader bytes offset = .ok (.ofHeader header (offset + (header.write codecs).length)) := by
  have word : ∀ n : UInt64, (toBE 8 n.toNat).length = 8 := fun n => length_toBE 8 _
  have hstate := UInt64.lt_iff_toNat_lt.1 header.stateRange.nonempty
  have htransactions := UInt64.lt_iff_toNat_lt.1 header.transactionsRange.nonempty
  simp only [Header.write, NonEmptyRange.write, hcodecs.context, hcodecs.digest, Context.layout,
    List.append_assoc] at h ⊢
  unfold decodeBlockHeader
  -- the context: epoch and view, leader, and the parent's view and commitment
  refine bind_eq_ok_iff.2 ⟨_, readVarint_at h, ?_⟩
  replace h := h.advance rfl
  refine bind_eq_ok_iff.2 ⟨_, readVarint_at h, ?_⟩
  replace h := h.advance rfl
  refine bind_eq_ok_iff.2 ⟨_, skip_at h header.context.leader.2, ?_⟩
  replace h := h.advance header.context.leader.2
  refine bind_eq_ok_iff.2 ⟨_, readVarint_at h, ?_⟩
  replace h := h.advance rfl
  refine bind_eq_ok_iff.2 ⟨_, skip_at h header.context.parentCommitment.2, ?_⟩
  replace h := h.advance header.context.parentCommitment.2
  -- the parent, the height and the timestamp
  refine bind_eq_ok_iff.2 ⟨_, skip_at h header.parent.2, ?_⟩
  replace h := h.advance header.parent.2
  refine bind_eq_ok_iff.2 ⟨_, readU64Be_at h, bind_eq_ok_iff.2 ⟨_, skip_at h (word _), ?_⟩⟩
  replace h := h.advance (word _)
  refine bind_eq_ok_iff.2 ⟨_, skip_at h (word _), ?_⟩
  replace h := h.advance (word _)
  -- the two databases, each with its root and its range
  refine bind_eq_ok_iff.2 ⟨_, readBytes_at h header.stateRoot.2, bind_eq_ok_iff.2 ⟨_, skip_at h header.stateRoot.2, ?_⟩⟩
  replace h := h.advance header.stateRoot.2
  refine bind_eq_ok_iff.2 ⟨_, readU64Be_at h, bind_eq_ok_iff.2 ⟨_, skip_at h (word _), ?_⟩⟩
  replace h := h.advance (word _)
  refine bind_eq_ok_iff.2 ⟨_, readU64Be_at h, bind_eq_ok_iff.2 ⟨_, skip_at h (word _), ?_⟩⟩
  replace h := h.advance (word _)
  refine bind_eq_ok_iff.2 ⟨_, readBytes_at h header.transactionsRoot.2,
    bind_eq_ok_iff.2 ⟨_, skip_at h header.transactionsRoot.2, ?_⟩⟩
  replace h := h.advance header.transactionsRoot.2
  refine bind_eq_ok_iff.2 ⟨_, readU64Be_at h, bind_eq_ok_iff.2 ⟨_, skip_at h (word _), ?_⟩⟩
  replace h := h.advance (word _)
  refine bind_eq_ok_iff.2 ⟨_, readU64Be_at h, bind_eq_ok_iff.2 ⟨_, skip_at h (word _), ?_⟩⟩
  rw [if_neg (by omega)]
  refine congrArg Except.ok (congrArg (DecodedBlockHeader.mk _ _ _ _ _ _ _) ?_)
  simp only [List.length_append, word, header.context.leader.2, header.context.parentCommitment.2,
    header.parent.2, header.stateRoot.2, header.transactionsRoot.2]
  omega

/-- The header of a block as the explorer keeps it. -/
def FinalizedTransactionTarget.ofBlock (view : Nat) (block : SealedBlock Context Digest) :
    FinalizedTransactionTarget where
  height := block.inner.header.height.toNat
  view := view
  blockDigest := block.sealDigest.1
  stateRoot := block.inner.header.stateRoot.1
  stateStart := block.inner.header.stateRange.start.toNat
  stateTip := block.inner.header.stateRange.stop.toNat
  transactionsRoot := block.inner.header.transactionsRoot.1
  transactionsStart := block.inner.header.transactionsRange.start.toNat
  transactionsTip := block.inner.header.transactionsRange.stop.toNat

/-- A certificate with the commitment and the header of a block is read. -/
theorem finalizedTargetFromCertificate_eq {services : Services} {codecs : HeaderCodecs Context Digest}
    (hcodecs : LaidOut codecs) {block : SealedBlock Context Digest} (view : Nat) {payload : Bytes} (rest : Bytes)
    (hlen : payload.length = commitmentBytes) (hdigest : payload.take digestBytes = block.sealDigest.1)
    (hsealed : services.sha256 (block.inner.header.write codecs) = block.sealDigest) :
    finalizedTargetFromCertificate services ⟨view, payload, payload ++ (block.inner.header.write codecs ++ rest)⟩ =
      .ok (.ofBlock view block) := by
  have hwrite : 0 < (block.inner.header.write codecs).length := by
    rw [Header.write]
    simp [length_toBE]
  have hcursor := Cursor.start payload (block.inner.header.write codecs ++ rest)
  rw [hlen] at hcursor
  have hslice : ((payload ++ (block.inner.header.write codecs ++ rest)).take
      (commitmentBytes + (block.inner.header.write codecs).length)).drop commitmentBytes =
      block.inner.header.write codecs := by
    rw [List.drop_take, Nat.add_sub_cancel_left, hcursor.take rfl]
  have hmatch : (services.sha256 (((payload ++ (block.inner.header.write codecs ++ rest)).take
      (commitmentBytes + (block.inner.header.write codecs).length)).drop commitmentBytes)).1 =
      payload.take digestBytes := by
    rw [hslice, hsealed, hdigest]
  unfold finalizedTargetFromCertificate
  simp only
  rw [if_neg (not_not.2 hlen), if_neg (by simp only [List.length_append]; omega),
    if_neg (not_not.2 (List.take_left' hlen))]
  refine bind_eq_ok_iff.2 ⟨_, decodeBlockHeader_at hcodecs hcursor, ?_⟩
  refine (if_neg (not_not.2 hmatch)).trans ?_
  rw [hdigest]
  rfl

/-! ## Trust -/

/-- A proof that verifies against the root of a merkleized batch shows an append of the history. -/
def AppendsProved (Q : Qmdb Digest) (log : QmdbOperationLogClient) : Prop :=
  ∀ batch root bounds, Q.merkleizeTransactions batch = .ok (root, bounds) → ∀ location value size,
    log.getFixedKeylessAppend (bounds.totalSize.toNat - 1) location root.1 value = .ok size →
    ∃ (i : Nat) (digest : Digest), location = i ∧ digest.1 = value ∧
      (batch.base ++ batch.ops)[i]? = some (.append digest)

/-- What the explorer relies on. The index and what the servers answer are not part of it. -/
structure Trusted {A : Application Digest} {codecs : HeaderCodecs Context Digest} (services : Services)
    (material : List Char) (chain : FinalizedChain A codecs) : Prop where
  /-- No other bytes have the digest of a header of the chain. -/
  unforged : ∀ block ∈ chain.blocks, ∀ bytes, services.sha256 bytes = block.sealDigest →
    bytes = block.inner.header.write codecs
  /-- A verified certificate is of a block of the chain: its commitment starts with the digest of the block. -/
  certificates : ∀ url client certificate, services.simplex url (fromHex material) = .ok client →
    (client.latestFinalization = .ok (some certificate) ∨
      ∃ height, client.getFinalizationByHeight height = .ok (some certificate)) →
    ∃ block ∈ chain.blocks, block.sealDigest.1 = certificate.payload.take digestBytes
  appends : ∀ url, AppendsProved A.qmdb (services.operationLog url)

section Trusted

variable {A : Application Digest} {codecs : HeaderCodecs Context Digest} {chain : FinalizedChain A codecs}
  {services : Services} {material : List Char}

/-- A header that the explorer has verified is the one of the block that the commitment names. -/
theorem Trusted.target_of_certificate (htrusted : Trusted services material chain) (hcodecs : LaidOut codecs)
    {certificate : VerifiedSimplexCertificate} {block : SealedBlock Context Digest} (hblock : block ∈ chain.blocks)
    (hdigest : block.sealDigest.1 = certificate.payload.take digestBytes) {target : FinalizedTransactionTarget}
    (h : finalizedTargetFromCertificate services certificate = .ok target) :
    target = .ofBlock certificate.view block := by
  unfold finalizedTargetFromCertificate at h
  simp only at h
  split at h
  · cases h
  split at h
  · cases h
  rename_i hlen
  split at h
  · cases h
  obtain ⟨header, hheader, h⟩ := bind_eq_ok_iff.1 h
  split at h
  · cases h
  rename_i hsealed
  cases h
  have hbytes := htrusted.unforged block hblock _ (Subtype.ext ((not_not.1 hsealed).trans hdigest.symm))
  have hcursor : Cursor certificate.header commitmentBytes (block.inner.header.write codecs ++
      (certificate.header.drop commitmentBytes).drop (header.endOffset - commitmentBytes)) := by
    refine ⟨by omega, ?_⟩
    rw [← hbytes, List.drop_take, List.take_append_drop]
  rw [decodeBlockHeader_at hcodecs hcursor] at hheader
  cases hheader
  simp only [DecodedBlockHeader.ofHeader, FinalizedTransactionTarget.ofBlock, hdigest]

theorem verifiedSimplexClient_ok {storeUrl : List Char} {client : SimplexClient}
    (h : verifiedSimplexClient services storeUrl material = .ok client) :
    services.simplex (trimTrailingSlash storeUrl) (fromHex material) = .ok client := by
  unfold verifiedSimplexClient at h
  split at h
  · cases h
  · exact h

theorem Trusted.target_at_height (htrusted : Trusted services material chain) (hcodecs : LaidOut codecs)
    {storeUrl : List Char} {height : Nat} {target : FinalizedTransactionTarget}
    (h : fetchFinalizedTransactionTarget services storeUrl material height = .ok target) :
    ∃ block ∈ chain.blocks, ∃ view, target = .ofBlock view block ∧ block.inner.header.height.toNat = height := by
  obtain ⟨client, hclient, h⟩ := bind_eq_ok_iff.1 h
  obtain ⟨certificate, hcertificate, h⟩ := bind_eq_ok_iff.1 h
  cases certificate with
  | none => cases h
  | some certificate =>
    obtain ⟨_, htarget, h⟩ := bind_eq_ok_iff.1 h
    split at h
    · cases h
    rename_i hheight
    cases h
    obtain ⟨block, hblock, hdigest⟩ := htrusted.certificates _ _ certificate (verifiedSimplexClient_ok hclient)
      (.inr ⟨height, hcertificate⟩)
    have htarget := htrusted.target_of_certificate hcodecs hblock hdigest htarget
    rw [htarget] at hheight
    exact ⟨block, hblock, _, htarget, not_not.1 hheight⟩

theorem Trusted.latest_target (htrusted : Trusted services material chain) (hcodecs : LaidOut codecs)
    {storeUrl : List Char} {target : FinalizedTransactionTarget}
    (h : fetchLatestFinalizedTarget services storeUrl material = .ok target) :
    ∃ block ∈ chain.blocks, ∃ view, target = .ofBlock view block := by
  obtain ⟨client, hclient, h⟩ := bind_eq_ok_iff.1 h
  obtain ⟨certificate, hcertificate, h⟩ := bind_eq_ok_iff.1 h
  cases certificate with
  | none => cases h
  | some certificate =>
    obtain ⟨block, hblock, hdigest⟩ := htrusted.certificates _ _ certificate (verifiedSimplexClient_ok hclient)
      (.inl hcertificate)
    exact ⟨block, hblock, _, htrusted.target_of_certificate hcodecs hblock hdigest h⟩

theorem transactionProofTip_ok {stop tip : Nat} (h : transactionProofTip stop = .ok tip) : tip = stop - 1 := by
  unfold transactionProofTip at h
  split at h
  · cases h
  · cases h
    rfl

/-- A proof against the root of a block shows an append of the history after it. -/
theorem Trusted.append_of_proof (htrusted : Trusted services material chain) (hfloor : A.qmdb.ReportsFloor)
    {block : SealedBlock Context Digest} (hblock : block ∈ chain.blocks) {url : List Char} {tip size : Nat}
    {location : Int} {value : Bytes} (htip : transactionProofTip block.inner.header.transactionsRange.stop.toNat = .ok tip)
    (h : (services.operationLog url).getFixedKeylessAppend tip location block.inner.header.transactionsRoot.1 value =
      .ok size) :
    ∃ before after s s', chain.blocks = before ++ block :: after ∧ Trace (VerifiedStep A) chain.start before s ∧
      VerifiedStep A s block s' ∧ ∃ (i : Nat) (digest : Digest), location = i ∧ digest.1 = value ∧
        s'.log[i]? = some (.append digest) := by
  obtain ⟨before, after, s, s', hblocks, hbefore, hstep, -⟩ := FinalizedChain.exists_step hblock
  obtain ⟨batch, bounds, hroot, hsize, hlog⟩ := hstep.root hfloor
  rw [transactionProofTip_ok htip, ← hsize] at h
  obtain ⟨i, digest, hi, hvalue, hop⟩ := htrusted.appends url batch _ bounds hroot location value size h
  rw [hlog] at hop
  exact ⟨before, after, s, s', hblocks, hbefore, hstep, i, digest, hi, hvalue, hop⟩

end Trusted

/-! ## A small chain -/

theorem lightRange_nonempty : (0 : UInt64) < 3 := by decide

/-- The header of the one block of a small chain. -/
def lightHeader : Header Context Digest where
  context := ⟨3, 300, filledBytes _ 1, 2, filledBytes _ 2⟩
  parent := filledBytes _ 3
  height := 1
  timestamp := 1
  stateRoot := filledBytes _ 4
  stateRange := ⟨0, 3, lightRange_nonempty⟩
  transactionsRoot := filledBytes _ 7
  transactionsRange := ⟨0, 3, lightRange_nonempty⟩

/-- A digest of its own for the header, and one for everything else. -/
def lightSha256 : Sha256 := fun bytes =>
  if bytes = lightHeader.write wireCodecs then filledBytes 32 9 else filledBytes 32 7

/-- The digest of the second operation, as a root of the history. -/
def secondAppend (log : List (HistoryOp Digest)) : Digest :=
  match log with
  | _ :: .append digest :: _ => digest
  | _ => filledBytes _ 0

/-- The sender of the one transfer, after it. -/
def lightAccount : Account := ⟨defaultAccountBalance - 5, ⟨1, 0⟩⟩

/-- The state has a root of its own for batches that write the sender. -/
def lightApplication : Application Digest where
  env := { crypto := permissiveCrypto, hasher := sha256Hasher lightSha256, usize := countingApplication.env.usize }
  qmdb :=
    { merkleizeState := fun batch =>
        .ok (if (.filled 1, some lightAccount) ∈ batch.writes then filledBytes _ 4 else filledBytes _ 0, ⟨0, 3⟩)
      merkleizeTransactions := fun batch =>
        if batch.base.length + batch.appends.length + 1 < 2 ^ 64 then
          .ok (secondAppend (batch.base ++ batch.ops),
            ⟨batch.inactivityFloor, UInt64.ofNat (batch.base.length + batch.appends.length + 1)⟩)
        else .error "too many operations" }
  signatureStrategy := .sequential
  hashStrategy := .sequential
  transactionNamespace := []

def lightTransaction : SignedTransaction Digest :=
  ⟨(⟨.value (.ed25519 (filledBytes 32 1)), .filled 2, 5, sampleValue_ne_zero, 0⟩ : Transaction).sealWith
    (sha256Hasher lightSha256), .ed25519 (filledBytes 64 0)⟩

def lightGenesis : SealedBlock Context Digest :=
  (Block.new ⟨lightHeader.context, filledBytes _ 0, 0, 0, filledBytes _ 0, ⟨0, 1, wordRange_nonempty⟩, filledBytes _ 0,
    ⟨0, 1, wordRange_nonempty⟩⟩ []).sealWith lightApplication.env wireCodecs

def lightBlock : SealedBlock Context Digest :=
  (Block.new lightHeader [lightTransaction]).sealWith lightApplication.env wireCodecs

theorem lightSha256_filled {bytes : Bytes} (h : lightSha256 bytes = filledBytes 32 9) :
    bytes = lightHeader.write wireCodecs := by
  unfold lightSha256 at h
  split at h
  · assumption
  · exact absurd h (by decide)

set_option maxRecDepth 20000 in
theorem lightBlock_verified : ∃ dbs, lightApplication.verifyChild 0 lightBlock lightGenesis ⟨fun _ => none, []⟩
    ⟨[.commit none 0], [], 0⟩ = .ok (some dbs) := ⟨_, rfl⟩

theorem lightApplication_reportsFloor : lightApplication.qmdb.ReportsFloor := by
  intro batch root bounds h
  simp only [lightApplication] at h
  split at h
  · cases h; rfl
  · cases h

theorem lightApplication_addsOps : lightApplication.qmdb.AddsOps := by
  intro batch root bounds h
  simp only [lightApplication] at h
  split at h
  · rename_i hfit
    cases h
    exact Word.toNat_ofNat hfit
  · cases h

theorem exists_lightChain : ∃ chain : FinalizedChain lightApplication wireCodecs, chain.blocks = [lightBlock] := by
  obtain ⟨dbs, hverified⟩ := lightBlock_verified
  have hheld : lightBlock.inner.Held lightApplication.env := by
    refine ⟨⟨[1], [], rfl⟩, fun value hmem => ?_⟩
    cases List.mem_singleton.1 hmem
    rfl
  have htrace : Trace (VerifiedStep lightApplication) ⟨lightGenesis, fun _ => none, [.commit none 0]⟩ [lightBlock] _ :=
    .cons ⟨0, 0, dbs, hheld, rfl, hverified, rfl⟩ (.nil _)
  let chain : FinalizedChain lightApplication wireCodecs :=
    { genesis := lightGenesis, state := fun _ => none, blocks := [lightBlock], tip := _, height := rfl,
      inStep := ⟨rfl, by decide⟩, trace := htrace, sealed := by simp [lightBlock, Block.sealWith] }
  exact ⟨chain, rfl⟩

def lightDigestText : List Char := (List.replicate 32 ['0', '7']).flatten

def lightCommitment : Bytes := (filledBytes 32 9).1 ++ List.replicate 68 0

def lightCertificate : VerifiedSimplexCertificate :=
  ⟨300, lightCommitment, lightCommitment ++ (lightBlock.inner.header.write wireCodecs ++ [])⟩

/-- Proofs of the append of the transaction and of the update of its sender, and no others. -/
def lightLog : QmdbOperationLogClient where
  getFixedKeylessAppend := fun tip location root value =>
    if tip = 2 ∧ location = 1 ∧ root = (filledBytes 32 7).1 ∧ value = (filledBytes 32 7).1 then .ok 64
    else .error (.error "invalid proof")
  getFixedUnorderedUpdate := fun tip location root key _ =>
    if tip = 2 ∧ location = 1 ∧ root = (filledBytes 32 4).1 ∧ key = (filledBytes 32 1).1 then
      .ok (lightAccount.write, 64)
    else .error (.error "invalid proof")

def lightRow (table column : String) : Option CellValue :=
  match table, column with
  | _, "qmdb_location" => some (.bigint 1)
  | "tx_meta", "body_hex" => some (.text (List.replicate 164 '0'))
  | "account_meta", "balance" => some (.bigint lightAccount.balance.toNat)
  | "account_meta", "nonce_base" => some (.bigint 1)
  | "account_meta", "nonce_bitmap" => some (.bigint 0)
  | _, _ => none

def lightServices (log : QmdbOperationLogClient) : Services where
  simplex := fun _ _ => .ok ⟨fun height => .ok (if height = 1 then some lightCertificate else none),
    .ok (some lightCertificate)⟩
  sql := fun _ query => .ok [lightRow query.table]
  operationLog := fun _ => log
  sha256 := lightSha256
  message := fun _ => "error"

theorem lightLog_proves : AppendsProved lightApplication.qmdb lightLog := by
  intro batch root bounds h location value size hproof
  simp only [lightLog] at hproof
  split at hproof
  · rename_i hpoint
    obtain ⟨-, rfl, hroot, rfl⟩ := hpoint
    refine ⟨1, filledBytes 32 7, rfl, rfl, ?_⟩
    simp only [lightApplication] at h
    split at h
    · cases h
      unfold secondAppend at hroot
      split at hroot
      · rename_i digest _ hlog
        rw [hlog, ← Subtype.ext hroot]
        rfl
      · exact absurd hroot (by decide)
    · cases h
  · cases hproof

set_option maxRecDepth 4000 in
theorem lightBlock_seal : lightBlock.sealDigest = filledBytes 32 9 := by
  have hheader : lightSha256 (lightHeader.write wireCodecs) = filledBytes 32 9 := by rw [lightSha256, if_pos rfl]
  exact hheader

theorem lightServices_trusted {chain : FinalizedChain lightApplication wireCodecs} (hblocks : chain.blocks = [lightBlock]) :
    Trusted (lightServices lightLog) ['0', '0'] chain where
  unforged block hblock bytes h := by
    rw [hblocks] at hblock
    rw [List.mem_singleton.1 hblock, lightBlock_seal] at h
    rw [List.mem_singleton.1 hblock]
    exact lightSha256_filled h
  certificates url client certificate hclient hcertificate := by
    cases hclient
    have hcertificate : certificate = lightCertificate := by
      rcases hcertificate with h | ⟨height, h⟩
      · exact (Option.some.inj (Except.ok.inj h)).symm
      · have h := Except.ok.inj h
        split at h
        · exact (Option.some.inj h).symm
        · cases h
    refine ⟨lightBlock, by simp [hblocks], ?_⟩
    rw [lightBlock_seal, hcertificate]
    exact (List.take_left' (filledBytes 32 9).2).symm
  appends _ := lightLog_proves

theorem wireCodecs_laidOut : LaidOut wireCodecs := ⟨fun _ => rfl, fun _ => rfl⟩

set_option maxRecDepth 4000 in
theorem lightCertificate_target (log : QmdbOperationLogClient) :
    finalizedTargetFromCertificate (lightServices log) lightCertificate = .ok (.ofBlock 300 lightBlock) := by
  have hlen : lightCommitment.length = commitmentBytes := rfl
  have hdigest : lightCommitment.take digestBytes = lightBlock.sealDigest.1 := by
    rw [lightBlock_seal]
    exact List.take_left' (filledBytes 32 9).2
  have hsealed : (lightServices log).sha256 (lightBlock.inner.header.write wireCodecs) = lightBlock.sealDigest := rfl
  exact finalizedTargetFromCertificate_eq wireCodecs_laidOut 300 [] hlen hdigest hsealed

theorem lightServices_latest (log : QmdbOperationLogClient) :
    fetchLatestFinalizedTarget (lightServices log) [] ['0', '0'] = .ok (.ofBlock 300 lightBlock) :=
  bind_eq_ok_iff.2 ⟨_, rfl, bind_eq_ok_iff.2 ⟨_, rfl, lightCertificate_target log⟩⟩

theorem lightServices_atHeight (log : QmdbOperationLogClient) :
    fetchFinalizedTransactionTarget (lightServices log) [] ['0', '0'] 1 = .ok (.ofBlock 300 lightBlock) :=
  bind_eq_ok_iff.2 ⟨_, rfl, bind_eq_ok_iff.2 ⟨_, rfl, bind_eq_ok_iff.2 ⟨_, lightCertificate_target log, rfl⟩⟩⟩

/-! ## Soundness -/

section Trusted

variable {A : Application Digest} {codecs : HeaderCodecs Context Digest} {chain : FinalizedChain A codecs}
  {services : Services} {material : List Char}

/-- A proof that the explorer has verified for a height names the block at the height, and the transaction is in
this block or in its parent. -/
theorem Trusted.verified_transaction (htrusted : Trusted services material chain) (hcodecs : LaidOut codecs)
    (hfloor : A.qmdb.ReportsFloor) (hops : A.qmdb.AddsOps) {qmdbUrl storeUrl sqlUrl digest : List Char} {height : Nat}
    {proof : VerifiedTransactionProof}
    (h : fetchAndVerifyTransactionProof services qmdbUrl storeUrl sqlUrl material digest height = .ok proof) :
    proof.height = height ∧ (∃ block ∈ chain.blocks, block.inner.header.height.toNat = height) ∧
      ∃ height', (height' = height ∨ height' + 1 = height) ∧ chain.Includes height' (fromHex digest) := by
  obtain ⟨target, htarget, h⟩ := bind_eq_ok_iff.1 h
  obtain ⟨location, -, h⟩ := bind_eq_ok_iff.1 h
  obtain ⟨block, hblock, view, rfl, hheight⟩ := htrusted.target_at_height hcodecs htarget
  split at h
  · cases h
  rename_i hrange
  obtain ⟨tip, htip, h⟩ := bind_eq_ok_iff.1 h
  split at h
  · obtain ⟨_, _, h⟩ := bind_eq_ok_iff.1 h
    cases h
  rename_i size hproof
  cases h
  obtain ⟨before, after, s, s', hblocks, hbefore, hstep, i, d, rfl, hvalue, hop⟩ :=
    htrusted.append_of_proof hfloor hblock htip hproof
  simp only [FinalizedTransactionTarget.ofBlock, not_or, Int.not_lt] at hrange
  have hincluded := FinalizedChain.includes_of_range hfloor hops hblocks hbefore hstep
    (Int.ofNat_le.1 hrange.1) hop
  rw [hheight, hvalue] at hincluded
  exact ⟨hheight, ⟨block, hblock, hheight⟩, hincluded⟩

end Trusted

end Explorer

end Constantinople
