/-
Proofs for everything on the chain. When the store, the index and the prover hold the finalized chain and answer
from it, every transaction of the chain has a proof at the height of its block: the location that the indexer wrote
for it is in the range of the block, and its append stands there.
-/
import Constantinople.Explorer.LightClient

namespace Constantinople

open Run

namespace Explorer

/-! ## Honest services -/

/-- A store, an index and a prover that hold the chain and answer from it. -/
structure Served {A : Application Digest} {codecs : HeaderCodecs Context Digest} (services : Services)
    (qmdbUrl storeUrl sqlUrl material : List Char) (chain : FinalizedChain A codecs) : Prop where
  sha256 : A.env.hasher.hash = services.sha256
  /-- The store has a certificate for every block, followed by the header and possibly more. -/
  certificates : ∃ client, verifiedSimplexClient services storeUrl material = .ok client ∧
    ∀ block ∈ chain.blocks, ∃ view payload rest, payload.length = commitmentBytes ∧
      payload.take digestBytes = block.sealDigest.1 ∧
      client.getFinalizationByHeight block.inner.header.height.toNat =
        .ok (some ⟨view, payload, payload ++ (block.inner.header.write codecs ++ rest)⟩)
  /-- The index has a row that was written for a transaction with the digest. -/
  rows : ∀ digest ∈ chain.blocks.flatMap fun block => bodyDigests A.env block.inner.body, ∃ row rest,
    services.sql (trimTrailingSlash sqlUrl) ⟨["qmdb_location"], "tx_meta", "tx_digest", digest.1⟩ = .ok (row :: rest) ∧
    ∃ block ∈ chain.blocks, ∃ now rows tx, encodeIndexedBlockRowsAt A.env block now = .ok rows ∧
      .txMeta tx ∈ rows.sql ∧ tx.digest = digest ∧ row "qmdb_location" = some (.bigint tx.qmdbLocation.toNat)
  /-- Every append of the history after a block has a proof against the root in the header of the block. -/
  proofs : ∀ height s, chain.Reaches height s → ∀ (i : Nat) (digest : Digest), s.log[i]? = some (.append digest) →
    ∃ size, (transactionsLog services qmdbUrl).getFixedKeylessAppend
      (s.block.inner.header.transactionsRange.stop.toNat - 1) i s.block.inner.header.transactionsRoot.1 digest.1 = .ok size

section Served

variable {A : Application Digest} {codecs : HeaderCodecs Context Digest} {chain : FinalizedChain A codecs}
  {services : Services} {qmdbUrl storeUrl sqlUrl material : List Char}

/-- The header in a certificate of a block is read. -/
theorem Served.target (hserved : Served services qmdbUrl storeUrl sqlUrl material chain) (hcodecs : LaidOut codecs)
    {block : SealedBlock Context Digest} (hblock : block ∈ chain.blocks) :
    ∃ view, fetchFinalizedTransactionTarget services storeUrl material block.inner.header.height.toNat =
      .ok (.ofBlock view block) := by
  obtain ⟨client, hclient, hcertificates⟩ := hserved.certificates
  obtain ⟨view, payload, rest, hlen, hdigest, hcertificate⟩ := hcertificates block hblock
  have hsealed : services.sha256 (block.inner.header.write codecs) = block.sealDigest := by
    rw [chain.sealed block hblock, hserved.sha256]
  refine ⟨view, bind_eq_ok_iff.2 ⟨client, hclient, bind_eq_ok_iff.2 ⟨_, hcertificate, ?_⟩⟩⟩
  exact bind_eq_ok_iff.2 ⟨_, finalizedTargetFromCertificate_eq hcodecs view rest hlen hdigest hsealed,
    if_neg (not_not.2 rfl)⟩

/-- Where the index points for a transaction is in the range of its block, and the append of the transaction. -/
theorem FinalizedChain.location_of_row (hfloor : A.qmdb.ReportsFloor) (hops : A.qmdb.AddsOps)
    (husize : ∀ bs n rest, A.env.usize.read bs = .ok (n, rest) → n < 2 ^ 32) {block : SealedBlock Context Digest}
    {before : List (SealedBlock Context Digest)} {s s' : ChainState Context Digest}
    (hbefore : Trace (VerifiedStep A) chain.start before s) (hstep : VerifiedStep A s block s') {now : Int}
    {rows : IndexedBlockRows Digest} (hrows : encodeIndexedBlockRowsAt A.env block now = .ok rows)
    {tx : TxMetaRow Digest} (htx : .txMeta tx ∈ rows.sql) :
    block.inner.header.transactionsRange.start.toNat ≤ tx.qmdbLocation.toNat ∧
      tx.qmdbLocation.toNat < block.inner.header.transactionsRange.stop.toNat ∧
      tx.digest ∈ bodyDigests A.env block.inner.body ∧
      s'.log[tx.qmdbLocation.toNat]? = some (.append tx.digest) := by
  obtain ⟨-, hlog, hhistory, ts, hprep⟩ := hstep.facts hfloor
  have hs := chain_inStep hfloor hops chain.inStep hbefore
  have hslog : s.log.length = s.block.inner.header.transactionsRange.stop.toNat := hs.log
  obtain ⟨-, hlink, -⟩ := hhistory.link hfloor hops hs
  obtain ⟨_, _, _, hheld, -, -, -⟩ := hstep
  obtain ⟨wire, rest, hlen⟩ := hheld.length
  have hstop : block.inner.header.transactionsRange.stop.toNat =
      s.block.inner.header.transactionsRange.stop.toNat + block.inner.body.length + 1 := hlink.stop
  obtain ⟨rows', appendStart, hrows', hdigests, happend, hmeta⟩ := encodeIndexedBlockRowsAt_prepared (E := A.env) block now
    hheld.seals hprep (husize _ _ _ hlen) (by omega)
  rw [hrows] at hrows'
  cases hrows'
  obtain ⟨i, hlocation, hi⟩ := hmeta tx htx
  rw [hdigests] at hi
  have hilt : i < block.inner.body.length := by
    rw [← length_bodyDigests hprep]
    exact (List.getElem?_eq_some_iff.1 hi).1
  have hlocations := hlink.location i hilt
  refine ⟨by omega, by omega, List.mem_of_getElem? hi, ?_⟩
  have hat : (blockOps A.env block)[i]? = some (.append tx.digest) := by
    rw [blockOps, List.getElem?_append_left (by rw [List.length_map, length_bodyDigests hprep]; exact hilt),
      List.getElem?_map, hi]
    rfl
  rw [hlog, show tx.qmdbLocation.toNat = s.log.length + i by omega, List.getElem?_append_right (by omega),
    Nat.add_sub_cancel_left, hat]

end Served

set_option maxRecDepth 20000 in
theorem lightBlock_digests : bodyDigests lightApplication.env lightBlock.inner.body = [filledBytes digestBytes 7] := rfl

set_option maxRecDepth 20000 in
theorem lightBlock_rows : ∃ rows tx, encodeIndexedBlockRowsAt lightApplication.env lightBlock 0 = .ok rows ∧
    .txMeta tx ∈ rows.sql ∧ tx.digest = filledBytes digestBytes 7 ∧ tx.qmdbLocation = 1 :=
  ⟨_, _, rfl, .tail _ (.head _), rfl, rfl⟩

set_option maxRecDepth 20000 in
theorem lightServices_served {chain : FinalizedChain lightApplication wireCodecs} (hblocks : chain.blocks = [lightBlock]) :
    Served (lightServices lightLog) [] [] [] ['0', '0'] chain where
  sha256 := rfl
  certificates := by
    refine ⟨_, rfl, fun block hblock => ?_⟩
    rw [hblocks] at hblock
    rw [List.mem_singleton.1 hblock, lightBlock_seal]
    exact ⟨300, lightCommitment, [], rfl, rfl, rfl⟩
  rows digest hdigest := by
    obtain ⟨rows, tx, hrows, htx, hdigest', hlocation⟩ := lightBlock_rows
    rw [hblocks] at hdigest
    rw [List.flatMap_cons, lightBlock_digests, List.flatMap_nil] at hdigest
    refine ⟨lightRow "tx_meta", [], rfl, lightBlock, by simp [hblocks], 0, rows, tx, hrows, htx, ?_, ?_⟩
    · rw [hdigest', List.mem_singleton.1 hdigest]
    · rw [hlocation]
      rfl
  proofs height s hreaches i digest hop := by
    obtain ⟨before, after, hsplit, htrace, -⟩ := hreaches
    rw [hblocks] at hsplit
    cases htrace with
    | nil => exact absurd (List.mem_of_getElem? hop) (by simp [FinalizedChain.start])
    | cons head tail =>
      obtain ⟨rfl, hnil⟩ := List.cons.inj hsplit
      obtain ⟨rfl, -⟩ := List.append_eq_nil_iff.1 hnil.symm
      cases tail
      obtain ⟨hblock, hlog, -⟩ := head.facts lightApplication_reportsFloor
      rw [hblock]
      rw [hlog, blockOps, lightBlock_digests] at hop
      -- the one append of the history
      obtain ⟨rfl, rfl⟩ : i = 1 ∧ filledBytes digestBytes 7 = digest := by
        rcases i with _ | _ | _ | i
        · cases hop
        · exact ⟨rfl, HistoryOp.append.inj (Option.some.inj hop)⟩
        · cases hop
        · cases hop
      exact ⟨64, rfl⟩

end Explorer

end Constantinople
