/-
An honest proposal at its verifiers. The proposer takes transactions the mempool verified, executes
and seals them, and the block is encoded, decoded and verified on the same parent. Every check of the
verifier but one passes by construction: the timestamp comes straight from the proposer's clock, and
verification wants it strictly above the parent's.
-/
import Constantinople.Consensus.Authorization
import Constantinople.Executor.Agreement
import Constantinople.Primitives.Wire

namespace Constantinople

variable {C D : Type}

/-! ## Signatures -/

theorem verifySignatures_of_authentic {A : Application D} (hc : A.env.crypto.BatchComplete) (rng : Nat)
    {body : List (LazySignedTransaction D)}
    (h : ∀ t ∈ body, ∃ tx, t.get A.env = some tx ∧ tx.Authentic A.env A.transactionNamespace) :
    A.verifySignatures rng body = .ok () := by
  have hbatch := verifyTransactionBatch_of_authentic hc A.signatureStrategy rng h
  unfold Application.verifySignatures
  rw [preloadTransactionChunks_of_authentic A.hashStrategy h, Option.filter_some, if_pos hbatch]

/-! ## The mempool's transactions -/

/-- A transaction of the mempool: it was read from a request and verified with the rest of its batch. -/
def Application.Pooled (A : Application D) (t : SignedTransaction D) : Prop :=
  ∃ (signatureStrategy hashStrategy : Strategy) (rng : Nat) (batch verified : List (SignedTransaction D)),
    (∀ u ∈ batch, ∃ bs rest, SignedTransaction.read A.env.crypto A.env.hasher bs = .ok (u, rest)) ∧
    verifyTransactionChunks A.env signatureStrategy hashStrategy A.transactionNamespace rng (batch.map .new) =
      some verified ∧ t ∈ verified

theorem Application.Pooled.spec {A : Application D} (hc : A.env.crypto.BatchSound) {t : SignedTransaction D}
    (h : A.Pooled t) : t.Decodable A.env ∧ t.Authentic A.env A.transactionNamespace := by
  obtain ⟨_, _, _, batch, verified, hread, hverified, ht⟩ := h
  obtain rfl := verifyTransactionChunks_new hverified
  obtain ⟨bs, rest, hbs⟩ := hread t ht
  refine ⟨SignedTransaction.decodable_of_read hbs, ?_⟩
  rcases (verifyTransactionChunks_some hverified).2 with hnil | hbatch
  · rw [List.map_eq_nil_iff.1 hnil] at ht
    cases ht
  · obtain ⟨tx, key, htx, hkey, hvalid⟩ := verifyTransactionBatch_valid hc hbatch _ (List.mem_map_of_mem ht)
    cases htx
    exact ⟨key, hkey, hvalid⟩

/-! ## Executing what was proposed -/

/-- The message of a failed merkleization does not matter to a finished one. -/
theorem finalizeChild_message {Q : Qmdb D} {sb : StateBatch} {tb : TransactionBatch D} {parent : Block C D} {n : Nat}
    {msg : String} {ex : BlockExecution D} (h : finalizeChild Q sb tb parent n msg = .ok ex) (msg' : String) :
    finalizeChild Q sb tb parent n msg' = .ok ex := by
  obtain ⟨floor, hfloor, hdb, hstate, htransactions, hcount⟩ := finalizeChild_ok h
  unfold finalizeChild
  simp only [hfloor, hdb, hstate, htransactions, bind, Except.bind, pure, Except.pure]
  rw [← hcount]

/-- What a proposal was made from: the selection among the candidates and its finished execution. -/
theorem proposeChild_ok {A : Application D} {codecs : HeaderCodecs C D} {context : C} {timestamp : UInt64}
    {parent block : SealedBlock C D} {sb : StateBatch} {tb : TransactionBatch D} {body : List (SignedTransaction D)}
    {dbs : MerkleizedDatabases D} (h : A.proposeChild codecs context timestamp parent sb tb body = .ok (block, dbs)) :
    let input := prepareProposal A.env.crypto.sha256 body
    let output := proposePrepared (loadState sb.get (input.candidates.map PreparedTransaction.transfer)) input
    ∃ execution, finalizeChild A.qmdb (sb.applyChangeset output.changeset)
        (tb.applyTransactionDigests (transferDigests output.transfers)) parent.inner output.valid.length
        "database merkleization must succeed" = .ok execution ∧
      block = (Block.new ⟨context, parent.sealDigest, parent.inner.header.height + 1, timestamp, execution.state.root,
        execution.stateSyncRange, execution.transactions.root, execution.transactionsRange⟩ output.valid).sealWith
          A.env codecs ∧
      dbs = execution.intoMerkleized := by
  intro input output
  unfold Application.proposeChild executeProposal at h
  rcases hfin : finalizeChild A.qmdb (sb.applyChangeset output.changeset)
    (tb.applyTransactionDigests (transferDigests output.transfers)) parent.inner output.valid.length
    "database merkleization must succeed" with p | execution
  · simp only [input, output] at hfin
    simp only [hfin, bind, Except.bind] at h
    cases h
  · have hfin' := hfin
    simp only [input, output] at hfin'
    simp only [hfin', bind, Except.bind, pure, Except.pure] at h
    cases h
    exact ⟨execution, rfl, rfl, rfl⟩

theorem isValidChildTimestamp_iff {parent child : UInt64} (hmax : child ≤ maxBlockTimestampMs) :
    isValidChildTimestamp parent child = true ↔ parent < child := by
  simp [isValidChildTimestamp, hmax]

/-- A block made of the proposer's selection, once it was written and read, executes to what the
proposer executed. -/
theorem executeBody_of_selection {E : Env D} {Q : Qmdb D} {sb : StateBatch} {tb : TransactionBatch D}
    {parent : Block C D} {body : List (SignedTransaction D)} (hdec : ∀ t ∈ body, t.Decodable E) :
    let input := prepareProposal E.crypto.sha256 body
    let output := proposePrepared (loadState sb.get (input.candidates.map PreparedTransaction.transfer)) input
    ∀ {msg : String} {execution : BlockExecution D},
      finalizeChild Q (sb.applyChangeset output.changeset)
        (tb.applyTransactionDigests (transferDigests output.transfers)) parent output.valid.length msg =
          .ok execution →
      executeBody E Q sb tb parent ((output.valid.map .new).map LazySignedTransaction.onWire) = .ok (.ok execution) := by
  intro input output msg execution hfin
  obtain ⟨⟨transfers, hprep, hexec, hdigests⟩, -, hperm⟩ := proposer_verifier_agree E.crypto.sha256 sb.get body
  have hmapM : ((output.valid.map .new).map LazySignedTransaction.onWire).mapM
      (fun t => (t.get E).bind (prepareTransfer E.crypto.sha256)) = some transfers := by
    rw [mapM_eq_some_iff] at hprep ⊢
    rw [← hprep, List.map_map, List.map_map]
    refine List.map_congr_left fun t ht => ?_
    show ((LazySignedTransaction.onWire (.new t)).get E).bind _ = _
    rw [LazySignedTransaction.get_onWire (hdec t (hperm.subset (List.mem_append_left _ ht)))]
    rfl
  have hlength : transfers.length = output.valid.length := by
    simpa using (congrArg List.length (mapM_eq_some_iff.1 hprep)).symm
  have hfin' := finalizeChild_message hfin "database merkleization during verification must succeed"
  rw [← hdigests, ← hlength] at hfin'
  unfold executeBody
  simp only [hmapM, hexec]
  rw [hfin']
  rfl

/-- A proposal made of the mempool's transactions, encoded and decoded, is accepted on the parent and
batches it was made on exactly when the clock read more than the parent's timestamp. -/
theorem proposal_accepted_iff [DecidableEq D] (A : Application D) (hsound : A.env.crypto.BatchSound)
    (hcomplete : A.env.crypto.BatchComplete) (codecs : HeaderCodecs C D) (hc : codecs.RoundTrips)
    (hu : A.env.UsizeRoundTrips) (context : C) (timestamp : UInt64) (parent block : SealedBlock C D) (sb : StateBatch)
    (tb : TransactionBatch D) (body : List (SignedTransaction D)) (dbs : MerkleizedDatabases D) (rng : Nat)
    (hpooled : ∀ t ∈ body, A.Pooled t) (hlen : block.inner.body.length < 2 ^ 32)
    (hmax : timestamp ≤ maxBlockTimestampMs)
    (hpropose : A.proposeChild codecs context timestamp parent sb tb body = .ok (block, dbs)) :
    ∃ decoded, SealedBlock.read A.env codecs Block.defaultMaxTransactions (block.inner.write A.env codecs) =
        .ok (decoded, []) ∧
      ((∃ dbs', A.verifyChild rng decoded parent sb tb = .ok (some dbs')) ↔
        parent.inner.header.timestamp < timestamp) ∧
      (parent.inner.header.timestamp < timestamp → A.verifyChild rng decoded parent sb tb = .ok (some dbs)) := by
  obtain ⟨execution, hfin, rfl, rfl⟩ := proposeChild_ok hpropose
  obtain ⟨-, -, hperm⟩ := proposer_verifier_agree A.env.crypto.sha256 sb.get body
  generalize houtput : proposePrepared (loadState sb.get ((prepareProposal A.env.crypto.sha256 body).candidates.map
    PreparedTransaction.transfer)) (prepareProposal A.env.crypto.sha256 body) = output at hfin hperm hlen ⊢
  have hvalid : ∀ t ∈ output.valid, t ∈ body := fun t ht => hperm.subset (List.mem_append_left _ ht)
  set proposed : Block C D := Block.new ⟨context, parent.sealDigest, parent.inner.header.height + 1, timestamp,
    execution.state.root, execution.stateSyncRange, execution.transactions.root, execution.transactionsRange⟩
    output.valid with hproposed
  have hcount : proposed.body.length < 2 ^ 32 := hlen
  -- the block comes back with its transactions deferred
  have hread : Block.read A.env codecs Block.defaultMaxTransactions (proposed.write A.env codecs) =
      .ok (proposed.onWire, []) := by
    have hfits : ∀ t ∈ proposed.body, t.Fits := by
      intro t ht
      obtain ⟨tx, -, rfl⟩ := List.mem_map.1 ht
      exact LazySignedTransaction.fits_new tx
    have hread := Block.read_write hc hu (fun _ => maxEncodedSize_lt) (le_defaultMaxTransactions hcount) hcount hfits []
    rwa [List.append_nil] at hread
  refine ⟨proposed.onWire.sealWith A.env codecs, ?_, ?_⟩
  · show SealedBlock.read A.env codecs Block.defaultMaxTransactions (proposed.write A.env codecs) = _
    unfold SealedBlock.read
    rw [Reader.bind_eq hread]
    rfl
  have hsig : A.verifySignatures rng proposed.onWire.body = .ok () := by
    refine verifySignatures_of_authentic hcomplete rng fun t ht => ?_
    simp only [hproposed, Block.onWire, Block.new, List.map_map] at ht
    obtain ⟨tx, htx, rfl⟩ := List.mem_map.1 ht
    obtain ⟨hdec, hauth⟩ := (hpooled tx (hvalid tx htx)).spec hsound
    exact ⟨tx, LazySignedTransaction.get_onWire hdec, hauth⟩
  have hexec : executeBody A.env A.qmdb sb tb parent.inner proposed.onWire.body = .ok (.ok execution) := by
    subst houtput
    exact executeBody_of_selection (fun t ht => ((hpooled t ht).spec hsound).1) hfin
  have hmatch : commitmentsMatch proposed.onWire.header execution = true := by
    simp [hproposed, commitmentsMatch, Block.onWire, Block.new]
  have hverify : A.verifyChild rng (proposed.onWire.sealWith A.env codecs) parent sb tb =
      if isValidChildTimestamp parent.inner.header.timestamp timestamp then .ok (some execution.intoMerkleized)
      else .ok none := by
    unfold Application.verifyChild
    simp only [Block.sealWith, hsig, hexec, hmatch, if_true]
    show (if !isValidChildTimestamp parent.inner.header.timestamp timestamp then _ else _) = _
    cases isValidChildTimestamp parent.inner.header.timestamp timestamp <;> rfl
  rw [hverify, ← isValidChildTimestamp_iff hmax]
  constructor
  · constructor
    · rintro ⟨dbs', h⟩
      by_contra hinvalid
      rw [if_neg hinvalid] at h
      cases h
    · intro h
      exact ⟨_, if_pos h⟩
  · intro h
    exact if_pos h

/-! ## A small instance -/

/-- An application over eight-byte digests whose roots count operations. -/
def wordApplication : Application UInt64 where
  env := wordEnv
  qmdb :=
    { merkleizeState := fun batch => .ok (0, ⟨0, UInt64.ofNat (batch.writes.length + 1)⟩)
      merkleizeTransactions := fun batch => .ok (UInt64.ofNat batch.appends.length,
        ⟨batch.inactivityFloor, UInt64.ofNat (batch.base.length + batch.appends.length + 1)⟩) }
  signatureStrategy := .sequential
  hashStrategy := .sequential
  transactionNamespace := []

/-- The parent: a block without transactions, with timestamp 1. -/
def wordParent : SealedBlock Unit UInt64 := (Block.new wordHeader []).sealWith wordEnv wordCodecs

set_option maxRecDepth 20000 in
theorem wordTransaction_pooled : wordApplication.Pooled (wordTransaction ed25519Sample) :=
  ⟨.sequential, .sequential, 0, [wordTransaction ed25519Sample], _, by
    rintro u hu
    obtain rfl := List.mem_singleton.1 hu
    exact ⟨(wordTransaction ed25519Sample).write, [], rfl⟩, rfl, List.mem_singleton.2 rfl⟩

set_option maxRecDepth 20000 in
theorem proposal_accepted_sample :
    ∃ block dbs decoded, wordApplication.proposeChild wordCodecs () 2 wordParent ⟨fun _ => none, []⟩
        ⟨[.commit none 0], [], 0⟩ [wordTransaction ed25519Sample] = .ok (block, dbs) ∧
      SealedBlock.read wordEnv wordCodecs Block.defaultMaxTransactions (block.inner.write wordEnv wordCodecs) =
        .ok (decoded, []) ∧
      wordApplication.verifyChild 0 decoded wordParent ⟨fun _ => none, []⟩ ⟨[.commit none 0], [], 0⟩ =
        .ok (some dbs) := by
  obtain ⟨decoded, hread, -, hverify⟩ := proposal_accepted_iff wordApplication (fun _ _ _ _ _ => rfl)
    ⟨fun _ _ => rfl, fun _ _ _ => rfl⟩ wordCodecs wordCodecs_roundTrips wordEnv_usize () 2 wordParent _
    ⟨fun _ => none, []⟩ ⟨[.commit none 0], [], 0⟩ [wordTransaction ed25519Sample] _ 0
    (fun t ht => List.mem_singleton.1 ht ▸ wordTransaction_pooled) (by decide) (by decide) rfl
  exact ⟨_, _, decoded, rfl, hread, hverify (by decide)⟩

set_option maxRecDepth 20000 in
/-- A proposer whose clock reads the parent's timestamp makes a block that its verifiers reject. -/
theorem same_millisecond_rejected : wordApplication.Pooled (wordTransaction ed25519Sample) ∧
    wordParent.inner.header.timestamp = 1 ∧
    ∃ block dbs decoded, wordApplication.proposeChild wordCodecs () 1 wordParent ⟨fun _ => none, []⟩
        ⟨[.commit none 0], [], 0⟩ [wordTransaction ed25519Sample] = .ok (block, dbs) ∧
      SealedBlock.read wordEnv wordCodecs Block.defaultMaxTransactions (block.inner.write wordEnv wordCodecs) =
        .ok (decoded, []) ∧
      wordApplication.verifyChild 0 decoded wordParent ⟨fun _ => none, []⟩ ⟨[.commit none 0], [], 0⟩ = .ok none :=
  ⟨wordTransaction_pooled, rfl, _, _, _, rfl, rfl, rfl⟩

end Constantinople
