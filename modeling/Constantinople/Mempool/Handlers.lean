/-
What the handlers of the message loop do to the pool, the proposed queue, the known digests and the
outcomes. One lemma for each function of the loop; the invariants of the actor rest on these.
-/
import Constantinople.Mempool.Tables
import Constantinople.Consensus.Lifecycle

namespace Constantinople.Mempool

open Constantinople

variable {C D : Type} [DecidableEq D]

/-! ## Known digests -/

/-- The new transactions are those of the batch, in order, with digests that were not known, each
once; after them every digest of the batch is known. -/
theorem newTransactions_spec : ∀ (ts : List (SignedTransaction D)) (known : Finset D),
    ((newTransactions ts known).1.map SignedTransaction.messageDigest).Nodup ∧
    (∀ t ∈ (newTransactions ts known).1, t.messageDigest ∉ known) ∧
    (∀ d, d ∈ (newTransactions ts known).2 ↔
      d ∈ known ∨ d ∈ (newTransactions ts known).1.map SignedTransaction.messageDigest) ∧
    (newTransactions ts known).1.Sublist ts ∧
    ∀ t ∈ ts, t.messageDigest ∈ (newTransactions ts known).2
  | [], known => by simp [newTransactions]
  | u :: ts, known => by
    rw [newTransactions]
    split
    · rename_i hu
      obtain ⟨hnd, hnew, hknown, hsub, hall⟩ := newTransactions_spec ts known
      refine ⟨hnd, hnew, hknown, hsub.cons u, ?_⟩
      intro t ht
      rcases List.mem_cons.1 ht with rfl | ht
      · exact (hknown _).2 (.inl hu)
      · exact hall t ht
    · rename_i hu
      obtain ⟨hnd, hnew, hknown, hsub, hall⟩ := newTransactions_spec ts (insert u.messageDigest known)
      simp only [Finset.mem_insert, not_or] at hnew hknown
      refine ⟨?_, ?_, ?_, hsub.cons_cons u, ?_⟩
      · refine List.nodup_cons.2 ⟨fun hmem => ?_, hnd⟩
        obtain ⟨t, ht, heq⟩ := List.mem_map.1 hmem
        exact (hnew t ht).1 heq
      · intro t ht
        rcases List.mem_cons.1 ht with rfl | ht
        · exact hu
        · exact (hnew t ht).2
      · intro d
        rw [hknown, List.map_cons, List.mem_cons]
        tauto
      · intro t ht
        rcases List.mem_cons.1 ht with rfl | ht
        · exact (hknown _).2 (.inl (.inl rfl))
        · exact hall t ht

theorem mem_removeKnownDigests : ∀ (ts : List (SignedTransaction D)) (known : Finset D) (d : D),
    d ∈ removeKnownDigests ts known ↔ d ∈ known ∧ d ∉ ts.map SignedTransaction.messageDigest
  | [], known, d => by simp [removeKnownDigests]
  | t :: ts, known, d => by
    show d ∈ removeKnownDigests ts (known.erase t.messageDigest) ↔ _
    rw [mem_removeKnownDigests ts, Finset.mem_erase, List.map_cons, List.mem_cons]
    tauto

/-- Taking the new transactions back leaves the digests known before. -/
theorem removeKnownDigests_newTransactions (ts : List (SignedTransaction D)) (known : Finset D) :
    removeKnownDigests (newTransactions ts known).1 (newTransactions ts known).2 = known := by
  obtain ⟨-, hnew, hknown, -, -⟩ := newTransactions_spec ts known
  ext d
  rw [mem_removeKnownDigests, hknown]
  constructor
  · rintro ⟨hd | hd, hnot⟩
    · exact hd
    · exact absurd hd hnot
  · intro hd
    refine ⟨.inl hd, fun hmem => ?_⟩
    obtain ⟨t, ht, rfl⟩ := List.mem_map.1 hmem
    exact hnew t ht hd

namespace Actor

omit [DecidableEq D] in
theorem sendTo_result {channel : Option Channel} {f : Channel → Reply D} {r : Reply D}
    (h : r ∈ sendTo channel f) : ∃ c, r = f c := by
  unfold sendTo at h
  split at h
  · cases h
  · exact ⟨_, List.mem_singleton.1 h⟩

variable (cfg : Config C D)

/-- Tracking a batch stores `Accepted` and its digests for it, and records no outcome. -/
theorem trackBatch_spec (t : Tables D) (batch : Submission D) :
    (trackBatch cfg t batch).digestOutcomes.Sub t.digestOutcomes ∧
    (∀ id st, (trackBatch cfg t batch).statuses.get id = some st →
      (id = batch.batchId ∧ st = acceptedStatus cfg.display batch.digests) ∨ t.statuses.get id = some st) ∧
    ∀ id ds, (trackBatch cfg t batch).batchDigests.get id = some ds →
      (id = batch.batchId ∧ ds = batch.digests) ∨ t.batchDigests.get id = some ds := by
  obtain ⟨hnew, -, -, hout, -⟩ := t.rememberStatus_spec batch.batchId (acceptedStatus cfg.display batch.digests)
  unfold trackBatch
  simp only
  set t₁ := (t.rememberStatus batch.batchId (acceptedStatus cfg.display batch.digests)).1
  set expired := (t.rememberStatus batch.batchId (acceptedStatus cfg.display batch.digests)).2
  set t₂ := ({ t₁ with batchDigests := t₁.batchDigests.insert batch.batchId batch.digests } : Tables D)
  have hforgets := (t₂.watchBatch batch.batchId batch.digests).forgetExpiredBatches_forgets expired
  set t₃ := (t₂.watchBatch batch.batchId batch.digests).forgetExpiredBatches expired
  have hstatuses : ∀ id st, t₃.statuses.get id = some st →
      (id = batch.batchId ∧ st = acceptedStatus cfg.display batch.digests) ∨ t.statuses.get id = some st := by
    intro id st hst
    rw [hforgets.statuses] at hst
    exact (hnew id st hst).imp_right And.right
  have hdigests : ∀ id ds, t₃.batchDigests.get id = some ds →
      (id = batch.batchId ∧ ds = batch.digests) ∨ t.batchDigests.get id = some ds := by
    intro id ds hds
    have hds : (t.batchDigests.insert batch.batchId batch.digests).get id = some ds := hforgets.batchDigests id ds hds
    rw [Assoc.get_insert] at hds
    split at hds
    · rename_i heq
      cases hds
      exact .inl ⟨heq, rfl⟩
    · exact .inr hds
  split
  · exact ⟨hout ▸ hforgets.digestOutcomes, hstatuses, hdigests⟩
  · exact ⟨hout ▸ hforgets.digestOutcomes, hstatuses, hdigests⟩

omit [DecidableEq D] in
/-- `Propose` moves entries from the front of the pool to the back of the proposed queue, and replies
with their transactions. -/
theorem proposeLoop_spec (height : UInt64) : ∀ (pool : List (PoolEntry D)) (poolBytes : Nat)
    (proposed : List (ProposedBatch D)) (txs : List (SignedTransaction D)) (bytes : Nat),
    ∃ taken, pool = taken ++ (proposeLoop cfg height pool poolBytes proposed txs bytes).1 ∧
      (proposeLoop cfg height pool poolBytes proposed txs bytes).2.1 =
        poolBytes - (taken.map PoolEntry.totalBytes).sum ∧
      (proposeLoop cfg height pool poolBytes proposed txs bytes).2.2.1 =
        proposed ++ taken.map (fun e => ⟨height, e.transactions.map SignedTransaction.messageDigest⟩) ∧
      (proposeLoop cfg height pool poolBytes proposed txs bytes).2.2.2 =
        txs ++ (taken.map PoolEntry.transactions).flatten
  | [], _, _, _, _ => ⟨[], rfl, by simp [proposeLoop], by simp [proposeLoop], by simp [proposeLoop]⟩
  | entry :: pool, poolBytes, proposed, txs, bytes => by
    rw [proposeLoop]
    split
    · exact ⟨[], rfl, by simp, by simp, by simp⟩
    · obtain ⟨taken, hpool, hbytes, hproposed, htxs⟩ := proposeLoop_spec height pool (poolBytes - entry.totalBytes)
        (proposed ++ [⟨height, entry.transactions.map SignedTransaction.messageDigest⟩]) (txs ++ entry.transactions)
        (bytes + entry.totalBytes)
      refine ⟨entry :: taken, congrArg (entry :: ·) hpool, ?_, by rw [hproposed]; simp, by rw [htxs]; simp⟩
      rw [hbytes, List.map_cons, List.sum_cons]
      omega

/-- Recording outcomes overwrites those of the digests, which are no longer known, and touches nothing else. -/
theorem recordOutcomes_spec (outcome : D → DigestOutcome) : ∀ (digests : List D) (s : Actor D),
    ∃ outcomes known, s.recordOutcomes digests outcome =
        { s with tables := { s.tables with digestOutcomes := outcomes }, knownDigests := known } ∧
      (∀ d, outcomes.get d = if d ∈ digests then some (outcome d) else s.tables.digestOutcomes.get d) ∧
      ∀ d, d ∈ known ↔ d ∈ s.knownDigests ∧ d ∉ digests
  | [], s => ⟨_, _, rfl, fun d => by simp, fun d => by simp⟩
  | digest :: digests, s => by
    obtain ⟨outcomes, known, heq, hget, hknown⟩ := recordOutcomes_spec outcome digests
      { s with
        tables := { s.tables with digestOutcomes := s.tables.digestOutcomes.insert digest (outcome digest) }
        knownDigests := s.knownDigests.erase digest }
    refine ⟨outcomes, known, heq, fun d => ?_, fun d => ?_⟩
    · rw [hget, Assoc.get_insert]
      by_cases hmem : d ∈ digests
      · simp [hmem]
      · by_cases hd : d = digest
        · subst hd; simp [hmem]
        · simp [hmem, hd]
    · rw [hknown, Finset.mem_erase, List.mem_cons, not_or]
      tauto

/-- A batch stays queued only if the block has none of its digests. -/
theorem reportBatch_none {order : HashOrder} {height : UInt64} {finalized : List D} {i : Nat} {s : Actor D}
    {batch : ProposedBatch D} (h : s.reportBatch cfg order height finalized i batch = none) :
    ∀ d ∈ batch.digests, d ∉ finalized := by
  unfold reportBatch at h
  simp only at h
  split at h
  · cases h
  · rename_i hany
    intro d hd hf
    exact hany (List.any_eq_true.2 ⟨d, hd, decide_eq_true hf⟩)

/-- A settled batch: its digests get an outcome, finalized at the block's height if they are in the block
and `Dropped` otherwise, and the batches that watch them are resolved. -/
theorem reportBatch_some {order : HashOrder} {height : UInt64} {finalized : List D} {i : Nat} {s s' : Actor D}
    {batch : ProposedBatch D} {replies : List (Reply D)}
    (h : s.reportBatch cfg order height finalized i batch = some (s', replies)) :
    ∃ outcome, (∀ d ∈ batch.digests, outcome d = if d ∈ finalized then .finalized height else .dropped) ∧
      (s', replies) = (s.recordOutcomes batch.digests outcome).resolveBatches cfg
        (order.iterate i (s.tables.watchedBatchesFor batch.digests)) := by
  unfold reportBatch at h
  simp only at h
  split at h
  · exact ⟨_, fun d _ => rfl, (Option.some.inj h).symm⟩
  rename_i hany
  split at h
  · refine ⟨_, fun d hd => ?_, (Option.some.inj h).symm⟩
    have hf : d ∉ finalized := fun hf => hany (List.any_eq_true.2 ⟨d, hd, decide_eq_true hf⟩)
    rw [if_neg hf]
  · cases h

/-- A settled batch leaves the pool and the queue alone, and its digests are no longer known. -/
theorem reportBatch_frame {order : HashOrder} {height : UInt64} {finalized : List D} {i : Nat} {s s' : Actor D}
    {batch : ProposedBatch D} {replies : List (Reply D)}
    (h : s.reportBatch cfg order height finalized i batch = some (s', replies)) :
    s'.pool = s.pool ∧ s'.poolBytes = s.poolBytes ∧ s'.proposed = s.proposed ∧
      ∀ d, d ∈ s'.knownDigests ↔ d ∈ s.knownDigests ∧ d ∉ batch.digests := by
  obtain ⟨outcome, -, heq⟩ := reportBatch_some cfg h
  obtain ⟨outcomes, known, hrec, -, hknown⟩ := recordOutcomes_spec outcome batch.digests s
  rw [hrec] at heq
  cases heq
  exact ⟨rfl, rfl, rfl, hknown⟩

/-- Settling a batch records outcomes and resolves batches; only digests of the reported block are newly recorded
as finalized, at its height. -/
theorem reportBatch_tables {order : HashOrder} {height : UInt64} {finalized : List D} {i : Nat} {s s' : Actor D}
    {batch : ProposedBatch D} {replies : List (Reply D)}
    (h : s.reportBatch cfg order height finalized i batch = some (s', replies)) :
    ∃ outcomes ids, s'.tables = (Tables.resolveAll cfg.display { s.tables with digestOutcomes := outcomes } ids).1 ∧
      ∀ d height', outcomes.get d = some (.finalized height') →
        (d ∈ finalized ∧ height' = height) ∨ s.tables.digestOutcomes.get d = some (.finalized height') := by
  obtain ⟨outcome, houtcome, heq⟩ := reportBatch_some cfg h
  obtain ⟨outcomes, known, hrec, hget, -⟩ := recordOutcomes_spec outcome batch.digests s
  rw [hrec] at heq
  cases heq
  refine ⟨outcomes, _, rfl, fun d height' hd => ?_⟩
  rw [hget] at hd
  split at hd
  · rename_i hmem
    rw [houtcome d hmem] at hd
    split at hd
    · rename_i hf
      cases hd
      exact .inl ⟨hf, rfl⟩
    · cases hd
  · exact .inr hd

/-- Induction rule for a report: what settling one batch keeps, the loop over the queue keeps. -/
theorem reportLoop_invariant {I : Actor D → Prop} {order : HashOrder} {height : UInt64} {finalized : List D}
    (hstep : ∀ (i : Nat) (s s' : Actor D) (batch : ProposedBatch D) (replies : List (Reply D)), I s →
      s.reportBatch cfg order height finalized i batch = some (s', replies) → I s')
    (batches : List (ProposedBatch D)) (i : Nat) {s : Actor D} (h : I s) :
    I (Actor.reportLoop cfg order height finalized i s batches).1 := by
  induction batches generalizing i s with
  | nil => exact h
  | cons batch batches ih =>
    simp only [Actor.reportLoop]
    split
    · exact ih (i + 1) h
    · rename_i s' replies hsome
      exact ih (i + 1) (hstep i s s' batch replies h hsome)

end Actor

/-! ## Submissions -/

/-- The pool has no room for the new transactions of a batch. -/
def Actor.Refuses (cfg : Config C D) (s : Actor D) (batch : Submission D) : Prop :=
  s.tables.statuses.get batch.batchId = none ∧ (newTransactions batch.transactions s.knownDigests).1 ≠ [] ∧
    cfg.maxPoolBytes <
      s.poolBytes + min (totalBytesFor (newTransactions batch.transactions s.knownDigests).1) batch.totalBytes

section Submissions

variable {cfg : Config C D} {s : Actor D}

/-- A refused batch changes nothing: the digests it made known are forgotten again. -/
theorem submit_refused {batch : Submission D} (h : s.Refuses cfg batch) :
    s.submit cfg batch = (s, Actor.sendTo batch.result (.result batch.batchId · .dropped) ++
      Actor.sendTo batch.ingestResult (.ingest · .dropped)) := by
  obtain ⟨hnew, hne, hfull⟩ := h
  unfold Actor.submit
  simp only [hnew, if_pos (And.intro hne hfull), removeKnownDigests_newTransactions]

omit [DecidableEq D] in
variable (s) in
/-- A known batch: a waiter of a resolved batch is answered at once, any other is added. -/
theorem resubmit_cases (batch : Submission D) (status : BatchStatus) :
    let ingest := Actor.sendTo batch.ingestResult (.ingest · .accepted)
    s.resubmit batch status = (s, ingest) ∨
    (∃ result st, txStatusFromBatch status = some st ∧
      s.resubmit batch status = (s, ingest ++ [.result batch.batchId result st])) ∨
    ∃ result, txStatusFromBatch status = none ∧
      s.resubmit batch status = ({ s with tables := s.tables.pushWaiter batch.batchId result }, ingest) := by
  unfold Actor.resubmit
  simp only
  split
  · exact .inl rfl
  rename_i result _
  split
  · rename_i st hst
    exact .inr (.inl ⟨result, st, hst, rfl⟩)
  · rename_i hst
    exact .inr (.inr ⟨result, hst, rfl⟩)

theorem submit_known {batch : Submission D} {status : BatchStatus}
    (h : s.tables.statuses.get batch.batchId = some status) : s.submit cfg batch = s.resubmit batch status := by
  unfold Actor.submit
  rw [h]

variable (cfg) in
/-- A known batch changes at most who waits for it. -/
theorem submit_known_frame {batch : Submission D} {status : BatchStatus}
    (h : s.tables.statuses.get batch.batchId = some status) :
    ∃ waiters, (s.submit cfg batch).1 = { s with tables := { s.tables with pendingWaiters := waiters } } := by
  rw [submit_known h]
  rcases resubmit_cases s batch status with heq | ⟨result, st, -, heq⟩ | ⟨result, -, heq⟩
  · exact ⟨_, congrArg Prod.fst heq⟩
  · exact ⟨_, congrArg Prod.fst heq⟩
  · exact ⟨_, congrArg Prod.fst heq⟩

/-- What a new batch does to the pool, when there is room: its new transactions make up one entry. -/
theorem submit_new {batch : Submission D} (hnew : s.tables.statuses.get batch.batchId = none)
    (hroom : ¬ s.Refuses cfg batch) :
    let accepted := (newTransactions batch.transactions s.knownDigests).1
    let totalBytes := min (totalBytesFor accepted) batch.totalBytes
    (s.submit cfg batch).1.knownDigests = (newTransactions batch.transactions s.knownDigests).2 ∧
    (s.submit cfg batch).1.proposed = s.proposed ∧
    (s.submit cfg batch).1.tables = Actor.trackBatch cfg s.tables batch ∧
    (s.submit cfg batch).2 = Actor.sendTo batch.ingestResult (.ingest · .accepted) ∧
    ((accepted = [] ∧ (s.submit cfg batch).1.pool = s.pool ∧ (s.submit cfg batch).1.poolBytes = s.poolBytes) ∨
      (accepted ≠ [] ∧ (s.submit cfg batch).1.pool = s.pool ++ [⟨accepted, totalBytes⟩] ∧
        (s.submit cfg batch).1.poolBytes = s.poolBytes + totalBytes ∧
        s.poolBytes + totalBytes ≤ cfg.maxPoolBytes)) := by
  intro accepted totalBytes
  have hguard : ¬ ((newTransactions batch.transactions s.knownDigests).1 ≠ [] ∧ cfg.maxPoolBytes <
      s.poolBytes + min (totalBytesFor (newTransactions batch.transactions s.knownDigests).1) batch.totalBytes) :=
    fun h => hroom ⟨hnew, h⟩
  unfold Actor.submit
  simp only [hnew, if_neg hguard]
  split
  · rename_i hnil
    exact ⟨rfl, rfl, rfl, rfl, .inl ⟨hnil, rfl, rfl⟩⟩
  · rename_i hne
    exact ⟨rfl, rfl, rfl, rfl, .inr ⟨hne, rfl, rfl, Nat.not_lt.1 fun hlt => hguard ⟨hne, hlt⟩⟩⟩

variable (cfg s) in
/-- What a submission does to the tables: a new batch is tracked, and any other at most adds a waiter. -/
theorem submit_tables (batch : Submission D) :
    (∃ waiters, (s.submit cfg batch).1.tables = { s.tables with pendingWaiters := waiters }) ∨
    (s.tables.statuses.get batch.batchId = none ∧
      (s.submit cfg batch).1.tables = Actor.trackBatch cfg s.tables batch) := by
  cases hstatus : s.tables.statuses.get batch.batchId with
  | some status =>
    obtain ⟨waiters, heq⟩ := submit_known_frame cfg hstatus
    exact .inl ⟨waiters, congrArg Actor.tables heq⟩
  | none =>
    by_cases hroom : s.Refuses cfg batch
    · rw [submit_refused hroom]
      exact .inl ⟨s.tables.pendingWaiters, rfl⟩
    · obtain ⟨-, -, htables, -⟩ := submit_new hstatus hroom
      exact .inr ⟨rfl, htables⟩

end Submissions

/-! ## A small instance -/

/-- A small actor that displays a digest as that many marks. -/
def tallyConfig : Config Unit Nat where
  env := countingApplication.env
  display := fun n => String.ofList (List.replicate n '|')
  round := fun _ => ⟨0, 0⟩
  maxPoolBytes := 1000
  maxProposeBytes := 1000
  dropGraceBlocks := 1

theorem tallyConfig_display : Function.Injective tallyConfig.display := by
  intro m n h
  have := congrArg List.length (String.ofList_injective h)
  simpa using this

/-- An empty block at height 3. -/
def emptyBlock : SealedBlock Unit Nat :=
  (Block.new { sampleGenesis.inner.header with height := 3, timestamp := 3 } []).sealWith countingApplication.env countingCodecs

/-- A batch of one transaction with the given digest, and its size. -/
def tallySubmission (batchId : String) (digest : Nat) (result ingestResult : Option Channel) : Submission Nat :=
  ⟨batchId, [digest],
    [⟨⟨(sampleTransaction 1 2 5 0 sampleValue_ne_zero).value, digest⟩, (sampleTransaction 1 2 5 0 sampleValue_ne_zero).signature⟩],
    147, result, ingestResult⟩

end Constantinople.Mempool
