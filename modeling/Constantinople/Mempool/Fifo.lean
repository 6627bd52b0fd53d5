/-
Proposals are first in, first out. The replies to `Propose` and the pool behind them are the accepted
parts of the submissions in arrival order, each part whole; and as the request handlers bound a batch
by what one proposal may hold, no reply is larger than that.
-/
import Constantinople.Mempool.Pool

namespace Constantinople.Mempool

open Constantinople Run

variable {C D : Type}

/-! ## What a submission adds -/

section Accepted

variable [DecidableEq D]

/-- The transactions whose digest is not among `held` and not that of an earlier one. -/
def freshTransactions : List D → List (SignedTransaction D) → List (SignedTransaction D)
  | _, [] => []
  | held, transaction :: transactions =>
    if transaction.messageDigest ∈ held then freshTransactions held transactions
    else transaction :: freshTransactions (transaction.messageDigest :: held) transactions

/-- The part of a batch that is accepted: nothing of a batch that has a status, else its transactions
that are neither in the pool nor in a proposed batch, each digest once, if the pool has room for them. -/
def Actor.acceptedPart (cfg : Config C D) (s : Actor D) (batch : Submission D) : List (SignedTransaction D) :=
  if (s.tables.statuses.get batch.batchId).isSome then []
  else
    let fresh := freshTransactions s.live batch.transactions
    if totalBytesFor (s.pool.map PoolEntry.transactions).flatten + totalBytesFor fresh ≤ cfg.maxPoolBytes then fresh
    else []

theorem newTransactions_eq_fresh : ∀ (transactions : List (SignedTransaction D)) {known : Finset D} {held : List D},
    (∀ d, d ∈ known ↔ d ∈ held) → (newTransactions transactions known).1 = freshTransactions held transactions
  | [], _, _, _ => rfl
  | t :: transactions, known, held, h => by
    rw [newTransactions, freshTransactions]
    simp only [h]
    split
    · exact newTransactions_eq_fresh transactions h
    · have hknown : ∀ d, d ∈ insert t.messageDigest known ↔ d ∈ t.messageDigest :: held := by
        intro d
        rw [Finset.mem_insert, List.mem_cons, h]
      rw [newTransactions_eq_fresh transactions hknown]

theorem freshTransactions_sublist : ∀ (transactions : List (SignedTransaction D)) (held : List D),
    (freshTransactions held transactions).Sublist transactions
  | [], _ => .slnil
  | t :: transactions, held => by
    rw [freshTransactions]
    split
    · exact (freshTransactions_sublist transactions held).cons t
    · exact (freshTransactions_sublist transactions _).cons_cons t

end Accepted

theorem totalBytesFor_append (ts ts' : List (SignedTransaction D)) :
    totalBytesFor (ts ++ ts') = totalBytesFor ts + totalBytesFor ts' := by
  simp [totalBytesFor]

theorem totalBytesFor_flatten : ∀ parts : List (List (SignedTransaction D)),
    totalBytesFor parts.flatten = (parts.map totalBytesFor).sum
  | [] => rfl
  | part :: parts => by
    rw [List.flatten_cons, totalBytesFor_append, totalBytesFor_flatten parts, List.map_cons, List.sum_cons]

/-- The pool counts the bytes of its transactions. -/
theorem PoolInvariant.poolBytes_eq {cfg : Config C D} {s : Actor D} (h : PoolInvariant cfg s) :
    s.poolBytes = totalBytesFor (s.pool.map PoolEntry.transactions).flatten := by
  rw [h.bytes, totalBytesFor_flatten, List.map_map]
  exact congrArg List.sum (List.map_congr_left fun e he => (h.entries e he).2)

/-! ## The histories of a run -/

/-- What went in and out of the pool so far: the replies to `Propose`, and the accepted part of each
submission. -/
structure Deliveries (D : Type) where
  proposals : List (List (SignedTransaction D))
  parts : List (List (SignedTransaction D))

def Reply.proposal : Reply D → Option (List (SignedTransaction D))
  | .transactions _ txs => some txs
  | _ => none

section Steps

variable [DecidableEq D] {cfg : Config C D}

/-- A submission comes from a verified request body, no larger than one proposal may be. -/
def Message.Posted (cfg : Config C D) : Message C D → Prop
  | .submit batch => ∃ (app : AppState) (rng : Nat) (body : Bytes) (verified : VerifiedBatch D) (result ingestResult : _),
      app.maxBatchBytes = cfg.maxProposeBytes ∧ verifyBody cfg.env app rng body = .ok verified ∧
        batch = submissionOf cfg.env cfg.display body verified result ingestResult
  | _ => True

/-- What a message adds to the accepted parts, if a submission adds `part`. -/
def Message.accepted (part : Actor D → Submission D → List (SignedTransaction D)) (s : Actor D) :
    Message C D → List (List (SignedTransaction D))
  | .submit batch => [part s batch]
  | _ => []

/-- A message handled in some hash order, with the deliveries before and after it. -/
def DeliveryStep (cfg : Config C D) (part : Actor D → Submission D → List (SignedTransaction D))
    (s : Actor D × Deliveries D) (m : Message C D) (s' : Actor D × Deliveries D) : Prop :=
  m.Posted cfg ∧ ∃ order, s' = ((s.1.handle cfg order m).1,
    ⟨s.2.proposals ++ (s.1.handle cfg order m).2.filterMap Reply.proposal, s.2.parts ++ m.accepted part s.1⟩)

omit [DecidableEq D] in
theorem Message.Posted.measured {m : Message C D} (h : m.Posted cfg) : m.Measured := by
  cases m with
  | submit batch =>
    obtain ⟨app, rng, body, verified, result, ingestResult, -, hverify, rfl⟩ := h
    exact submissionOf_measured hverify result ingestResult
  | _ => trivial

omit [DecidableEq D] in
/-- A verified batch is no larger than the limit. -/
theorem verifyBody_bytes {E : Env D} {state : AppState} {rng : Nat} {body : Bytes} {batch : VerifiedBatch D}
    (h : verifyBody E state rng body = .ok batch) : batch.totalBytes ≤ state.maxBatchBytes := by
  unfold verifyBody at h
  split at h
  · cases h
  split at h
  · cases h
  split at h
  · cases h
  simp only at h
  split at h
  · cases h
  rename_i hle
  split at h
  · cases h
  · cases h
    exact Nat.not_lt.1 hle

omit [DecidableEq D] in
theorem posted_bytes {batch : Submission D} (h : (Message.submit batch : Message C D).Posted cfg) :
    totalBytesFor batch.transactions ≤ cfg.maxProposeBytes := by
  have hm : batch.Measured := h.measured
  obtain ⟨app, rng, body, verified, result, ingestResult, hmax, hverify, rfl⟩ := h
  rw [← hm.totalBytes, ← hmax]
  exact verifyBody_bytes hverify

/-! ## Replies -/

omit [DecidableEq D] in
theorem sendTo_proposal {channel : Option Channel} {f : Channel → Reply D} (hf : ∀ c, (f c).proposal = none) :
    (Actor.sendTo channel f).filterMap Reply.proposal = [] := by
  rw [List.filterMap_eq_nil_iff]
  intro r hr
  obtain ⟨c, rfl⟩ := Actor.sendTo_result hr
  exact hf c

variable (cfg) in
theorem reportLoop_proposals (order : HashOrder) (height : UInt64) (finalized : List D) :
    ∀ (batches : List (ProposedBatch D)) (i : Nat) (s : Actor D),
      (Actor.reportLoop cfg order height finalized i s batches).2.2.filterMap Reply.proposal = []
  | [], _, _ => rfl
  | batch :: batches, i, s => by
    simp only [Actor.reportLoop]
    split
    · exact reportLoop_proposals order height finalized batches (i + 1) s
    · rename_i s' replies hsome
      rw [List.filterMap_append, reportLoop_proposals order height finalized batches (i + 1) s', List.append_nil,
        List.filterMap_eq_nil_iff]
      intro r hr
      obtain ⟨outcome, -, heq⟩ := Actor.reportBatch_some cfg hsome
      have hres : Tables.Resolves cfg.display _ _ _ := Tables.resolveAll_resolves
        (order.iterate i (s.tables.watchedBatchesFor batch.digests)) (s.recordOutcomes batch.digests outcome).tables
      rw [show replies = _ from congrArg Prod.snd heq] at hr
      obtain ⟨id, channel, st, ds, status, rfl, -⟩ := hres.replies r hr
      rfl

theorem submit_proposals (s : Actor D) (batch : Submission D) :
    (s.submit cfg batch).2.filterMap Reply.proposal = [] := by
  by_cases hnew : s.tables.statuses.get batch.batchId = none
  · by_cases hroom : s.Refuses cfg batch
    · rw [submit_refused hroom, List.filterMap_append, sendTo_proposal fun _ => rfl, sendTo_proposal fun _ => rfl]
      rfl
    · obtain ⟨-, -, -, hreplies, -⟩ := submit_new hnew hroom
      rw [hreplies]
      exact sendTo_proposal fun _ => rfl
  · obtain ⟨status, hstatus⟩ := Option.ne_none_iff_exists'.1 hnew
    rw [submit_known hstatus]
    have hingest : (Actor.sendTo batch.ingestResult (Reply.ingest · .accepted)).filterMap (Reply.proposal (D := D)) = [] :=
      sendTo_proposal fun _ => rfl
    rcases resubmit_cases s batch status with heq | ⟨result, st, -, heq⟩ | ⟨result, -, heq⟩
    · rw [heq]; exact hingest
    · rw [heq, List.filterMap_append, hingest]; rfl
    · rw [heq]; exact hingest

/-! ## The pool after a submission -/

/-- A submission appends its accepted part to the pool, as one entry. -/
theorem submit_pool {s : Actor D} (h : PoolInvariant cfg s) {batch : Submission D} (hm : batch.Measured) :
    (s.submit cfg batch).1.pool.map PoolEntry.transactions =
      s.pool.map PoolEntry.transactions ++ [s.acceptedPart cfg batch].filter (· ≠ []) := by
  unfold Actor.acceptedPart
  by_cases hnew : s.tables.statuses.get batch.batchId = none
  · have hfresh := newTransactions_eq_fresh batch.transactions h.known
    have htotal : min (totalBytesFor (freshTransactions s.live batch.transactions)) batch.totalBytes =
        totalBytesFor (freshTransactions s.live batch.transactions) := by
      rw [hm.totalBytes]
      exact min_eq_left (totalBytesFor_mono (freshTransactions_sublist _ _))
    simp only [hnew, Option.isSome_none, Bool.false_eq_true, if_false]
    by_cases hroom : s.Refuses cfg batch
    · have hfull := hroom.2.2
      rw [hfresh, htotal, h.poolBytes_eq] at hfull
      rw [submit_refused hroom, if_neg (Nat.not_le.2 hfull)]
      simp
    · obtain ⟨-, -, -, -, hpool⟩ := submit_new hnew hroom
      rw [hfresh, htotal, h.poolBytes_eq] at hpool
      rcases hpool with ⟨hnil, hpool, -⟩ | ⟨hne, hpool, -, hbound⟩
      · rw [hpool, hnil]
        simp
      · rw [hpool, if_pos hbound, List.map_append, List.filter_singleton]
        simp [hne]
  · obtain ⟨status, hstatus⟩ := Option.ne_none_iff_exists'.1 hnew
    have hpool : (s.submit cfg batch).1.pool = s.pool := by
      obtain ⟨waiters, heq⟩ := submit_known_frame cfg hstatus
      rw [heq]
    rw [hpool, hstatus]
    simp

theorem acceptedPart_bytes {s : Actor D} {batch : Submission D}
    (h : totalBytesFor batch.transactions ≤ cfg.maxProposeBytes) :
    totalBytesFor (s.acceptedPart cfg batch) ≤ cfg.maxProposeBytes := by
  unfold Actor.acceptedPart
  split
  · exact Nat.zero_le _
  · simp only
    split
    · exact (totalBytesFor_mono (freshTransactions_sublist _ _)).trans h
    · exact Nat.zero_le _

/-! ## Proposals -/

omit [DecidableEq D] in
/-- Entries that each fit a proposal make up one that fits: after the first, an entry is taken only
if there is room for it. -/
theorem proposeLoop_bytes (height : UInt64) : ∀ (pool : List (PoolEntry D)) (poolBytes : Nat)
    (proposed : List (ProposedBatch D)) (txs : List (SignedTransaction D)),
    (∀ e ∈ pool, e.totalBytes = totalBytesFor e.transactions ∧ totalBytesFor e.transactions ≤ cfg.maxProposeBytes) →
    totalBytesFor txs ≤ cfg.maxProposeBytes →
      totalBytesFor (Actor.proposeLoop cfg height pool poolBytes proposed txs (totalBytesFor txs)).2.2.2 ≤
        cfg.maxProposeBytes
  | [], _, _, _, _, htxs => htxs
  | entry :: pool, poolBytes, proposed, txs, hpool, htxs => by
    rw [Actor.proposeLoop]
    split
    · exact htxs
    · rename_i hroom
      obtain ⟨hentry, hpool⟩ := List.forall_mem_cons.1 hpool
      rw [hentry.1, ← totalBytesFor_append]
      refine proposeLoop_bytes height pool _ _ (txs ++ entry.transactions) hpool ?_
      rw [hentry.1, not_and_or, Nat.not_lt, not_not] at hroom
      rcases hroom with hroom | hnil
      · rwa [totalBytesFor_append]
      · rw [hnil]
        exact hentry.2

/-! ## The invariant -/

/-- Every reply is a sequence of whole accepted parts, the pool holds the rest, in arrival order. -/
structure Fifo (cfg : Config C D) (s : Actor D × Deliveries D) : Prop where
  pool : PoolInvariant cfg s.1
  parts : ∃ groups : List (List (List (SignedTransaction D))), s.2.proposals = groups.map List.flatten ∧
    groups.flatten ++ s.1.pool.map PoolEntry.transactions = s.2.parts.filter (· ≠ [])
  fits : ∀ part ∈ s.2.parts, totalBytesFor part ≤ cfg.maxProposeBytes
  bounded : ∀ proposal ∈ s.2.proposals, totalBytesFor proposal ≤ cfg.maxProposeBytes

omit [DecidableEq D] in
/-- A step that neither proposes nor accepts anything. -/
theorem Fifo.of_frame {s : Actor D × Deliveries D} (h : Fifo cfg s) {a : Actor D} (ha : PoolInvariant cfg a)
    (hpool : a.pool = s.1.pool) : Fifo cfg (a, s.2) :=
  ⟨ha, hpool ▸ h.parts, h.fits, h.bounded⟩

theorem Fifo.submit {a : Actor D} {d : Deliveries D} (h : Fifo cfg (a, d)) {batch : Submission D}
    (hp : (Message.submit batch : Message C D).Posted cfg) :
    Fifo cfg ((a.submit cfg batch).1, ⟨d.proposals, d.parts ++ [a.acceptedPart cfg batch]⟩) := by
  constructor
  · exact submit_invariant hp.measured h.pool
  · obtain ⟨groups, hproposals, hparts⟩ := h.parts
    refine ⟨groups, hproposals, ?_⟩
    rw [submit_pool h.pool hp.measured, List.filter_append, ← List.append_assoc, hparts]
  · intro part hpart
    rcases List.mem_append.1 hpart with hpart | hpart
    · exact h.fits part hpart
    · rw [List.mem_singleton.1 hpart]
      exact acceptedPart_bytes (posted_bytes hp)
  · exact h.bounded

omit [DecidableEq D] in
theorem mem_parts_of_pool {groups : List (List (List (SignedTransaction D)))} {parts : List (List (SignedTransaction D))}
    {pool : List (PoolEntry D)} (h : groups.flatten ++ pool.map PoolEntry.transactions = parts.filter (· ≠ []))
    {e : PoolEntry D} (he : e ∈ pool) : e.transactions ∈ parts :=
  List.mem_of_mem_filter (h ▸ List.mem_append_right _ (List.mem_map_of_mem he))

omit [DecidableEq D] in
theorem Fifo.propose {a : Actor D} {d : Deliveries D} (h : Fifo cfg (a, d)) (height : UInt64) (response : Channel) :
    Fifo cfg ((a.propose cfg height response).1,
      ⟨d.proposals ++ (a.propose cfg height response).2.filterMap Reply.proposal, d.parts⟩) := by
  obtain ⟨groups, hproposals, hparts⟩ := h.parts
  obtain ⟨taken, hpool, -, -, htxs⟩ := Actor.proposeLoop_spec cfg height a.pool a.poolBytes a.proposed [] 0
  have hreply : (a.propose cfg height response).2.filterMap Reply.proposal =
      [(taken.map PoolEntry.transactions).flatten] := by
    simp only [Actor.propose, List.filterMap_cons, Reply.proposal, List.filterMap_nil, htxs, List.nil_append]
  have hfits : ∀ e ∈ a.pool, e.totalBytes = totalBytesFor e.transactions ∧
      totalBytesFor e.transactions ≤ cfg.maxProposeBytes :=
    fun e he => ⟨(h.pool.entries e he).2, h.fits _ (mem_parts_of_pool hparts he)⟩
  rw [hreply]
  constructor
  · exact propose_invariant height response h.pool
  · refine ⟨groups ++ [taken.map PoolEntry.transactions], ?_, ?_⟩
    · rw [List.map_append]
      exact congrArg (· ++ _) hproposals
    have hrest : (a.propose cfg height response).1.pool =
        (Actor.proposeLoop cfg height a.pool a.poolBytes a.proposed [] 0).1 := rfl
    rw [← hparts, hrest]
    nth_rewrite 2 [hpool]
    simp
  · exact h.fits
  · intro proposal hproposal
    rcases List.mem_append.1 hproposal with hproposal | hproposal
    · exact h.bounded proposal hproposal
    · have hbytes := proposeLoop_bytes height a.pool a.poolBytes a.proposed [] hfits (Nat.zero_le _)
      rw [List.mem_singleton.1 hproposal]
      rw [show totalBytesFor ([] : List (SignedTransaction D)) = 0 from rfl, htxs] at hbytes
      exact hbytes

theorem Fifo.step {s s' : Actor D × Deliveries D} {m : Message C D} (h : Fifo cfg s)
    (hstep : DeliveryStep cfg (Actor.acceptedPart cfg) s m s') : Fifo cfg s' := by
  obtain ⟨a, d⟩ := s
  obtain ⟨hp, order, rfl⟩ := hstep
  have hinv : PoolInvariant cfg (a.handle cfg order m).1 := handle_invariant hp.measured order h.pool
  cases m with
  | submit batch =>
    simp only [Actor.handle, submit_proposals, List.append_nil, Message.accepted]
    exact h.submit hp
  | propose height response =>
    simp only [Message.accepted, List.append_nil]
    exact h.propose height response
  | reportBlock block ack =>
    have hreplies : (a.reportBlock cfg order block ack).2.filterMap Reply.proposal = [] := by
      simp only [Actor.reportBlock, List.filterMap_append, reportLoop_proposals, List.nil_append]
      rfl
    simp only [Actor.handle, Message.accepted, hreplies, List.append_nil]
    refine h.of_frame hinv ?_
    exact (reportLoop_pool cfg order _ _ a.proposed 0 _).1
  | queryStatus batchId response =>
    show Fifo cfg (a, ⟨d.proposals ++ [], d.parts ++ []⟩)
    rwa [List.append_nil, List.append_nil]
  | queryConsensusRound response =>
    show Fifo cfg (a, ⟨d.proposals ++ [], d.parts ++ []⟩)
    rwa [List.append_nil, List.append_nil]
  | reportTip round =>
    simp only [Actor.handle, Message.accepted, List.filterMap_nil, List.append_nil]
    exact h.of_frame hinv rfl

end Steps

/-- In every run whose submissions come from verified request bodies: the replies to `Propose` and the
transactions still in the pool are the accepted parts in arrival order, every reply is made up of whole
parts, and none is larger than a proposal may be. -/
theorem proposals_fifo [DecidableEq D] (cfg : Config C D) {ms : List (Message C D)} {s : Actor D} {d : Deliveries D}
    (h : Trace (DeliveryStep cfg (Actor.acceptedPart cfg)) (.new, ⟨[], []⟩) ms (s, d)) :
    d.proposals.flatten ++ (s.pool.map PoolEntry.transactions).flatten = d.parts.flatten ∧
    (∃ groups : List (List (List (SignedTransaction D))), d.proposals = groups.map List.flatten ∧
      groups.flatten ++ s.pool.map PoolEntry.transactions = d.parts.filter (· ≠ [])) ∧
    ∀ proposal ∈ d.proposals, totalBytesFor proposal ≤ cfg.maxProposeBytes := by
  have hfifo : Fifo cfg (s, d) := by
    refine Trace.invariant (I := Fifo cfg) (fun s m s' hs hstep => hs.step hstep) ?_ h
    exact ⟨poolInvariant_new cfg, ⟨[], rfl, rfl⟩, List.forall_mem_nil _, List.forall_mem_nil _⟩
  obtain ⟨groups, hproposals, hparts⟩ := hfifo.parts
  refine ⟨?_, ⟨groups, hproposals, hparts⟩, hfifo.bounded⟩
  have hflat : (d.parts.filter (· ≠ [])).flatten = d.parts.flatten := List.flatten_filter_ne_nil
  rw [← hflat, ← hparts, List.flatten_append]
  simp only at hproposals
  rw [hproposals, List.flatten_flatten]

/-! ## A small instance -/

/-- An actor that displays every digest alike. -/
def postedConfig : Config Unit Nat := { tallyConfig with display := fun _ => "batch" }

/-- What `sampleTransaction` is read back as: its sender is not decoded. -/
def postedTransaction : SignedTransaction Nat :=
  let sent := sampleTransaction 1 2 5 0 sampleValue_ne_zero
  ⟨⟨{ sent.value with sender := .deferred ⟨sent.value.sender.write, sent.value.sender.length_write⟩ }, 82⟩, sent.signature⟩

/-- The submission of a body that holds the same transaction twice. -/
def postedSubmission (ingestResult : Option Channel) : Submission Nat :=
  ⟨"batch", [82, 82], [postedTransaction, postedTransaction], 294, none, ingestResult⟩

set_option maxRecDepth 20000 in
theorem postedSubmission_posted (ingestResult : Option Channel) :
    (Message.submit (postedSubmission ingestResult) : Message Unit Nat).Posted postedConfig :=
  ⟨⟨[], 1000, .sequential, .sequential⟩, 0, 2 :: (postedTransaction.write ++ postedTransaction.write), _, none,
    ingestResult, rfl, rfl, rfl⟩

/-- The message is handled in insertion order. -/
def deliver (part : Actor Nat → Submission Nat → List (SignedTransaction Nat)) (s : Actor Nat × Deliveries Nat)
    (m : Message Unit Nat) : Actor Nat × Deliveries Nat :=
  ((s.1.handle postedConfig .insertion m).1,
    ⟨s.2.proposals ++ (s.1.handle postedConfig .insertion m).2.filterMap Reply.proposal, s.2.parts ++ m.accepted part s.1⟩)

/-- A batch is submitted, proposed and finalized, and then submitted again. -/
def postedMessages : List (Message Unit Nat) :=
  [.submit (postedSubmission (some 0)), .propose 1 1, .reportBlock sampleChild 2, .submit (postedSubmission (some 3))]

theorem postedMessages_trace (part : Actor Nat → Submission Nat → List (SignedTransaction Nat)) :
    Trace (DeliveryStep postedConfig part) (.new, ⟨[], []⟩) postedMessages
      (postedMessages.foldl (deliver part) (.new, ⟨[], []⟩)) := by
  refine .cons ⟨postedSubmission_posted _, .insertion, rfl⟩ ?_
  refine .cons ⟨trivial, .insertion, rfl⟩ ?_
  refine .cons ⟨trivial, .insertion, rfl⟩ ?_
  exact .cons ⟨postedSubmission_posted _, .insertion, rfl⟩ (.nil _)

set_option maxRecDepth 20000 in
theorem proposals_fifo_sample :
    let s := postedMessages.foldl (deliver (Actor.acceptedPart postedConfig)) (.new, ⟨[], []⟩)
    s.2.parts = [[postedTransaction], []] ∧
      s.2.proposals.flatten ++ (s.1.pool.map PoolEntry.transactions).flatten = s.2.parts.flatten := by
  intro s
  exact ⟨by decide, (proposals_fifo postedConfig (postedMessages_trace _)).1⟩

/-- The transactions of a batch that are neither in the pool nor in a proposed batch, if there is room:
also copies of one transaction, and also those of a batch that has a status. -/
def Actor.unheldPart [DecidableEq D] (cfg : Config C D) (s : Actor D) (batch : Submission D) :
    List (SignedTransaction D) :=
  let unheld := batch.transactions.filter fun t => t.messageDigest ∉ s.live
  if totalBytesFor (s.pool.map PoolEntry.transactions).flatten + totalBytesFor unheld ≤ cfg.maxPoolBytes then unheld
  else []

set_option maxRecDepth 20000 in
/-- Not everything unheld is accepted: of the two copies one is, and nothing when the finalized batch
is submitted again. -/
theorem unheld_not_accepted :
    ∃ (s : Actor Nat) (d : Deliveries Nat),
      Trace (DeliveryStep postedConfig (Actor.unheldPart postedConfig)) (.new, ⟨[], []⟩) postedMessages (s, d) ∧
      d.proposals.flatten ++ (s.pool.map PoolEntry.transactions).flatten = [postedTransaction] ∧
      d.parts = [[postedTransaction, postedTransaction], [postedTransaction, postedTransaction]] :=
  ⟨_, _, postedMessages_trace _, by decide, by decide⟩

end Constantinople.Mempool
