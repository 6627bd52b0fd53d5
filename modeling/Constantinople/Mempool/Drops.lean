/-
False drops. A batch is dropped, or one of its digests filtered, for what the proposed queue shows;
a digest that reaches a finalized block while it is still pooled here, or that is submitted again
after it was finalized, is then reported as dropped. In runs where neither happens no reported digest
is ever blamed.
-/
import Constantinople.Mempool.Handlers
import Constantinople.Lib.Run

namespace Constantinople.Mempool

open Constantinople Run

variable {C D : Type} [DecidableEq D]

/-! ## False drops -/

/-- The actor with the digests of the finalized blocks reported to it so far. -/
structure Observed (D : Type) where
  actor : Actor D
  reported : List D

/-- The digests of the block a message reports. -/
def Message.finalized (cfg : Config C D) : Message C D → List D
  | .reportBlock block _ => bodyDigests cfg.env block.inner.body
  | _ => []

/-- One message, handled in some hash order. -/
def Observed.Step (cfg : Config C D) (s : Observed D) (m : Message C D) (s' : Observed D) : Prop :=
  ∃ order, s' = ⟨(s.actor.handle cfg order m).1, s.reported ++ m.finalized cfg⟩

/-- The digests a status sent for a batch blames: those it lists as filtered, or all of a dropped batch. -/
def Blames (display : D → String) (digests : List D) : TxStatus → D → Prop
  | .finalized _, _ => False
  | .partiallyFinalized _ _ filtered, d => display d ∈ filtered
  | .dropped, d => d ∈ digests

/-- The digests of a batch: those of the submission at hand, or those tracked. -/
def batchOf (s : Actor D) (batchId : String) : Message C D → Option (List D)
  | .submit batch => if batchId = batch.batchId then some batch.digests else s.tables.batchDigests.get batchId
  | _ => s.tables.batchDigests.get batchId

/-- Handling the message blames no digest of a block reported so far, the message's own included:
neither in a status it newly stores, nor in a result it sends for a batch that was not resolved. -/
structure NoFalseDrop (cfg : Config C D) (order : HashOrder) (s : Observed D) (m : Message C D) : Prop where
  statuses : ∀ id status, (s.actor.handle cfg order m).1.tables.statuses.get id = some status →
    s.actor.tables.statuses.get id ≠ some status →
    ∀ d, cfg.display d ∈ status.filtered → d ∉ s.reported ++ m.finalized cfg
  results : ∀ id channel status, .result id channel status ∈ (s.actor.handle cfg order m).2 →
    (s.actor.tables.statuses.get id).bind txStatusFromBatch = none →
    ∃ digests, batchOf s.actor id m = some digests ∧
      ∀ d, Blames cfg.display digests status d → d ∉ s.reported ++ m.finalized cfg

/-- The condition on a message: a new batch has no digest of a block reported before, and no digest
of a reported block is still in the pool or recorded as dropped. -/
def Timely (cfg : Config C D) (s : Observed D) : Message C D → Prop
  | .submit batch => s.actor.tables.statuses.get batch.batchId = none →
      ∀ d ∈ batch.digests ++ batch.transactions.map SignedTransaction.messageDigest, d ∉ s.reported
  | .reportBlock block _ => ∀ d ∈ bodyDigests cfg.env block.inner.body,
      (∀ e ∈ s.actor.pool, ∀ t ∈ e.transactions, t.messageDigest ≠ d) ∧
        s.actor.tables.digestOutcomes.get d ≠ some .dropped
  | _ => True

/-- Reported digests have left the pool and the queue, and none is recorded as dropped. -/
structure Settled (s : Observed D) : Prop where
  pool : ∀ e ∈ s.actor.pool, ∀ t ∈ e.transactions, t.messageDigest ∉ s.reported
  proposed : ∀ b ∈ s.actor.proposed, ∀ d ∈ b.digests, d ∉ s.reported
  outcomes : ∀ d ∈ s.reported, s.actor.tables.digestOutcomes.get d ≠ some .dropped

/-! ## One report -/

/-- A status computed from outcomes blames only digests recorded as dropped. -/
theorem not_blamed_of_outcomes {display : D → String} (hdisplay : Function.Injective display) {gone digests : List D}
    {outcomes : Assoc D DigestOutcome} (hout : ∀ d ∈ gone, outcomes.get d ≠ some .dropped) {status : BatchStatus}
    (h : batchStatusFromOutcomes display digests outcomes = some status) :
    (∀ d, display d ∈ status.filtered → d ∉ gone) ∧
      ∀ st, txStatusFromBatch status = some st → ∀ d, Blames display digests st d → d ∉ gone := by
  obtain ⟨hall, -, hinc, hfil⟩ := batchStatusFromOutcomes_some h
  have hfiltered : ∀ d, display d ∈ status.filtered → d ∉ gone := by
    intro d hd hgone
    rw [hfil] at hd
    obtain ⟨d', hd', heq⟩ := List.mem_map.1 hd
    obtain rfl := hdisplay heq
    exact hout d' hgone (by simpa using (List.mem_filter.1 hd').2)
  refine ⟨hfiltered, fun st hst d hblame hgone => ?_⟩
  cases status with
  | accepted => cases hst
  | finalized => cases hst; exact hblame
  | partiallyFinalized => cases hst; exact hfiltered d hblame hgone
  | dropped filtered =>
    -- nothing is included, so the digest's outcome can only be a drop
    cases hst
    obtain ⟨outcome, hoc⟩ := Option.isSome_iff_exists.1 (hall d hblame)
    cases outcome with
    | dropped => exact hout d hgone hoc
    | finalized height =>
      have hmem : display d ∈ BatchStatus.included (.dropped filtered) := by
        rw [hinc]
        exact List.mem_map_of_mem (List.mem_filter.2 ⟨hblame, by rw [hoc]; rfl⟩)
      cases hmem

/-- What a report has done so far to the tables `t₀`, when the digests in `gone` are not to be blamed. -/
structure Blameless (display : D → String) (gone : List D) (t₀ t : Tables D) (replies : List (Reply D)) : Prop where
  batchDigests : t.batchDigests.Sub t₀.batchDigests
  outcomes : ∀ d ∈ gone, t.digestOutcomes.get d ≠ some .dropped
  statuses : ∀ id status, t.statuses.get id = some status → t₀.statuses.get id = some status ∨
    ∀ d, display d ∈ status.filtered → d ∉ gone
  results : ∀ id channel st, .result id channel st ∈ replies → ∃ digests, t₀.batchDigests.get id = some digests ∧
    ∀ d, Blames display digests st d → d ∉ gone

theorem Blameless.resolve {display : D → String} (hdisplay : Function.Injective display) {gone : List D}
    {t₀ t t' : Tables D} {replies new : List (Reply D)} (h : Blameless display gone t₀ t replies)
    (hres : Tables.Resolves display t t' new) : Blameless display gone t₀ t' (replies ++ new) := by
  constructor
  · exact hres.batchDigests.trans h.batchDigests
  · intro d hd hget
    exact h.outcomes d hd (hres.digestOutcomes _ _ hget)
  · intro id status hst
    rcases hres.statuses id status hst with hst | ⟨digests, -, hst⟩
    · exact h.statuses id status hst
    · exact .inr (not_blamed_of_outcomes hdisplay h.outcomes hst).1
  · intro id channel st hmem
    rcases List.mem_append.1 hmem with hmem | hmem
    · exact h.results id channel st hmem
    · obtain ⟨id', channel', st', digests, status, heq, hd, hst, htx⟩ := hres.replies _ hmem
      cases heq
      exact ⟨digests, h.batchDigests _ _ hd, (not_blamed_of_outcomes hdisplay h.outcomes hst).2 st htx⟩

section Report

variable {cfg : Config C D} (hdisplay : Function.Injective cfg.display) (order : HashOrder) (height : UInt64)
  {finalized reported : List D}

include hdisplay

/-- One queued batch, none of whose digests was reported before. -/
theorem reportBatch_blameless {i : Nat} {s s' : Actor D} {batch : ProposedBatch D} {t₀ : Tables D}
    {replies new : List (Reply D)} (hbatch : ∀ d ∈ batch.digests, d ∉ reported)
    (hs : Blameless cfg.display (reported ++ finalized) t₀ s.tables replies)
    (h : s.reportBatch cfg order height finalized i batch = some (s', new)) :
    Blameless cfg.display (reported ++ finalized) t₀ s'.tables (replies ++ new) ∧ s'.pool = s.pool := by
  obtain ⟨outcome, houtcome, heq⟩ := Actor.reportBatch_some cfg h
  obtain ⟨outcomes, known, hrec, hget, -⟩ := Actor.recordOutcomes_spec outcome batch.digests s
  rw [hrec] at heq
  have hrecorded : Blameless cfg.display (reported ++ finalized) t₀ { s.tables with digestOutcomes := outcomes } replies := by
    refine ⟨hs.batchDigests, fun d hd hgot => ?_, hs.statuses, hs.results⟩
    rw [hget] at hgot
    split at hgot
    · rename_i hmem
      rcases List.mem_append.1 hd with hd | hd
      · exact hbatch d hmem hd
      · rw [houtcome d hmem, if_pos hd] at hgot
        cases hgot
    · exact hs.outcomes d hd hgot
  cases heq
  exact ⟨hrecorded.resolve hdisplay (Tables.resolveAll_resolves _ _), rfl⟩

/-- The whole queue. -/
theorem reportLoop_blameless {t₀ : Tables D} : ∀ (batches : List (ProposedBatch D)) (i : Nat) (s : Actor D)
    (replies : List (Reply D)), (∀ b ∈ batches, ∀ d ∈ b.digests, d ∉ reported) →
    Blameless cfg.display (reported ++ finalized) t₀ s.tables replies →
    let r := Actor.reportLoop cfg order height finalized i s batches
    Blameless cfg.display (reported ++ finalized) t₀ r.1.tables (replies ++ r.2.2) ∧ r.1.pool = s.pool ∧
      ∀ b ∈ r.2.1, ∀ d ∈ b.digests, d ∉ reported ++ finalized
  | [], _, s, replies, _, hs => by
    refine ⟨by simpa [Actor.reportLoop] using hs, rfl, fun b hb => by cases hb⟩
  | batch :: batches, i, s, replies, hb, hs => by
    have hrest : ∀ b ∈ batches, ∀ d ∈ b.digests, d ∉ reported := fun b h => hb b (List.mem_cons_of_mem _ h)
    have hbatch := hb batch (List.mem_cons_self ..)
    simp only [Actor.reportLoop]
    split
    · rename_i hnone
      have hfresh := Actor.reportBatch_none cfg hnone
      obtain ⟨hbl, hpool, hremain⟩ := reportLoop_blameless batches (i + 1) s replies hrest hs
      refine ⟨hbl, hpool, fun b hmem d hd hgone => ?_⟩
      rcases List.mem_cons.1 hmem with rfl | hmem
      · rcases List.mem_append.1 hgone with hgone | hgone
        · exact hbatch d hd hgone
        · exact hfresh d hd hgone
      · exact hremain b hmem d hd hgone
    · rename_i s' new hsome
      obtain ⟨hs', hpool'⟩ := reportBatch_blameless hdisplay order height hbatch hs hsome
      obtain ⟨hbl, hpool, hremain⟩ := reportLoop_blameless batches (i + 1) s' (replies ++ new) hrest hs'
      exact ⟨by rw [← List.append_assoc]; exact hbl, hpool.trans hpool', hremain⟩

end Report

/-! ## One message -/

/-- What handling a message must establish. -/
def Handled (cfg : Config C D) (order : HashOrder) (s : Observed D) (m : Message C D) : Prop :=
  NoFalseDrop cfg order s m ∧ Settled ⟨(s.actor.handle cfg order m).1, s.reported ++ m.finalized cfg⟩

section Messages

variable {cfg : Config C D} {order : HashOrder} {s : Observed D}

/-- A message that reports no block, stores no status and answers only for resolved batches. -/
theorem handled_of_statuses_eq {m : Message C D} (hfinalized : m.finalized cfg = [])
    (hstatuses : (s.actor.handle cfg order m).1.tables.statuses = s.actor.tables.statuses)
    (hresults : ∀ id channel st, .result id channel st ∈ (s.actor.handle cfg order m).2 →
      (s.actor.tables.statuses.get id).bind txStatusFromBatch ≠ none)
    (hsettled : Settled ⟨(s.actor.handle cfg order m).1, s.reported⟩) : Handled cfg order s m := by
  constructor
  · constructor
    · intro id status hst hne
      rw [hstatuses] at hst
      exact absurd hst hne
    · intro id channel st hmem hopen
      exact absurd hopen (hresults id channel st hmem)
  · rw [hfinalized, List.append_nil]
    exact hsettled

/-- A batch that is already known changes at most the waiters, and only a resolved one is answered. -/
theorem resubmit_handled (hs : Settled s) {batch : Submission D} {known : BatchStatus}
    (hknown : s.actor.tables.statuses.get batch.batchId = some known) : Handled cfg order s (.submit batch) := by
  have heq : s.actor.handle cfg order (.submit batch) = s.actor.resubmit batch known := submit_known hknown
  obtain ⟨waiters, hframe⟩ : ∃ waiters, (s.actor.handle cfg order (.submit batch)).1 =
      { s.actor with tables := { s.actor.tables with pendingWaiters := waiters } } := submit_known_frame cfg hknown
  apply handled_of_statuses_eq
  · rfl
  · rw [hframe]
  · intro id channel status hmem
    rw [heq] at hmem
    rcases resubmit_cases s.actor batch known with h | ⟨result, st, hst, h⟩ | ⟨result, -, h⟩
    · rw [h] at hmem
      obtain ⟨c, hc⟩ := Actor.sendTo_result hmem; cases hc
    · rw [h] at hmem
      rcases List.mem_append.1 hmem with hmem | hmem
      · obtain ⟨c, hc⟩ := Actor.sendTo_result hmem; cases hc
      · cases List.mem_singleton.1 hmem
        rw [hknown, Option.bind_some, hst]
        exact Option.some_ne_none _
    · rw [h] at hmem
      obtain ⟨c, hc⟩ := Actor.sendTo_result hmem; cases hc
  · rw [hframe]
    exact ⟨hs.pool, hs.proposed, hs.outcomes⟩

/-- A new batch: dropped because the pool is full, or tracked and pooled. -/
theorem submit_handled (hs : Settled s) {batch : Submission D} (ht : Timely cfg s (.submit batch))
    (hknown : s.actor.tables.statuses.get batch.batchId = none) : Handled cfg order s (.submit batch) := by
  have hnew := ht hknown
  have happ : s.reported ++ Message.finalized cfg (.submit batch) = s.reported := List.append_nil _
  unfold Handled
  rw [happ]
  by_cases hroom : s.actor.Refuses cfg batch
  · -- the pool is full: the batch is answered with a drop, which blames its own digests only
    have heq : s.actor.handle cfg order (.submit batch) = _ := submit_refused hroom
    constructor
    · constructor
      · rw [heq]
        intro id status hst hne
        exact absurd hst hne
      · rw [heq, happ]
        rintro id channel st hmem -
        rcases List.mem_append.1 hmem with hmem | hmem
        · obtain ⟨c, hc⟩ := Actor.sendTo_result hmem
          cases hc
          exact ⟨batch.digests, if_pos rfl, fun d hd => hnew d (List.mem_append_left _ hd)⟩
        · obtain ⟨c, hc⟩ := Actor.sendTo_result hmem; cases hc
    · rw [heq]
      exact ⟨hs.pool, hs.proposed, hs.outcomes⟩
  · -- the batch is tracked, and what is new of it pooled
    have heq : s.actor.handle cfg order (.submit batch) = s.actor.submit cfg batch := rfl
    obtain ⟨-, hproposed, htables, hreplies, hpool⟩ := submit_new hknown hroom
    obtain ⟨hout, hstatus, -⟩ := Actor.trackBatch_spec cfg s.actor.tables batch
    constructor
    · constructor
      · rw [heq, htables, happ]
        intro id status hst hne d hd
        rcases hstatus id status hst with ⟨-, rfl⟩ | hst
        · cases hd
        · exact absurd hst hne
      · rw [heq, hreplies]
        rintro id channel st hmem -
        obtain ⟨c, hc⟩ := Actor.sendTo_result hmem; cases hc
    · rw [heq]
      refine ⟨fun e he => ?_, hproposed ▸ hs.proposed, ?_⟩
      · rcases hpool with ⟨-, hpool, -⟩ | ⟨-, hpool, -⟩
        · exact hs.pool e (hpool ▸ he)
        · rw [hpool] at he
          rcases List.mem_append.1 he with he | he
          · exact hs.pool e he
          · cases List.mem_singleton.1 he
            intro t ht
            exact hnew _ (List.mem_append_right _ (List.mem_map_of_mem ((newTransactions_spec _ _).2.2.2.1.subset ht)))
      · rw [htables]
        exact fun d hd hget => hs.outcomes d hd (hout _ _ hget)

theorem propose_handled (hs : Settled s) (height : UInt64) (response : Channel) :
    Handled cfg order s (.propose height response) := by
  obtain ⟨taken, hpool, -, hproposed, -⟩ := Actor.proposeLoop_spec cfg height s.actor.pool s.actor.poolBytes s.actor.proposed [] 0
  apply handled_of_statuses_eq
  · rfl
  · rfl
  · intro id channel st hmem
    cases List.mem_singleton.1 hmem
  · constructor
    · intro e he
      exact hs.pool e (hpool ▸ List.mem_append_right taken he)
    · intro b hb
      change b ∈ (Actor.proposeLoop cfg height s.actor.pool s.actor.poolBytes s.actor.proposed [] 0).2.2.1 at hb
      rw [hproposed] at hb
      rcases List.mem_append.1 hb with hb | hb
      · exact hs.proposed b hb
      · -- an entry taken from the pool
        obtain ⟨e, he, rfl⟩ := List.mem_map.1 hb
        intro d hd
        obtain ⟨t, ht, rfl⟩ := List.mem_map.1 hd
        exact hs.pool e (hpool ▸ List.mem_append_left _ he) t ht
    · exact hs.outcomes

theorem reportBlock_handled (hdisplay : Function.Injective cfg.display) (hs : Settled s) {block : SealedBlock C D}
    {ack : Channel} (ht : Timely cfg s (.reportBlock block ack)) : Handled cfg order s (.reportBlock block ack) := by
  have hstart : Blameless cfg.display (s.reported ++ bodyDigests cfg.env block.inner.body) s.actor.tables s.actor.tables [] := by
    constructor
    · exact .refl _
    · intro d hd
      rcases List.mem_append.1 hd with hd | hd
      · exact hs.outcomes d hd
      · exact (ht d hd).2
    · exact fun _ _ h => .inl h
    · rintro id channel st ⟨⟩
  obtain ⟨hbl, hpool, hremain⟩ := reportLoop_blameless hdisplay order block.inner.header.height s.actor.proposed 0
    { s.actor with
      highestConsensusRound :=
        max s.actor.highestConsensusRound (rotationRound (cfg.round block.inner.header.context))
      proposed := [] } [] hs.proposed hstart
  constructor
  · constructor
    · intro id status hst hne
      exact (hbl.statuses id status hst).resolve_left hne
    · rintro id channel st hmem -
      rcases List.mem_append.1 hmem with hmem | hmem
      · exact hbl.results id channel st hmem
      · cases List.mem_singleton.1 hmem
  · constructor
    · intro e he t hmem hgone
      have he : e ∈ s.actor.pool := hpool ▸ he
      rcases List.mem_append.1 hgone with hgone | hgone
      · exact hs.pool e he t hmem hgone
      · exact (ht _ hgone).1 e he t hmem rfl
    · exact hremain
    · exact hbl.outcomes

/-- Every timely message. -/
theorem handle_handled (hdisplay : Function.Injective cfg.display) (hs : Settled s) {m : Message C D}
    (ht : Timely cfg s m) : Handled cfg order s m := by
  cases m with
  | submit batch =>
    cases hknown : s.actor.tables.statuses.get batch.batchId with
    | none => exact submit_handled hs ht hknown
    | some known => exact resubmit_handled hs hknown
  | propose height response => exact propose_handled hs height response
  | reportBlock block ack => exact reportBlock_handled hdisplay hs ht
  | queryStatus batchId response =>
    apply handled_of_statuses_eq rfl rfl
    · rintro id channel st hmem
      cases List.mem_singleton.1 hmem
    · exact hs
  | queryConsensusRound response =>
    apply handled_of_statuses_eq rfl rfl
    · rintro id channel st hmem
      cases List.mem_singleton.1 hmem
    · exact hs
  | reportTip round =>
    apply handled_of_statuses_eq rfl rfl
    · rintro id channel st ⟨⟩
    · exact ⟨hs.pool, hs.proposed, hs.outcomes⟩

end Messages

/-! ## Runs -/

/-- In every run all of whose messages are timely, no message is handled with a false drop. -/
theorem no_false_drop (cfg : Config C D) (hdisplay : Function.Injective cfg.display) {ms : List (Message C D)}
    {s : Observed D} (h : Trace (fun s m s' => Timely cfg s m ∧ Observed.Step cfg s m s') ⟨.new, []⟩ ms s)
    (m : Message C D) (hm : Timely cfg s m) (order : HashOrder) : NoFalseDrop cfg order s m := by
  have hsettled : Settled s := by
    refine Trace.invariant (I := Settled) (fun s m s' hs hstep => ?_) ?_ h
    · obtain ⟨htimely, order, rfl⟩ := hstep
      exact (handle_handled hdisplay hs htimely).2
    · exact ⟨List.forall_mem_nil _, List.forall_mem_nil _, List.forall_mem_nil _⟩
  exact (handle_handled hdisplay hsettled hm).1

/-- The transaction of `sampleChild` as a batch of its own. -/
def sampleSubmission : Submission Nat :=
  ⟨"batch", [82], [sampleTransaction 1 2 5 0 sampleValue_ne_zero], 200, some 0, none⟩

/-- The state after messages handled in insertion order. -/
def Observed.after (cfg : Config C D) : Observed D → List (Message C D) → Observed D
  | s, [] => s
  | s, m :: ms => after cfg ⟨(s.actor.handle cfg .insertion m).1, s.reported ++ m.finalized cfg⟩ ms

theorem Observed.after_trace (cfg : Config C D) : ∀ (ms : List (Message C D)) (s : Observed D),
    Trace (Observed.Step cfg) s ms (s.after cfg ms)
  | [], s => .nil s
  | _ :: ms, _ => .cons ⟨.insertion, rfl⟩ (after_trace cfg ms _)

set_option maxRecDepth 20000 in
/-- Submitted, proposed and then finalized here. -/
theorem no_false_drop_sample :
    NoFalseDrop tallyConfig .insertion
      ((Observed.mk .new []).after tallyConfig [.submit sampleSubmission, .propose 1 2]) (.reportBlock sampleChild 3) := by
  have htrace : Trace (fun s m s' => Timely tallyConfig s m ∧ Observed.Step tallyConfig s m s') ⟨.new, []⟩
      [.submit sampleSubmission, .propose 1 2]
      ((Observed.mk .new []).after tallyConfig [.submit sampleSubmission, .propose 1 2]) :=
    .cons ⟨fun _ d _ => List.not_mem_nil, .insertion, rfl⟩ (.cons ⟨trivial, .insertion, rfl⟩ (.nil _))
  have htimely : Timely tallyConfig ((Observed.mk .new []).after tallyConfig [.submit sampleSubmission, .propose 1 2])
      (.reportBlock sampleChild 3) := by
    intro d _
    refine ⟨List.forall_mem_nil _, ?_⟩
    show (Assoc.empty : Assoc Nat DigestOutcome).get d ≠ _
    simp
  exact no_false_drop tallyConfig tallyConfig_display htrace _ htimely _

set_option maxRecDepth 20000 in
/-- Another leader's block finalizes the transaction while it is pooled here; it is then proposed
here, and the batch is dropped although a reported block holds it. -/
theorem false_drop_of_pooled : ∃ (ms : List (Message Unit Nat)) (s : Observed Nat) (m : Message Unit Nat),
    Trace (Observed.Step tallyConfig) ⟨.new, []⟩ ms s ∧ ¬ NoFalseDrop tallyConfig .insertion s m := by
  refine ⟨[.submit sampleSubmission, .reportBlock sampleChild 1, .propose 2 2], _, .reportBlock emptyBlock 3,
    Observed.after_trace tallyConfig _ _, fun h => ?_⟩
  exact h.statuses "batch" (.dropped [tallyConfig.display 82]) rfl (by decide) 82 (List.mem_singleton.2 rfl) (by decide)

end Constantinople.Mempool
