/-
No lost waiter. A batch with waiters is accepted and tracked, watched by each of its digests, and at
least one digest is still in the pool or the queue; so the report that settles its last digest finds
it among the watchers and resolves it. Resolving answers each of its waiters once, with the status
that is stored.
-/
import Constantinople.Mempool.Pool
import Constantinople.Mempool.Settling

namespace Constantinople.Mempool

open Constantinople Run

variable {C D : Type} [DecidableEq D]

/-! ## Messages -/

section Steps

variable {cfg : Config C D} {s : Actor D}

variable (cfg) in
/-- A new batch whose digests are all live is tracked; another batch expires or is left alone. -/
theorem trackBatch_tracked {live live' : List D} {t : Tables D} {batch : Submission D} (h : t.Tracked live)
    (hnew : t.statuses.get batch.batchId = none) (hne : batch.digests ≠ []) (hlive : ∀ d ∈ live, d ∈ live')
    (hdigests : ∀ d ∈ batch.digests, d ∈ live') :
    (Actor.trackBatch cfg t batch).Tracked live' ∧ ∀ id, id ≠ batch.batchId →
      (Actor.trackBatch cfg t batch).statuses.get id = none ∨
        ((Actor.trackBatch cfg t batch).statuses.get id = t.statuses.get id ∧
          (Actor.trackBatch cfg t batch).pendingWaiters.get id = t.pendingWaiters.get id) := by
  replace h := h.mono hlive
  obtain ⟨hkept, hordered, hstatuses⟩ :=
    Tables.rememberStatus_new h.ordered hnew (acceptedStatus cfg.display batch.digests)
  unfold Actor.trackBatch
  simp only
  set t₁ := (t.rememberStatus batch.batchId (acceptedStatus cfg.display batch.digests)).1
  set expired := (t.rememberStatus batch.batchId (acceptedStatus cfg.display batch.digests)).2
  set t₂ := (({ t₁ with batchDigests := t₁.batchDigests.insert batch.batchId batch.digests } : Tables D).watchBatch
    batch.batchId batch.digests) with ht₂
  have hbatch : ∀ id, t₂.batchDigests.get id = if id = batch.batchId then some batch.digests else t.batchDigests.get id :=
    fun id => Assoc.get_insert ..
  obtain ⟨hkeeps, hgone⟩ := t₂.forgetExpiredBatches_keepsOthers expired
  have htracked : (t₂.forgetExpiredBatches expired).Tracked live' := by
    refine ⟨Tables.Covered.of_keepsOthers hkeeps ⟨hordered.nodup, hordered.mem, hordered.size⟩ ?_ ?_ ?_ ?_, ?_⟩
    · intro id hid
      refine ⟨(hgone id hid).1, (hgone id hid).2, ?_⟩
      rintro ⟨shown, hshown⟩
      rw [show t₂.statuses = t₁.statuses from rfl, hstatuses, if_pos hid] at hshown
      cases hshown
    · intro id hid
      rw [hbatch, show t₂.statuses = t₁.statuses from rfl, hstatuses, if_neg hid]
      split
      · exact ⟨fun _ => rfl, fun _ => ⟨_, rfl⟩⟩
      · exact h.accepted id
    · intro id _ hws
      rw [hbatch]
      split
      · rfl
      · exact h.waiting id hws
    · intro id ds _ hds d hd
      rw [hbatch] at hds
      rw [ht₂, Tables.mem_watchers_watchBatch]
      split at hds
      · rename_i heq
        cases hds
        exact ⟨.inr ⟨heq, hd⟩, .inl (hdigests d hd)⟩
      · exact ⟨.inl (h.watched id ds hds d hd), h.outcome id ds hds d hd⟩
    · intro id ds hds
      replace hds := hkeeps.fewerDigests id ds hds
      rw [hbatch] at hds
      split at hds
      · cases hds
        obtain ⟨d, hd⟩ := List.exists_mem_of_ne_nil _ hne
        exact ⟨d, hd, hdigests d hd⟩
      · exact h.alive id ds hds
  have hothers : ∀ id, id ≠ batch.batchId → (t₂.forgetExpiredBatches expired).statuses.get id = none ∨
      ((t₂.forgetExpiredBatches expired).statuses.get id = t.statuses.get id ∧
        (t₂.forgetExpiredBatches expired).pendingWaiters.get id = t.pendingWaiters.get id) := by
    intro id hid
    rw [hkeeps.statuses, show t₂.statuses = t₁.statuses from rfl, hstatuses]
    by_cases hexp : id ∈ expired
    · exact .inl (if_pos hexp)
    · rw [if_neg hexp, if_neg hid]
      exact .inr ⟨rfl, hkeeps.pendingWaiters id hexp⟩
  split
  · exact ⟨htracked, hothers⟩
  · refine ⟨htracked.pushWaiter ?_ _, fun id hid => ?_⟩
    · rw [hkeeps.batchDigests _ hkept, hbatch, if_pos rfl]
      rfl
    · rw [Tables.pushWaiter, Assoc.get_insert_ne _ _ hid]
      exact hothers id hid

/-- The outcomes a settled batch records cover what its digests leave open. -/
theorem reportBatch_covered {order : HashOrder} {height : UInt64} {finalized : List D} {i : Nat} {s' : Actor D}
    {batch : ProposedBatch D} {replies : List (Reply D)} {live live' : List D} (h : s.tables.Tracked live)
    (hlive : ∀ d ∈ live, d ∈ batch.digests ∨ d ∈ live')
    (hsome : s.reportBatch cfg order height finalized i batch = some (s', replies)) :
    ∃ outcomes, (s'.tables, replies) = Tables.resolveAll cfg.display { s.tables with digestOutcomes := outcomes }
        (order.iterate i (s.tables.watchedBatchesFor batch.digests)) ∧
      (∀ d ∉ batch.digests, outcomes.get d = s.tables.digestOutcomes.get d) ∧
      ({ s.tables with digestOutcomes := outcomes } : Tables D).Covered live' := by
  obtain ⟨outcome, -, heq⟩ := Actor.reportBatch_some cfg hsome
  obtain ⟨outcomes, known, hrec, hget, -⟩ := Actor.recordOutcomes_spec outcome batch.digests s
  rw [hrec] at heq
  cases heq
  refine ⟨outcomes, rfl, fun d hd => by rw [hget, if_neg hd], ?_⟩
  refine ⟨⟨h.ordered.nodup, h.ordered.mem, h.ordered.size⟩, h.accepted, h.waiting, h.watched, ?_⟩
  intro id ds hds d hd
  show d ∈ live' ∨ (outcomes.get d).isSome
  rw [hget]
  split
  · exact .inr rfl
  · rename_i hout
    exact (h.outcome id ds hds d hd).imp_left fun hl => (hlive d hl).resolve_left hout

/-- A settled batch takes its digests out of the live ones. Every batch that lost its last live digest
watched one of them, so it is resolved. -/
theorem reportBatch_tracked {order : HashOrder} {height : UInt64} {finalized : List D} {i : Nat} {s' : Actor D}
    {batch : ProposedBatch D} {replies : List (Reply D)} {live live' : List D} (h : s.tables.Tracked live)
    (hlive : ∀ d ∈ live, d ∈ batch.digests ∨ d ∈ live')
    (hsome : s.reportBatch cfg order height finalized i batch = some (s', replies)) :
    s'.tables.Tracked live' ∧ s.tables.Settles s'.tables replies := by
  obtain ⟨outcomes, heq, -, hcovered⟩ := reportBatch_covered h hlive hsome
  set t₁ : Tables D := { s.tables with digestOutcomes := outcomes }
  set ids := order.iterate i (s.tables.watchedBatchesFor batch.digests) with hids
  obtain ⟨hcovered', hsettles, halive⟩ := Tables.resolveAll_settles cfg.display ids t₁ hcovered
  have hresolves : Tables.Resolves cfg.display _ _ _ := Tables.resolveAll_resolves ids t₁
  rw [← heq] at hcovered' hsettles halive hresolves
  refine ⟨⟨hcovered', fun id ds hds => ?_⟩, hsettles⟩
  by_cases haffected : id ∈ ids
  · exact halive id haffected ds hds
  · have hds₁ : s.tables.batchDigests.get id = some ds := hresolves.batchDigests id ds hds
    obtain ⟨d, hd, hl⟩ := h.alive id ds hds₁
    refine ⟨d, hd, (hlive d hl).resolve_left fun hout => haffected ?_⟩
    rw [hids, (order.perm _ _).mem_iff, Tables.watchedBatchesFor, List.mem_dedup, List.mem_flatMap]
    exact ⟨d, hout, h.watched id ds hds₁ d hd⟩

variable (cfg) in
theorem reportLoop_tracked (order : HashOrder) (height : UInt64) (finalized : List D) {kept : List D} :
    ∀ (batches : List (ProposedBatch D)) (i : Nat) (s : Actor D),
      s.tables.Tracked (kept ++ batches.flatMap ProposedBatch.digests) →
      let r := Actor.reportLoop cfg order height finalized i s batches
      r.1.tables.Tracked (kept ++ r.2.1.flatMap ProposedBatch.digests) ∧ s.tables.Settles r.1.tables r.2.2
  | [], _, s, h => ⟨h, .refl _⟩
  | batch :: batches, i, s, h => by
    rw [List.flatMap_cons] at h
    simp only [Actor.reportLoop]
    split
    · rw [← List.append_assoc] at h
      have ih := reportLoop_tracked order height finalized batches (i + 1) s h
      simpa only [List.flatMap_cons, List.append_assoc] using ih
    · rename_i s' replies hsome
      have hrest : ∀ d ∈ kept ++ (batch.digests ++ batches.flatMap ProposedBatch.digests),
          d ∈ batch.digests ∨ d ∈ kept ++ batches.flatMap ProposedBatch.digests := by
        intro d hd
        simp only [List.mem_append] at hd ⊢
        tauto
      obtain ⟨htracked, hsettles⟩ := reportBatch_tracked h hrest hsome
      obtain ⟨htracked', hsettles'⟩ := reportLoop_tracked order height finalized batches (i + 1) s' htracked
      exact ⟨htracked', hsettles.trans hsettles'⟩

variable (cfg) in
theorem reportBlock_tracked (order : HashOrder) (block : SealedBlock C D) (ack : Channel)
    (h : s.tables.Tracked s.live) :
    (s.reportBlock cfg order block ack).1.tables.Tracked (s.reportBlock cfg order block ack).1.live ∧
      s.tables.Settles (s.reportBlock cfg order block ack).1.tables (s.reportBlock cfg order block ack).2 := by
  set s₀ : Actor D := { s with
    highestConsensusRound := max s.highestConsensusRound (rotationRound (cfg.round block.inner.header.context))
    proposed := [] }
  obtain ⟨htracked, hsettles⟩ := reportLoop_tracked cfg order block.inner.header.height
    (bodyDigests cfg.env block.inner.body) s.proposed 0 s₀ h
  obtain ⟨hpool, -⟩ := reportLoop_pool cfg order block.inner.header.height (bodyDigests cfg.env block.inner.body)
    s.proposed 0 s₀
  constructor
  · have hpooled : (s.reportBlock cfg order block ack).1.pooled = s.pooled :=
      congrArg (List.flatMap PoolEntry.digests) hpool
    rw [Actor.live, hpooled]
    exact htracked
  · exact hsettles.trans fun _ => .inl ⟨rfl, rfl, rfl, rfl⟩

omit [DecidableEq D] in
@[simp] theorem answers_sendTo_ingest (id : String) (channel : Option Channel) (status : IngestStatus) :
    answers id (Actor.sendTo channel (.ingest · status) : List (Reply D)) = [] := by
  cases channel with
  | none => rfl
  | some channel => rfl

omit [DecidableEq D] in
theorem answers_sendTo_result {id batchId : String} (h : batchId ≠ id) (channel : Option Channel) (st : TxStatus) :
    answers id (Actor.sendTo channel (.result batchId · st) : List (Reply D)) = [] := by
  cases channel with
  | none => rfl
  | some channel => exact (answers_results id batchId st [channel]).trans (if_neg h)

/-- What happens to an accepted batch: it stays accepted (or expires), keeps its waiters and gets no
answer; or it gets a terminal status, which each of its waiters is sent, once. -/
def Tables.Attends (t t' : Tables D) (replies : List (Reply D)) (id : String) (shown : List String) : Prop :=
  (answers id replies = [] ∧ (t'.statuses.get id = none ∨
    t'.statuses.get id = some (.accepted shown) ∧ t.waiters id <+: t'.waiters id)) ∨
  ∃ status st, t'.statuses.get id = some status ∧ txStatusFromBatch status = some st ∧
    answers id replies = (t.waiters id).map (·, st) ∧ t'.waiters id = []

omit [DecidableEq D] in
theorem Tables.Settles.attends {t t' : Tables D} {replies : List (Reply D)} (h : t.Settles t' replies) {id : String}
    {shown : List String} (hid : t.statuses.get id = some (.accepted shown)) : t.Attends t' replies id shown := by
  rcases h id with ⟨-, hs, hw, ha⟩ | ⟨-, -, hw, status, st, hs, hst, ha⟩
  · refine .inl ⟨ha, .inr ⟨hs.trans hid, ?_⟩⟩
    rw [waiters, waiters, hw]
  · exact .inr ⟨status, st, hs, hst, ha, by rw [waiters, hw]; rfl⟩

omit [DecidableEq D] in
theorem Tables.prefix_waiters_pushWaiter (t : Tables D) (batchId id : String) (channel : Channel) :
    t.waiters id <+: (t.pushWaiter batchId channel).waiters id := by
  unfold waiters pushWaiter
  rw [Assoc.get_insert]
  split
  · rename_i heq
    subst heq
    exact List.prefix_append _ _
  · exact List.prefix_refl _

/-- A batch that is let in makes all its digests live, and takes none away. -/
theorem submit_live {batch : Submission D} (hm : batch.Measured) (hp : PoolInvariant cfg s)
    (hnew : s.tables.statuses.get batch.batchId = none) (hroom : ¬ s.Refuses cfg batch) :
    (∀ d ∈ s.live, d ∈ (s.submit cfg batch).1.live) ∧ ∀ d ∈ batch.digests, d ∈ (s.submit cfg batch).1.live := by
  obtain ⟨hknown, -⟩ := submit_new hnew hroom
  have hp' := submit_invariant hm hp
  obtain ⟨-, -, hall, -, hmine⟩ := newTransactions_spec batch.transactions s.knownDigests
  constructor
  · intro d hd
    rw [← hp'.known, hknown, hall]
    exact .inl ((hp.known d).2 hd)
  · intro d hd
    rw [hm.digests] at hd
    obtain ⟨t, ht, rfl⟩ := List.mem_map.1 hd
    rw [← hp'.known, hknown]
    exact hmine t ht

theorem submit_tracked {batch : Submission D} (hm : batch.Measured) (hp : PoolInvariant cfg s)
    (h : s.tables.Tracked s.live) :
    (s.submit cfg batch).1.tables.Tracked (s.submit cfg batch).1.live ∧
      ∀ id shown, s.tables.statuses.get id = some (.accepted shown) →
        s.tables.Attends (s.submit cfg batch).1.tables (s.submit cfg batch).2 id shown := by
  by_cases hnew : s.tables.statuses.get batch.batchId = none
  · -- the batch is new, so an accepted one is another
    have hother : ∀ id shown, s.tables.statuses.get id = some (.accepted shown) → id ≠ batch.batchId := by
      rintro id shown hid rfl
      rw [hnew] at hid
      cases hid
    by_cases hroom : s.Refuses cfg batch
    · rw [submit_refused hroom]
      refine ⟨h, fun id shown hid => .inl ⟨?_, .inr ⟨hid, List.prefix_refl _⟩⟩⟩
      rw [answers_append, answers_sendTo_result (hother id shown hid).symm, answers_sendTo_ingest]
      rfl
    · obtain ⟨-, -, htables, hreplies, -⟩ := submit_new hnew hroom
      obtain ⟨hlive, hdigests⟩ := submit_live hm hp hnew hroom
      have hne : batch.digests ≠ [] := by
        rw [hm.digests]
        exact fun hnil => hm.nonempty (List.map_eq_nil_iff.1 hnil)
      obtain ⟨htracked, hothers⟩ := trackBatch_tracked cfg h hnew hne hlive hdigests
      rw [htables, hreplies]
      refine ⟨htracked, fun id shown hid => .inl ⟨answers_sendTo_ingest .., ?_⟩⟩
      rcases hothers id (hother id shown hid) with hnone | ⟨hs, hw⟩
      · exact .inl hnone
      · refine .inr ⟨hs.trans hid, ?_⟩
        rw [Tables.waiters, Tables.waiters, hw]
  · obtain ⟨status, hstatus⟩ := Option.ne_none_iff_exists'.1 hnew
    rw [submit_known hstatus]
    rcases resubmit_cases s batch status with heq | ⟨result, st, hst, heq⟩ | ⟨result, hst, heq⟩
    · rw [heq]
      exact ⟨h, fun id shown hid => .inl ⟨answers_sendTo_ingest .., .inr ⟨hid, List.prefix_refl _⟩⟩⟩
    · rw [heq]
      refine ⟨h, fun id shown hid => .inl ⟨?_, .inr ⟨hid, List.prefix_refl _⟩⟩⟩
      -- the batch answered has a terminal status
      have hne : batch.batchId ≠ id := by
        rintro rfl
        rw [hstatus] at hid
        cases hid
        cases hst
      rw [answers_append, answers_sendTo_ingest]
      exact answers_sendTo_result hne (some result) st
    · rw [heq]
      refine ⟨h.pushWaiter ?_ result, fun id shown hid => .inl ⟨answers_sendTo_ingest .., .inr ⟨hid, ?_⟩⟩⟩
      · refine (h.accepted batch.batchId).1 ?_
        cases status with
        | accepted shown => exact ⟨shown, hstatus⟩
        | finalized height included => cases hst
        | partiallyFinalized height included filtered => cases hst
        | dropped filtered => cases hst
      · exact s.tables.prefix_waiters_pushWaiter batch.batchId id result

theorem handle_tracked {m : Message C D} (hm : m.Measured) (order : HashOrder) (hp : PoolInvariant cfg s)
    (h : s.tables.Tracked s.live) :
    (s.handle cfg order m).1.tables.Tracked (s.handle cfg order m).1.live ∧
      ∀ id shown, s.tables.statuses.get id = some (.accepted shown) →
        s.tables.Attends (s.handle cfg order m).1.tables (s.handle cfg order m).2 id shown := by
  have hquiet : ∀ {replies : List (Reply D)}, (∀ id, answers id replies = []) →
      ∀ id shown, s.tables.statuses.get id = some (.accepted shown) → s.tables.Attends s.tables replies id shown :=
    fun hnone id shown hid => .inl ⟨hnone id, .inr ⟨hid, List.prefix_refl _⟩⟩
  cases m with
  | submit batch => exact submit_tracked hm hp h
  | propose height response =>
    obtain ⟨taken, -, -, hperm⟩ := propose_moves cfg s height response
    exact ⟨h.mono fun d hd => hperm.mem_iff.2 hd, hquiet fun _ => rfl⟩
  | reportBlock block ack =>
    obtain ⟨htracked, hsettles⟩ := reportBlock_tracked cfg order block ack h
    exact ⟨htracked, fun id shown hid => hsettles.attends hid⟩
  | queryStatus batchId response => exact ⟨h, hquiet fun _ => rfl⟩
  | queryConsensusRound response => exact ⟨h, hquiet fun _ => rfl⟩
  | reportTip round => exact ⟨h, hquiet fun _ => rfl⟩

end Steps

/-! ## Runs -/

theorem tracked_new : (Actor.new : Actor D).tables.Tracked Actor.new.live := by
  refine ⟨⟨⟨List.nodup_nil, fun id => ?_, Nat.zero_le _⟩, fun id => ?_, fun id => ?_, ?_, ?_⟩, ?_⟩
  · simp [Actor.new, Tables.empty]
  · simp [Actor.new, Tables.empty]
  · simp [Actor.new, Tables.empty]
  · rintro id ds ⟨⟩
  · rintro id ds ⟨⟩
  · rintro id ds ⟨⟩

theorem tracked_trace (cfg : Config C D) {ms : List (Message C D)} {s : Actor D}
    (h : Trace (fun s m s' => m.Measured ∧ Actor.Step cfg s m s') .new ms s) :
    PoolInvariant cfg s ∧ s.tables.Tracked s.live := by
  refine Trace.invariant (I := fun s => PoolInvariant cfg s ∧ s.tables.Tracked s.live) (fun s m s' hs hstep => ?_)
    ⟨poolInvariant_new cfg, tracked_new⟩ h
  obtain ⟨hm, order, rfl⟩ := hstep
  exact ⟨handle_invariant hm order hs.1, (handle_tracked hm order hs.1 hs.2).1⟩

/-- In every reachable state a batch with a waiter is accepted and tracked; an accepted batch has a
digest that is in the pool or in a proposed batch and lists it as a watcher; and a message that makes
an accepted batch terminal answers each of its waiters, once, with the status derived from the stored
one, while any other leaves its waiters waiting. -/
theorem no_lost_waiter (cfg : Config C D) {ms : List (Message C D)} {s : Actor D}
    (h : Trace (fun s m s' => m.Measured ∧ Actor.Step cfg s m s') .new ms s) :
    (∀ id, (s.tables.pendingWaiters.get id).isSome →
      (∃ shown, s.tables.statuses.get id = some (.accepted shown)) ∧ (s.tables.batchDigests.get id).isSome) ∧
    (∀ id shown, s.tables.statuses.get id = some (.accepted shown) → ∃ digests,
      s.tables.batchDigests.get id = some digests ∧ ∃ d ∈ digests, d ∈ s.live ∧ id ∈ s.tables.watchers d) ∧
    ∀ (order : HashOrder) (m : Message C D), m.Measured →
      ∀ id shown, s.tables.statuses.get id = some (.accepted shown) →
        s.tables.Attends (s.handle cfg order m).1.tables (s.handle cfg order m).2 id shown := by
  obtain ⟨hp, ht⟩ := tracked_trace cfg h
  refine ⟨?_, ?_, ?_⟩
  · intro id hid
    have htracked := ht.waiting id hid
    exact ⟨(ht.accepted id).2 htracked, htracked⟩
  · intro id shown hid
    obtain ⟨digests, hdigests⟩ := Option.isSome_iff_exists.1 ((ht.accepted id).1 ⟨shown, hid⟩)
    obtain ⟨d, hd, hlive⟩ := ht.alive id digests hdigests
    exact ⟨digests, hdigests, d, hd, hlive, ht.watched id digests hdigests d hd⟩
  · intro order m hm
    exact (handle_tracked hm order hp ht).2

set_option maxRecDepth 20000 in
/-- Two batches of the same transaction wait for it; the report that gives it up answers both. -/
theorem no_lost_waiter_sample :
    let ms : List (Message Unit Nat) :=
      [.submit (tallySubmission "first" 1 (some 7) none), .submit (tallySubmission "second" 1 (some 8) none), .propose 1 9]
    let s := ms.foldl (fun s m => (s.handle tallyConfig .insertion m).1) Actor.new
    s.tables.pendingWaiters.get "second" = some [8] ∧ (s.tables.batchDigests.get "second").isSome ∧
      s.tables.Attends (s.handle tallyConfig .insertion (.reportBlock emptyBlock 3)).1.tables
        (s.handle tallyConfig .insertion (.reportBlock emptyBlock 3)).2 "second" ["|"] ∧
      answers "second" (s.handle tallyConfig .insertion (.reportBlock emptyBlock 3)).2 = [(8, .dropped)] := by
  intro ms s
  have htrace : Trace (fun s m s' => m.Measured ∧ Actor.Step tallyConfig s m s') .new ms s :=
    .cons ⟨tallySubmission_measured .., .insertion, rfl⟩ (.cons ⟨tallySubmission_measured .., .insertion, rfl⟩
      (.cons ⟨trivial, .insertion, rfl⟩ (.nil s)))
  obtain ⟨hwaiting, -, hattends⟩ := no_lost_waiter tallyConfig htrace
  exact ⟨rfl, (hwaiting "second" rfl).2, hattends .insertion (.reportBlock emptyBlock 3) trivial "second" ["|"] rfl, rfl⟩

end Constantinople.Mempool
