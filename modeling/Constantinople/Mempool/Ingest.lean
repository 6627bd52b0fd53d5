/-
Ingest acknowledgements. A relayer is told that its batch is accepted; every digest of the batch is then
in the pool, in a proposed batch or in a reported block, unless the tables record it as dropped: a batch
whose id is known is acknowledged without looking at what became of it.
-/
import Constantinople.Mempool.Drops
import Constantinople.Mempool.Waiters

namespace Constantinople.Mempool

open Constantinople Run

variable {C D : Type} [DecidableEq D]

/-! ## What the tables record as finalized -/

/-- Batches of one id have the same digests; a digest recorded as finalized, alone or in the status of a
finalized batch, was in a reported block. -/
structure Recorded (digestsOf : String → List D) (reported : List D) (t : Tables D) : Prop where
  digests : ∀ id ds, t.batchDigests.get id = some ds → ds = digestsOf id
  outcomes : ∀ d height, t.digestOutcomes.get d = some (.finalized height) → d ∈ reported
  statuses : ∀ id height included, t.statuses.get id = some (.finalized height included) →
    ∀ d ∈ digestsOf id, d ∈ reported

/-- A submitted batch has the digests that belong to its id. -/
def Message.Identified (digestsOf : String → List D) : Message C D → Prop
  | .submit batch => batch.digests = digestsOf batch.batchId
  | _ => True

section Steps

variable {cfg : Config C D} {digestsOf : String → List D} {reported : List D}

theorem Recorded.mono {reported' : List D} {t : Tables D} (h : Recorded digestsOf reported t)
    (hsub : ∀ d ∈ reported, d ∈ reported') : Recorded digestsOf reported' t :=
  ⟨h.digests, fun d height hd => hsub d (h.outcomes d height hd),
    fun id height included hid d hd => hsub d (h.statuses id height included hid d hd)⟩

/-- A batch resolved as finalized has no digest recorded as dropped. -/
theorem finalized_of_outcomes {display : D → String} {digests : List D} {outcomes : Assoc D DigestOutcome}
    {height : UInt64} {included : List String}
    (h : batchStatusFromOutcomes display digests outcomes = some (.finalized height included)) :
    ∀ d ∈ digests, ∃ height, outcomes.get d = some (.finalized height) := by
  obtain ⟨hall, -, -, hfiltered⟩ := batchStatusFromOutcomes_some h
  intro d hd
  obtain ⟨outcome, hout⟩ := Option.isSome_iff_exists.1 (hall d hd)
  cases outcome with
  | finalized height => exact ⟨height, hout⟩
  | dropped =>
    have hmem : display d ∈ BatchStatus.filtered (.finalized height included) := by
      rw [hfiltered]
      exact List.mem_map_of_mem (List.mem_filter.2 ⟨hd, by simpa using hout⟩)
    cases hmem

theorem Recorded.resolve {display : D → String} {t t' : Tables D} {replies : List (Reply D)}
    (h : Recorded digestsOf reported t) (hres : Tables.Resolves display t t' replies) :
    Recorded digestsOf reported t' := by
  constructor
  · intro id ds hds
    exact h.digests id ds (hres.batchDigests id ds hds)
  · intro d height hd
    exact h.outcomes d height (hres.digestOutcomes d _ hd)
  · intro id height included hid d hd
    rcases hres.statuses id _ hid with hold | ⟨ds, hds, hstatus⟩
    · exact h.statuses id height included hold d hd
    · rw [← h.digests id ds hds] at hd
      obtain ⟨height', hout⟩ := finalized_of_outcomes hstatus d hd
      exact h.outcomes d height' hout

theorem reportBatch_recorded {order : HashOrder} {height : UInt64} {finalized : List D} {i : Nat} {s s' : Actor D}
    {batch : ProposedBatch D} {replies : List (Reply D)} (h : Recorded digestsOf reported s.tables)
    (hfinalized : ∀ d ∈ finalized, d ∈ reported)
    (hsome : s.reportBatch cfg order height finalized i batch = some (s', replies)) :
    Recorded digestsOf reported s'.tables := by
  obtain ⟨outcomes, ids, htables, hnew⟩ := Actor.reportBatch_tables cfg hsome
  have hrecorded : Recorded digestsOf reported { s.tables with digestOutcomes := outcomes } := by
    refine ⟨h.digests, fun d height' hd => ?_, h.statuses⟩
    rcases hnew d height' hd with ⟨hf, -⟩ | hold
    · exact hfinalized d hf
    · exact h.outcomes d height' hold
  rw [htables]
  exact hrecorded.resolve (Tables.resolveAll_resolves _ _)

theorem submit_recorded {s : Actor D} {batch : Submission D} (hid : batch.digests = digestsOf batch.batchId)
    (h : Recorded digestsOf reported s.tables) : Recorded digestsOf reported (s.submit cfg batch).1.tables := by
  rcases submit_tables cfg s batch with ⟨waiters, htables⟩ | ⟨-, htables⟩
  · rw [htables]
    exact ⟨h.digests, h.outcomes, h.statuses⟩
  · obtain ⟨hout, hst, hds⟩ := Actor.trackBatch_spec cfg s.tables batch
    rw [htables]
    constructor
    · intro id ds hget
      rcases hds id ds hget with ⟨rfl, rfl⟩ | hold
      · exact hid
      · exact h.digests id ds hold
    · intro d height hd
      exact h.outcomes d height (hout d _ hd)
    · intro id height included hget
      rcases hst id _ hget with ⟨-, heq⟩ | hold
      · cases heq
      · exact h.statuses id height included hold

theorem handle_recorded {s : Actor D} {m : Message C D} (hid : m.Identified digestsOf) (order : HashOrder)
    (h : Recorded digestsOf reported s.tables) :
    Recorded digestsOf (reported ++ m.finalized cfg) (s.handle cfg order m).1.tables := by
  have hmono : Recorded digestsOf (reported ++ m.finalized cfg) s.tables :=
    h.mono fun d hd => List.mem_append_left _ hd
  cases m with
  | submit batch => exact submit_recorded hid hmono
  | propose height response => exact hmono
  | reportBlock block ack =>
    refine Actor.reportLoop_invariant (I := fun s => Recorded digestsOf _ s.tables) cfg ?_ s.proposed 0 hmono
    intro i s s' batch replies hs hsome
    exact reportBatch_recorded hs (fun d hd => List.mem_append_right _ hd) hsome
  | queryStatus batchId response => exact hmono
  | queryConsensusRound response => exact hmono
  | reportTip round => exact hmono

end Steps

/-! ## Acknowledgements -/

/-- No digest of the batch is recorded as dropped: the batch is new or finalized, or it is accepted and
none of its digests has that outcome. -/
def Actor.Undropped (s : Actor D) (batch : Submission D) : Prop :=
  match s.tables.statuses.get batch.batchId with
  | none => True
  | some (.finalized _ _) => True
  | some (.accepted _) => ∀ d ∈ batch.digests, s.tables.digestOutcomes.get d ≠ some .dropped
  | some (.partiallyFinalized _ _ _) => False
  | some (.dropped _) => False

/-- The digests of the batch are in the pool or a proposed batch, or were in a reported block. -/
def Observed.Holds (s : Observed D) (batch : Submission D) : Prop :=
  ∀ d ∈ batch.digests, d ∈ s.actor.live ∨ d ∈ s.reported

/-- An acknowledged batch is new and let in, or its id is known and the pool and queue stay. -/
theorem submit_acknowledged {cfg : Config C D} {s : Actor D} {batch : Submission D} {channel : Channel}
    (h : .ingest channel .accepted ∈ (s.submit cfg batch).2) :
    (s.tables.statuses.get batch.batchId = none ∧ ¬ s.Refuses cfg batch) ∨
      ∃ status, s.tables.statuses.get batch.batchId = some status ∧ (s.submit cfg batch).1.live = s.live := by
  cases hstatus : s.tables.statuses.get batch.batchId with
  | none =>
    refine .inl ⟨rfl, fun hroom => ?_⟩
    rw [submit_refused hroom] at h
    rcases List.mem_append.1 h with h | h
    · obtain ⟨c, hc⟩ := Actor.sendTo_result h
      cases hc
    · obtain ⟨c, hc⟩ := Actor.sendTo_result h
      cases hc
  | some status =>
    refine .inr ⟨status, rfl, ?_⟩
    obtain ⟨waiters, heq⟩ := submit_known_frame cfg hstatus
    rw [heq]
    rfl

/-- In every run, a batch with no digest recorded as dropped is acknowledged truthfully: each of its
digests is in the pool, in a proposed batch or in a block reported before. -/
theorem ingest_truthful (cfg : Config C D) {digestsOf : String → List D} {ms : List (Message C D)} {s : Observed D}
    (h : Trace (fun s m s' => (m.Measured ∧ m.Identified digestsOf) ∧ Observed.Step cfg s m s') ⟨.new, []⟩ ms s)
    (order : HashOrder) {batch : Submission D} (hm : batch.Measured) (hid : batch.digests = digestsOf batch.batchId)
    (hundropped : s.actor.Undropped batch) {channel : Channel}
    (hreply : .ingest channel .accepted ∈ (s.actor.handle cfg order (.submit batch)).2) :
    Observed.Holds ⟨(s.actor.handle cfg order (.submit batch)).1, s.reported⟩ batch := by
  obtain ⟨hp, ht, hr⟩ : PoolInvariant cfg s.actor ∧ s.actor.tables.Tracked s.actor.live ∧
      Recorded digestsOf s.reported s.actor.tables := by
    refine Trace.invariant (I := fun s => PoolInvariant cfg s.actor ∧ s.actor.tables.Tracked s.actor.live ∧
      Recorded digestsOf s.reported s.actor.tables) (fun s m s' hs hstep => ?_) ⟨poolInvariant_new cfg, tracked_new, ?_⟩ h
    · obtain ⟨⟨hm, hid⟩, order, rfl⟩ := hstep
      obtain ⟨hp, ht, hr⟩ := hs
      exact ⟨handle_invariant hm order hp, (handle_tracked hm order hp ht).1, handle_recorded hid order hr⟩
    · constructor
      · rintro id ds ⟨⟩
      · rintro d height ⟨⟩
      · rintro id height included ⟨⟩
  intro d hd
  rcases submit_acknowledged hreply with ⟨hnew, hroom⟩ | ⟨status, hstatus, hlive⟩
  · exact .inl ((submit_live hm hp hnew hroom).2 d hd)
  unfold Actor.Undropped at hundropped
  rw [hstatus] at hundropped
  cases status with
  | finalized height included => exact .inr (hr.statuses batch.batchId height included hstatus d (hid ▸ hd))
  | partiallyFinalized height included filtered => exact hundropped.elim
  | dropped filtered => exact hundropped.elim
  | accepted shown =>
    -- the tracked digests are those of the batch; one that is not live has been finalized
    obtain ⟨digests, hdigests⟩ := Option.isSome_iff_exists.1 ((ht.accepted batch.batchId).1 ⟨shown, hstatus⟩)
    have hmem : d ∈ digests := by
      rw [hr.digests _ _ hdigests, ← hid]
      exact hd
    rcases ht.outcome batch.batchId digests hdigests d hmem with hl | hout
    · exact .inl (hlive ▸ hl)
    · obtain ⟨outcome, hout⟩ := Option.isSome_iff_exists.1 hout
      cases outcome with
      | finalized height => exact .inr (hr.outcomes d height hout)
      | dropped => exact absurd hout (hundropped d hd)

set_option maxRecDepth 20000 in
/-- A batch sent again while its transaction is proposed. -/
theorem ingest_truthful_sample :
    let s := (Observed.mk .new []).after tallyConfig [.submit (tallySubmission "first" 1 none (some 0)), .propose 1 2]
    (s.actor.handle tallyConfig .insertion (.submit (tallySubmission "first" 1 none (some 3)))).2 =
        [.ingest 3 .accepted] ∧
      Observed.Holds ⟨(s.actor.handle tallyConfig .insertion (.submit (tallySubmission "first" 1 none (some 3)))).1,
        s.reported⟩ (tallySubmission "first" 1 none (some 3)) := by
  intro s
  have htrace : Trace (fun s m s' => (m.Measured ∧ m.Identified fun _ => [1]) ∧ Observed.Step tallyConfig s m s')
      ⟨.new, []⟩ [.submit (tallySubmission "first" 1 none (some 0)), .propose 1 2] s :=
    .cons ⟨⟨tallySubmission_measured .., rfl⟩, .insertion, rfl⟩ (.cons ⟨⟨trivial, trivial⟩, .insertion, rfl⟩ (.nil s))
  refine ⟨rfl, ingest_truthful tallyConfig htrace .insertion (tallySubmission_measured ..) rfl ?_
    (List.mem_singleton.2 rfl)⟩
  intro d _
  show (Assoc.empty : Assoc Nat DigestOutcome).get d ≠ _
  simp

set_option maxRecDepth 20000 in
/-- A batch is dropped when no block takes it within the grace period. Sent again, it is acknowledged as
accepted for proposal, and it is nowhere. -/
theorem dropped_batch_acknowledged : ∃ (ms : List (Message Unit Nat)) (s : Observed Nat) (batch : Submission Nat),
    Trace (fun s m s' => (m.Measured ∧ m.Identified fun _ => [1]) ∧ Observed.Step tallyConfig s m s') ⟨.new, []⟩ ms s ∧
      batch.Measured ∧ batch.digests = [1] ∧
      .ingest 3 .accepted ∈ (s.actor.handle tallyConfig .insertion (.submit batch)).2 ∧
      ¬ Observed.Holds ⟨(s.actor.handle tallyConfig .insertion (.submit batch)).1, s.reported⟩ batch := by
  refine ⟨[.submit (tallySubmission "first" 1 none (some 0)), .propose 1 2, .reportBlock emptyBlock 2], _,
    tallySubmission "first" 1 none (some 3), .cons ⟨⟨tallySubmission_measured .., rfl⟩, .insertion, rfl⟩
      (.cons ⟨⟨trivial, trivial⟩, .insertion, rfl⟩ (.cons ⟨⟨trivial, trivial⟩, .insertion, rfl⟩ (.nil _))),
    tallySubmission_measured .., rfl, List.mem_singleton.2 rfl, fun h => ?_⟩
  rcases h 1 (List.mem_singleton.2 rfl) with hlive | hreported
  · cases hlive
  · cases hreported

end Constantinople.Mempool
