/-
Inclusion reports. A batch resolved as finalized, wholly or in part, lists as included the digests the
outcome table records as finalized. Every such record stems from a reported block that holds the digest,
so the lists and the height are sound; and a resolved batch is no longer tracked, so its status stays as
it is until it expires.
-/
import Constantinople.Mempool.Handlers
import Constantinople.Mempool.Settling
import Constantinople.Lib.Run
import Constantinople.Lib.Word

namespace Constantinople.Mempool

open Constantinople Run

variable {C D : Type}

/-! ## What a report may say -/

/-- The submissions and the finalized blocks the actor has seen so far. -/
structure Seen (C D : Type) where
  submissions : List (Submission D)
  blocks : List (SealedBlock C D)

/-- A block seen at the height holds the digest. -/
def Seen.Holds (cfg : Config C D) (seen : Seen C D) (d : D) (height : UInt64) : Prop :=
  ∃ block ∈ seen.blocks, block.inner.header.height = height ∧ d ∈ bodyDigests cfg.env block.inner.body

/-- What a report of inclusions at `height` says of a submitted batch: its two lists split the batch's
digests, in order; every included digest has a recorded height, of a block that was seen and holds it;
and the stated height is the largest of those. -/
structure Seen.Supports (cfg : Config C D) (seen : Seen C D) (batch : Submission D) (status : BatchStatus)
    (height : UInt64) (included filtered : List D) (recorded : D → UInt64) : Prop where
  includedShown : status.included = included.map cfg.display
  filteredShown : status.filtered = filtered.map cfg.display
  includedSublist : included.Sublist batch.digests
  filteredSublist : filtered.Sublist batch.digests
  disjoint : ∀ d ∈ included, d ∉ filtered
  whole : (included ++ filtered).Perm batch.digests
  held : ∀ d ∈ included, seen.Holds cfg d (recorded d)
  attained : ∃ d ∈ included, recorded d = height
  largest : ∀ d ∈ included, (recorded d).toNat ≤ height.toNat

/-- The status of a batch reports no inclusions, or sound ones. -/
def Seen.Sound (cfg : Config C D) (seen : Seen C D) (batchId : String) (status : BatchStatus) : Prop :=
  ∀ height, status.inclusionHeight = some height →
    ∃ batch ∈ seen.submissions, batch.batchId = batchId ∧
      ∃ included filtered recorded, seen.Supports cfg batch status height included filtered recorded

/-- What a message adds to the history. -/
def Message.shows : Message C D → Seen C D
  | .submit batch => ⟨[batch], []⟩
  | .reportBlock block _ => ⟨[], [block]⟩
  | _ => ⟨[], []⟩

/-- The actor with what it has seen. -/
structure Witnessed (C D : Type) where
  actor : Actor D
  seen : Seen C D

/-- One message, handled in some hash order. -/
def Witnessed.Step [DecidableEq D] (cfg : Config C D) (s : Witnessed C D) (m : Message C D) (s' : Witnessed C D) : Prop :=
  ∃ order, s' = ⟨(s.actor.handle cfg order m).1,
    ⟨s.seen.submissions ++ m.shows.submissions, s.seen.blocks ++ m.shows.blocks⟩⟩

/-! ## Statuses from outcomes -/

section Outcomes

variable [DecidableEq D] {display : D → String}

/-- The height of the loop is the start or that of a finalized digest, and none is larger. -/
theorem outcomesLoop_height {outcomes : Assoc D DigestOutcome} :
    ∀ {digests : List D} {height : UInt64} {included filtered : List String} {r : UInt64 × List String × List String},
      outcomesLoop display outcomes digests height included filtered = some r →
      height.toNat ≤ r.1.toNat ∧
      (∀ d ∈ digests, ∀ h, outcomes.get d = some (.finalized h) → h.toNat ≤ r.1.toNat) ∧
      (r.1 = height ∨ ∃ d ∈ digests, outcomes.get d = some (.finalized r.1)) := by
  intro digests
  induction digests with
  | nil =>
    intro height included filtered r h
    cases h
    simp
  | cons d digests ih =>
    intro height included filtered r h
    rw [outcomesLoop] at h
    split at h
    · rename_i h' hd
      obtain ⟨hle, hall, hatt⟩ := ih h
      rw [Word.toNat_max, max_le_iff] at hle
      refine ⟨hle.1, List.forall_mem_cons.2 ⟨fun k hk => ?_, hall⟩, ?_⟩
      · rw [hd] at hk
        cases hk
        exact hle.2
      · rcases hatt with hmax | ⟨d', hd', hatt⟩
        · rcases Std.MaxEqOr.max_eq_or height h' with hh | hh
          · exact .inl (hmax.trans hh)
          · exact .inr ⟨d, List.mem_cons_self .., by rw [hd, hmax, hh]⟩
        · exact .inr ⟨d', List.mem_cons_of_mem d hd', hatt⟩
    · rename_i hd
      obtain ⟨hle, hall, hatt⟩ := ih h
      refine ⟨hle, List.forall_mem_cons.2 ⟨fun k hk => ?_, hall⟩, ?_⟩
      · rw [hd] at hk
        cases hk
      · rcases hatt with heq | ⟨d', hd', hatt⟩
        · exact .inl heq
        · exact .inr ⟨d', List.mem_cons_of_mem d hd', hatt⟩
    · cases h

theorem exists_height {outcome : Option DigestOutcome} (h : outcome.any DigestOutcome.isFinalized = true) :
    ∃ height, outcome = some (.finalized height) := by
  rcases outcome with _ | ⟨height⟩ | _
  · cases h
  · exact ⟨height, rfl⟩
  · cases h

/-- The height recorded for a digest. -/
def recordedHeight (outcomes : Assoc D DigestOutcome) (d : D) : UInt64 :=
  match outcomes.get d with
  | some (.finalized height) => height
  | _ => 0

/-- A status that reports inclusions states the largest height recorded for an included digest. -/
theorem batchStatusFromOutcomes_height {outcomes : Assoc D DigestOutcome} {digests : List D} {status : BatchStatus}
    {height : UInt64} (h : batchStatusFromOutcomes display digests outcomes = some status)
    (hheight : status.inclusionHeight = some height) :
    (∃ d ∈ digests, outcomes.get d = some (.finalized height)) ∧
      ∀ d ∈ digests, ∀ k, outcomes.get d = some (.finalized k) → k.toNat ≤ height.toNat := by
  unfold batchStatusFromOutcomes at h
  split at h
  · cases h
  rename_i top included filtered hloop
  obtain ⟨-, hall, hatt⟩ := outcomesLoop_height hloop
  obtain ⟨-, hinc, -⟩ := outcomesLoop_some hloop
  split at h
  · cases h
    cases hheight
  rename_i hne
  have htop : top = height := by
    split at h
    · cases h; exact Option.some.inj hheight
    · cases h; exact Option.some.inj hheight
  subst htop
  refine ⟨?_, hall⟩
  rcases hatt with hzero | hatt
  · replace hzero : top = 0 := hzero
    -- the loop's height is still the initial zero, but something is included
    have hex : ∃ d ∈ digests, (outcomes.get d).any DigestOutcome.isFinalized = true := by
      by_contra hnone
      apply hne
      rw [List.isEmpty_iff]
      refine hinc.trans ?_
      rw [List.nil_append, List.map_eq_nil_iff, List.filter_eq_nil_iff]
      exact fun d hd hfin => hnone ⟨d, hd, hfin⟩
    obtain ⟨d, hd, hfin⟩ := hex
    obtain ⟨k, hout⟩ := exists_height hfin
    refine ⟨d, hd, ?_⟩
    have hk : k.toNat ≤ top.toNat := hall d hd k hout
    rw [hzero] at hk
    rw [hzero, hout, show k = 0 from UInt64.toNat_inj.1 (Nat.le_zero.1 hk)]
  · exact hatt

end Outcomes

/-! ## What the tables record -/

section Steps

variable [DecidableEq D] {cfg : Config C D} {seen seen' : Seen C D}

/-- The later history has all that the earlier one has. -/
structure Seen.Sub (seen seen' : Seen C D) : Prop where
  submissions : ∀ batch ∈ seen.submissions, batch ∈ seen'.submissions
  blocks : ∀ block ∈ seen.blocks, block ∈ seen'.blocks

omit [DecidableEq D] in
theorem Seen.Holds.mono (hsub : seen.Sub seen') {d : D} {height : UInt64} (h : seen.Holds cfg d height) :
    seen'.Holds cfg d height := by
  obtain ⟨block, hblock, hd⟩ := h
  exact ⟨block, hsub.blocks block hblock, hd⟩

omit [DecidableEq D] in
theorem Seen.Sound.mono (hsub : seen.Sub seen') {id : String} {status : BatchStatus} (h : seen.Sound cfg id status) :
    seen'.Sound cfg id status := by
  intro height hheight
  obtain ⟨batch, hbatch, hid, included, filtered, recorded, hs⟩ := h height hheight
  exact ⟨batch, hsub.submissions batch hbatch, hid, included, filtered, recorded,
    { hs with held := fun d hd => (hs.held d hd).mono hsub }⟩

/-- Tracked digests were submitted, digests recorded as finalized were in a block at that height, stored
reports are sound, and a batch with a terminal status is not tracked. -/
structure Sourced (cfg : Config C D) (seen : Seen C D) (t : Tables D) : Prop where
  digests : ∀ id ds, t.batchDigests.get id = some ds → ∃ batch ∈ seen.submissions, batch.batchId = id ∧ batch.digests = ds
  outcomes : ∀ d height, t.digestOutcomes.get d = some (.finalized height) → seen.Holds cfg d height
  statuses : ∀ id status, t.statuses.get id = some status → seen.Sound cfg id status
  closed : ∀ id status st, t.statuses.get id = some status → txStatusFromBatch status = some st →
    t.batchDigests.get id = none

theorem Sourced.mono (hsub : seen.Sub seen') {t : Tables D} (h : Sourced cfg seen t) : Sourced cfg seen' t := by
  constructor
  · intro id ds hds
    obtain ⟨batch, hbatch, heq⟩ := h.digests id ds hds
    exact ⟨batch, hsub.submissions batch hbatch, heq⟩
  · intro d height hd
    exact (h.outcomes d height hd).mono hsub
  · intro id status hid
    exact (h.statuses id status hid).mono hsub
  · exact h.closed

/-- The status of a tracked batch is sound when it is resolved. -/
theorem Sourced.sound_of_outcomes {t : Tables D} (h : Sourced cfg seen t) {id : String} {ds : List D}
    {status : BatchStatus} (hds : t.batchDigests.get id = some ds)
    (hstatus : batchStatusFromOutcomes cfg.display ds t.digestOutcomes = some status) : seen.Sound cfg id status := by
  intro height hheight
  obtain ⟨batch, hbatch, hid, rfl⟩ := h.digests id ds hds
  obtain ⟨hall, -, hincluded, hfiltered⟩ := batchStatusFromOutcomes_some hstatus
  obtain ⟨⟨top, htop, hattained⟩, hlargest⟩ := batchStatusFromOutcomes_height hstatus hheight
  have hfinal : ∀ d ∈ batch.digests.filter fun d => (t.digestOutcomes.get d).any DigestOutcome.isFinalized,
      d ∈ batch.digests ∧ t.digestOutcomes.get d = some (.finalized (recordedHeight t.digestOutcomes d)) := by
    intro d hd
    obtain ⟨hmem, hfin⟩ := List.mem_filter.1 hd
    obtain ⟨k, hout⟩ := exists_height hfin
    refine ⟨hmem, ?_⟩
    rw [recordedHeight, hout]
  refine ⟨batch, hbatch, hid, _, _, recordedHeight t.digestOutcomes, hincluded, hfiltered, List.filter_sublist,
    List.filter_sublist, ?_, ?_, ?_, ?_, ?_⟩
  · intro d hd hd'
    have hdropped := (List.mem_filter.1 hd').2
    rw [(hfinal d hd).2] at hdropped
    simp at hdropped
  · -- a digest that is not recorded as finalized is recorded as dropped
    have hsplit : (batch.digests.filter fun d => t.digestOutcomes.get d = some .dropped) =
        batch.digests.filter fun d => !(t.digestOutcomes.get d).any DigestOutcome.isFinalized := by
      refine List.filter_congr fun d hd => ?_
      obtain ⟨outcome, hout⟩ := Option.isSome_iff_exists.1 (hall d hd)
      rw [hout]
      cases outcome <;> rfl
    rw [hsplit]
    exact List.filter_append_perm _ _
  · intro d hd
    exact h.outcomes d _ (hfinal d hd).2
  · refine ⟨top, List.mem_filter.2 ⟨htop, by rw [hattained]; rfl⟩, ?_⟩
    simp [recordedHeight, hattained]
  · intro d hd
    exact hlargest d (hfinal d hd).1 _ (hfinal d hd).2

/-- A batch that gets its terminal status is forgotten. -/
theorem resolveBatchIfTerminal_closed {display : D → String} {t : Tables D}
    (h : ∀ id status st, t.statuses.get id = some status → txStatusFromBatch status = some st →
      t.batchDigests.get id = none) (batchId : String) :
    ∀ id status st, (t.resolveBatchIfTerminal display batchId).1.statuses.get id = some status →
      txStatusFromBatch status = some st → (t.resolveBatchIfTerminal display batchId).1.batchDigests.get id = none := by
  unfold Tables.resolveBatchIfTerminal
  split
  · exact h
  split
  · exact h
  rename_i resolved hresolved
  obtain ⟨hnew, hbd, -⟩ := t.rememberStatus_spec batchId resolved
  simp only
  set t₁ := (t.rememberStatus batchId resolved).1
  set t₂ := (t₁.announce batchId).1
  obtain ⟨hann, -⟩ := t₁.announce_spec batchId
  have hforget := t₂.forgetBatch_forgets batchId
  have hexpired := (t₂.forgetBatch batchId).forgetExpiredBatches_forgets (t.rememberStatus batchId resolved).2
  obtain ⟨-, hgone, -⟩ := t₂.forgetBatch_keepsOthers batchId
  intro id status st hstatus hst
  rw [hexpired.statuses, hforget.statuses, hann.statuses] at hstatus
  refine Option.eq_none_iff_forall_ne_some.2 fun ds hds => ?_
  have hds := hexpired.batchDigests id ds hds
  rcases hnew id status hstatus with ⟨rfl, -⟩ | ⟨-, hold⟩
  · rw [hgone] at hds
    cases hds
  · have hds := hann.batchDigests id ds (hforget.batchDigests id ds hds)
    rw [hbd, h id status st hold hst] at hds
    cases hds

theorem Sourced.resolveAll {t : Tables D} (batchIds : List String) (h : Sourced cfg seen t) :
    Sourced cfg seen (t.resolveAll cfg.display batchIds).1 := by
  induction batchIds generalizing t with
  | nil => exact h
  | cons batchId batchIds ih =>
    rw [Tables.resolveAll]
    have hres : Tables.Resolves cfg.display t _ _ := t.resolveBatchIfTerminal_resolves batchId
    refine ih ⟨?_, ?_, ?_, resolveBatchIfTerminal_closed h.closed batchId⟩
    · intro id ds hds
      exact h.digests id ds (hres.batchDigests id ds hds)
    · intro d height hd
      exact h.outcomes d height (hres.digestOutcomes d _ hd)
    · intro id status hid
      rcases hres.statuses id status hid with hold | ⟨ds, hds, hstatus⟩
      · exact h.statuses id status hold
      · exact h.sound_of_outcomes hds hstatus

/-! ## Messages -/

theorem reportBatch_sourced {order : HashOrder} {height : UInt64} {finalized : List D} {i : Nat} {s s' : Actor D}
    {batch : ProposedBatch D} {replies : List (Reply D)} (h : Sourced cfg seen s.tables)
    (hfinalized : ∀ d ∈ finalized, seen.Holds cfg d height)
    (hsome : s.reportBatch cfg order height finalized i batch = some (s', replies)) : Sourced cfg seen s'.tables := by
  obtain ⟨outcomes, ids, htables, hnew⟩ := Actor.reportBatch_tables cfg hsome
  have hrecorded : Sourced cfg seen { s.tables with digestOutcomes := outcomes } := by
    refine ⟨h.digests, fun d height' hd => ?_, h.statuses, h.closed⟩
    rcases hnew d height' hd with ⟨hf, rfl⟩ | hold
    · exact hfinalized d hf
    · exact h.outcomes d height' hold
  rw [htables]
  exact hrecorded.resolveAll _

theorem submit_sourced {s : Actor D} {batch : Submission D} (hbatch : batch ∈ seen.submissions)
    (h : Sourced cfg seen s.tables) : Sourced cfg seen (s.submit cfg batch).1.tables := by
  rcases submit_tables cfg s batch with ⟨waiters, htables⟩ | ⟨hstatus, htables⟩
  · rw [htables]
    exact ⟨h.digests, h.outcomes, h.statuses, h.closed⟩
  · obtain ⟨hout, hst, hds⟩ := Actor.trackBatch_spec cfg s.tables batch
    rw [htables]
    constructor
    · intro id ds hget
      rcases hds id ds hget with ⟨rfl, rfl⟩ | hold
      · exact ⟨batch, hbatch, rfl, rfl⟩
      · exact h.digests id ds hold
    · intro d height hd
      exact h.outcomes d height (hout d _ hd)
    · intro id status hget
      rcases hst id status hget with ⟨-, rfl⟩ | hold
      · rintro height ⟨⟩
      · exact h.statuses id status hold
    · intro id status st hget hterminal
      rcases hst id status hget with ⟨-, rfl⟩ | hold
      · cases hterminal
      · -- another batch than the one submitted, which had no status
        refine Option.eq_none_iff_forall_ne_some.2 fun ds hget' => ?_
        rcases hds id ds hget' with ⟨rfl, -⟩ | hds
        · rw [hstatus] at hold
          cases hold
        · rw [h.closed id status st hold hterminal] at hds
          cases hds

theorem Witnessed.Step.sourced {s s' : Witnessed C D} {m : Message C D} (hstep : Witnessed.Step cfg s m s')
    (h : Sourced cfg s.seen s.actor.tables) : Sourced cfg s'.seen s'.actor.tables := by
  obtain ⟨order, rfl⟩ := hstep
  have hmono : Sourced cfg ⟨s.seen.submissions ++ m.shows.submissions, s.seen.blocks ++ m.shows.blocks⟩ s.actor.tables :=
    h.mono ⟨fun _ hb => List.mem_append_left _ hb, fun _ hb => List.mem_append_left _ hb⟩
  cases m with
  | submit batch => exact submit_sourced (List.mem_append_right _ (List.mem_singleton_self _)) hmono
  | reportBlock block ack =>
    refine Actor.reportLoop_invariant (I := fun s => Sourced cfg _ s.tables) cfg ?_ s.actor.proposed 0 hmono
    intro i s s' batch replies hs hsome
    refine reportBatch_sourced hs (fun d hd => ?_) hsome
    exact ⟨block, List.mem_append_right _ (List.mem_singleton_self _), rfl, hd⟩
  | propose height response => exact hmono
  | queryStatus batchId response => exact hmono
  | queryConsensusRound response => exact hmono
  | reportTip round => exact hmono

/-! ## Finality -/

variable (cfg) in
/-- A batch that is not tracked is not tracked after a report, and gets no status by it. -/
theorem reportLoop_untracked (order : HashOrder) (height : UInt64) (finalized : List D) {id : String}
    (batches : List (ProposedBatch D)) (i : Nat) (s : Actor D) (hnone : s.tables.batchDigests.get id = none) :
    (Actor.reportLoop cfg order height finalized i s batches).1.tables.batchDigests.get id = none ∧
      ∀ status, (Actor.reportLoop cfg order height finalized i s batches).1.tables.statuses.get id = some status →
        s.tables.statuses.get id = some status := by
  refine Actor.reportLoop_invariant (I := fun s' => s'.tables.batchDigests.get id = none ∧
    ∀ status, s'.tables.statuses.get id = some status → s.tables.statuses.get id = some status) cfg ?_ batches i
    ⟨hnone, fun status h => h⟩
  rintro i s₁ s₂ batch replies ⟨hnone, hold⟩ hsome
  obtain ⟨outcomes, ids, htables, -⟩ := Actor.reportBatch_tables cfg hsome
  have hres : Tables.Resolves cfg.display _ _ _ :=
    Tables.resolveAll_resolves ids { s₁.tables with digestOutcomes := outcomes }
  have huntracked : ∀ ds, s₁.tables.batchDigests.get id ≠ some ds := Option.eq_none_iff_forall_ne_some.1 hnone
  rw [htables]
  constructor
  · exact Option.eq_none_iff_forall_ne_some.2 fun ds hds => huntracked ds (hres.batchDigests id ds hds)
  · intro status hstatus
    rcases hres.statuses id status hstatus with hprev | ⟨ds, hds, -⟩
    · exact hold status hprev
    · exact absurd hds (huntracked ds)

/-- No message replaces the status of a batch that is not tracked. -/
theorem handle_untracked {s : Actor D} (order : HashOrder) (m : Message C D) {id : String} {status status' : BatchStatus}
    (hnone : s.tables.batchDigests.get id = none) (h : s.tables.statuses.get id = some status)
    (h' : (s.handle cfg order m).1.tables.statuses.get id = some status') : status' = status := by
  have hsame : s.tables.statuses.get id = some status' := by
    cases m with
    | submit batch =>
      rw [Actor.handle] at h'
      rcases submit_tables cfg s batch with ⟨waiters, htables⟩ | ⟨hstatus, htables⟩
      · rwa [htables] at h'
      · rw [htables] at h'
        rcases (Actor.trackBatch_spec cfg s.tables batch).2.1 id status' h' with ⟨rfl, -⟩ | hold
        · rw [hstatus] at h
          cases h
        · exact hold
    | reportBlock block ack =>
      exact (reportLoop_untracked cfg order block.inner.header.height (bodyDigests cfg.env block.inner.body) s.proposed 0
        { s with
          highestConsensusRound := max s.highestConsensusRound (rotationRound (cfg.round block.inner.header.context))
          proposed := [] } hnone).2 status' h'
    | propose height response => exact h'
    | queryStatus batchId response => exact h'
    | queryConsensusRound response => exact h'
    | reportTip round => exact h'
  rw [h] at hsame
  exact (Option.some.inj hsame).symm

end Steps

/-! ## Runs -/

variable [DecidableEq D]

theorem sourced_trace (cfg : Config C D) {ms : List (Message C D)} {s : Witnessed C D}
    (h : Trace (Witnessed.Step cfg) ⟨.new, ⟨[], []⟩⟩ ms s) : Sourced cfg s.seen s.actor.tables := by
  refine Trace.invariant (I := fun s : Witnessed C D => Sourced cfg s.seen s.actor.tables)
    (fun s m s' hs hstep => hstep.sourced hs) ?_ h
  constructor
  · rintro id ds ⟨⟩
  · rintro d height ⟨⟩
  · rintro id status ⟨⟩
  · rintro id status st ⟨⟩

/-- In every run, a stored status that reports inclusions is sound for what the actor has seen; and it
stays the same in every continuation of the run in which the batch does not expire. -/
theorem inclusion_reports_sound (cfg : Config C D) {ms : List (Message C D)} {s : Witnessed C D}
    (h : Trace (Witnessed.Step cfg) ⟨.new, ⟨[], []⟩⟩ ms s) {id : String} {status : BatchStatus} {height : UInt64}
    (hstored : s.actor.tables.statuses.get id = some status) (hheight : status.inclusionHeight = some height) :
    (∃ batch ∈ s.seen.submissions, batch.batchId = id ∧
      ∃ included filtered recorded, s.seen.Supports cfg batch status height included filtered recorded) ∧
    ∀ (later : List (Message C D)) (s' : Witnessed C D),
      Trace (fun s m s' => Witnessed.Step cfg s m s' ∧ s'.actor.tables.statuses.get id ≠ none) s later s' →
      s'.actor.tables.statuses.get id = some status := by
  have hsourced := sourced_trace cfg h
  refine ⟨hsourced.statuses id status hstored height hheight, fun later s' hlater => ?_⟩
  obtain ⟨st, hterminal⟩ : ∃ st, txStatusFromBatch status = some st := by
    cases status with
    | accepted => cases hheight
    | finalized => exact ⟨_, rfl⟩
    | partiallyFinalized => exact ⟨_, rfl⟩
    | dropped => cases hheight
  have hkept : Sourced cfg s'.seen s'.actor.tables ∧ s'.actor.tables.statuses.get id = some status := by
    refine Trace.invariant
      (I := fun s : Witnessed C D => Sourced cfg s.seen s.actor.tables ∧ s.actor.tables.statuses.get id = some status)
      (fun s m s' hs hstep => ?_) ⟨hsourced, hstored⟩ hlater
    obtain ⟨hs, hstatus⟩ := hs
    obtain ⟨hstep, hsome⟩ := hstep
    refine ⟨hstep.sourced hs, ?_⟩
    obtain ⟨status', hstatus'⟩ := Option.ne_none_iff_exists'.1 hsome
    obtain ⟨order, rfl⟩ := hstep
    rw [hstatus', handle_untracked order m (hs.closed id status st hstatus hterminal) hstatus hstatus']
  exact hkept.2

/-! ## A small instance -/

/-- An actor that displays the digest of the sample block's transfer, and any other digest. -/
def inOutConfig : Config Unit Nat := { tallyConfig with display := fun n => if n = 82 then "in" else "out" }

/-- The transfer of the sample block is submitted, then again together with another one; both are
proposed, and the other one is given up. -/
def inOutMessages : List (Message Unit Nat) :=
  let first := tallySubmission "first" 82 none none
  let other := tallySubmission "other" 7 none none
  [.submit first, .submit ⟨"both", [82, 7], first.transactions ++ other.transactions, 294, none, none⟩, .propose 1 0,
    .reportBlock sampleChild 1, .reportBlock emptyBlock 2]

/-- The state after messages handled in insertion order. -/
def Witnessed.after (s : Witnessed Unit Nat) (ms : List (Message Unit Nat)) : Witnessed Unit Nat :=
  ms.foldl (fun s m => ⟨(s.actor.handle inOutConfig .insertion m).1,
    ⟨s.seen.submissions ++ m.shows.submissions, s.seen.blocks ++ m.shows.blocks⟩⟩) s

theorem Witnessed.after_trace : ∀ (ms : List (Message Unit Nat)) (s : Witnessed Unit Nat),
    Trace (Witnessed.Step inOutConfig) s ms (s.after ms)
  | [], s => .nil s
  | _ :: ms, _ => .cons ⟨.insertion, rfl⟩ (Witnessed.after_trace ms _)

set_option maxRecDepth 20000 in
theorem inclusion_reports_sound_sample :
    let s := Witnessed.after ⟨.new, ⟨[], []⟩⟩ inOutMessages
    s.actor.tables.statuses.get "both" = some (.partiallyFinalized 1 ["in"] ["out"]) ∧
      ∃ batch ∈ s.seen.submissions, batch.batchId = "both" ∧ ∃ included filtered recorded,
        s.seen.Supports inOutConfig batch (.partiallyFinalized 1 ["in"] ["out"]) 1 included filtered recorded := by
  intro s
  have hstored : s.actor.tables.statuses.get "both" = some (.partiallyFinalized 1 ["in"] ["out"]) := by decide
  exact ⟨hstored, (inclusion_reports_sound inOutConfig (Witnessed.after_trace _ _) hstored rfl).1⟩

end Constantinople.Mempool
