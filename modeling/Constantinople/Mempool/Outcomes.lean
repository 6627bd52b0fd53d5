/-
The outcome table and the batches that watch it. Watchers are tracked batches that hold the digest, a
digest in the pool or the queue is watched and has no outcome yet, and an outcome is recorded for such
a digest only; it goes with its last watcher. A run leaves this when a batch brings a digest back
whose outcome is still recorded, or when a batch expires before it is resolved.
-/
import Constantinople.Mempool.Waiters

namespace Constantinople.Mempool

open Constantinople Run

variable {C D : Type} [DecidableEq D]

namespace Tables

/-! ## Watchers -/

/-- The watchers of a digest are tracked batches that hold it. -/
def Registered (t : Tables D) : Prop :=
  ∀ d id, id ∈ t.watchers d → ∃ ds, t.batchDigests.get id = some ds ∧ d ∈ ds

/-- A digest with an outcome has a watcher. -/
def OutcomesWatched (t : Tables D) : Prop := ∀ d, (t.digestOutcomes.get d).isSome → t.watchers d ≠ []

theorem watchers_unwatch (batchId : String) (t : Tables D) (digest d : D) :
    (unwatch batchId t digest).watchers d =
      if d = digest then (t.watchers d).filter (· ≠ batchId) else t.watchers d := by
  unfold unwatch
  split
  · rename_i hnone
    split
    · rename_i heq
      subst heq
      simp [watchers, hnone]
    · rfl
  rename_i batchIds hsome
  simp only
  split
  · rename_i hempty
    simp only [watchers, Assoc.get_erase]
    split
    · rename_i heq
      subst heq
      rw [hsome]
      exact (List.isEmpty_iff.1 hempty).symm
    · rfl
  · simp only [watchers, Assoc.get_insert]
    split
    · rename_i heq
      subst heq
      rw [hsome]
      rfl
    · rfl

theorem unwatch_batchDigests (batchId : String) (t : Tables D) (digest : D) :
    (unwatch batchId t digest).batchDigests = t.batchDigests := by
  unfold unwatch
  split
  · rfl
  · simp only
    split
    · rfl
    · rfl

/-- The last watcher off a digest takes its outcome along. -/
theorem OutcomesWatched.unwatch {t : Tables D} (h : t.OutcomesWatched) (batchId : String) (digest : D) :
    (unwatch batchId t digest).OutcomesWatched := by
  intro d hd
  have hold := h d (by
    obtain ⟨outcome, houtcome⟩ := Option.isSome_iff_exists.1 hd
    rw [(unwatch_forgets batchId t digest).digestOutcomes d outcome houtcome]
    rfl)
  rw [watchers_unwatch]
  split
  · rename_i heq
    subst heq
    intro hnil
    -- no one is left, so the outcome is gone
    unfold Tables.unwatch at hd
    split at hd
    · rename_i hnone
      exact hold (by simp [watchers, hnone])
    · rename_i batchIds hsome
      have hempty : (batchIds.filter (· ≠ batchId)).isEmpty := by
        rw [List.isEmpty_iff, ← hnil, watchers, hsome]
        rfl
      simp only [if_pos hempty, Assoc.get_erase_self] at hd
      cases hd
  · exact hold

theorem foldl_unwatch (batchId : String) : ∀ (ds : List D) (t : Tables D),
    (ds.foldl (unwatch batchId) t).batchDigests = t.batchDigests ∧
    (t.OutcomesWatched → (ds.foldl (unwatch batchId) t).OutcomesWatched) ∧
    ∀ d id, id ∈ (ds.foldl (unwatch batchId) t).watchers d ↔ id ∈ t.watchers d ∧ ¬ (d ∈ ds ∧ id = batchId)
  | [], t => ⟨rfl, id, fun d id => by simp⟩
  | digest :: ds, t => by
    obtain ⟨hdigests, hwatched, hmem⟩ := foldl_unwatch batchId ds (unwatch batchId t digest)
    refine ⟨hdigests.trans (unwatch_batchDigests ..), fun h => hwatched (h.unwatch batchId digest), fun d id => ?_⟩
    rw [List.foldl_cons, hmem, watchers_unwatch]
    by_cases hd : d = digest
    · subst hd
      simp
      tauto
    · simp [hd]

/-- A forgotten batch watches nothing, and the outcomes only it watched are gone. -/
theorem forgetBatch_registered {t : Tables D} (hr : t.Registered) (ho : t.OutcomesWatched) (batchId : String) :
    (t.forgetBatch batchId).Registered ∧ (t.forgetBatch batchId).OutcomesWatched := by
  unfold forgetBatch
  simp only
  split
  · exact ⟨hr, ho⟩
  rename_i digests hdigests
  set t₁ : Tables D := ⟨t.statuses, t.statusOrder, t.batchDigests.erase batchId, t.digestWatchers, t.digestOutcomes,
    t.pendingWaiters.erase batchId⟩
  obtain ⟨hkept, hwatched, hmem⟩ := foldl_unwatch batchId digests.dedup t₁
  refine ⟨fun d id hid => ?_, hwatched ho⟩
  obtain ⟨hid, hnot⟩ := (hmem d id).1 hid
  obtain ⟨ds, hds, hd⟩ := hr d id hid
  have hne : id ≠ batchId := by
    rintro rfl
    rw [hdigests] at hds
    cases hds
    exact hnot ⟨List.mem_dedup.2 hd, rfl⟩
  refine ⟨ds, ?_, hd⟩
  rw [hkept]
  exact (Assoc.get_erase ..).trans ((if_neg hne).trans hds)

/-- A batch that is not tracked leaves only its waiters behind. -/
theorem forgetBatch_untracked {t : Tables D} {batchId : String} (h : t.batchDigests.get batchId = none) :
    t.forgetBatch batchId = { t with pendingWaiters := t.pendingWaiters.erase batchId } := by
  unfold forgetBatch
  simp only [h]

theorem forgetExpiredBatches_untracked : ∀ (expired : List String) {t : Tables D},
    (∀ id ∈ expired, t.batchDigests.get id = none) →
    ∃ waiters, t.forgetExpiredBatches expired = { t with pendingWaiters := waiters }
  | [], t, _ => ⟨t.pendingWaiters, rfl⟩
  | id :: expired, t, h => by
    obtain ⟨hid, hrest⟩ := List.forall_mem_cons.1 h
    obtain ⟨waiters, heq⟩ := forgetExpiredBatches_untracked expired
      (t := { t with pendingWaiters := t.pendingWaiters.erase id }) hrest
    refine ⟨waiters, ?_⟩
    show (t.forgetBatch id).forgetExpiredBatches expired = _
    rw [forgetBatch_untracked hid, heq]

theorem forgetExpiredBatches_registered (expired : List String) : ∀ {t : Tables D}, t.Registered → t.OutcomesWatched →
    (t.forgetExpiredBatches expired).Registered ∧ (t.forgetExpiredBatches expired).OutcomesWatched := by
  induction expired with
  | nil => exact fun hr ho => ⟨hr, ho⟩
  | cons id expired ih =>
    intro t hr ho
    obtain ⟨hr', ho'⟩ := forgetBatch_registered hr ho id
    exact ih hr' ho'

omit [DecidableEq D] in
theorem announce_frame (t : Tables D) (batchId : String) :
    ∃ waiters, (t.announce batchId).1 = { t with pendingWaiters := waiters } := by
  unfold announce
  split
  · exact ⟨t.pendingWaiters, rfl⟩
  unfold sendPendingWaiters
  split
  · exact ⟨t.pendingWaiters, rfl⟩
  split
  · exact ⟨t.pendingWaiters, rfl⟩
  · exact ⟨_, rfl⟩

theorem resolveBatchIfTerminal_registered (display : D → String) {t : Tables D} (hr : t.Registered)
    (ho : t.OutcomesWatched) (batchId : String) :
    (t.resolveBatchIfTerminal display batchId).1.Registered ∧
      (t.resolveBatchIfTerminal display batchId).1.OutcomesWatched := by
  unfold resolveBatchIfTerminal
  split
  · exact ⟨hr, ho⟩
  split
  · exact ⟨hr, ho⟩
  rename_i status _
  -- storing and announcing the status touches neither digests nor watchers nor outcomes
  obtain ⟨waiters, heq⟩ := (t.rememberStatus batchId status).1.announce_frame batchId
  simp only
  rw [heq]
  obtain ⟨hr', ho'⟩ := forgetBatch_registered
    (t := { (t.rememberStatus batchId status).1 with pendingWaiters := waiters }) hr ho batchId
  exact forgetExpiredBatches_registered _ hr' ho'

/-! ## Live digests -/

/-- Outcomes are watched by the batches they are recorded for; the live digests are watched too, and
still open. -/
structure Watched (live : List D) (t : Tables D) : Prop where
  registered : t.Registered
  outcomes : t.OutcomesWatched
  alive : ∀ d ∈ live, t.watchers d ≠ []
  undecided : ∀ d ∈ live, t.digestOutcomes.get d = none

/-- A batch is resolved only when none of its digests is live. -/
theorem resolveBatchIfTerminal_watched {display : D → String} {live : List D} {t : Tables D} (hc : Covered live t)
    (h : Watched live t) (id : String) : Watched live (t.resolveBatchIfTerminal display id).1 := by
  obtain ⟨hr, ho⟩ := resolveBatchIfTerminal_registered display h.registered h.outcomes id
  rcases resolveBatchIfTerminal_cases display hc id with ⟨heq, -⟩ | ⟨ds, status, st, hds, hstatus, -, hkeeps, -⟩
  · rwa [heq]
  obtain ⟨hall, -⟩ := batchStatusFromOutcomes_some hstatus
  refine ⟨hr, ho, fun d hd => ?_, fun d hd => ?_⟩
  · obtain ⟨w, hw⟩ := List.exists_mem_of_ne_nil _ (h.alive d hd)
    have hne : w ≠ id := by
      rintro rfl
      obtain ⟨ds', hds', hmem⟩ := h.registered d w hw
      rw [hds] at hds'
      cases hds'
      have hsome := hall d hmem
      rw [h.undecided d hd] at hsome
      cases hsome
    exact List.ne_nil_of_mem ((hkeeps.watchers d w hne).2 hw)
  · have hresolves : Resolves display _ _ _ := t.resolveBatchIfTerminal_resolves id
    refine Option.eq_none_iff_forall_ne_some.2 fun outcome houtcome => ?_
    have hold := hresolves.digestOutcomes d outcome houtcome
    rw [h.undecided d hd] at hold
    cases hold

theorem resolveAll_watched {display : D → String} {live : List D} : ∀ (ids : List String) {t : Tables D},
    Covered live t → Watched live t → Watched live (t.resolveAll display ids).1
  | [], _, _, h => h
  | id :: ids, t, hc, h => by
    obtain ⟨hc', -⟩ := resolveBatchIfTerminal_settles display hc id
    exact resolveAll_watched ids hc' (resolveBatchIfTerminal_watched hc h id)

end Tables

/-! ## Reports -/

section Steps

variable {cfg : Config C D} {s : Actor D}

/-- The digests a report settles were live, hence watched; what stays live stays open. -/
theorem reportBatch_watched {order : HashOrder} {height : UInt64} {finalized : List D} {i : Nat} {s' : Actor D}
    {batch : ProposedBatch D} {replies : List (Reply D)} {live live' : List D} (ht : s.tables.Tracked live)
    (h : s.tables.Watched live) (hlive : ∀ d, d ∈ live ↔ d ∈ batch.digests ∨ d ∈ live')
    (hdisjoint : ∀ d ∈ live', d ∉ batch.digests)
    (hsome : s.reportBatch cfg order height finalized i batch = some (s', replies)) : s'.tables.Watched live' := by
  obtain ⟨outcomes, heq, hget, hcovered⟩ := reportBatch_covered ht (fun d hd => (hlive d).1 hd) hsome
  rw [show s'.tables = _ from congrArg Prod.fst heq]
  refine Tables.resolveAll_watched _ hcovered ⟨h.registered, fun d hd => ?_, fun d hd => ?_, fun d hd => ?_⟩
  · by_cases hmem : d ∈ batch.digests
    · exact h.alive d ((hlive d).2 (.inl hmem))
    · have hd : (outcomes.get d).isSome := hd
      rw [hget d hmem] at hd
      exact h.outcomes d hd
  · exact h.alive d ((hlive d).2 (.inr hd))
  · show outcomes.get d = none
    rw [hget d (hdisjoint d hd)]
    exact h.undecided d ((hlive d).2 (.inr hd))

variable (cfg) in
theorem reportLoop_watched (order : HashOrder) (height : UInt64) (finalized : List D) {kept : List D} :
    ∀ (batches : List (ProposedBatch D)) (i : Nat) (s : Actor D),
      (kept ++ batches.flatMap ProposedBatch.digests).Nodup →
      s.tables.Tracked (kept ++ batches.flatMap ProposedBatch.digests) →
      s.tables.Watched (kept ++ batches.flatMap ProposedBatch.digests) →
      let r := Actor.reportLoop cfg order height finalized i s batches
      r.1.tables.Watched (kept ++ r.2.1.flatMap ProposedBatch.digests)
  | [], _, s, _, _, h => h
  | batch :: batches, i, s, hnd, ht, h => by
    rw [List.flatMap_cons] at hnd ht h
    simp only [Actor.reportLoop]
    split
    · rw [← List.append_assoc] at hnd ht h
      have ih := reportLoop_watched order height finalized batches (i + 1) s hnd ht h
      simpa only [List.flatMap_cons, List.append_assoc] using ih
    · rename_i s' replies hsome
      have hlive : ∀ d, d ∈ kept ++ (batch.digests ++ batches.flatMap ProposedBatch.digests) ↔
          d ∈ batch.digests ∨ d ∈ kept ++ batches.flatMap ProposedBatch.digests := by
        intro d
        simp only [List.mem_append]
        tauto
      have hdisjoint : ∀ d ∈ kept ++ batches.flatMap ProposedBatch.digests, d ∉ batch.digests := by
        obtain ⟨-, htail, hkept⟩ := List.nodup_append.1 hnd
        obtain ⟨-, -, hrest⟩ := List.nodup_append.1 htail
        intro d hd hb
        rcases List.mem_append.1 hd with hd | hd
        · exact hkept d hd d (List.mem_append_left _ hb) rfl
        · exact hrest d hb d hd rfl
      have hsub : (kept ++ batches.flatMap ProposedBatch.digests).Sublist
          (kept ++ (batch.digests ++ batches.flatMap ProposedBatch.digests)) :=
        (List.sublist_append_right _ _).append_left _
      obtain ⟨ht', -⟩ := reportBatch_tracked ht (fun d hd => (hlive d).1 hd) hsome
      exact reportLoop_watched order height finalized batches (i + 1) s' (hsub.nodup hnd) ht'
        (reportBatch_watched ht h hlive hdisjoint hsome)

variable (cfg) in
theorem reportBlock_watched (order : HashOrder) (block : SealedBlock C D) (ack : Channel) (hp : PoolInvariant cfg s)
    (ht : s.tables.Tracked s.live) (h : s.tables.Watched s.live) :
    (s.reportBlock cfg order block ack).1.tables.Watched (s.reportBlock cfg order block ack).1.live := by
  set s₀ : Actor D := { s with
    highestConsensusRound := max s.highestConsensusRound (rotationRound (cfg.round block.inner.header.context))
    proposed := [] }
  have hwatched := reportLoop_watched cfg order block.inner.header.height (bodyDigests cfg.env block.inner.body)
    s.proposed 0 s₀ hp.nodup ht h
  obtain ⟨hpool, -⟩ := reportLoop_pool cfg order block.inner.header.height (bodyDigests cfg.env block.inner.body)
    s.proposed 0 s₀
  have hpooled : (s.reportBlock cfg order block ack).1.pooled = s.pooled :=
    congrArg (List.flatMap PoolEntry.digests) hpool
  rw [Actor.live, hpooled]
  exact hwatched

/-! ## Submissions -/

/-- A new batch brings no digest back whose outcome is still recorded, and the status it makes expire, if
any, is that of a batch that has been resolved. -/
def Actor.Tidy (cfg : Config C D) (s : Actor D) : Message C D → Prop
  | .submit batch => s.tables.statuses.get batch.batchId = none → ¬ s.Refuses cfg batch →
    (∀ t ∈ (newTransactions batch.transactions s.knownDigests).1, s.tables.digestOutcomes.get t.messageDigest = none) ∧
    ∀ id ∈ (s.tables.rememberStatus batch.batchId (acceptedStatus cfg.display batch.digests)).2,
      s.tables.batchDigests.get id = none
  | _ => True

variable (cfg) in
/-- A new batch registers with its digests; nothing else changes for the watchers. -/
theorem trackBatch_frame {t : Tables D} {batch : Submission D} (ho : t.Ordered)
    (hnew : t.statuses.get batch.batchId = none)
    (hexpired : ∀ id ∈ (t.rememberStatus batch.batchId (acceptedStatus cfg.display batch.digests)).2,
      t.batchDigests.get id = none) :
    (Actor.trackBatch cfg t batch).batchDigests = t.batchDigests.insert batch.batchId batch.digests ∧
    (Actor.trackBatch cfg t batch).digestOutcomes = t.digestOutcomes ∧
    ∀ d id, id ∈ (Actor.trackBatch cfg t batch).watchers d ↔
      id ∈ t.watchers d ∨ (id = batch.batchId ∧ d ∈ batch.digests) := by
  obtain ⟨hkept, -, -⟩ := Tables.rememberStatus_new ho hnew (acceptedStatus cfg.display batch.digests)
  unfold Actor.trackBatch
  simp only
  set t₁ := (t.rememberStatus batch.batchId (acceptedStatus cfg.display batch.digests)).1
  set expired := (t.rememberStatus batch.batchId (acceptedStatus cfg.display batch.digests)).2
  set t₂ : Tables D := { t₁ with batchDigests := t₁.batchDigests.insert batch.batchId batch.digests }
  have hgone : ∀ id ∈ expired, (t₂.watchBatch batch.batchId batch.digests).batchDigests.get id = none := by
    intro id hid
    have hne : id ≠ batch.batchId := by
      rintro rfl
      exact hkept hid
    exact (Assoc.get_insert_ne _ _ hne).trans (hexpired id hid)
  obtain ⟨waiters, heq⟩ := Tables.forgetExpiredBatches_untracked expired hgone
  have hwatchers := t₂.mem_watchers_watchBatch batch.batchId batch.digests
  rw [heq]
  split
  · exact ⟨rfl, rfl, hwatchers⟩
  · exact ⟨rfl, rfl, hwatchers⟩

theorem submit_watched {batch : Submission D} (hm : batch.Measured) (htidy : s.Tidy cfg (.submit batch : Message C D))
    (hp : PoolInvariant cfg s) (ht : s.tables.Tracked s.live) (h : s.tables.Watched s.live) :
    (s.submit cfg batch).1.tables.Watched (s.submit cfg batch).1.live := by
  by_cases hnew : s.tables.statuses.get batch.batchId = none
  · by_cases hroom : s.Refuses cfg batch
    · rwa [submit_refused hroom]
    obtain ⟨hknown, -, htables, -⟩ := submit_new hnew hroom
    obtain ⟨hfresh, hexpired⟩ := htidy hnew hroom
    obtain ⟨hdigests, houtcomes, hwatchers⟩ := trackBatch_frame cfg ht.ordered hnew hexpired
    obtain ⟨-, -, hall, hsub, -⟩ := newTransactions_spec batch.transactions s.knownDigests
    have hp' := submit_invariant hm hp
    -- a live digest was live before or is one of the new transactions'
    have hlive : ∀ d ∈ (s.submit cfg batch).1.live, d ∈ s.live ∨
        ∃ t ∈ (newTransactions batch.transactions s.knownDigests).1, t.messageDigest = d := by
      intro d hd
      rw [← hp'.known, hknown, hall, hp.known, List.mem_map] at hd
      exact hd
    have huntracked : s.tables.batchDigests.get batch.batchId = none := by
      refine Option.eq_none_iff_forall_ne_some.2 fun ds hds => ?_
      obtain ⟨shown, hshown⟩ := (ht.accepted batch.batchId).2 (by rw [hds]; rfl)
      rw [hnew] at hshown
      cases hshown
    have hmine : ∀ t ∈ (newTransactions batch.transactions s.knownDigests).1, t.messageDigest ∈ batch.digests := by
      intro t hmem
      rw [hm.digests]
      exact List.mem_map_of_mem (hsub.subset hmem)
    rw [htables]
    constructor
    · intro d id hid
      rw [hdigests]
      rcases (hwatchers d id).1 hid with hid | ⟨rfl, hd⟩
      · obtain ⟨ds, hds, hd⟩ := h.registered d id hid
        refine ⟨ds, ?_, hd⟩
        rw [Assoc.get_insert_ne _ _ ?_]
        · exact hds
        · rintro rfl
          rw [huntracked] at hds
          cases hds
      · exact ⟨batch.digests, Assoc.get_insert_self .., hd⟩
    · intro d hd
      rw [houtcomes] at hd
      obtain ⟨w, hw⟩ := List.exists_mem_of_ne_nil _ (h.outcomes d hd)
      exact List.ne_nil_of_mem ((hwatchers d w).2 (.inl hw))
    · intro d hd
      rcases hlive d hd with hd | ⟨t, hmem, rfl⟩
      · obtain ⟨w, hw⟩ := List.exists_mem_of_ne_nil _ (h.alive d hd)
        exact List.ne_nil_of_mem ((hwatchers d w).2 (.inl hw))
      · exact List.ne_nil_of_mem ((hwatchers _ batch.batchId).2 (.inr ⟨rfl, hmine t hmem⟩))
    · intro d hd
      rw [houtcomes]
      rcases hlive d hd with hd | ⟨t, hmem, rfl⟩
      · exact h.undecided d hd
      · exact hfresh t hmem
  · obtain ⟨status, hstatus⟩ := Option.ne_none_iff_exists'.1 hnew
    obtain ⟨waiters, heq⟩ := submit_known_frame cfg hstatus
    rw [heq]
    exact ⟨h.registered, h.outcomes, h.alive, h.undecided⟩

theorem handle_watched {m : Message C D} (hm : m.Measured) (htidy : s.Tidy cfg m) (order : HashOrder)
    (hp : PoolInvariant cfg s) (ht : s.tables.Tracked s.live) (h : s.tables.Watched s.live) :
    (s.handle cfg order m).1.tables.Watched (s.handle cfg order m).1.live := by
  cases m with
  | submit batch => exact submit_watched hm htidy hp ht h
  | propose height response =>
    obtain ⟨taken, -, -, hperm⟩ := propose_moves cfg s height response
    exact ⟨h.registered, h.outcomes, fun d hd => h.alive d (hperm.mem_iff.1 hd),
      fun d hd => h.undecided d (hperm.mem_iff.1 hd)⟩
  | reportBlock block ack => exact reportBlock_watched cfg order block ack hp ht h
  | queryStatus batchId response => exact h
  | queryConsensusRound response => exact h
  | reportTip round => exact h

end Steps

/-! ## Runs -/

/-- A digest with an outcome is watched by a batch that is tracked and holds it. -/
def Tables.OnlyWatched (t : Tables D) : Prop :=
  ∀ d outcome, t.digestOutcomes.get d = some outcome →
    ∃ id ds, t.batchDigests.get id = some ds ∧ d ∈ ds ∧ id ∈ t.watchers d

/-- The number of digests of the tracked batches. -/
def Tables.trackedDigests (t : Tables D) : Nat := (t.batchDigests.toList.map fun p => p.2.length).sum

theorem Tables.Watched.onlyWatched {live : List D} {t : Tables D} (h : t.Watched live) : t.OnlyWatched := by
  intro d outcome houtcome
  obtain ⟨id, hid⟩ := List.exists_mem_of_ne_nil _ (h.outcomes d (by rw [houtcome]; rfl))
  obtain ⟨ds, hds, hd⟩ := h.registered d id hid
  exact ⟨id, ds, hds, hd, hid⟩

theorem Tables.OnlyWatched.size_le {t : Tables D} (h : t.OnlyWatched) : t.digestOutcomes.size ≤ t.trackedDigests := by
  have hsub : t.digestOutcomes.toList.map Prod.fst ⊆ t.batchDigests.toList.flatMap Prod.snd := by
    intro d hd
    obtain ⟨⟨d, outcome⟩, hp, rfl⟩ := List.mem_map.1 hd
    obtain ⟨id, ds, hds, hmem, -⟩ := h d outcome (Assoc.mem_toList.1 hp)
    exact List.mem_flatMap.2 ⟨(id, ds), Assoc.mem_toList.2 hds, hmem⟩
  have hlength := (List.subperm_of_subset t.digestOutcomes.nodup_keys hsub).length_le
  rwa [List.length_map, Assoc.length_toList, List.length_flatMap] at hlength

theorem watched_trace (cfg : Config C D) {ms : List (Message C D)} {s : Actor D}
    (h : Trace (fun s m s' => m.Measured ∧ s.Tidy cfg m ∧ Actor.Step cfg s m s') .new ms s) :
    PoolInvariant cfg s ∧ s.tables.Tracked s.live ∧ s.tables.Watched s.live := by
  refine Trace.invariant (I := fun s => PoolInvariant cfg s ∧ s.tables.Tracked s.live ∧ s.tables.Watched s.live)
    (fun s m s' hs hstep => ?_) ⟨poolInvariant_new cfg, tracked_new, ?_⟩ h
  · obtain ⟨hp, ht, hw⟩ := hs
    obtain ⟨hm, htidy, order, rfl⟩ := hstep
    exact ⟨handle_invariant hm order hp, (handle_tracked hm order hp ht).1, handle_watched hm htidy order hp ht hw⟩
  · constructor
    · intro d id hid
      simp [Actor.new, Tables.empty, Tables.watchers] at hid
    · intro d hd
      simp [Actor.new, Tables.empty] at hd
    · exact List.forall_mem_nil _
    · exact List.forall_mem_nil _

/-- In every run of tidy messages each recorded outcome is watched by a tracked batch, so there are no
more outcomes than tracked digests; and a batch that is let in finds no outcome of its digests, so every
outcome that resolves it is recorded after it was submitted. -/
theorem outcomes_watched (cfg : Config C D) {ms : List (Message C D)} {s : Actor D}
    (h : Trace (fun s m s' => m.Measured ∧ s.Tidy cfg m ∧ Actor.Step cfg s m s') .new ms s) :
    s.tables.OnlyWatched ∧ s.tables.digestOutcomes.size ≤ s.tables.trackedDigests ∧
    ∀ batch : Submission D, batch.Measured → s.Tidy cfg (.submit batch : Message C D) →
      s.tables.statuses.get batch.batchId = none → ¬ s.Refuses cfg batch →
      ∀ d ∈ batch.digests, (s.submit cfg batch).1.tables.digestOutcomes.get d = none := by
  obtain ⟨hp, ht, hw⟩ := watched_trace cfg h
  refine ⟨hw.onlyWatched, hw.onlyWatched.size_le, fun batch hm htidy hnew hroom d hd => ?_⟩
  obtain ⟨-, hlive⟩ := submit_live hm hp hnew hroom
  exact (submit_watched hm htidy hp ht hw).undecided d (hlive d hd)

/-! ## A small instance -/

/-- A batch of transactions with the given digests. -/
def tallyBatch (batchId : String) (digests : List Nat) : Submission Nat :=
  let sent := sampleTransaction 1 2 5 0 sampleValue_ne_zero
  let transactions := digests.map fun digest => ⟨⟨sent.value, digest⟩, sent.signature⟩
  ⟨batchId, digests, transactions, totalBytesFor transactions, none, none⟩

theorem tallyBatch_measured (batchId : String) {digests : List Nat} (h : digests ≠ []) :
    (tallyBatch batchId digests).Measured := by
  refine ⟨fun hnil => h (List.map_eq_nil_iff.1 hnil), ?_, rfl⟩
  show digests = (digests.map _).map _
  rw [List.map_map]
  exact (List.map_id digests).symm

/-- An empty block at height 5. -/
def lateBlock : SealedBlock Unit Nat :=
  (Block.new { sampleGenesis.inner.header with height := 5, timestamp := 5 } []).sealWith countingApplication.env countingCodecs

/-- Two batches share the digest 82, which `sampleChild` finalizes; the other digest is still proposed. -/
def sharedMessages : List (Message Unit Nat) :=
  [.submit (tallyBatch "first" [82]), .submit (tallyBatch "second" [82, 2]), .propose 1 0, .reportBlock sampleChild 1]

/-- A third batch brings 82 back; it is resolved with the old outcome, and then 82 is proposed and dropped. -/
def returnedMessages : List (Message Unit Nat) :=
  [.submit (tallyBatch "third" [2, 82]), .reportBlock emptyBlock 2, .propose 4 3, .reportBlock lateBlock 4]

set_option maxRecDepth 20000 in
theorem outcomes_watched_sample :
    let s := sharedMessages.foldl (fun s m => (s.handle tallyConfig .insertion m).1) Actor.new
    s.tables.digestOutcomes.get 82 = some (.finalized 1) ∧ s.tables.OnlyWatched := by
  intro s
  have htrace : Trace (fun s m s' => m.Measured ∧ s.Tidy tallyConfig m ∧ Actor.Step tallyConfig s m s') .new
      sharedMessages s := by
    refine .cons ⟨tallyBatch_measured _ (by decide), fun _ _ => ⟨by decide, List.forall_mem_nil _⟩, .insertion, rfl⟩ ?_
    refine .cons ⟨tallyBatch_measured _ (by decide), fun _ _ => ⟨by decide, List.forall_mem_nil _⟩, .insertion, rfl⟩ ?_
    exact .cons ⟨trivial, trivial, .insertion, rfl⟩ (.cons ⟨trivial, trivial, .insertion, rfl⟩ (.nil s))
  exact ⟨rfl, (outcomes_watched tallyConfig htrace).1⟩

set_option maxRecDepth 20000 in
/-- At the end an outcome is recorded, and no batch is tracked. -/
theorem unwatched_outcome : ∃ (ms : List (Message Unit Nat)) (s : Actor Nat),
    Trace (fun s m s' => m.Measured ∧ Actor.Step tallyConfig s m s') .new ms s ∧ ¬ s.tables.OnlyWatched := by
  refine ⟨sharedMessages ++ returnedMessages,
    (sharedMessages ++ returnedMessages).foldl (fun s m => (s.handle tallyConfig .insertion m).1) .new, ?_, fun h => ?_⟩
  · refine .cons ⟨tallyBatch_measured _ (by decide), .insertion, rfl⟩ ?_
    refine .cons ⟨tallyBatch_measured _ (by decide), .insertion, rfl⟩ ?_
    refine .cons ⟨trivial, .insertion, rfl⟩ (.cons ⟨trivial, .insertion, rfl⟩ ?_)
    refine .cons ⟨tallyBatch_measured _ (by decide), .insertion, rfl⟩ (.cons ⟨trivial, .insertion, rfl⟩ ?_)
    exact .cons ⟨trivial, .insertion, rfl⟩ (.cons ⟨trivial, .insertion, rfl⟩ (.nil _))
  · obtain ⟨id, ds, hds, -⟩ := h 82 .dropped rfl
    cases hds

end Constantinople.Mempool
