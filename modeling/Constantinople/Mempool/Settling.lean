/-
What settling does to the batch tables. Forgetting a batch leaves the others alone: they stay
registered with their digests, whose outcomes stay with them. Tables in which every tracked batch is
covered by its digests stay so, and a batch that is resolved answers each of its waiters once.
-/
import Constantinople.Mempool.Tables

namespace Constantinople.Mempool

open Constantinople

variable {D : Type} [DecidableEq D] {display : D → String}

namespace Tables

/-! ## Stored statuses and their order -/

/-- The order lists the stored statuses, each once, and there are not too many. -/
structure Ordered (t : Tables D) : Prop where
  nodup : t.statusOrder.Nodup
  mem : ∀ id, id ∈ t.statusOrder ↔ (t.statuses.get id).isSome
  size : t.statuses.size ≤ maxStatusEntries

omit [DecidableEq D] in
theorem Ordered.length {t : Tables D} (h : t.Ordered) : t.statuses.size = t.statusOrder.length :=
  Assoc.size_eq_length h.nodup h.mem

theorem expire_of_le {statuses : Assoc String BatchStatus} (h : statuses.size ≤ maxStatusEntries) (order : List String) :
    expire statuses order = (statuses, order, []) := by
  cases order with
  | nil => rfl
  | cons id order => rw [expire, if_neg (by omega)]

theorem expire_cons {statuses : Assoc String BatchStatus} {id : String} (h : maxStatusEntries < statuses.size)
    (herase : (statuses.erase id).size ≤ maxStatusEntries) (order : List String) :
    expire statuses (id :: order) = (statuses.erase id, order, [id]) := by
  rw [expire, if_pos h, expire_of_le herase]

omit [DecidableEq D] in
/-- Storing a new status for a batch that has one expires nothing. -/
theorem rememberStatus_stored {t : Tables D} (ho : t.Ordered) {id : String} (h : (t.statuses.get id).isSome)
    (status : BatchStatus) :
    t.rememberStatus id status = ({ t with statuses := t.statuses.insert id status }, []) ∧
      Ordered { t with statuses := t.statuses.insert id status } := by
  have hmem : ∀ i, i ∈ t.statusOrder ↔ ((t.statuses.insert id status).get i).isSome := by
    intro i
    rw [Assoc.get_insert, ho.mem]
    split
    · rename_i heq; subst heq; simp [h]
    · rfl
  have hsize : (t.statuses.insert id status).size ≤ maxStatusEntries := by
    rw [Assoc.size_eq_length ho.nodup hmem, ← ho.length]
    exact ho.size
  refine ⟨?_, ho.nodup, hmem, hsize⟩
  unfold rememberStatus
  simp only [show t.statuses.contains id = true from h, if_true, expire_of_le hsize]

omit [DecidableEq D] in
/-- Storing the status of a new batch expires at most the oldest one. -/
theorem rememberStatus_new {t : Tables D} (ho : t.Ordered) {id : String} (h : t.statuses.get id = none)
    (status : BatchStatus) :
    id ∉ (t.rememberStatus id status).2 ∧ (t.rememberStatus id status).1.Ordered ∧
      ∀ i, (t.rememberStatus id status).1.statuses.get i = if i ∈ (t.rememberStatus id status).2 then none
        else if i = id then some status else t.statuses.get i := by
  have hfresh : id ∉ t.statusOrder := by
    rw [ho.mem, h]
    simp
  have hnd : (t.statusOrder ++ [id]).Nodup := by
    rw [List.nodup_append]
    refine ⟨ho.nodup, List.nodup_singleton id, ?_⟩
    rintro a ha b hb rfl
    exact hfresh (List.mem_singleton.1 hb ▸ ha)
  have hmem : ∀ i, i ∈ t.statusOrder ++ [id] ↔ ((t.statuses.insert id status).get i).isSome := by
    intro i
    rw [Assoc.get_insert, List.mem_append, ho.mem, List.mem_singleton]
    split
    · rename_i heq; simp [heq]
    · rename_i hne; simp [hne]
  have hlen : (t.statuses.insert id status).size = t.statusOrder.length + 1 := by
    rw [Assoc.size_eq_length hnd hmem, List.length_append, List.length_singleton]
  have hcontains : t.statuses.contains id = false := by
    show (t.statuses.get id).isSome = false
    rw [h]
    rfl
  unfold rememberStatus
  simp only [hcontains, Bool.false_eq_true, if_false]
  by_cases hle : (t.statuses.insert id status).size ≤ maxStatusEntries
  · rw [expire_of_le hle]
    refine ⟨List.not_mem_nil, ⟨hnd, hmem, hle⟩, fun i => ?_⟩
    simp only [List.not_mem_nil, if_false, Assoc.get_insert]
  · -- the table was full, so the oldest status is another batch's
    have hsize := ho.size
    rw [ho.length] at hsize
    cases horder : t.statusOrder with
    | nil =>
      rw [horder] at hlen
      rw [hlen] at hle
      exact absurd (by decide) hle
    | cons oldest order =>
      rw [horder] at hnd hmem hlen hsize hfresh
      rw [List.cons_append] at hnd hmem ⊢
      have hne : oldest ≠ id := fun heq => hfresh (heq ▸ List.mem_cons_self ..)
      obtain ⟨hold, hrest⟩ := List.nodup_cons.1 hnd
      have hmem' : ∀ i, i ∈ order ++ [id] ↔ (((t.statuses.insert id status).erase oldest).get i).isSome := by
        intro i
        rw [Assoc.get_erase]
        split
        · rename_i heq; subst heq; simpa using hold
        · rename_i hi
          rw [← hmem, List.mem_cons]
          simp [hi]
      have herase : ((t.statuses.insert id status).erase oldest).size ≤ maxStatusEntries := by
        rw [Assoc.size_eq_length hrest hmem', List.length_append, List.length_singleton]
        simpa using hsize
      rw [expire_cons (by omega) herase]
      refine ⟨fun hin => hne (List.mem_singleton.1 hin).symm, ⟨hrest, hmem', herase⟩, fun i => ?_⟩
      simp only [List.mem_singleton, Assoc.get_erase, Assoc.get_insert]

/-! ## Forgetting leaves the other batches alone -/

/-- The batches registered with a digest. -/
def watchers (t : Tables D) (d : D) : List String := (t.digestWatchers.get d).getD []

/-- Statuses stay, nothing is added, and what concerns the batches outside `gone` stays: their digests,
their waiters, where they are registered, and the outcomes of the digests they are registered with. -/
structure KeepsOthers (gone : String → Prop) (t t' : Tables D) : Prop where
  statuses : t'.statuses = t.statuses
  statusOrder : t'.statusOrder = t.statusOrder
  batchDigests : ∀ id, ¬ gone id → t'.batchDigests.get id = t.batchDigests.get id
  pendingWaiters : ∀ id, ¬ gone id → t'.pendingWaiters.get id = t.pendingWaiters.get id
  watchers : ∀ d id, ¬ gone id → (id ∈ t'.watchers d ↔ id ∈ t.watchers d)
  outcomes : ∀ d id, ¬ gone id → id ∈ t.watchers d → t'.digestOutcomes.get d = t.digestOutcomes.get d
  fewerDigests : t'.batchDigests.Sub t.batchDigests
  fewerWaiters : t'.pendingWaiters.Sub t.pendingWaiters

theorem KeepsOthers.refl (gone : String → Prop) (t : Tables D) : KeepsOthers gone t t :=
  ⟨rfl, rfl, fun _ _ => rfl, fun _ _ => rfl, fun _ _ _ => Iff.rfl, fun _ _ _ _ => rfl, .refl _, .refl _⟩

theorem KeepsOthers.trans {gone : String → Prop} {t₁ t₂ t₃ : Tables D} (h : KeepsOthers gone t₁ t₂)
    (h' : KeepsOthers gone t₂ t₃) : KeepsOthers gone t₁ t₃ := by
  constructor
  · exact h'.statuses.trans h.statuses
  · exact h'.statusOrder.trans h.statusOrder
  · intro id hid
    exact (h'.batchDigests id hid).trans (h.batchDigests id hid)
  · intro id hid
    exact (h'.pendingWaiters id hid).trans (h.pendingWaiters id hid)
  · intro d id hid
    exact (h'.watchers d id hid).trans (h.watchers d id hid)
  · intro d id hid hw
    exact (h'.outcomes d id hid ((h.watchers d id hid).2 hw)).trans (h.outcomes d id hid hw)
  · exact h'.fewerDigests.trans h.fewerDigests
  · exact h'.fewerWaiters.trans h.fewerWaiters

theorem KeepsOthers.mono {gone gone' : String → Prop} {t t' : Tables D} (h : KeepsOthers gone t t')
    (hsub : ∀ id, gone id → gone' id) : KeepsOthers gone' t t' := by
  have hnot : ∀ id, ¬ gone' id → ¬ gone id := fun id hid hg => hid (hsub id hg)
  exact ⟨h.statuses, h.statusOrder, fun id hid => h.batchDigests id (hnot id hid),
    fun id hid => h.pendingWaiters id (hnot id hid), fun d id hid => h.watchers d id (hnot id hid),
    fun d id hid => h.outcomes d id (hnot id hid), h.fewerDigests, h.fewerWaiters⟩

theorem foldl_keepsOthers {α : Type} {f : Tables D → α → Tables D} {gone : String → Prop} :
    ∀ {l : List α}, (∀ t, ∀ a ∈ l, KeepsOthers gone t (f t a)) → ∀ t : Tables D, KeepsOthers gone t (l.foldl f t)
  | [], _, t => .refl gone t
  | a :: _, hf, t => (hf t a (List.mem_cons_self ..)).trans
      (foldl_keepsOthers (fun t b hb => hf t b (List.mem_cons_of_mem a hb)) (f t a))

/-- The last batch off a digest takes the outcome along; any other stays registered and keeps it. -/
theorem unwatch_keepsOthers (batchId : String) (t : Tables D) (digest : D) :
    KeepsOthers (· = batchId) t (unwatch batchId t digest) := by
  unfold unwatch
  split
  · exact .refl _ t
  rename_i batchIds hget
  have hwatchers : t.watchers digest = batchIds := by
    unfold watchers
    rw [hget]
    rfl
  simp only
  split
  · rename_i hempty
    -- nobody else watches the digest
    have hnone : ∀ id, ¬ id = batchId → id ∉ batchIds := by
      intro id hid hmem
      rw [List.isEmpty_iff, List.filter_eq_nil_iff] at hempty
      exact hempty id hmem (by simpa using hid)
    refine ⟨rfl, rfl, fun _ _ => rfl, fun _ _ => rfl, ?_, ?_, .refl _, .refl _⟩
    · intro d id hid
      by_cases hd : d = digest
      · subst hd
        rw [hwatchers]
        simp [watchers, hnone id hid]
      · simp [watchers, Assoc.get_erase, hd]
    · intro d id hid hw
      have hd : d ≠ digest := by
        rintro rfl
        rw [hwatchers] at hw
        exact hnone id hid hw
      simp [Assoc.get_erase, hd]
  · refine ⟨rfl, rfl, fun _ _ => rfl, fun _ _ => rfl, ?_, fun _ _ _ _ => rfl, .refl _, .refl _⟩
    intro d id hid
    by_cases hd : d = digest
    · subst hd
      rw [hwatchers]
      simp [watchers, hid]
    · simp [watchers, Assoc.get_insert, hd]

theorem eraseWaiters_keepsOthers (t : Tables D) (batchId : String) :
    KeepsOthers (· = batchId) t { t with pendingWaiters := t.pendingWaiters.erase batchId } :=
  ⟨rfl, rfl, fun _ _ => rfl, fun id hid => by simp [Assoc.get_erase, hid], fun _ _ _ => Iff.rfl, fun _ _ _ _ => rfl,
    .refl _, t.pendingWaiters.erase_sub batchId⟩

/-- A forgotten batch is gone from the tables; the others are not touched. -/
theorem forgetBatch_keepsOthers (t : Tables D) (batchId : String) :
    KeepsOthers (· = batchId) t (t.forgetBatch batchId) ∧ (t.forgetBatch batchId).batchDigests.get batchId = none ∧
      (t.forgetBatch batchId).pendingWaiters.get batchId = none := by
  have hwaiters := t.eraseWaiters_keepsOthers batchId
  unfold forgetBatch
  simp only
  split
  · rename_i hnone
    exact ⟨hwaiters, hnone, t.pendingWaiters.get_erase_self batchId⟩
  · rename_i digests hdigests
    set t₁ : Tables D := ⟨t.statuses, t.statusOrder, t.batchDigests.erase batchId, t.digestWatchers, t.digestOutcomes,
      t.pendingWaiters.erase batchId⟩
    have hdigests : KeepsOthers (· = batchId) { t with pendingWaiters := t.pendingWaiters.erase batchId } t₁ :=
      ⟨rfl, rfl, fun id hid => by simp [t₁, Assoc.get_erase, hid], fun _ _ => rfl, fun _ _ _ => Iff.rfl,
        fun _ _ _ _ => rfl, t.batchDigests.erase_sub batchId, .refl _⟩
    have hfold : KeepsOthers (· = batchId) t₁ (digests.dedup.foldl (unwatch batchId) t₁) :=
      foldl_keepsOthers (fun t d _ => unwatch_keepsOthers batchId t d) t₁
    refine ⟨hwaiters.trans (hdigests.trans hfold), ?_, ?_⟩
    · refine Option.eq_none_iff_forall_ne_some.2 fun ds hds => ?_
      have hold := hfold.fewerDigests _ _ hds
      simp [t₁] at hold
    · refine Option.eq_none_iff_forall_ne_some.2 fun ws hws => ?_
      have hold := hfold.fewerWaiters _ _ hws
      simp [t₁] at hold

theorem forgetExpiredBatches_keepsOthers (t : Tables D) (expired : List String) :
    KeepsOthers (· ∈ expired) t (t.forgetExpiredBatches expired) ∧
      ∀ id ∈ expired, (t.forgetExpiredBatches expired).batchDigests.get id = none ∧
        (t.forgetExpiredBatches expired).pendingWaiters.get id = none := by
  refine ⟨foldl_keepsOthers (fun t id hid => (t.forgetBatch_keepsOthers id).1.mono fun i hi => hi ▸ hid) t, ?_⟩
  induction expired generalizing t with
  | nil => rintro id ⟨⟩
  | cons first expired ih =>
    intro id hid
    rcases List.mem_cons.1 hid with rfl | hid
    · have hkeeps : KeepsOthers (· ∈ expired) (t.forgetBatch id) ((t.forgetBatch id).forgetExpiredBatches expired) :=
        foldl_keepsOthers (fun t i hi => (t.forgetBatch_keepsOthers i).1.mono fun j hj => hj ▸ hi) _
      obtain ⟨-, hdigests, hwaiters⟩ := t.forgetBatch_keepsOthers id
      constructor
      · refine Option.eq_none_iff_forall_ne_some.2 fun ds hds => ?_
        rw [hkeeps.fewerDigests _ _ hds] at hdigests
        cases hdigests
      · refine Option.eq_none_iff_forall_ne_some.2 fun ws hws => ?_
        rw [hkeeps.fewerWaiters _ _ hws] at hwaiters
        cases hwaiters
    · exact ih (t.forgetBatch first) id hid

/-! ## The invariant of the tables -/

/-- The waiters of a batch. -/
def waiters (t : Tables D) (id : String) : List Channel := (t.pendingWaiters.get id).getD []

/-- The accepted batches are those with digests; only they have waiters; each is registered with all its
digests, and each of the digests is live or has an outcome. -/
structure Covered (live : List D) (t : Tables D) : Prop where
  ordered : t.Ordered
  accepted : ∀ id, (∃ shown, t.statuses.get id = some (.accepted shown)) ↔ (t.batchDigests.get id).isSome
  waiting : ∀ id, (t.pendingWaiters.get id).isSome → (t.batchDigests.get id).isSome
  watched : ∀ id ds, t.batchDigests.get id = some ds → ∀ d ∈ ds, id ∈ t.watchers d
  outcome : ∀ id ds, t.batchDigests.get id = some ds → ∀ d ∈ ds, d ∈ live ∨ (t.digestOutcomes.get d).isSome

/-- Between messages each tracked batch moreover has a live digest. -/
structure Tracked (live : List D) (t : Tables D) : Prop extends Covered live t where
  alive : ∀ id ds, t.batchDigests.get id = some ds → ∃ d ∈ ds, d ∈ live

/-- Forgetting batches that are not accepted any more keeps the tables covered. -/
theorem Covered.of_keepsOthers {gone : String → Prop} {live : List D} {t t' : Tables D} (hk : KeepsOthers gone t t')
    (ho : t.Ordered)
    (hgone : ∀ id, gone id → t'.batchDigests.get id = none ∧ t'.pendingWaiters.get id = none ∧
      ¬ ∃ shown, t.statuses.get id = some (.accepted shown))
    (haccepted : ∀ id, ¬ gone id →
      ((∃ shown, t.statuses.get id = some (.accepted shown)) ↔ (t.batchDigests.get id).isSome))
    (hwaiting : ∀ id, ¬ gone id → (t.pendingWaiters.get id).isSome → (t.batchDigests.get id).isSome)
    (hwatched : ∀ id ds, ¬ gone id → t.batchDigests.get id = some ds → ∀ d ∈ ds,
      id ∈ t.watchers d ∧ (d ∈ live ∨ (t.digestOutcomes.get d).isSome)) : Covered live t' := by
  have hstays : ∀ {id ds}, t'.batchDigests.get id = some ds → ¬ gone id := by
    intro id ds hds hg
    rw [(hgone id hg).1] at hds
    cases hds
  constructor
  · exact ⟨hk.statusOrder ▸ ho.nodup, by rw [hk.statusOrder, hk.statuses]; exact ho.mem, hk.statuses ▸ ho.size⟩
  · intro id
    rw [hk.statuses]
    by_cases hg : gone id
    · obtain ⟨hdigests, -, hnot⟩ := hgone id hg
      simp [hdigests, hnot]
    · rw [hk.batchDigests id hg]
      exact haccepted id hg
  · intro id hws
    by_cases hg : gone id
    · rw [(hgone id hg).2.1] at hws
      cases hws
    · rw [hk.pendingWaiters id hg] at hws
      rw [hk.batchDigests id hg]
      exact hwaiting id hg hws
  · intro id ds hds d hd
    have hg := hstays hds
    rw [hk.batchDigests id hg] at hds
    exact (hk.watchers d id hg).2 (hwatched id ds hg hds d hd).1
  · intro id ds hds d hd
    have hg := hstays hds
    rw [hk.batchDigests id hg] at hds
    obtain ⟨hw, hout⟩ := hwatched id ds hg hds d hd
    rwa [hk.outcomes d id hg hw]

/-! ## Resolving answers the waiters -/

end Tables

/-- The results sent for a batch. -/
def answers (id : String) (replies : List (Reply D)) : List (Channel × TxStatus) :=
  replies.filterMap fun
    | .result i channel st => if i = id then some (channel, st) else none
    | _ => none

omit [DecidableEq D] in
@[simp] theorem answers_append (id : String) (r r' : List (Reply D)) :
    answers id (r ++ r') = answers id r ++ answers id r' :=
  List.filterMap_append

omit [DecidableEq D] in
theorem answers_results (id i : String) (st : TxStatus) (channels : List Channel) :
    answers id (channels.map fun c => (.result i c st : Reply D)) = if i = id then channels.map (·, st) else [] := by
  unfold answers
  rw [List.filterMap_map]
  by_cases hi : i = id
  · simp [hi]
  · simp [hi]

namespace Tables

/-- Each batch is left alone and gets no answer, or it was tracked and is resolved: a terminal status is
stored and sent to each of its waiters, and nobody waits any more. -/
def Settles (t t' : Tables D) (replies : List (Reply D)) : Prop :=
  ∀ id,
    (t'.batchDigests.get id = t.batchDigests.get id ∧ t'.statuses.get id = t.statuses.get id ∧
      t'.pendingWaiters.get id = t.pendingWaiters.get id ∧ answers id replies = []) ∨
    ((t.batchDigests.get id).isSome ∧ t'.batchDigests.get id = none ∧ t'.pendingWaiters.get id = none ∧
      ∃ status st, t'.statuses.get id = some status ∧ txStatusFromBatch status = some st ∧
        answers id replies = (t.waiters id).map (·, st))

omit [DecidableEq D] in
theorem Settles.refl (t : Tables D) : t.Settles t [] := fun _ => .inl ⟨rfl, rfl, rfl, rfl⟩

omit [DecidableEq D] in
/-- A batch is resolved at most once: after that it is not tracked. -/
theorem Settles.trans {t₁ t₂ t₃ : Tables D} {r r' : List (Reply D)} (h : t₁.Settles t₂ r) (h' : t₂.Settles t₃ r') :
    t₁.Settles t₃ (r ++ r') := by
  intro id
  rw [answers_append]
  rcases h id with ⟨hd, hs, hw, ha⟩ | ⟨htracked, hd, hw, status, st, hs, hst, ha⟩
  · rcases h' id with ⟨hd', hs', hw', ha'⟩ | ⟨htracked', hd', hw', status, st, hs', hst, ha'⟩
    · exact .inl ⟨hd'.trans hd, hs'.trans hs, hw'.trans hw, by rw [ha, ha']; rfl⟩
    · refine .inr ⟨hd ▸ htracked', hd', hw', status, st, hs', hst, ?_⟩
      rw [ha, ha', waiters, waiters, hw]
      rfl
  · rcases h' id with ⟨hd', hs', hw', ha'⟩ | ⟨htracked', -⟩
    · exact .inr ⟨htracked, hd'.trans hd, hw'.trans hw, status, st, hs'.trans hs, hst, by rw [ha, ha', List.append_nil]⟩
    · rw [hd] at htracked'
      cases htracked'

omit [DecidableEq D] in
/-- Sending a terminal status to the waiters of a batch. -/
theorem sendPendingWaiters_eq (t : Tables D) (id : String) {status : BatchStatus} {st : TxStatus}
    (h : txStatusFromBatch status = some st) :
    (t.sendPendingWaiters id status).2 = (t.waiters id).map (.result id · st) ∧
      ((t.sendPendingWaiters id status).1 = t ∨
        (t.sendPendingWaiters id status).1 = { t with pendingWaiters := t.pendingWaiters.erase id }) := by
  unfold sendPendingWaiters waiters
  simp only [h]
  split
  · rename_i hnone
    exact ⟨by rw [hnone]; rfl, .inl rfl⟩
  · rename_i channels hsome
    exact ⟨by rw [hsome]; rfl, .inr rfl⟩

variable (display) in
/-- A batch that is not resolved has a digest without outcome; one that is resolved gets the status of
its digests, its waiters are answered, and it is forgotten. -/
theorem resolveBatchIfTerminal_cases {live : List D} {t : Tables D} (hc : Covered live t) (id : String) :
    (t.resolveBatchIfTerminal display id = (t, []) ∧
      ∀ ds, t.batchDigests.get id = some ds → ∃ d ∈ ds, t.digestOutcomes.get d = none) ∨
    ∃ ds status st, t.batchDigests.get id = some ds ∧
      batchStatusFromOutcomes display ds t.digestOutcomes = some status ∧ txStatusFromBatch status = some st ∧
      KeepsOthers (· = id) { t with statuses := t.statuses.insert id status } (t.resolveBatchIfTerminal display id).1 ∧
      Ordered { t with statuses := t.statuses.insert id status } ∧
      (t.resolveBatchIfTerminal display id).1.batchDigests.get id = none ∧
      (t.resolveBatchIfTerminal display id).1.pendingWaiters.get id = none ∧
      (t.resolveBatchIfTerminal display id).2 = (t.waiters id).map (.result id · st) := by
  unfold resolveBatchIfTerminal
  split
  · rename_i hnone
    exact .inl ⟨rfl, fun ds hds => by rw [hnone] at hds; cases hds⟩
  rename_i ds hds
  split
  · rename_i hopen
    refine .inl ⟨rfl, fun ds' hds' => ?_⟩
    rw [hds] at hds'
    cases hds'
    exact batchStatusFromOutcomes_none hopen
  rename_i status hstatus
  obtain ⟨-, ⟨st, hst⟩, -⟩ := batchStatusFromOutcomes_some hstatus
  -- the batch is accepted, so its new status expires nothing
  have hstored : (t.statuses.get id).isSome := by
    obtain ⟨shown, hshown⟩ := (hc.accepted id).2 (by rw [hds]; rfl)
    rw [hshown]
    rfl
  obtain ⟨hremember, hordered⟩ := rememberStatus_stored hc.ordered hstored status
  rw [hremember]
  set t₁ : Tables D := { t with statuses := t.statuses.insert id status }
  have hannounce : t₁.announce id = t₁.sendPendingWaiters id status := by
    unfold announce
    simp [t₁]
  obtain ⟨hreplies, hsent⟩ := t₁.sendPendingWaiters_eq id hst
  have hkeeps : KeepsOthers (· = id) t₁ (t₁.sendPendingWaiters id status).1 := by
    rcases hsent with heq | heq
    · rw [heq]
      exact .refl _ t₁
    · rw [heq]
      exact t₁.eraseWaiters_keepsOthers id
  obtain ⟨hforget, hdigests, hwaiters⟩ := (t₁.sendPendingWaiters id status).1.forgetBatch_keepsOthers id
  simp only [hannounce]
  exact .inr ⟨ds, status, st, hds, hstatus, hst, hkeeps.trans hforget, hordered, hdigests, hwaiters, hreplies⟩

variable (display) in
theorem resolveBatchIfTerminal_settles {live : List D} {t : Tables D} (hc : Covered live t) (id : String) :
    Covered live (t.resolveBatchIfTerminal display id).1 ∧
      t.Settles (t.resolveBatchIfTerminal display id).1 (t.resolveBatchIfTerminal display id).2 := by
  rcases resolveBatchIfTerminal_cases display hc id with
    ⟨heq, -⟩ | ⟨ds, status, st, hds, -, hst, hkeeps, hordered, hdigests, hwaiters, hreplies⟩
  · rw [heq]
    exact ⟨hc, .refl t⟩
  have hother : ∀ i, i ≠ id → (t.statuses.insert id status).get i = t.statuses.get i :=
    fun i hi => t.statuses.get_insert_ne status hi
  constructor
  · refine Covered.of_keepsOthers hkeeps hordered ?_ ?_ ?_ ?_
    · rintro i rfl
      refine ⟨hdigests, hwaiters, ?_⟩
      rintro ⟨shown, hshown⟩
      rw [Assoc.get_insert_self] at hshown
      cases hshown
      cases hst
    · intro i hi
      rw [hother i hi]
      exact hc.accepted i
    · intro i _
      exact hc.waiting i
    · intro i ds _ hds d hd
      exact ⟨hc.watched i ds hds d hd, hc.outcome i ds hds d hd⟩
  · intro i
    rw [hreplies, answers_results, hkeeps.statuses]
    by_cases hi : i = id
    · subst hi
      exact .inr ⟨by rw [hds]; rfl, hdigests, hwaiters, status, st, Assoc.get_insert_self .., hst, if_pos rfl⟩
    · exact .inl ⟨hkeeps.batchDigests i hi, hother i hi, hkeeps.pendingWaiters i hi, if_neg (Ne.symm hi)⟩

variable (display) in
/-- After resolving, those of the batches that are still tracked have a live digest. -/
theorem resolveAll_settles {live : List D} : ∀ (ids : List String) (t : Tables D), Covered live t →
    let r := t.resolveAll display ids
    Covered live r.1 ∧ t.Settles r.1 r.2 ∧ ∀ id ∈ ids, ∀ ds, r.1.batchDigests.get id = some ds → ∃ d ∈ ds, d ∈ live
  | [], t, hc => ⟨hc, .refl t, List.forall_mem_nil _⟩
  | id :: ids, t, hc => by
    obtain ⟨hc₁, hs₁⟩ := resolveBatchIfTerminal_settles display hc id
    obtain ⟨hc₂, hs₂, halive⟩ := resolveAll_settles ids (t.resolveBatchIfTerminal display id).1 hc₁
    simp only [resolveAll]
    refine ⟨hc₂, hs₁.trans hs₂, List.forall_mem_cons.2 ⟨fun ds hds => ?_, halive⟩⟩
    -- still tracked at the end, so it was not resolved and waits for a digest
    have hresolves : Resolves display _ _ _ := resolveAll_resolves ids (t.resolveBatchIfTerminal display id).1
    have hds₁ := hresolves.batchDigests id ds hds
    rcases resolveBatchIfTerminal_cases display hc id with
      ⟨heq, hopen⟩ | ⟨-, -, -, -, -, -, -, -, hgone, -⟩
    · rw [heq] at hds₁
      obtain ⟨d, hd, hnone⟩ := hopen ds hds₁
      refine ⟨d, hd, (hc.outcome id ds hds₁ d hd).resolve_right ?_⟩
      rw [hnone]
      exact Bool.false_ne_true
    · rw [hgone] at hds₁
      cases hds₁

/-! ## Tracking a new batch -/

theorem mem_watchers_watchBatch (t : Tables D) (batchId : String) (digests : List D) (d : D) (id : String) :
    id ∈ (t.watchBatch batchId digests).watchers d ↔ id ∈ t.watchers d ∨ (id = batchId ∧ d ∈ digests) := by
  have key : ∀ (ds : List D) (w : Assoc D (List String)),
      id ∈ ((ds.foldl (fun w d => w.insert d ((w.get d).getD [] ++ [batchId])) w).get d).getD [] ↔
        id ∈ (w.get d).getD [] ∨ (id = batchId ∧ d ∈ ds) := by
    intro ds
    induction ds with
    | nil => simp
    | cons d' ds ih =>
      intro w
      rw [List.foldl_cons, ih, Assoc.get_insert]
      by_cases hd : d = d'
      · subst hd
        simp
        tauto
      · simp [hd]
  rw [← List.mem_dedup (l := digests)]
  exact key digests.dedup t.digestWatchers

theorem Tracked.mono {live live' : List D} {t : Tables D} (h : Tracked live t) (hlive : ∀ d ∈ live, d ∈ live') :
    Tracked live' t := by
  refine ⟨⟨h.ordered, h.accepted, h.waiting, h.watched, ?_⟩, ?_⟩
  · intro id ds hds d hd
    exact (h.outcome id ds hds d hd).imp_left (hlive d)
  · intro id ds hds
    obtain ⟨d, hd, hl⟩ := h.alive id ds hds
    exact ⟨d, hd, hlive d hl⟩

theorem Tracked.pushWaiter {live : List D} {t : Tables D} (h : Tracked live t) {id : String}
    (htracked : (t.batchDigests.get id).isSome) (channel : Channel) : Tracked live (t.pushWaiter id channel) := by
  refine ⟨⟨⟨h.ordered.nodup, h.ordered.mem, h.ordered.size⟩, h.accepted, ?_, h.watched, h.outcome⟩, h.alive⟩
  intro i hi
  by_cases heq : i = id
  · subst heq
    exact htracked
  · rw [Tables.pushWaiter, Assoc.get_insert_ne _ _ heq] at hi
    exact h.waiting i hi

end Tables

end Constantinople.Mempool
