/-
What the functions over the batch tables do: the status of a batch says which of its digests have
which outcome, forgetting batches only takes entries away, and resolving a batch stores and sends the
status its digests have at that moment.
-/
import Constantinople.Mempool.Actor

namespace Constantinople.Mempool

open Constantinople

variable {D : Type} {display : D → String}

/-! ## Statuses and outcomes -/

/-- The digests a status lists as included. -/
def BatchStatus.included : BatchStatus → List String
  | .finalized _ included => included
  | .partiallyFinalized _ included _ => included
  | _ => []

/-- The digests a status lists as filtered. -/
def BatchStatus.filtered : BatchStatus → List String
  | .partiallyFinalized _ _ filtered => filtered
  | .dropped filtered => filtered
  | _ => []

/-- The height of a status that reports inclusions. -/
def BatchStatus.inclusionHeight : BatchStatus → Option UInt64
  | .finalized height _ => some height
  | .partiallyFinalized height _ _ => some height
  | _ => none

def DigestOutcome.isFinalized : DigestOutcome → Bool
  | .finalized _ => true
  | .dropped => false

section Outcomes

variable [DecidableEq D]

/-- The loop ends only if every digest has an outcome; it then has split the digests by outcome. -/
theorem outcomesLoop_some {outcomes : Assoc D DigestOutcome} :
    ∀ {digests : List D} {height : UInt64} {included filtered : List String} {r : UInt64 × List String × List String},
      outcomesLoop display outcomes digests height included filtered = some r →
      (∀ d ∈ digests, (outcomes.get d).isSome) ∧
      r.2.1 = included ++ (digests.filter fun d => (outcomes.get d).any DigestOutcome.isFinalized).map display ∧
      r.2.2 = filtered ++ (digests.filter fun d => outcomes.get d = some .dropped).map display
  | [], _, _, _, _, h => by cases h; simp
  | d :: digests, height, included, filtered, r, h => by
    rw [outcomesLoop] at h
    split at h
    · rename_i hd
      obtain ⟨hall, hinc, hfil⟩ := outcomesLoop_some h
      refine ⟨List.forall_mem_cons.2 ⟨by rw [hd]; rfl, hall⟩, ?_, ?_⟩
      · rw [hinc]; simp [hd, DigestOutcome.isFinalized]
      · rw [hfil]; simp [hd]
    · rename_i hd
      obtain ⟨hall, hinc, hfil⟩ := outcomesLoop_some h
      refine ⟨List.forall_mem_cons.2 ⟨by rw [hd]; rfl, hall⟩, ?_, ?_⟩
      · rw [hinc]; simp [hd, DigestOutcome.isFinalized]
      · rw [hfil]; simp [hd]
    · cases h

/-- A resolved status: every digest has an outcome, and the two lists are the digests by outcome. -/
theorem batchStatusFromOutcomes_some {outcomes : Assoc D DigestOutcome} {digests : List D} {status : BatchStatus}
    (h : batchStatusFromOutcomes display digests outcomes = some status) :
    (∀ d ∈ digests, (outcomes.get d).isSome) ∧ (∃ st, txStatusFromBatch status = some st) ∧
    status.included = (digests.filter fun d => (outcomes.get d).any DigestOutcome.isFinalized).map display ∧
    status.filtered = (digests.filter fun d => outcomes.get d = some .dropped).map display := by
  unfold batchStatusFromOutcomes at h
  split at h
  · cases h
  rename_i height included filtered hloop
  obtain ⟨hall, hinc, hfil⟩ := outcomesLoop_some hloop
  simp only [List.nil_append] at hinc hfil
  refine ⟨hall, ?_⟩
  split at h
  · rename_i hempty
    cases h
    exact ⟨⟨_, rfl⟩, (List.isEmpty_iff.1 hempty).symm.trans hinc, hfil⟩
  split at h
  · rename_i hempty
    cases h
    exact ⟨⟨_, rfl⟩, hinc, (List.isEmpty_iff.1 hempty).symm.trans hfil⟩
  · cases h
    exact ⟨⟨_, rfl⟩, hinc, hfil⟩

theorem outcomesLoop_none {outcomes : Assoc D DigestOutcome} :
    ∀ {digests : List D} {height : UInt64} {included filtered : List String},
      outcomesLoop display outcomes digests height included filtered = none → ∃ d ∈ digests, outcomes.get d = none
  | d :: digests, height, included, filtered, h => by
    rw [outcomesLoop] at h
    split at h
    · obtain ⟨d', hd', hnone⟩ := outcomesLoop_none h
      exact ⟨d', List.mem_cons_of_mem d hd', hnone⟩
    · obtain ⟨d', hd', hnone⟩ := outcomesLoop_none h
      exact ⟨d', List.mem_cons_of_mem d hd', hnone⟩
    · rename_i hnone
      exact ⟨d, List.mem_cons_self .., hnone⟩

/-- A batch without a resolved status has a digest without an outcome. -/
theorem batchStatusFromOutcomes_none {outcomes : Assoc D DigestOutcome} {digests : List D}
    (h : batchStatusFromOutcomes display digests outcomes = none) : ∃ d ∈ digests, outcomes.get d = none := by
  unfold batchStatusFromOutcomes at h
  split at h
  · rename_i hloop
    exact outcomesLoop_none hloop
  · split at h
    · cases h
    split at h
    · cases h
    · cases h

/-- With more outcomes recorded a resolved status stays the same. -/
theorem outcomesLoop_mono {outcomes outcomes' : Assoc D DigestOutcome} (hsub : outcomes.Sub outcomes') :
    ∀ {digests : List D} {height : UInt64} {included filtered : List String} {r : UInt64 × List String × List String},
      outcomesLoop display outcomes digests height included filtered = some r →
      outcomesLoop display outcomes' digests height included filtered = some r
  | [], _, _, _, _, h => h
  | d :: digests, height, included, filtered, r, h => by
    rw [outcomesLoop] at h ⊢
    split at h
    · rename_i hd
      simp only [hsub d _ hd]
      exact outcomesLoop_mono hsub h
    · rename_i hd
      simp only [hsub d _ hd]
      exact outcomesLoop_mono hsub h
    · cases h

theorem batchStatusFromOutcomes_mono {outcomes outcomes' : Assoc D DigestOutcome} (hsub : outcomes.Sub outcomes')
    {digests : List D} {status : BatchStatus} (h : batchStatusFromOutcomes display digests outcomes = some status) :
    batchStatusFromOutcomes display digests outcomes' = some status := by
  unfold batchStatusFromOutcomes at h ⊢
  split at h
  · cases h
  rename_i hloop
  rw [outcomesLoop_mono hsub hloop]
  exact h

end Outcomes

namespace Tables

/-! ## Storing statuses -/

theorem expire_sub : ∀ (statuses : Assoc String BatchStatus) (order : List String), (expire statuses order).1.Sub statuses
  | statuses, [] => .refl _
  | statuses, batchId :: order => by
    rw [expire]
    split
    · exact (expire_sub (statuses.erase batchId) order).trans (statuses.erase_sub batchId)
    · exact .refl _

/-- Only the batch's own status is new; the other tables stay. -/
theorem rememberStatus_spec (t : Tables D) (batchId : String) (status : BatchStatus) :
    (∀ id st, (t.rememberStatus batchId status).1.statuses.get id = some st →
      (id = batchId ∧ st = status) ∨ (id ≠ batchId ∧ t.statuses.get id = some st)) ∧
    (t.rememberStatus batchId status).1.batchDigests = t.batchDigests ∧
    (t.rememberStatus batchId status).1.digestWatchers = t.digestWatchers ∧
    (t.rememberStatus batchId status).1.digestOutcomes = t.digestOutcomes ∧
    (t.rememberStatus batchId status).1.pendingWaiters = t.pendingWaiters := by
  refine ⟨fun id st h => ?_, rfl, rfl, rfl, rfl⟩
  have h := expire_sub _ _ id st h
  rw [Assoc.get_insert] at h
  split at h
  · rename_i heq; cases h; exact .inl ⟨heq, rfl⟩
  · rename_i hne; exact .inr ⟨hne, h⟩

variable [DecidableEq D]

/-! ## Forgetting -/

/-- `t'` has the statuses of `t`, and no digests or outcomes that `t` does not have. -/
structure Forgets (t t' : Tables D) : Prop where
  statuses : t'.statuses = t.statuses
  batchDigests : t'.batchDigests.Sub t.batchDigests
  digestOutcomes : t'.digestOutcomes.Sub t.digestOutcomes

theorem Forgets.refl (t : Tables D) : t.Forgets t := ⟨rfl, .refl _, .refl _⟩

theorem Forgets.trans {t₁ t₂ t₃ : Tables D} (h : t₁.Forgets t₂) (h' : t₂.Forgets t₃) : t₁.Forgets t₃ :=
  ⟨h'.statuses.trans h.statuses, h'.batchDigests.trans h.batchDigests, h'.digestOutcomes.trans h.digestOutcomes⟩

theorem foldl_forgets {α : Type} {f : Tables D → α → Tables D} (hf : ∀ t a, Forgets t (f t a)) :
    ∀ (l : List α) (t : Tables D), t.Forgets (l.foldl f t)
  | [], t => .refl t
  | a :: l, t => (hf t a).trans (foldl_forgets hf l (f t a))

theorem unwatch_forgets (batchId : String) (t : Tables D) (digest : D) : t.Forgets (unwatch batchId t digest) := by
  unfold unwatch
  split
  · exact .refl t
  · simp only
    split
    · exact ⟨rfl, .refl _, t.digestOutcomes.erase_sub digest⟩
    · exact ⟨rfl, .refl _, .refl _⟩

theorem forgetBatch_forgets (t : Tables D) (batchId : String) : t.Forgets (t.forgetBatch batchId) := by
  unfold forgetBatch
  simp only
  split
  · exact ⟨rfl, .refl _, .refl _⟩
  · refine Forgets.trans ?_ (foldl_forgets (unwatch_forgets batchId) _ _)
    exact ⟨rfl, t.batchDigests.erase_sub batchId, .refl _⟩

theorem forgetExpiredBatches_forgets (t : Tables D) (expired : List String) :
    t.Forgets (t.forgetExpiredBatches expired) :=
  foldl_forgets forgetBatch_forgets expired t

/-- Sending changes the waiters only, and sends the status to the waiters of the batch. -/
theorem sendPendingWaiters_spec (t : Tables D) (batchId : String) (status : BatchStatus) :
    t.Forgets (t.sendPendingWaiters batchId status).1 ∧
    ∀ r ∈ (t.sendPendingWaiters batchId status).2, ∃ channel st, r = .result batchId channel st ∧
      txStatusFromBatch status = some st := by
  unfold sendPendingWaiters
  split
  · exact ⟨.refl t, fun r hr => by cases hr⟩
  rename_i st hst
  split
  · exact ⟨.refl t, fun r hr => by cases hr⟩
  · constructor
    · exact ⟨rfl, .refl _, .refl _⟩
    · intro r hr
      obtain ⟨channel, -, rfl⟩ := List.mem_map.1 hr
      exact ⟨channel, st, rfl, hst⟩

theorem announce_spec (t : Tables D) (batchId : String) :
    t.Forgets (t.announce batchId).1 ∧
    ∀ r ∈ (t.announce batchId).2, ∃ channel status st, r = .result batchId channel st ∧
      t.statuses.get batchId = some status ∧ txStatusFromBatch status = some st := by
  unfold announce
  split
  · exact ⟨.refl t, fun r hr => by cases hr⟩
  · rename_i status hstatus
    obtain ⟨hforgets, hreplies⟩ := t.sendPendingWaiters_spec batchId status
    refine ⟨hforgets, fun r hr => ?_⟩
    obtain ⟨channel, st, rfl, hst⟩ := hreplies r hr
    exact ⟨channel, status, st, rfl, hstatus, hst⟩

/-! ## Resolving -/

/-- What resolving batches may do to the tables: every new status and every reply is the status the
digests of its batch had in `t`. -/
structure Resolves (display : D → String) (t t' : Tables D) (replies : List (Reply D)) : Prop where
  batchDigests : t'.batchDigests.Sub t.batchDigests
  digestOutcomes : t'.digestOutcomes.Sub t.digestOutcomes
  statuses : ∀ id st, t'.statuses.get id = some st → t.statuses.get id = some st ∨
    ∃ ds, t.batchDigests.get id = some ds ∧ batchStatusFromOutcomes display ds t.digestOutcomes = some st
  replies : ∀ r ∈ replies, ∃ id channel st ds status, r = .result id channel st ∧
    t.batchDigests.get id = some ds ∧ batchStatusFromOutcomes display ds t.digestOutcomes = some status ∧
    txStatusFromBatch status = some st

theorem Resolves.refl (t : Tables D) : Resolves display t t [] :=
  ⟨.refl _, .refl _, fun _ _ h => .inl h, fun r hr => by cases hr⟩

theorem Resolves.trans {t₁ t₂ t₃ : Tables D} {r r' : List (Reply D)} (h : Resolves display t₁ t₂ r)
    (h' : Resolves display t₂ t₃ r') : Resolves display t₁ t₃ (r ++ r') := by
  -- a status of the later tables is one of the earlier ones, which have more digests and outcomes
  have back : ∀ {id ds status}, t₂.batchDigests.get id = some ds →
      batchStatusFromOutcomes display ds t₂.digestOutcomes = some status →
      t₁.batchDigests.get id = some ds ∧ batchStatusFromOutcomes display ds t₁.digestOutcomes = some status :=
    fun hd hs => ⟨h.batchDigests _ _ hd, batchStatusFromOutcomes_mono h.digestOutcomes hs⟩
  constructor
  · exact h'.batchDigests.trans h.batchDigests
  · exact h'.digestOutcomes.trans h.digestOutcomes
  · intro id st hst
    rcases h'.statuses id st hst with hst | ⟨ds, hd, hs⟩
    · exact h.statuses id st hst
    · exact .inr ⟨ds, back hd hs⟩
  · intro reply hr
    rcases List.mem_append.1 hr with hr | hr
    · exact h.replies reply hr
    · obtain ⟨id, channel, st, ds, status, rfl, hd, hs, htx⟩ := h'.replies reply hr
      exact ⟨id, channel, st, ds, status, rfl, (back hd hs).1, (back hd hs).2, htx⟩

theorem resolveBatchIfTerminal_resolves (t : Tables D) (batchId : String) :
    Resolves display t (t.resolveBatchIfTerminal display batchId).1 (t.resolveBatchIfTerminal display batchId).2 := by
  unfold resolveBatchIfTerminal
  split
  · exact .refl t
  rename_i digests hdigests
  split
  · exact .refl t
  rename_i status hstatus
  obtain ⟨hnew, hbd, -, hout, -⟩ := t.rememberStatus_spec batchId status
  simp only
  set t₁ := (t.rememberStatus batchId status).1
  obtain ⟨hann, hreplies⟩ := t₁.announce_spec batchId
  have hforgets := hann.trans (((t₁.announce batchId).1.forgetBatch_forgets batchId).trans
    (forgetExpiredBatches_forgets _ (t.rememberStatus batchId status).2))
  constructor
  · exact hbd ▸ hforgets.batchDigests
  · exact hout ▸ hforgets.digestOutcomes
  · intro id st hst
    rw [hforgets.statuses] at hst
    rcases hnew id st hst with ⟨rfl, rfl⟩ | ⟨-, hold⟩
    · exact .inr ⟨digests, hdigests, hstatus⟩
    · exact .inl hold
  · -- the waiters get the status just stored
    intro r hr
    obtain ⟨channel, stored, st, rfl, hstored, hst⟩ := hreplies r hr
    rcases hnew batchId stored hstored with ⟨-, rfl⟩ | ⟨hne, -⟩
    · exact ⟨batchId, channel, st, digests, stored, rfl, hdigests, hstatus, hst⟩
    · exact absurd rfl hne

theorem resolveAll_resolves : ∀ (batchIds : List String) (t : Tables D),
    Resolves display t (t.resolveAll display batchIds).1 (t.resolveAll display batchIds).2
  | [], t => .refl t
  | batchId :: batchIds, t => by
    rw [resolveAll]
    exact (t.resolveBatchIfTerminal_resolves batchId).trans (resolveAll_resolves batchIds _)

end Tables

end Constantinople.Mempool
