/-
The pool invariant. A digest the actor holds is in one place, a pool entry or a proposed batch; the
known digests are exactly those; every entry has the size of its transactions and the pool the size of
its entries, within the limit. A batch the full pool refuses leaves no trace.
-/
import Constantinople.Mempool.Handlers
import Constantinople.Mempool.Http
import Constantinople.Lib.Run

namespace Constantinople.Mempool

open Constantinople Run
open scoped List

variable {C D : Type}

/-! ## The invariant -/

def PoolEntry.digests (e : PoolEntry D) : List D := e.transactions.map SignedTransaction.messageDigest

/-- The digests waiting in the pool. -/
def Actor.pooled (s : Actor D) : List D := s.pool.flatMap PoolEntry.digests

/-- The digests in the pool and in proposed batches. -/
def Actor.live (s : Actor D) : List D := s.pooled ++ s.proposed.flatMap ProposedBatch.digests

structure PoolInvariant (cfg : Config C D) (s : Actor D) : Prop where
  nodup : s.live.Nodup
  known : ∀ d, d ∈ s.knownDigests ↔ d ∈ s.live
  entries : ∀ e ∈ s.pool, e.transactions ≠ [] ∧ e.totalBytes = totalBytesFor e.transactions
  bytes : s.poolBytes = (s.pool.map PoolEntry.totalBytes).sum
  bound : s.poolBytes ≤ cfg.maxPoolBytes

theorem totalBytesFor_mono {ts ts' : List (SignedTransaction D)} (h : ts.Sublist ts') :
    totalBytesFor ts ≤ totalBytesFor ts' :=
  (h.map _).sum_le_sum fun _ _ => Nat.zero_le _

variable [DecidableEq D]

/-- The message the actor handles in some hash order. -/
def Actor.Step (cfg : Config C D) (s : Actor D) (m : Message C D) (s' : Actor D) : Prop :=
  ∃ order, s' = (s.handle cfg order m).1

/-- A submitted batch carries what the request handlers computed. -/
def Message.Measured : Message C D → Prop
  | .submit batch => batch.Measured
  | _ => True

section Steps

variable {cfg : Config C D} {s : Actor D}

/-! ## Submissions -/

omit [DecidableEq D] in
/-- The invariant looks at the pool, the queue and the known digests only. -/
theorem PoolInvariant.of_frame {s' : Actor D} (h : PoolInvariant cfg s) (hpool : s'.pool = s.pool)
    (hbytes : s'.poolBytes = s.poolBytes) (hproposed : s'.proposed = s.proposed)
    (hknown : s'.knownDigests = s.knownDigests) : PoolInvariant cfg s' := by
  have hlive : s'.live = s.live := by simp only [Actor.live, Actor.pooled, hpool, hproposed]
  exact ⟨hlive ▸ h.nodup, by rw [hknown, hlive]; exact h.known, hpool ▸ h.entries, by rw [hbytes, hpool]; exact h.bytes,
    hbytes ▸ h.bound⟩

theorem submit_invariant {batch : Submission D} (hm : batch.Measured) (h : PoolInvariant cfg s) :
    PoolInvariant cfg (s.submit cfg batch).1 := by
  by_cases hnew : s.tables.statuses.get batch.batchId = none
  · by_cases hroom : s.Refuses cfg batch
    · rwa [submit_refused hroom]
    obtain ⟨hknown, hproposed, -, -, hpool⟩ := submit_new hnew hroom
    obtain ⟨hnd, hfresh, hall, hsub, -⟩ := newTransactions_spec batch.transactions s.knownDigests
    set accepted := (newTransactions batch.transactions s.knownDigests).1
    rcases hpool with ⟨hnil, hpool, hbytes⟩ | ⟨hne, hpool, hbytes, hbound⟩
    · refine h.of_frame hpool hbytes hproposed ?_
      ext d
      rw [hknown, hall, hnil]
      simp
    · have htotal : min (totalBytesFor accepted) batch.totalBytes = totalBytesFor accepted := by
        rw [hm.totalBytes]
        exact min_eq_left (totalBytesFor_mono hsub)
      -- the new digests stand between the pool's and the queue's
      have hperm : (s.submit cfg batch).1.live.Perm
          (s.live ++ accepted.map SignedTransaction.messageDigest) := by
        simp only [Actor.live, Actor.pooled, hpool, hproposed, List.flatMap_append, List.flatMap_cons,
          List.flatMap_nil, List.append_nil, PoolEntry.digests, List.append_assoc]
        exact List.perm_append_comm.append_left _
      constructor
      · refine hperm.nodup_iff.2 (List.nodup_append.2 ⟨h.nodup, hnd, ?_⟩)
        intro d hd d' hd' heq
        obtain ⟨t, ht, rfl⟩ := List.mem_map.1 hd'
        exact hfresh t ht ((h.known _).2 (heq ▸ hd))
      · intro d
        rw [hknown, hall, hperm.mem_iff, List.mem_append, h.known]
      · intro e he
        rw [hpool] at he
        rcases List.mem_append.1 he with he | he
        · exact h.entries e he
        · rw [List.mem_singleton.1 he]
          exact ⟨hne, htotal⟩
      · rw [hbytes, hpool, List.map_append, List.sum_append, h.bytes]
        simp
      · rw [hbytes]; exact hbound
  · obtain ⟨status, hstatus⟩ := Option.ne_none_iff_exists'.1 hnew
    obtain ⟨waiters, heq⟩ := submit_known_frame cfg hstatus
    rw [heq]
    exact h.of_frame rfl rfl rfl rfl

/-! ## Proposals and reports -/

variable (cfg s) in
omit [DecidableEq D] in
/-- A proposal moves entries from the pool to the queue, with their digests. -/
theorem propose_moves (height : UInt64) (response : Channel) :
    ∃ taken, s.pool = taken ++ (s.propose cfg height response).1.pool ∧
      (s.propose cfg height response).1.poolBytes = s.poolBytes - (taken.map PoolEntry.totalBytes).sum ∧
      (s.propose cfg height response).1.live.Perm s.live := by
  obtain ⟨taken, hpool, hbytes, hproposed, -⟩ := Actor.proposeLoop_spec cfg height s.pool s.poolBytes s.proposed [] 0
  set s' := (s.propose cfg height response).1 with hs'
  replace hpool : s.pool = taken ++ s'.pool := hpool
  replace hproposed : s'.proposed = s.proposed ++ taken.map fun e => ⟨height, e.digests⟩ := hproposed
  refine ⟨taken, hpool, hbytes, ?_⟩
  have hqueue : s'.proposed.flatMap ProposedBatch.digests =
      s.proposed.flatMap ProposedBatch.digests ++ taken.flatMap PoolEntry.digests := by
    rw [hproposed, List.flatMap_append, List.flatMap_map]
  have hfront : s.pooled = taken.flatMap PoolEntry.digests ++ s'.pooled := by
    rw [Actor.pooled, hpool, List.flatMap_append]
    rfl
  calc s'.pooled ++ s'.proposed.flatMap ProposedBatch.digests
      = s'.pooled ++ (s.proposed.flatMap ProposedBatch.digests ++ taken.flatMap PoolEntry.digests) := by rw [hqueue]
    _ ~ s'.pooled ++ (taken.flatMap PoolEntry.digests ++ s.proposed.flatMap ProposedBatch.digests) :=
        List.perm_append_comm.append_left _
    _ = s'.pooled ++ taken.flatMap PoolEntry.digests ++ s.proposed.flatMap ProposedBatch.digests := by
        rw [List.append_assoc]
    _ ~ taken.flatMap PoolEntry.digests ++ s'.pooled ++ s.proposed.flatMap ProposedBatch.digests :=
        List.perm_append_comm.append_right _
    _ = s.live := by rw [Actor.live, hfront]

omit [DecidableEq D] in
theorem propose_invariant (height : UInt64) (response : Channel) (h : PoolInvariant cfg s) :
    PoolInvariant cfg (s.propose cfg height response).1 := by
  obtain ⟨taken, hpool, hbytes, hperm⟩ := propose_moves cfg s height response
  set s' := (s.propose cfg height response).1
  have hsum : s.poolBytes = (taken.map PoolEntry.totalBytes).sum + (s'.pool.map PoolEntry.totalBytes).sum := by
    rw [h.bytes, hpool, List.map_append, List.sum_append]
  constructor
  · exact hperm.nodup_iff.2 h.nodup
  · intro d
    exact (h.known d).trans hperm.mem_iff.symm
  · intro e he
    exact h.entries e (hpool ▸ List.mem_append_right taken he)
  · omega
  · have := h.bound
    omega

variable (cfg) in
theorem reportLoop_pool (order : HashOrder) (height : UInt64) (finalized : List D) (batches : List (ProposedBatch D))
    (i : Nat) (s : Actor D) :
    (Actor.reportLoop cfg order height finalized i s batches).1.pool = s.pool ∧
      (Actor.reportLoop cfg order height finalized i s batches).1.poolBytes = s.poolBytes := by
  refine Actor.reportLoop_invariant (I := fun s' => s'.pool = s.pool ∧ s'.poolBytes = s.poolBytes) cfg ?_ batches i
    ⟨rfl, rfl⟩
  rintro i s₁ s₂ batch replies ⟨hpool, hbytes⟩ hsome
  obtain ⟨hpool', hbytes', -⟩ := Actor.reportBatch_frame cfg hsome
  exact ⟨hpool'.trans hpool, hbytes'.trans hbytes⟩

variable (cfg) in
/-- A report with the digests of `kept` elsewhere: what it settles is known no longer, what remains is. -/
theorem reportLoop_known (order : HashOrder) (height : UInt64) (finalized : List D) {kept : List D} :
    ∀ (batches : List (ProposedBatch D)) (i : Nat) (s : Actor D),
      (kept ++ batches.flatMap ProposedBatch.digests).Nodup →
      (∀ d, d ∈ s.knownDigests ↔ d ∈ kept ++ batches.flatMap ProposedBatch.digests) →
      let r := Actor.reportLoop cfg order height finalized i s batches
      (kept ++ r.2.1.flatMap ProposedBatch.digests).Nodup ∧
      ∀ d, d ∈ r.1.knownDigests ↔ d ∈ kept ++ r.2.1.flatMap ProposedBatch.digests
  | [], _, s, hnd, hknown => ⟨hnd, hknown⟩
  | batch :: batches, i, s, hnd, hknown => by
    rw [List.flatMap_cons] at hnd hknown
    simp only [Actor.reportLoop]
    split
    · -- a batch that remains counts as kept for the rest of the queue
      rw [← List.append_assoc] at hnd hknown
      have ih := reportLoop_known order height finalized batches (i + 1) s hnd hknown
      simpa only [List.flatMap_cons, List.append_assoc] using ih
    · rename_i s' new hsome
      obtain ⟨-, -, -, hknown'⟩ := Actor.reportBatch_frame cfg hsome
      have hsub : (kept ++ batches.flatMap ProposedBatch.digests).Sublist
          (kept ++ (batch.digests ++ batches.flatMap ProposedBatch.digests)) :=
        (List.sublist_append_right _ _).append_left _
      have hgone : ∀ d, d ∈ s'.knownDigests ↔ d ∈ kept ++ batches.flatMap ProposedBatch.digests := by
        intro d
        obtain ⟨-, htail, hkept⟩ := List.nodup_append.1 hnd
        obtain ⟨-, -, hrest⟩ := List.nodup_append.1 htail
        rw [hknown', hknown, List.mem_append, List.mem_append, List.mem_append]
        constructor
        · rintro ⟨hd | hd | hd, hnot⟩
          · exact .inl hd
          · exact absurd hd hnot
          · exact .inr hd
        · rintro (hd | hd)
          · exact ⟨.inl hd, fun hb => hkept d hd d (List.mem_append_left _ hb) rfl⟩
          · exact ⟨.inr (.inr hd), fun hb => hrest d hb d hd rfl⟩
      exact reportLoop_known order height finalized batches (i + 1) s' (hsub.nodup hnd) hgone

theorem reportBlock_invariant (order : HashOrder) (block : SealedBlock C D) (ack : Channel) (h : PoolInvariant cfg s) :
    PoolInvariant cfg (s.reportBlock cfg order block ack).1 := by
  set s₀ : Actor D := { s with
    highestConsensusRound := max s.highestConsensusRound (rotationRound (cfg.round block.inner.header.context))
    proposed := [] }
  obtain ⟨hpool, hbytes⟩ := reportLoop_pool cfg order block.inner.header.height (bodyDigests cfg.env block.inner.body)
    s.proposed 0 s₀
  obtain ⟨hnd, hknown⟩ := reportLoop_known cfg order block.inner.header.height
    (bodyDigests cfg.env block.inner.body) s.proposed 0 s₀ h.nodup h.known
  set r := Actor.reportLoop cfg order block.inner.header.height (bodyDigests cfg.env block.inner.body) 0 s₀ s.proposed
  have hlive : (s.reportBlock cfg order block ack).1.live = s.pooled ++ r.2.1.flatMap ProposedBatch.digests := by
    show r.1.pool.flatMap PoolEntry.digests ++ r.2.1.flatMap ProposedBatch.digests = _
    rw [hpool]
    rfl
  constructor
  · exact hlive ▸ hnd
  · rw [hlive]; exact hknown
  · exact hpool ▸ h.entries
  · show r.1.poolBytes = (r.1.pool.map PoolEntry.totalBytes).sum
    rw [hbytes, hpool]
    exact h.bytes
  · exact hbytes ▸ h.bound

theorem handle_invariant {m : Message C D} (hm : m.Measured) (order : HashOrder) (h : PoolInvariant cfg s) :
    PoolInvariant cfg (s.handle cfg order m).1 := by
  cases m with
  | submit batch => exact submit_invariant hm h
  | propose height response => exact propose_invariant height response h
  | reportBlock block ack => exact reportBlock_invariant order block ack h
  | queryStatus batchId response => exact h
  | queryConsensusRound response => exact h
  | reportTip round => exact h.of_frame rfl rfl rfl rfl

end Steps

/-! ## Runs -/

omit [DecidableEq D] in
theorem poolInvariant_new (cfg : Config C D) : PoolInvariant cfg .new :=
  ⟨List.nodup_nil, fun d => by simp [Actor.new, Actor.live, Actor.pooled], List.forall_mem_nil _, rfl, Nat.zero_le _⟩

/-- In every run whose batches carry the digests and sizes the request handlers compute, the pool
invariant holds; and a batch refused for want of room leaves the actor as it was. -/
theorem pool_invariant (cfg : Config C D) {ms : List (Message C D)} {s : Actor D}
    (h : Trace (fun s m s' => m.Measured ∧ Actor.Step cfg s m s') .new ms s) :
    PoolInvariant cfg s ∧
      ∀ (order : HashOrder) (batch : Submission D), s.Refuses cfg batch → (s.handle cfg order (.submit batch)).1 = s := by
  constructor
  · refine Trace.invariant (I := PoolInvariant cfg) (fun s m s' hs hstep => ?_) ?_ h
    · obtain ⟨hm, order, rfl⟩ := hstep
      exact handle_invariant hm order hs
    · exact poolInvariant_new cfg
  · intro order batch hrefuses
    exact congrArg Prod.fst (submit_refused hrefuses)

set_option maxRecDepth 20000 in
theorem tallySubmission_measured (batchId : String) (digest : Nat) (result ingestResult : Option Channel) :
    (tallySubmission batchId digest result ingestResult).Measured :=
  ⟨List.cons_ne_nil _ _, rfl, rfl⟩

set_option maxRecDepth 20000 in
/-- One batch fills a pool of 200 bytes; the next one is refused. -/
theorem pool_invariant_sample :
    let cfg := { tallyConfig with maxPoolBytes := 200 }
    let s := ((Actor.new : Actor Nat).handle cfg .insertion (.submit (tallySubmission "first" 1 none (some 0)))).1
    s.live = [1] ∧ PoolInvariant cfg s ∧
      s.handle cfg .insertion (.submit (tallySubmission "second" 2 none (some 1))) = (s, [.ingest 1 .dropped]) := by
  intro cfg s
  have htrace : Trace (fun s m s' => m.Measured ∧ Actor.Step cfg s m s') .new
      [.submit (tallySubmission "first" 1 none (some 0))] s :=
    .cons ⟨tallySubmission_measured .., .insertion, rfl⟩ (.nil s)
  obtain ⟨hinv, hrefused⟩ := pool_invariant cfg htrace
  refine ⟨rfl, hinv, Prod.ext (hrefused .insertion (tallySubmission "second" 2 none (some 1)) ⟨rfl, ?_, ?_⟩) rfl⟩
  · exact List.cons_ne_nil _ _
  · show 200 < 147 + 147
    decide

end Constantinople.Mempool
