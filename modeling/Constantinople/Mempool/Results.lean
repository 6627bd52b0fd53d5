/-
What a client that waits for its batch is told. Those who wait for a batch are channels of submissions of
that batch, so a result reaches a client that submitted it; and a result says that the batch was given up, or
what a sound status of it says.
-/
import Constantinople.Mempool.Reports
import Constantinople.Mempool.Waiters

namespace Constantinople.Mempool

open Constantinople Run

variable {C D : Type}

/-- A submission of the batch brought the channel. -/
def Seen.Asks (seen : Seen C D) (id : String) (channel : Channel) : Prop :=
  ∃ batch ∈ seen.submissions, batch.batchId = id ∧ batch.result = some channel

/-- What a result may say of a batch. -/
def Seen.Backs (cfg : Config C D) (seen : Seen C D) (id : String) (st : TxStatus) : Prop :=
  st = .dropped ∨ ∃ status, txStatusFromBatch status = some st ∧ seen.Sound cfg id status

theorem Seen.Asks.mono {seen seen' : Seen C D} (hsub : seen.Sub seen') {id : String} {channel : Channel}
    (h : seen.Asks id channel) : seen'.Asks id channel := by
  obtain ⟨batch, hbatch, hasks⟩ := h
  exact ⟨batch, hsub.submissions batch hbatch, hasks⟩

theorem result_mem_answers {id : String} {channel : Channel} {st : TxStatus} {replies : List (Reply D)}
    (h : .result id channel st ∈ replies) : (channel, st) ∈ answers id replies :=
  List.mem_filterMap.2 ⟨_, h, if_pos rfl⟩

/-! ## Submissions -/

theorem Tables.mem_waiters_pushWaiter {t : Tables D} {batchId id : String} {channel c : Channel}
    (h : c ∈ (t.pushWaiter batchId channel).waiters id) : c ∈ t.waiters id ∨ (id = batchId ∧ c = channel) := by
  unfold waiters pushWaiter at h
  rw [Assoc.get_insert] at h
  split at h
  · rename_i heq
    subst heq
    rcases List.mem_append.1 h with hold | hnew
    · exact .inl hold
    · exact .inr ⟨rfl, List.mem_singleton.1 hnew⟩
  · exact .inl h

section Submissions

variable [DecidableEq D] {cfg : Config C D} {s : Actor D} {batch : Submission D}

theorem mem_waiters_trackBatch {t : Tables D} {id : String} {channel : Channel}
    (h : channel ∈ (Actor.trackBatch cfg t batch).waiters id) :
    channel ∈ t.waiters id ∨ (id = batch.batchId ∧ batch.result = some channel) := by
  -- expired batches are forgotten with their waiters, and nothing else changes who waits
  have hforgets : ∀ {t' : Tables D} {expired : List String},
      channel ∈ (t'.forgetExpiredBatches expired).waiters id → t'.pendingWaiters = t.pendingWaiters →
      channel ∈ t.waiters id := by
    intro t' expired hmem hsame
    unfold Tables.waiters at hmem ⊢
    cases hget : (t'.forgetExpiredBatches expired).pendingWaiters.get id with
    | none =>
      rw [hget] at hmem
      cases hmem
    | some channels =>
      rw [← hsame, (t'.forgetExpiredBatches_keepsOthers expired).1.fewerWaiters _ _ hget, ← hget]
      exact hmem
  unfold Actor.trackBatch at h
  simp only at h
  split at h
  · exact .inl (hforgets h rfl)
  · rename_i result hresult
    rcases Tables.mem_waiters_pushWaiter h with hold | ⟨rfl, rfl⟩
    · exact .inl (hforgets hold rfl)
    · exact .inr ⟨rfl, hresult⟩

theorem mem_waiters_submit {id : String} {channel : Channel} (h : channel ∈ (s.submit cfg batch).1.tables.waiters id) :
    channel ∈ s.tables.waiters id ∨ (id = batch.batchId ∧ batch.result = some channel) := by
  cases hstatus : s.tables.statuses.get batch.batchId with
  | none =>
    by_cases hroom : s.Refuses cfg batch
    · rw [submit_refused hroom] at h
      exact .inl h
    · obtain ⟨-, -, htables, -⟩ := submit_new hstatus hroom
      rw [htables] at h
      exact mem_waiters_trackBatch h
  | some status =>
    rw [submit_known hstatus, Actor.resubmit] at h
    split at h
    · exact .inl h
    rename_i result hresult
    split at h
    · exact .inl h
    · rcases Tables.mem_waiters_pushWaiter h with hold | ⟨rfl, rfl⟩
      · exact .inl hold
      · exact .inr ⟨rfl, hresult⟩

/-- A submission is answered on its own channel: it is refused, or its batch has a status already. -/
theorem submit_result {id : String} {channel : Channel} {st : TxStatus}
    (h : .result id channel st ∈ (s.submit cfg batch).2) : id = batch.batchId ∧ batch.result = some channel ∧
      (st = .dropped ∨ ∃ status, s.tables.statuses.get id = some status ∧ txStatusFromBatch status = some st) := by
  have hingest : ∀ {status : IngestStatus},
      (.result id channel st : Reply D) ∉ Actor.sendTo batch.ingestResult (.ingest · status) := by
    rintro status hmem
    obtain ⟨c, hc⟩ := Actor.sendTo_result hmem
    cases hc
  cases hstatus : s.tables.statuses.get batch.batchId with
  | none =>
    by_cases hroom : s.Refuses cfg batch
    · rw [submit_refused hroom, List.mem_append] at h
      rcases h with hdropped | hmem
      · cases hresult : batch.result with
        | none =>
          rw [hresult] at hdropped
          cases hdropped
        | some result =>
          rw [hresult] at hdropped
          cases List.mem_singleton.1 hdropped
          exact ⟨rfl, rfl, .inl rfl⟩
      · exact absurd hmem hingest
    · obtain ⟨-, -, -, hreplies, -⟩ := submit_new hstatus hroom
      rw [hreplies] at h
      exact absurd h hingest
  | some status =>
    rw [submit_known hstatus, Actor.resubmit] at h
    split at h
    · exact absurd h hingest
    rename_i result hresult
    split at h
    · rename_i st' hst
      rcases List.mem_append.1 h with hmem | hmem
      · exact absurd hmem hingest
      · cases List.mem_singleton.1 hmem
        exact ⟨rfl, hresult, .inr ⟨status, hstatus, hst⟩⟩
    · exact absurd h hingest

end Submissions

/-! ## Runs -/

variable [DecidableEq D] {cfg : Config C D}

/-- The history after a message. -/
def Seen.after (seen : Seen C D) (m : Message C D) : Seen C D :=
  ⟨seen.submissions ++ m.shows.submissions, seen.blocks ++ m.shows.blocks⟩

/-- The invariants of the actor, and where those who wait come from. -/
structure Answering (cfg : Config C D) (s : Witnessed C D) : Prop where
  pool : PoolInvariant cfg s.actor
  tracked : s.actor.tables.Tracked s.actor.live
  sourced : Sourced cfg s.seen s.actor.tables
  waiters : ∀ id, ∀ channel ∈ s.actor.tables.waiters id, s.seen.Asks id channel

theorem Answering.start (cfg : Config C D) : Answering cfg ⟨.new, ⟨[], []⟩⟩ where
  pool := poolInvariant_new cfg
  tracked := tracked_new
  sourced := sourced_trace cfg (.nil _)
  waiters id channel hmem := by cases hmem

omit [DecidableEq D] in
theorem Seen.sub_after (seen : Seen C D) (m : Message C D) : seen.Sub (seen.after m) :=
  ⟨fun _ hb => List.mem_append_left _ hb, fun _ hb => List.mem_append_left _ hb⟩

omit [DecidableEq D] in
/-- Resolving batches leaves nobody waiting who did not wait before, and answers only those who did. -/
theorem Tables.Settles.waiters {t t' : Tables D} {replies : List (Reply D)} (h : t.Settles t' replies) (id : String) :
    (∀ channel ∈ t'.waiters id, channel ∈ t.waiters id) ∧
      ∀ channel st, (channel, st) ∈ answers id replies → channel ∈ t.waiters id ∧
        ∃ status, t'.statuses.get id = some status ∧ txStatusFromBatch status = some st := by
  rcases h id with ⟨-, -, hw, ha⟩ | ⟨-, -, hw, status, st, hs, hst, ha⟩
  · constructor
    · intro channel hmem
      rwa [Tables.waiters, hw] at hmem
    · intro channel st hmem
      rw [ha] at hmem
      cases hmem
  · constructor
    · intro channel hmem
      rw [Tables.waiters, hw] at hmem
      cases hmem
    · intro channel st' hmem
      rw [ha] at hmem
      obtain ⟨c, hc, heq⟩ := List.mem_map.1 hmem
      cases heq
      exact ⟨hc, status, hs, hst⟩

/-- One message: the invariants stay, and each result it sends goes to one who asked and is sound. -/
theorem Answering.handle {s : Witnessed C D} (h : Answering cfg s) {m : Message C D} (hm : m.Measured) (order : HashOrder) :
    Answering cfg ⟨(s.actor.handle cfg order m).1, s.seen.after m⟩ ∧
      ∀ id channel st, .result id channel st ∈ (s.actor.handle cfg order m).2 →
        (s.seen.after m).Asks id channel ∧ (s.seen.after m).Backs cfg id st := by
  have hsub := s.seen.sub_after m
  have hstep : Witnessed.Step cfg s m ⟨(s.actor.handle cfg order m).1, s.seen.after m⟩ := ⟨order, rfl⟩
  have hsourced := hstep.sourced h.sourced
  have hpool := handle_invariant hm order h.pool
  have htracked := (handle_tracked hm order h.pool h.tracked).1
  have hold : ∀ id, ∀ channel ∈ s.actor.tables.waiters id, (s.seen.after m).Asks id channel :=
    fun id channel hmem => (h.waiters id channel hmem).mono hsub
  have hsilent : ∀ {reply : Reply D} {id channel st}, reply ≠ .result id channel st → (.result id channel st) ∉ [reply] :=
    fun hne hmem => hne (List.mem_singleton.1 hmem).symm
  cases m with
  | submit batch =>
    have hasks : ∀ {id channel}, id = batch.batchId ∧ batch.result = some channel →
        (s.seen.after (.submit batch)).Asks id channel :=
      fun hmine => ⟨batch, List.mem_append_right _ (List.mem_singleton_self _), hmine.1.symm, hmine.2⟩
    refine ⟨⟨hpool, htracked, hsourced, ?_⟩, ?_⟩
    · intro id channel hmem
      exact (mem_waiters_submit hmem).elim (hold id channel) hasks
    · intro id channel st hmem
      obtain ⟨hid, hresult, hst⟩ := submit_result hmem
      refine ⟨hasks ⟨hid, hresult⟩, hst.imp_right ?_⟩
      rintro ⟨status, hstatus, hst⟩
      exact ⟨status, hst, (h.sourced.statuses id status hstatus).mono hsub⟩
  | reportBlock block ack =>
    have hsettles := (reportBlock_tracked cfg order block ack h.tracked).2
    refine ⟨⟨hpool, htracked, hsourced, ?_⟩, ?_⟩
    · intro id channel hmem
      exact hold id channel ((hsettles.waiters id).1 channel hmem)
    · intro id channel st hmem
      obtain ⟨hwaits, status, hstatus, hst⟩ := (hsettles.waiters id).2 channel st (result_mem_answers hmem)
      exact ⟨hold id channel hwaits, .inr ⟨status, hst, hsourced.statuses id status hstatus⟩⟩
  | propose height response => exact ⟨⟨hpool, htracked, hsourced, hold⟩, fun id channel st hmem => absurd hmem (hsilent nofun)⟩
  | queryStatus batchId response =>
    exact ⟨⟨hpool, htracked, hsourced, hold⟩, fun id channel st hmem => absurd hmem (hsilent nofun)⟩
  | queryConsensusRound response =>
    exact ⟨⟨hpool, htracked, hsourced, hold⟩, fun id channel st hmem => absurd hmem (hsilent nofun)⟩
  | reportTip round => exact ⟨⟨hpool, htracked, hsourced, hold⟩, fun id channel st hmem => nomatch hmem⟩

theorem Answering.trace {ms : List (Message C D)} {s s' : Witnessed C D} (h : Answering cfg s)
    (hms : ∀ m ∈ ms, m.Measured) (htrace : Trace (Witnessed.Step cfg) s ms s') : Answering cfg s' := by
  induction htrace with
  | nil => exact h
  | cons head tail ih =>
    obtain ⟨hm, hms⟩ := List.forall_mem_cons.1 hms
    obtain ⟨order, rfl⟩ := head
    exact ih (h.handle hm order).1 hms

omit [DecidableEq D] in
theorem Message.shows_submissions {m : Message C D} {batch : Submission D} (h : batch ∈ m.shows.submissions) :
    m = .submit batch := by
  cases m with
  | submit batch' => rw [List.mem_singleton.1 h]
  | _ => cases h

omit [DecidableEq D] in
theorem Message.shows_blocks {m : Message C D} {block : SealedBlock C D} (h : block ∈ m.shows.blocks) :
    ∃ ack, m = .reportBlock block ack := by
  cases m with
  | reportBlock block' ack => exact ⟨ack, by rw [List.mem_singleton.1 h]⟩
  | _ => cases h

/-- The history holds what the messages brought. -/
theorem seen_trace {ms : List (Message C D)} {s s' : Witnessed C D} (h : Trace (Witnessed.Step cfg) s ms s') :
    (∀ batch ∈ s'.seen.submissions, batch ∈ s.seen.submissions ∨ .submit batch ∈ ms) ∧
      ∀ block ∈ s'.seen.blocks, block ∈ s.seen.blocks ∨ ∃ ack, .reportBlock block ack ∈ ms := by
  induction h with
  | nil => exact ⟨fun batch hb => .inl hb, fun block hb => .inl hb⟩
  | cons head tail ih =>
    obtain ⟨order, rfl⟩ := head
    obtain ⟨hsubmissions, hblocks⟩ := ih
    constructor
    · intro batch hb
      rcases hsubmissions batch hb with hb | hb
      · rcases List.mem_append.1 hb with hb | hb
        · exact .inl hb
        · exact .inr (Message.shows_submissions hb ▸ List.mem_cons_self ..)
      · exact .inr (List.mem_cons_of_mem _ hb)
    · intro block hb
      rcases hblocks block hb with hb | ⟨ack, hb⟩
      · rcases List.mem_append.1 hb with hb | hb
        · exact .inl hb
        · obtain ⟨ack, rfl⟩ := Message.shows_blocks hb
          exact .inr ⟨ack, List.mem_cons_self ..⟩
      · exact .inr ⟨ack, List.mem_cons_of_mem _ hb⟩

end Constantinople.Mempool
