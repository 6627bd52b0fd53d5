/-
The completions the committer signals. Every upload it received is in one of three places: in a batch
that is not marked persisted, among those that wait for the watermarks, or signalled. An upload is
signalled once both published watermarks have reached it, and these never pass an upload that is not
persisted. When the committer closes, the last flush reaches every upload it received.
-/
import Constantinople.Indexer.Watermarks

namespace Constantinople

open Run Watermark

/-- The published watermark has reached the upload numbered `i`. -/
def Writer.Reached (w : Writer) (i : Nat) : Prop := ∃ p, w.log.ends[i]? = some p ∧ w.published.any (p ≤ ·) = true

theorem Writer.Reached.mono {w w' : Writer} {i : Nat} (h : w.Reached i) (hl : w.log.Grows w'.log)
    (hp : ∃ watermark, w'.published = advance w.published watermark) : w'.Reached i := by
  obtain ⟨p, hend, hany⟩ := h
  obtain ⟨watermark, hp⟩ := hp
  refine ⟨p, hl.get hend, ?_⟩
  rw [hp]
  exact Log.advance_any hany watermark

/-- A flush reaches every upload before the first that is not persisted. -/
theorem Writer.reached_flush {w : Writer} {m n : Nat} (h : w.log.Publishes m w.published) (ho : w.log.Ordered)
    (hm : m ≤ w.log.ends.length) (hn : n ≤ w.log.ends.length) (hall : ∀ i < n, i ∈ w.log.persisted) {i : Nat} (hi : i < n) :
    (w.markFlushPersisted w.prepareFlush).Reached i := by
  have hend : w.log.ends[i]? = some w.log.ends[i] := List.getElem?_eq_getElem (by omega)
  have hcontiguous : n ≤ w.log.contiguous := Log.le_contiguous hn hall
  exact ⟨_, hend, h.flush_any ho hm (by omega) hend⟩

/-- The committer is about to exit, or has. -/
def CommitterPhase.closing : CommitterPhase → Bool
  | .completed closing => closing
  | .flushing closing _ _ => closing
  | .flushed closing => closing
  | .exited => true
  | _ => false

namespace Publishing

/-- The numbers of the uploads that wait for the watermarks, and of those signalled. -/
def settled (s : Publishing) : List Nat := s.pending.map PendingUploadCompletion.completion ++ s.signalled

/-- Both published watermarks have reached the upload. -/
def Reached (s : Publishing) (i : Nat) : Prop := s.stateWriter.Reached i ∧ s.transactionWriter.Reached i

structure Completions (s : Publishing) : Prop where
  heights : s.heights.Pairwise (· < ·)
  closed : s.rxClosed = true → s.channel = []
  closing : s.phase.closing = true → s.rxClosed = true ∧ s.inFlight = []
  accounted : (numbers s.unmarked ++ s.settled).Perm (List.range s.received)
  pending : ∀ p ∈ s.pending, s.stateWriter.log.ends[p.completion]? = some p.stateLatest ∧
    s.transactionWriter.log.ends[p.completion]? = some p.transactionLatest
  signalled : ∀ i ∈ s.signalled, s.Reached i
  flushing : ∀ state transactions, s.phase = .flushing true state transactions → ∀ i < s.received,
    (s.stateWriter.markFlushPersisted state).Reached i ∧ (s.transactionWriter.markFlushPersisted transactions).Reached i
  flushed : s.phase = .flushed true → ∀ i < s.received, s.Reached i
  exited : s.phase = .exited → s.pending = []

section Completions

variable {maxInFlight m : Nat} {s s' : Publishing}

theorem completions_connect (store : StoreWatermarks) : (connect store).Completions := by
  constructor
  · exact List.Pairwise.nil
  · exact fun _ => rfl
  · rintro ⟨⟩
  · exact .refl _
  · rintro p ⟨⟩
  · rintro i ⟨⟩
  · rintro state transactions ⟨⟩
  · rintro ⟨⟩
  · exact fun _ => rfl

/-- Events of the preparer and of the Store. -/
theorem Completions.of_frame (h : s.Completions) (hheights : s'.heights.Pairwise (· < ·))
    (hclosed : s'.rxClosed = true → s'.channel = []) (hrx : s.rxClosed = true → s'.rxClosed = true)
    (hstate : s.stateWriter.log.Grows s'.stateWriter.log ∧ s'.stateWriter.published = s.stateWriter.published)
    (htransactions : s.transactionWriter.log.Grows s'.transactionWriter.log ∧
      s'.transactionWriter.published = s.transactionWriter.published)
    (hreceived : s'.received = s.received) (hsettled : s'.pending = s.pending ∧ s'.signalled = s.signalled)
    (hinFlight : s'.inFlight.Perm s.inFlight) (hphase : s'.phase = s.phase) : s'.Completions := by
  obtain ⟨hs, hps⟩ := hstate
  obtain ⟨ht, hpt⟩ := htransactions
  obtain ⟨hpending, hsignalled⟩ := hsettled
  have hunmarked : s'.unmarked.Perm s.unmarked := by
    unfold unmarked
    rw [hphase]
    exact hinFlight.append_right _
  -- what was reached still is, also after a flush that is prepared
  have hmono : ∀ i, s.Reached i → s'.Reached i := fun i hi =>
    ⟨hi.1.mono hs ⟨none, hps⟩, hi.2.mono ht ⟨none, hpt⟩⟩
  constructor
  · exact hheights
  · exact hclosed
  · intro hclosing
    rw [hphase] at hclosing
    obtain ⟨hrx', hempty⟩ := h.closing hclosing
    exact ⟨hrx hrx', (hempty ▸ hinFlight).eq_nil⟩
  · rw [settled, hpending, hsignalled, hreceived]
    exact ((numbers_perm hunmarked).append_right _).trans h.accounted
  · intro p hp
    rw [hpending] at hp
    obtain ⟨hend, hend'⟩ := h.pending p hp
    exact ⟨hs.get hend, ht.get hend'⟩
  · intro i hi
    rw [hsignalled] at hi
    exact hmono i (h.signalled i hi)
  · intro state transactions hflushing i hi
    rw [hphase] at hflushing
    rw [hreceived] at hi
    obtain ⟨hreached, hreached'⟩ := h.flushing state transactions hflushing i hi
    refine ⟨hreached.mono hs ⟨none, ?_⟩, hreached'.mono ht ⟨none, ?_⟩⟩
    · exact congr_arg (advance · state) hps
    · exact congr_arg (advance · transactions) hpt
  · intro hflushed i hi
    rw [hphase] at hflushed
    rw [hreceived] at hi
    exact hmono i (h.flushed hflushed i hi)
  · intro hexited
    rw [hphase] at hexited
    rw [hpending]
    exact h.exited hexited

/-- While the committer is not closing, nothing is said about its last flush. -/
theorem completions_of_open (hopen : s.phase.closing = false) (hheights : s.heights.Pairwise (· < ·))
    (hclosed : s.rxClosed = true → s.channel = []) (haccounted : (numbers s.unmarked ++ s.settled).Perm (List.range s.received))
    (hpending : ∀ p ∈ s.pending, s.stateWriter.log.ends[p.completion]? = some p.stateLatest ∧
      s.transactionWriter.log.ends[p.completion]? = some p.transactionLatest)
    (hsignalled : ∀ i ∈ s.signalled, s.Reached i) : s.Completions := by
  refine ⟨hheights, hclosed, ?_, haccounted, hpending, hsignalled, ?_, ?_, ?_⟩
  · intro hclosing
    rw [hopen] at hclosing
    cases hclosing
  · intro state transactions hphase
    rw [hphase] at hopen
    cases hopen
  · intro hphase
    rw [hphase] at hopen
    cases hopen
  · intro hphase
    rw [hphase] at hopen
    cases hopen

theorem Completions.stage (h : s.Completions) (hl : s.Layout) (hphase : s.phase = .idle) {upload : StagedQmdbUpload}
    {channel : List StagedQmdbUpload} (hchannel : s.channel = upload :: channel) :
    ({ s with channel := channel, received := s.received + 1 }.stageAndSpawnCommit upload).Completions := by
  obtain ⟨hstaged, -⟩ := hl.stage hchannel
  set s' := { s with channel := channel, received := s.received + 1 }.stageAndSpawnCommit upload
  obtain ⟨batch, hbatch, hcommits⟩ : ∃ batch : QmdbCommitBatch, batch.upload = upload ∧ s'.commits = s.commits ++ [batch] :=
    ⟨_, rfl, rfl⟩
  obtain ⟨-, hunmarked⟩ := unmarked_spawn hcommits rfl rfl
  refine completions_of_open ?_ h.heights ?_ ?_ h.pending h.signalled
  · rw [show s'.phase = .idle from hphase]
    rfl
  · intro hrx
    have := h.closed hrx
    rw [hchannel] at this
    cases this
  · have hnumbers : (numbers s'.unmarked).Perm (s.received :: numbers s.unmarked) := by
      rw [← hstaged.completion, ← hbatch]
      exact numbers_perm hunmarked
    have hall := (hnumbers.append_right s.settled).trans (h.accounted.cons s.received)
    rw [show s'.received = s.received + 1 from rfl, List.range_succ]
    exact hall.trans (List.perm_append_singleton s.received _).symm

theorem Completions.join (h : s.Completions) (hphase : s.phase.batch = none) {i : Nat} {batch : QmdbCommitBatch}
    (hbatch : s.landed[i]? = some batch) :
    Completions { s with
      landed := s.landed.eraseIdx i
      stateWriter := s.stateWriter.markUploadPersisted batch.upload.state
      phase := .marking batch } := by
  have hgrows := s.stateWriter.log.grows_acknowledge batch.upload.state.index
  refine completions_of_open rfl h.heights h.closed ?_ h.pending ?_
  · refine ((numbers_perm ?_).append_right _).trans h.accounted
    apply And.right
    exact unmarked_join hbatch hphase rfl rfl rfl
  · intro j hj
    obtain ⟨hreached, hreached'⟩ := h.signalled j hj
    exact ⟨hreached.mono hgrows ⟨_, rfl⟩, hreached'⟩

theorem Completions.mark (h : s.Completions) (hl : s.Layout) {batch : QmdbCommitBatch} (hphase : s.phase = .marking batch) :
    Completions { s with
      stateWriter := s.stateWriter.markFlushPersisted batch.stateWatermark
      transactionWriter :=
        (s.transactionWriter.markUploadPersisted batch.upload.transactions).markFlushPersisted batch.transactionWatermark
      pending := s.pending ++ [⟨batch.upload.state.latestLocation, batch.upload.transactions.latestLocation,
        batch.upload.completion⟩]
      phase := .joined } := by
  have hmem : batch ∈ s.unmarked := by
    rw [unmarked_marking hphase]
    exact List.mem_append_right _ (List.mem_singleton_self batch)
  obtain ⟨-, hstaged⟩ := hl.batches batch hmem
  have hgrows := s.transactionWriter.log.grows_acknowledge batch.upload.transactions.index
  refine completions_of_open rfl h.heights h.closed ?_ ?_ ?_
  · -- the number moves from the batches to the pending completions
    have haccounted := h.accounted
    rw [unmarked_marking hphase, numbers, List.map_append, settled] at haccounted
    rw [unmarked_of_batch_none rfl]
    refine List.Perm.trans ?_ haccounted
    simp only [settled, numbers, List.map_append, List.map_cons, List.map_nil, List.append_assoc]
    refine List.Perm.append_left _ ?_
    rw [← List.append_assoc, ← List.append_assoc]
    exact List.perm_append_comm.append_right _
  · intro p hp
    rcases List.mem_append.1 hp with hp | hp
    · exact h.pending p hp
    · obtain rfl := List.mem_singleton.1 hp
      exact ⟨hstaged.state.latest, hstaged.transactions.latest⟩
  · intro j hj
    obtain ⟨hreached, hreached'⟩ := h.signalled j hj
    have hupload : (s.transactionWriter.markUploadPersisted batch.upload.transactions).Reached j :=
      hreached'.mono hgrows ⟨_, rfl⟩
    exact ⟨hreached.mono (.refl _) ⟨_, rfl⟩, hupload.mono (.refl _) ⟨_, rfl⟩⟩

/-! ## Signalling -/

theorem completePublished_perm (s : Publishing) : s.completePublished.settled.Perm s.settled := by
  unfold settled completePublished completePublishedUploads
  rw [List.partition_eq_filter_filter]
  dsimp only
  set ready := fun upload : PendingUploadCompletion => s.stateWriter.published.any (upload.stateLatest ≤ ·) &&
    s.transactionWriter.published.any (upload.transactionLatest ≤ ·)
  have hparts := (List.filter_append_perm ready s.pending).map PendingUploadCompletion.completion
  rw [List.map_append] at hparts
  refine List.Perm.trans ?_ (hparts.append_right _)
  rw [← List.append_assoc]
  exact (List.perm_append_comm.trans (List.append_assoc .. ▸ .refl _))

theorem mem_completePublished_pending {p : PendingUploadCompletion} (h : p ∈ s.completePublished.pending) :
    p ∈ s.pending ∧ ¬ (s.stateWriter.published.any (p.stateLatest ≤ ·) = true ∧
      s.transactionWriter.published.any (p.transactionLatest ≤ ·) = true) := by
  unfold completePublished completePublishedUploads at h
  rw [List.partition_eq_filter_filter] at h
  obtain ⟨hmem, hnot⟩ := List.mem_filter.1 h
  refine ⟨hmem, fun hready => ?_⟩
  simp [hready.1, hready.2] at hnot

theorem Completions.mem_signalled (h : s.Completions) {i : Nat} (hi : i ∈ s.completePublished.signalled) : s.Reached i := by
  unfold completePublished completePublishedUploads at hi
  rw [List.partition_eq_filter_filter] at hi
  rcases List.mem_append.1 hi with hi | hi
  · exact h.signalled i hi
  · obtain ⟨p, hp, rfl⟩ := List.mem_map.1 hi
    obtain ⟨hmem, hready⟩ := List.mem_filter.1 hp
    obtain ⟨hend, hend'⟩ := h.pending p hmem
    rw [Bool.and_eq_true] at hready
    exact ⟨⟨_, hend, hready.1⟩, ⟨_, hend', hready.2⟩⟩

/-- If the watermarks have reached every upload received, every completion is signalled. -/
theorem Completions.pending_eq_nil (h : s.Completions) (hall : ∀ i < s.received, s.Reached i) :
    s.completePublished.pending = [] := by
  rw [List.eq_nil_iff_forall_not_mem]
  intro p hp
  obtain ⟨hmem, hnot⟩ := mem_completePublished_pending hp
  have hsettled : p.completion ∈ numbers s.unmarked ++ s.settled :=
    List.mem_append_right _ (List.mem_append_left _ (List.mem_map_of_mem hmem))
  obtain ⟨⟨q, hend, hany⟩, ⟨q', hend', hany'⟩⟩ := hall _ (List.mem_range.1 (h.accounted.mem_iff.1 hsettled))
  obtain ⟨hlatest, hlatest'⟩ := h.pending p hmem
  rw [hlatest] at hend
  rw [hlatest'] at hend'
  cases hend
  cases hend'
  exact hnot ⟨hany, hany'⟩

theorem Completions.complete (h : s.Completions) {phase : CommitterPhase} (hbatch : s.phase.batch = none)
    (hbatch' : phase.batch = none) (hclosing : phase.closing = true → s.rxClosed = true ∧ s.inFlight = [])
    (hflush : phase.flush = none) (hflushed : phase ≠ .flushed true)
    (hexited : phase = .exited → s.completePublished.pending = []) :
    Completions { s.completePublished with phase := phase } := by
  refine ⟨h.heights, h.closed, hclosing, ?_, ?_, fun i hi => h.mem_signalled hi, ?_, fun hphase => absurd hphase hflushed,
    hexited⟩
  · have haccounted := h.accounted
    rw [unmarked_of_batch_none hbatch] at haccounted
    rw [unmarked_of_batch_none hbatch']
    exact ((completePublished_perm s).append_left _).trans haccounted
  · intro p hp
    exact h.pending p (mem_completePublished_pending hp).1
  · intro state transactions hphase
    rw [show phase = .flushing true state transactions from hphase] at hflush
    cases hflush

/-! ## The last flush -/

/-- With no commit left, a flush reaches every upload received. -/
theorem AlignedAt.reached_flush (h : s.AlignedAt m) (hl : s.Layout) (hbatch : s.phase.batch = none) (hempty : s.inFlight = [])
    {i : Nat} (hi : i < s.received) :
    (s.stateWriter.markFlushPersisted s.stateWriter.prepareFlush).Reached i ∧
      (s.transactionWriter.markFlushPersisted s.transactionWriter.prepareFlush).Reached i := by
  obtain ⟨hlens, hlent⟩ := hl.received_le
  have hstate : ∀ j < s.received, j ∈ s.stateWriter.log.persisted := by
    intro j hj
    rw [hl.stateMarked, hempty]
    exact ⟨hj, List.not_mem_nil⟩
  refine ⟨Writer.reached_flush h.state hl.stateOrdered (h.le.trans hlens) hlens hstate hi, ?_⟩
  refine Writer.reached_flush h.transactions hl.transactionOrdered (h.le.trans hlent) hlent (fun j hj => ?_) hi
  exact (hl.persisted_iff hbatch j).1 (hstate j hj)

theorem Completions.prepareFlush (h : s.Completions) (ha : s.AlignedAt m) (hl : s.Layout) {closing : Bool}
    (hphase : s.phase = .completed closing) :
    Completions { s with
      phase := if s.stateWriter.prepareFlush = none ∧ s.transactionWriter.prepareFlush = none then .flushed closing
        else .flushing closing s.stateWriter.prepareFlush s.transactionWriter.prepareFlush } := by
  have hbatch : s.phase.batch = none := congr_arg CommitterPhase.batch hphase
  have hclosing : closing = true → s.rxClosed = true ∧ s.inFlight = [] := by
    intro hclosing
    exact h.closing ((congr_arg CommitterPhase.closing hphase).trans hclosing)
  have haccounted : (numbers s.inFlight ++ s.settled).Perm (List.range s.received) := by
    have := h.accounted
    rwa [unmarked_of_batch_none hbatch] at this
  split
  · rename_i hnone
    refine ⟨h.heights, h.closed, hclosing, ?_, h.pending, h.signalled, ?_, ?_, ?_⟩
    · rw [unmarked_of_batch_none rfl]
      exact haccounted
    · rintro state transactions ⟨⟩
    · rintro ⟨⟩ i hi
      have hreached := ha.reached_flush hl hbatch (hclosing rfl).2 hi
      rw [hnone.1, hnone.2] at hreached
      exact hreached
    · rintro ⟨⟩
  · refine ⟨h.heights, h.closed, hclosing, ?_, h.pending, h.signalled, ?_, ?_, ?_⟩
    · rw [unmarked_of_batch_none rfl]
      exact haccounted
    · rintro state transactions ⟨⟩ i hi
      exact ha.reached_flush hl hbatch (hclosing rfl).2 hi
    · rintro ⟨⟩
    · rintro ⟨⟩

theorem Completions.landFlush (h : s.Completions) {closing : Bool} {state transactions : Option UInt64}
    (hphase : s.phase = .flushing closing state transactions) (store : StoreWatermarks) :
    Completions { s with
      store := store
      stateWriter := s.stateWriter.markFlushPersisted state
      transactionWriter := s.transactionWriter.markFlushPersisted transactions
      phase := .flushed closing } := by
  refine ⟨h.heights, h.closed, ?_, ?_, h.pending, ?_, ?_, ?_, ?_⟩
  · intro hclosing
    exact h.closing ((congr_arg CommitterPhase.closing hphase).trans hclosing)
  · have haccounted := h.accounted
    rw [unmarked_of_batch_none (congr_arg CommitterPhase.batch hphase)] at haccounted
    rw [unmarked_of_batch_none rfl]
    exact haccounted
  · intro i hi
    obtain ⟨hreached, hreached'⟩ := h.signalled i hi
    exact ⟨hreached.mono (.refl _) ⟨_, rfl⟩, hreached'.mono (.refl _) ⟨_, rfl⟩⟩
  · rintro state' transactions' ⟨⟩
  · rintro ⟨⟩ i hi
    exact h.flushing state transactions hphase i hi
  · rintro ⟨⟩

theorem Completions.step (h : s.Completions) (ha : s.AlignedAt m) (hl : s.Layout) {e : PublishingEvent}
    (hs : s.step maxInFlight e = some s') : s'.Completions := by
  cases e with
  | prepareState latest inBand =>
    obtain ⟨-, -, -, rfl⟩ := step_prepareState hs
    exact h.of_frame h.heights h.closed id ⟨Log.grows_append _ _, rfl⟩ ⟨.refl _, rfl⟩ rfl ⟨rfl, rfl⟩ (.refl _) rfl
  | prepareTransactions latest inBand =>
    obtain ⟨-, -, -, rfl⟩ := step_prepareTransactions hs
    exact h.of_frame h.heights h.closed id ⟨.refl _, rfl⟩ ⟨Log.grows_append _ _, rfl⟩ rfl ⟨rfl, rfl⟩ (.refl _) rfl
  | send height =>
    obtain ⟨state, transactions, -, -, hopen, hheight, rfl⟩ := step_send hs
    refine h.of_frame ?_ ?_ id ⟨.refl _, rfl⟩ ⟨.refl _, rfl⟩ rfl ⟨rfl, rfl⟩ (.refl _) rfl
    · refine List.pairwise_append.2 ⟨h.heights, List.pairwise_singleton _ _, fun a ha b hb => ?_⟩
      obtain rfl := List.mem_singleton.1 hb
      exact hheight a ha
    · intro hrx
      rw [show s.rxClosed = false from hopen] at hrx
      cases hrx
  | close =>
    obtain ⟨hchannel, rfl⟩ := step_close hs
    exact h.of_frame h.heights (fun _ => hchannel) (fun _ => rfl) ⟨.refl _, rfl⟩ ⟨.refl _, rfl⟩ rfl ⟨rfl, rfl⟩ (.refl _) rfl
  | receive =>
    obtain ⟨upload, channel, hchannel, hphase, rfl⟩ := step_receive hs
    exact h.stage hl hphase hchannel
  | attempt i =>
    obtain ⟨batch, -, rfl⟩ := step_attempt hs
    exact h.of_frame h.heights h.closed id ⟨.refl _, rfl⟩ ⟨.refl _, rfl⟩ rfl ⟨rfl, rfl⟩ (.refl _) rfl
  | land i =>
    obtain ⟨batch, hbatch, rfl⟩ := step_land hs
    exact h.of_frame h.heights h.closed id ⟨.refl _, rfl⟩ ⟨.refl _, rfl⟩ rfl ⟨rfl, rfl⟩ (inFlight_land hbatch) rfl
  | join i =>
    obtain ⟨batch, hbatch, hphase, rfl⟩ := step_join hs
    exact h.join (batch_of_joinable hphase) hbatch
  | mark =>
    obtain ⟨batch, hphase, rfl⟩ := step_mark hs
    exact h.mark hl hphase
  | complete =>
    obtain ⟨hphase, rfl⟩ := step_complete hs
    have hbatch := batch_of_joinable (.inr hphase)
    split
    · exact h.complete hbatch rfl (by rintro ⟨⟩) rfl (by rintro ⟨⟩) (by rintro ⟨⟩)
    · exact h.complete hbatch rfl (by rintro ⟨⟩) rfl (by rintro ⟨⟩) (by rintro ⟨⟩)
  | prepareFlush =>
    obtain ⟨closing, hphase, rfl⟩ := step_prepareFlush hs
    exact h.prepareFlush ha hl hphase
  | attemptFlush =>
    obtain ⟨closing, state, transactions, -, rfl⟩ := step_attemptFlush hs
    exact h.of_frame h.heights h.closed id ⟨.refl _, rfl⟩ ⟨.refl _, rfl⟩ rfl ⟨rfl, rfl⟩ (.refl _) rfl
  | landFlush =>
    obtain ⟨closing, state, transactions, hphase, rfl⟩ := step_landFlush hs
    exact h.landFlush hphase _
  | completeFlushed =>
    obtain ⟨closing, hphase, rfl⟩ := step_completeFlushed hs
    have hbatch : s.phase.batch = none := congr_arg CommitterPhase.batch hphase
    cases closing with
    | false => exact h.complete hbatch rfl (by rintro ⟨⟩) rfl (by rintro ⟨⟩) (by rintro ⟨⟩)
    | true =>
      exact h.complete hbatch rfl (fun _ => h.closing (congr_arg CommitterPhase.closing hphase)) rfl (by rintro ⟨⟩)
        fun _ => h.pending_eq_nil (h.flushed hphase)
  | finish =>
    obtain ⟨hphase, hrx, hempty, rfl⟩ := step_finish hs
    have hbatch := batch_of_joinable (.inl hphase)
    split
    · rename_i hnil
      exact h.complete hbatch rfl (fun _ => ⟨hrx, hempty⟩) rfl (by rintro ⟨⟩) fun _ => List.isEmpty_iff.1 hnil
    · exact h.complete hbatch rfl (fun _ => ⟨hrx, hempty⟩) rfl (by rintro ⟨⟩) (by rintro ⟨⟩)

/-! ## Exit -/

/-- How far the committer is from its exit, in each phase. -/
def rank : CommitterPhase → Nat
  | .exited => 0
  | .flushed true => 1
  | .flushing true _ _ => 2
  | .completed true => 3
  | .idle => 4
  | .flushed false => 5
  | .flushing false _ _ => 6
  | .completed false => 7
  | .joined => 8
  | .marking _ => 9

/-- What is left to do: commits to land and to join, and the phases up to the exit. -/
def remaining (s : Publishing) : Nat := 10 * (2 * s.commits.length + s.landed.length) + rank s.phase

/-- The events of the committer, once it receives no more uploads, and of the commits that succeed. -/
def proceeds : PublishingEvent → Bool
  | .land _ | .join _ | .mark | .complete | .prepareFlush | .landFlush | .completeFlushed | .finish => true
  | _ => false

theorem remaining_lt {e : PublishingEvent} (he : proceeds e = true) (hs : s.step maxInFlight e = some s') :
    s'.remaining < s.remaining ∧ s'.rxClosed = s.rxClosed := by
  unfold remaining
  cases e with
  | land i =>
    obtain ⟨batch, hbatch, rfl⟩ := step_land hs
    have hlen := (cons_eraseIdx_perm hbatch).length_eq
    refine ⟨?_, rfl⟩
    simp only [List.length_cons, List.length_append, List.length_nil] at hlen ⊢
    omega
  | join i =>
    obtain ⟨batch, hbatch, hphase, rfl⟩ := step_join hs
    have hlen := (cons_eraseIdx_perm hbatch).length_eq
    simp only [List.length_cons] at hlen
    refine ⟨?_, rfl⟩
    rw [← hlen]
    show 10 * (2 * s.commits.length + (s.landed.eraseIdx i).length) + 9 < _
    omega
  | mark =>
    obtain ⟨batch, hphase, rfl⟩ := step_mark hs
    rw [hphase]
    exact ⟨Nat.lt_succ_self _, rfl⟩
  | complete =>
    obtain ⟨hphase, rfl⟩ := step_complete hs
    rw [hphase]
    refine ⟨Nat.add_lt_add_left ?_ _, rfl⟩
    show rank (if _ then _ else _) < 8
    split <;> decide
  | prepareFlush =>
    obtain ⟨closing, hphase, rfl⟩ := step_prepareFlush hs
    rw [hphase]
    refine ⟨Nat.add_lt_add_left ?_ _, rfl⟩
    cases closing <;> dsimp only <;> split <;> simp [rank]
  | landFlush =>
    obtain ⟨closing, state, transactions, hphase, rfl⟩ := step_landFlush hs
    rw [hphase]
    refine ⟨Nat.add_lt_add_left ?_ _, rfl⟩
    cases closing <;> simp [rank]
  | completeFlushed =>
    obtain ⟨closing, hphase, rfl⟩ := step_completeFlushed hs
    rw [hphase]
    refine ⟨Nat.add_lt_add_left ?_ _, rfl⟩
    cases closing <;> simp [rank]
  | finish =>
    obtain ⟨hphase, -, -, rfl⟩ := step_finish hs
    rw [hphase]
    refine ⟨Nat.add_lt_add_left ?_ _, rfl⟩
    show rank (if _ then _ else _) < 4
    split <;> decide
  | prepareState | prepareTransactions | send | close | receive | attempt | attemptFlush => cases he

/-- Once the channel is closed, the committer is never stuck before its exit. -/
theorem exists_proceeds (maxInFlight : Nat) (hrx : s.rxClosed = true) (hexited : s.phase ≠ .exited) :
    ∃ e, proceeds e = true ∧ (s.step maxInFlight e).isSome = true := by
  cases hphase : s.phase with
  | exited => exact absurd hphase hexited
  | idle =>
    cases hlanded : s.landed with
    | cons batch landed => exact ⟨.join 0, rfl, by simp [step, hphase, hlanded]⟩
    | nil =>
      cases hcommits : s.commits with
      | cons batch commits => exact ⟨.land 0, rfl, by simp [step, hcommits]⟩
      | nil => exact ⟨.finish, rfl, by simp [step, hphase, hrx, hlanded, hcommits]⟩
  | marking batch => exact ⟨.mark, rfl, by simp [step, hphase]⟩
  | joined => exact ⟨.complete, rfl, by simp [step, hphase]⟩
  | completed closing =>
    refine ⟨.prepareFlush, rfl, ?_⟩
    simp only [step, hphase]
    split
    · rfl
    · rfl
  | flushing closing state transactions => exact ⟨.landFlush, rfl, by simp [step, hphase]⟩
  | flushed closing => exact ⟨.completeFlushed, rfl, by simp [step, hphase]⟩

/-- If all commits succeed, the committer exits. -/
theorem exists_run_exited (maxInFlight : Nat) (hrx : s.rxClosed = true) :
    ∃ events s', (∀ e ∈ events, proceeds e = true) ∧ run (step maxInFlight) s events = some s' ∧ s'.phase = .exited := by
  -- by induction on what is left to do
  generalize hn : s.remaining = n
  induction n using Nat.strong_induction_on generalizing s with
  | _ n ih =>
    subst hn
    by_cases hexited : s.phase = .exited
    · exact ⟨[], s, fun e he => absurd he List.not_mem_nil, rfl, hexited⟩
    · obtain ⟨e, he, hsome⟩ := exists_proceeds maxInFlight hrx hexited
      obtain ⟨s₁, hs₁⟩ := Option.isSome_iff_exists.1 hsome
      obtain ⟨hlt, hrx₁⟩ := remaining_lt he hs₁
      obtain ⟨events, s', hevents, hrun, hexit⟩ := ih s₁.remaining hlt (hrx₁.trans hrx) rfl
      refine ⟨e :: events, s', ?_, run_cons.2 ⟨s₁, hs₁, hrun⟩, hexit⟩
      exact List.forall_mem_cons.2 ⟨he, hevents⟩

theorem Completions.index_le (h : s.Completions) {i j : Nat} {a b : UInt64} (hi : s.heights[i]? = some a)
    (hj : s.heights[j]? = some b) (hba : b ≤ a) : j ≤ i := by
  by_contra hlt
  obtain ⟨hi', rfl⟩ := List.getElem?_eq_some_iff.1 hi
  obtain ⟨hj', rfl⟩ := List.getElem?_eq_some_iff.1 hj
  have hab := List.pairwise_iff_getElem.1 h.heights i j hi' hj' (by omega)
  exact Std.lt_irrefl (Std.lt_of_lt_of_le hab hba)

/-- The watermarks never pass an upload that is not persisted. -/
theorem AlignedAt.persisted_of_reached (h : s.AlignedAt m) (hl : s.Layout) {i j : Nat} (hi : s.Reached i) (hj : j ≤ i) :
    j ∈ s.stateWriter.log.persisted ∧ j ∈ s.transactionWriter.log.persisted := by
  obtain ⟨hlens, hlent⟩ := hl.received_le
  obtain ⟨⟨p, hend, hany⟩, ⟨q, hend', hany'⟩⟩ := hi
  exact ⟨h.state.acknowledged hl.stateOrdered (h.le.trans hlens) hend hany j hj,
    h.transactions.acknowledged hl.transactionOrdered (h.le.trans hlent) hend' hany' j hj⟩

theorem Completions.nodup (h : s.Completions) : s.signalled.Nodup := by
  have hnodup := h.accounted.nodup_iff.2 List.nodup_range
  exact (List.nodup_append.1 (List.nodup_append.1 hnodup).2.1).2.1

/-- At the exit every upload sent is signalled. -/
theorem Completions.all_signalled (h : s.Completions) (hl : s.Layout) (hexited : s.phase = .exited) {i : Nat}
    (hi : i < s.heights.length) : i ∈ s.signalled := by
  obtain ⟨hrx, hempty⟩ := h.closing (congr_arg CommitterPhase.closing hexited)
  have hunmarked : s.unmarked = [] := by
    rw [unmarked_of_batch_none (congr_arg CommitterPhase.batch hexited), hempty]
  have hsent := hl.sent
  rw [h.closed hrx, List.length_nil, Nat.add_zero] at hsent
  have haccounted := h.accounted
  rw [hunmarked, settled, h.exited hexited] at haccounted
  exact haccounted.mem_iff.2 (List.mem_range.2 (by rwa [hsent]))

end Completions

end Publishing

/-- In whatever order the commits finish, the committer signals an upload at most once, and only with all
uploads up to its height marked persisted and both published watermarks at or past its last locations. It
exits with every upload signalled; and once the channel is closed it does exit, if the commits succeed. -/
theorem completions_signalled (maxInFlight : Nat) (store : StoreWatermarks) (events : List PublishingEvent) {s : Publishing}
    (h : run (Publishing.step maxInFlight) (.connect store) events = some s) :
    s.signalled.Nodup ∧
      (∀ i ∈ s.signalled, s.stateWriter.Reached i ∧ s.transactionWriter.Reached i ∧
        ∀ j height height', s.heights[i]? = some height → s.heights[j]? = some height' → height' ≤ height →
          j ∈ s.stateWriter.log.persisted ∧ j ∈ s.transactionWriter.log.persisted) ∧
      (s.phase = .exited → s.pending = [] ∧ ∀ i < s.heights.length, i ∈ s.signalled) ∧
      (s.rxClosed = true → ∃ rest s', (∀ e ∈ rest, Publishing.proceeds e = true) ∧
        run (Publishing.step maxInFlight) s rest = some s' ∧ s'.phase = .exited) := by
  obtain ⟨hl, ⟨m, ha⟩, hc⟩ : s.Layout ∧ (∃ m, s.AlignedAt m) ∧ s.Completions := by
    refine run_invariant (I := fun s => s.Layout ∧ (∃ m, s.AlignedAt m) ∧ s.Completions) ?_
      ⟨Publishing.layout_connect store, ⟨0, Publishing.alignedAt_connect store⟩, Publishing.completions_connect store⟩ h
    rintro s s' e - ⟨hl, ⟨m, ha⟩, hc⟩ hs
    exact ⟨hl.step hs, ha.step hl hs, hc.step ha hl hs⟩
  refine ⟨hc.nodup, ?_, ?_, ?_⟩
  · intro i hi
    have hreached := hc.signalled i hi
    refine ⟨hreached.1, hreached.2, fun j height height' hheight hheight' hle => ?_⟩
    exact ha.persisted_of_reached hl hreached (hc.index_le hheight hheight' hle)
  · intro hexited
    exact ⟨hc.exited hexited, fun i hi => hc.all_signalled hl hexited hi⟩
  · exact fun hrx => Publishing.exists_run_exited maxInFlight hrx

/-- The commit of the second block finishes first. -/
def samplePublishing : List PublishingEvent :=
  [.prepareState 4 true, .prepareTransactions 2 true, .send 1, .prepareState 9 false, .prepareTransactions 5 false, .send 2,
    .receive, .receive, .land 1, .join 0, .mark, .complete, .prepareFlush, .completeFlushed, .land 0, .join 0, .mark,
    .complete, .prepareFlush, .landFlush, .completeFlushed, .close, .finish]

theorem completions_signalled_sample :
    ∃ s, run (Publishing.step 4) (.connect ⟨none, none⟩) samplePublishing = some s ∧ s.phase = .exited ∧
      s.signalled = [0, 1] ∧ s.signalled.Nodup ∧ s.pending = [] ∧ ∀ i < s.heights.length, i ∈ s.signalled := by
  have hrun : (run (Publishing.step 4) (.connect ⟨none, none⟩) samplePublishing).map (fun s => (s.phase, s.signalled)) =
      some (.exited, [0, 1]) := by decide
  obtain ⟨s, hs, heq⟩ := Option.map_eq_some_iff.1 hrun
  obtain ⟨hphase, hsignalled⟩ := Prod.mk.inj heq
  obtain ⟨hnodup, -, hexit, -⟩ := completions_signalled 4 ⟨none, none⟩ samplePublishing hs
  exact ⟨s, hs, hphase, hsignalled, hnodup, hexit hphase⟩

end Constantinople
