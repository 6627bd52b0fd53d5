/-
The watermarks in the Store stay block-aligned. The two writers decide on embedded watermarks at
different moments, so a block may have one in its state upload only. But then all earlier blocks are
persisted, no commit runs when the block is staged, and the other watermark is written inline: a batch
writes both watermarks of its block or none.
-/
import Constantinople.Indexer.Layout

namespace Constantinople

open Run Watermark

/-! ## Batches -/

/-- The watermark of an upload is written once: in the upload, or beside it. -/
def PreparedUpload.Written (u : PreparedUpload) (watermark : Option UInt64) : Prop :=
  (u.inBand = true ∧ watermark = none) ∨ (u.inBand = false ∧ watermark = some u.latestLocation)

/-- A batch that writes no watermark. -/
structure QmdbCommitBatch.Quiet (b : QmdbCommitBatch) : Prop where
  state : b.upload.state.inBand = false ∧ b.stateWatermark = none
  transactions : b.upload.transactions.inBand = false ∧ b.transactionWatermark = none

/-- A batch that writes both, with all earlier uploads persisted. -/
structure QmdbCommitBatch.Carries (state transactions : Log UInt64) (b : QmdbCommitBatch) : Prop where
  earlier : ∀ j < b.upload.completion, j ∈ state.persisted ∧ j ∈ transactions.persisted
  state : b.upload.state.Written b.stateWatermark
  transactions : b.upload.transactions.Written b.transactionWatermark

theorem QmdbCommitBatch.Carries.mono {state state' transactions transactions' : Log UInt64} {b : QmdbCommitBatch}
    (h : b.Carries state transactions) (hs : state.Grows state') (ht : transactions.Grows transactions') :
    b.Carries state' transactions' :=
  ⟨fun j hj => ⟨hs.persisted (h.earlier j hj).1, ht.persisted (h.earlier j hj).2⟩, h.state, h.transactions⟩

theorem PreparedUpload.Written.advance {u : PreparedUpload} {watermark : Option UInt64} (h : u.Written watermark)
    (current : Option UInt64) :
    Watermark.advance (Watermark.advance current u.writerLocationWatermark) watermark =
      Watermark.advance current (some u.latestLocation) := by
  unfold writerLocationWatermark
  rcases h with ⟨hb, rfl⟩ | ⟨hb, rfl⟩
  · rw [if_pos hb]
    rfl
  · rw [hb]
    rfl

/-- A flush for an upload with all earlier ones persisted adds its watermark if it has none. -/
theorem Writer.prepareFlushForUploads_written {w : Writer} {i : Nat} {u : PreparedUpload} (ho : w.log.Ordered)
    (hpublished : w.log.Publishes i w.published) (hu : u.Placed w.log i) (hall : ∀ j, j ∈ w.log.persisted ↔ j < i) :
    u.Written (w.prepareFlushForUploads u) := by
  obtain ⟨k, hk, hmark, hpersisted⟩ := hpublished
  have hi : i < w.log.ends.length := (List.getElem?_eq_some_iff.1 hu.latest).1
  have hall' : ∀ j, j ∈ (w.log.acknowledge i).persisted ↔ j < i + 1 := by
    intro j
    rw [Log.acknowledge, Finset.mem_insert, hall]
    omega
  have hcontiguous : (w.log.acknowledge i).contiguous = i + 1 := by
    apply Nat.le_antisymm
    · exact Log.contiguous_le_of_persisted fun j hj => (hall' j).1 hj
    · exact Log.le_contiguous hi fun j hj => (hall' j).2 hj
  have ho' : (w.log.acknowledge i).Ordered := ho
  have hflush : w.prepareFlushForUploads u =
      (w.log.acknowledge i).flush (advance (w.log.mark k) u.writerLocationWatermark) := by
    rw [← hmark, ← hu.index]
    rfl
  rw [hflush]
  unfold PreparedUpload.writerLocationWatermark
  by_cases hb : u.inBand = true
  · -- the upload publishes itself, and nothing is left
    left
    refine ⟨hb, ?_⟩
    rw [if_pos hb, ho.advance_mark (by omega) hu.latest, Nat.max_eq_right (by omega)]
    have := Log.flush_eq ho' (k := i + 1) (by omega)
    rwa [if_neg (by omega)] at this
  · right
    refine ⟨by simpa using hb, ?_⟩
    rw [if_neg hb]
    have := Log.flush_eq ho' (k := k) (by omega)
    rw [if_pos (by omega), hcontiguous] at this
    exact this.trans hu.latest

/-- Publishing the watermark of an upload in the published part. -/
theorem PreparedUpload.Placed.publishes {l : Log UInt64} {i m : Nat} {u : PreparedUpload} {published watermark : Option UInt64}
    (hu : u.Placed l i) (h : l.Publishes m published) (ho : l.Ordered) (hm : m ≤ l.ends.length) (hi : i < m)
    (hall : ∀ j < i + 1, j ∈ l.persisted) (hw : watermark = none ∨ watermark = some u.latestLocation) :
    l.Publishes m (advance published watermark) := by
  rcases hw with rfl | rfl
  · exact h
  · have hbrings : l.Brings m (i + 1) (some u.latestLocation) := .inr ⟨i, _, rfl, rfl, hu.latest, hall⟩
    have := h.advance hbrings ho hm
    rwa [Nat.max_eq_left hi] at this

theorem PreparedUpload.writerLocationWatermark_cases (u : PreparedUpload) :
    u.writerLocationWatermark = none ∨ u.writerLocationWatermark = some u.latestLocation := by
  unfold writerLocationWatermark
  split
  · exact .inr rfl
  · exact .inl rfl

theorem PreparedUpload.Written.cases {u : PreparedUpload} {watermark : Option UInt64} (h : u.Written watermark) :
    watermark = none ∨ watermark = some u.latestLocation := by
  rcases h with ⟨-, h⟩ | ⟨-, h⟩
  · exact .inl h
  · exact .inr h

/-- The watermarks a flush has prepared. -/
def CommitterPhase.flush : CommitterPhase → Option (Option UInt64 × Option UInt64)
  | .flushing _ state transactions => some (state, transactions)
  | _ => none

namespace Publishing

/-- The Store has the watermarks of both writers after `m` blocks, and each writer has published at most
that. What is about to be written keeps it so. -/
structure AlignedAt (s : Publishing) (m : Nat) : Prop where
  le : m ≤ s.received
  store : s.store = ⟨s.stateWriter.log.mark m, s.transactionWriter.log.mark m⟩
  state : s.stateWriter.log.Publishes m s.stateWriter.published
  transactions : s.transactionWriter.log.Publishes m s.transactionWriter.published
  batches : ∀ b ∈ s.unmarked, b.Quiet ∨ b.Carries s.stateWriter.log s.transactionWriter.log
  landed : ∀ b ∈ s.landed ++ s.phase.batch.toList, b.Quiet ∨ b.upload.completion < m
  flushing : ∀ state transactions, s.phase.flush = some (state, transactions) →
    ∃ c ≤ s.received, s.stateWriter.log.Brings m c state ∧ s.transactionWriter.log.Brings m c transactions

section Aligned

variable {maxInFlight m : Nat} {s s' : Publishing}

theorem alignedAt_connect (store : StoreWatermarks) : (connect store).AlignedAt 0 := by
  constructor
  · exact Nat.le_refl 0
  · rfl
  · exact ⟨0, Nat.le_refl 0, rfl, fun i hi => absurd hi (Nat.not_lt_zero i)⟩
  · exact ⟨0, Nat.le_refl 0, rfl, fun i hi => absurd hi (Nat.not_lt_zero i)⟩
  · rintro b ⟨⟩
  · rintro b ⟨⟩
  · rintro state transactions ⟨⟩

/-- Events that write nothing to the Store and mark nothing. -/
theorem AlignedAt.of_frame (h : s.AlignedAt m) (hl : s.Layout)
    (hstate : s.stateWriter.log.Grows s'.stateWriter.log ∧ s'.stateWriter.published = s.stateWriter.published)
    (htransactions : s.transactionWriter.log.Grows s'.transactionWriter.log ∧
      s'.transactionWriter.published = s.transactionWriter.published)
    (hstore : s'.store = s.store ∧ s'.received = s.received) (hcommits : s'.commits = s.commits ∧ s'.landed = s.landed)
    (hbatch : s'.phase.batch = s.phase.batch)
    (hflush : ∀ state transactions, s'.phase.flush = some (state, transactions) →
      ∃ c ≤ s.received, s.stateWriter.log.Brings m c state ∧ s.transactionWriter.log.Brings m c transactions) :
    s'.AlignedAt m := by
  obtain ⟨hs, hps⟩ := hstate
  obtain ⟨ht, hpt⟩ := htransactions
  obtain ⟨hlens, hlent⟩ := hl.received_le
  have hms := h.le.trans hlens
  have hmt := h.le.trans hlent
  have hunmarked : s'.unmarked = s.unmarked := by
    unfold unmarked inFlight
    rw [hcommits.1, hcommits.2, hbatch]
  constructor
  · rw [hstore.2]
    exact h.le
  · rw [hstore.1, hs.mark hms, ht.mark hmt]
    exact h.store
  · rw [hps]
    exact h.state.grow hms hs
  · rw [hpt]
    exact h.transactions.grow hmt ht
  · intro b hb
    rw [hunmarked] at hb
    exact (h.batches b hb).imp_right fun hc => hc.mono hs ht
  · rw [hcommits.2, hbatch]
    exact h.landed
  · intro state transactions hphase
    obtain ⟨c, hc, hbs, hbt⟩ := hflush state transactions hphase
    exact ⟨c, hstore.2 ▸ hc, hbs.grow hs, hbt.grow ht⟩

/-- A Store write that moves both watermarks to the end of a later block. -/
theorem AlignedAt.write (h : s.AlignedAt m) {m' : Nat} (hm : m ≤ m') (hle : m' ≤ s.received) {store : StoreWatermarks}
    (hstore : store = ⟨s.stateWriter.log.mark m', s.transactionWriter.log.mark m'⟩) :
    AlignedAt { s with store := store } m' := by
  constructor
  · exact hle
  · exact hstore
  · exact h.state.mono hm
  · exact h.transactions.mono hm
  · exact h.batches
  · exact fun b hb => (h.landed b hb).imp_right fun hlt => Nat.lt_of_lt_of_le hlt hm
  · intro state transactions hphase
    obtain ⟨c, hc, hbs, hbt⟩ := h.flushing state transactions hphase
    exact ⟨c, hc, hbs.mono hm, hbt.mono hm⟩

/-- The Store after a batch. -/
theorem AlignedAt.commit (h : s.AlignedAt m) (hl : s.Layout) {b : QmdbCommitBatch} (hb : b ∈ s.unmarked) :
    ∃ m', m ≤ m' ∧ m' ≤ s.received ∧ (b.Quiet ∨ b.upload.completion < m') ∧
      s.store.commit b = ⟨s.stateWriter.log.mark m', s.transactionWriter.log.mark m'⟩ := by
  obtain ⟨hlens, hlent⟩ := hl.received_le
  obtain ⟨hlt, hstaged⟩ := hl.batches b hb
  unfold StoreWatermarks.commit StoreWatermarks.write PreparedUpload.writerLocationWatermark
  rw [h.store]
  rcases h.batches b hb with hquiet | hcarries
  · refine ⟨m, Nat.le_refl m, h.le, .inl hquiet, ?_⟩
    rw [hquiet.state.1, hquiet.state.2, hquiet.transactions.1, hquiet.transactions.2]
    rfl
  · have hle := h.le
    refine ⟨max m (b.upload.completion + 1), Nat.le_max_left .., by omega, .inr (by omega), ?_⟩
    refine congr_arg₂ StoreWatermarks.mk ?_ ?_
    · exact (hcarries.state.advance _).trans (hl.stateOrdered.advance_mark (hle.trans hlens) hstaged.state.latest)
    · exact (hcarries.transactions.advance _).trans
        (hl.transactionOrdered.advance_mark (hle.trans hlent) hstaged.transactions.latest)

/-- A block received while commits run has no embedded watermark: an earlier block is not marked. -/
theorem Layout.not_inBand (hl : s.Layout) (hinFlight : s.inFlight ≠ []) {upload : StagedQmdbUpload}
    (hu : upload.Staged s.stateWriter.log s.transactionWriter.log s.received) :
    upload.state.inBand = false ∧ upload.transactions.inBand = false := by
  obtain ⟨b, hb⟩ := List.exists_mem_of_ne_nil _ hinFlight
  have hmem : b ∈ s.unmarked := List.mem_append_left _ hb
  obtain ⟨hlt, -⟩ := hl.batches b hmem
  constructor
  · by_contra hband
    have hmarked := hu.state.inBand (Bool.eq_true_of_not_eq_false hband) _ hlt
    exact ((hl.stateMarked _).1 hmarked).2 (List.mem_map_of_mem hb)
  · by_contra hband
    have hmarked := hu.transactions.inBand (Bool.eq_true_of_not_eq_false hband) _ hlt
    exact ((hl.transactionMarked _).1 hmarked).2 (List.mem_map_of_mem hmem)

/-- The batch of a received block writes both watermarks or none. -/
theorem AlignedAt.stage (h : s.AlignedAt m) (hl : s.Layout) (hphase : s.phase = .idle) {upload : StagedQmdbUpload}
    {channel : List StagedQmdbUpload} (hchannel : s.channel = upload :: channel) :
    ({ s with channel := channel, received := s.received + 1 }.stageAndSpawnCommit upload).AlignedAt m := by
  have hnone : s.phase.batch = none := congr_arg CommitterPhase.batch hphase
  obtain ⟨hstaged, -⟩ := hl.stage hchannel
  set s' := { s with channel := channel, received := s.received + 1 }.stageAndSpawnCommit upload
  set inlineWatermarks := s.commits.isEmpty && s.landed.isEmpty with hinline
  set batch : QmdbCommitBatch :=
    ⟨upload, if inlineWatermarks then s.stateWriter.prepareFlushForUploads upload.state else none,
      if inlineWatermarks then s.transactionWriter.prepareFlushForUploads upload.transactions else none⟩ with hbatch
  have hnew : batch.Quiet ∨ batch.Carries s.stateWriter.log s.transactionWriter.log := by
    by_cases hempty : inlineWatermarks = true
    · right
      have hunmarked : s.inFlight = [] ∧ s.unmarked = [] := by
        rw [unmarked_of_batch_none hnone]
        simpa [inFlight, hinline] using hempty
      have hstate : ∀ j, j ∈ s.stateWriter.log.persisted ↔ j < s.received := by
        intro j
        rw [hl.stateMarked, hunmarked.1]
        exact and_iff_left List.not_mem_nil
      have htransactions : ∀ j, j ∈ s.transactionWriter.log.persisted ↔ j < s.received := by
        intro j
        rw [hl.transactionMarked, hunmarked.2]
        exact and_iff_left List.not_mem_nil
      rw [hbatch, if_pos hempty, if_pos hempty]
      refine ⟨fun j hj => ?_, ?_, ?_⟩
      · rw [hstaged.completion] at hj
        exact ⟨(hstate j).2 hj, (htransactions j).2 hj⟩
      · exact Writer.prepareFlushForUploads_written hl.stateOrdered (h.state.mono h.le) hstaged.state hstate
      · exact Writer.prepareFlushForUploads_written hl.transactionOrdered (h.transactions.mono h.le) hstaged.transactions
          htransactions
    · left
      have hinFlight : s.inFlight ≠ [] := by
        intro hnil
        exact hempty (by simpa [inFlight, hinline] using hnil)
      obtain ⟨hs, ht⟩ := hl.not_inBand hinFlight hstaged
      rw [hbatch, if_neg hempty, if_neg hempty]
      exact ⟨⟨hs, rfl⟩, ⟨ht, rfl⟩⟩
  constructor
  · exact Nat.le_succ_of_le h.le
  · exact h.store
  · exact h.state
  · exact h.transactions
  · intro b hb
    obtain ⟨-, hunmarked⟩ : s'.inFlight.Perm (batch :: s.inFlight) ∧ s'.unmarked.Perm (batch :: s.unmarked) :=
      unmarked_spawn rfl rfl rfl
    rcases List.mem_cons.1 (hunmarked.mem_iff.1 hb) with rfl | hb
    · exact hnew
    · exact h.batches b hb
  · exact h.landed
  · intro state transactions hflush
    have hidle : s'.phase = .idle := hphase
    rw [hidle] at hflush
    cases hflush

theorem AlignedAt.land (h : s.AlignedAt m) (hl : s.Layout) {i : Nat} {batch : QmdbCommitBatch}
    (hbatch : s.commits[i]? = some batch) :
    ∃ m', AlignedAt { s with commits := s.commits.eraseIdx i, landed := s.landed ++ [batch], store := s.store.commit batch } m' := by
  have hmem : batch ∈ s.unmarked := List.mem_append_left _ (List.mem_append_left _ (List.mem_of_getElem? hbatch))
  obtain ⟨m', hm, hle, hnew, hstore⟩ := h.commit hl hmem
  have h' := h.write hm hle hstore
  refine ⟨m', h'.le, h'.store, h'.state, h'.transactions, ?_, ?_, h'.flushing⟩
  · intro b hb
    exact h'.batches b (((inFlight_land hbatch).append_right _).mem_iff.1 hb)
  · intro b hb
    rw [List.append_assoc, List.mem_append, List.mem_append, List.mem_singleton] at hb
    rcases hb with hb | rfl | hb
    · exact h'.landed b (List.mem_append_left _ hb)
    · exact hnew
    · exact h'.landed b (List.mem_append_right _ hb)

/-- What a joined batch writes is published. -/
theorem AlignedAt.landed_cases (h : s.AlignedAt m) {b : QmdbCommitBatch} (hb : b ∈ s.landed ++ s.phase.batch.toList) :
    b.Quiet ∨ (b.upload.completion < m ∧ b.Carries s.stateWriter.log s.transactionWriter.log) := by
  have hmem : b ∈ s.unmarked := by
    unfold unmarked inFlight
    rw [List.append_assoc]
    exact List.mem_append_right _ hb
  rcases h.landed b hb with hquiet | hlt
  · exact .inl hquiet
  · exact (h.batches b hmem).imp_right fun hcarries => ⟨hlt, hcarries⟩

theorem AlignedAt.join (h : s.AlignedAt m) (hl : s.Layout) (hphase : s.phase.batch = none) {i : Nat}
    {batch : QmdbCommitBatch} (hbatch : s.landed[i]? = some batch) :
    AlignedAt { s with
      landed := s.landed.eraseIdx i
      stateWriter := s.stateWriter.markUploadPersisted batch.upload.state
      phase := .marking batch } m := by
  obtain ⟨hmem, -⟩ := hl.join hphase hbatch
  obtain ⟨-, hstaged⟩ := hl.batches batch hmem
  obtain ⟨hlens, -⟩ := hl.received_le
  have hms := h.le.trans hlens
  have hgrows := s.stateWriter.log.grows_acknowledge batch.upload.state.index
  have hlanded : batch ∈ s.landed := List.mem_of_getElem? hbatch
  have hpublished := h.state.grow hms hgrows
  constructor
  · exact h.le
  · rw [h.store]
    exact congr_arg (StoreWatermarks.mk · _) (hgrows.mark hms).symm
  · show Log.Publishes _ m (advance s.stateWriter.published batch.upload.state.writerLocationWatermark)
    rcases h.landed_cases (List.mem_append_left _ hlanded) with hquiet | ⟨hlt, hcarries⟩
    · unfold PreparedUpload.writerLocationWatermark
      rw [hquiet.state.1]
      exact hpublished
    · refine (hstaged.state.mono hgrows).publishes hpublished hl.stateOrdered hms hlt (fun j hj => ?_)
        (PreparedUpload.writerLocationWatermark_cases _)
      rcases Nat.lt_or_eq_of_le (Nat.le_of_lt_succ hj) with hj | rfl
      · exact hgrows.persisted (hcarries.earlier j hj).1
      · rw [← hstaged.state.index]
        exact Finset.mem_insert_self _ _
  · exact h.transactions
  · intro b hb
    have hb' : b ∈ s.unmarked := by
      refine (List.Perm.mem_iff ?_).1 hb
      apply And.right
      exact unmarked_join hbatch hphase rfl rfl rfl
    exact (h.batches b hb').imp_right fun hcarries => hcarries.mono hgrows (.refl _)
  · intro b hb
    refine h.landed b (List.mem_append_left _ ?_)
    rcases List.mem_append.1 hb with hb | hb
    · exact List.mem_of_mem_eraseIdx hb
    · obtain rfl : b = batch := List.mem_singleton.1 hb
      exact hlanded
  · rintro state transactions ⟨⟩

theorem AlignedAt.mark (h : s.AlignedAt m) (hl : s.Layout) {batch : QmdbCommitBatch} (hphase : s.phase = .marking batch)
    (pending : List PendingUploadCompletion) :
    AlignedAt { s with
      stateWriter := s.stateWriter.markFlushPersisted batch.stateWatermark
      transactionWriter :=
        (s.transactionWriter.markUploadPersisted batch.upload.transactions).markFlushPersisted batch.transactionWatermark
      pending := pending
      phase := .joined } m := by
  have hb : batch ∈ s.phase.batch.toList := by
    rw [hphase]
    exact List.mem_singleton_self batch
  have hmem : batch ∈ s.unmarked := List.mem_append_right _ hb
  obtain ⟨hlt, hstaged⟩ := hl.batches batch hmem
  obtain ⟨hlens, hlent⟩ := hl.received_le
  have hms := h.le.trans hlens
  have hmt := h.le.trans hlent
  have hgrows := s.transactionWriter.log.grows_acknowledge batch.upload.transactions.index
  have hpublished := h.transactions.grow hmt hgrows
  have hcases := h.landed_cases (List.mem_append_right _ hb)
  constructor
  · exact h.le
  · rw [h.store]
    exact congr_arg (StoreWatermarks.mk _ ·) (hgrows.mark hmt).symm
  · show Log.Publishes _ m (advance s.stateWriter.published batch.stateWatermark)
    rcases hcases with hquiet | ⟨hltm, hcarries⟩
    · rw [hquiet.state.2]
      exact h.state
    · refine hstaged.state.publishes h.state hl.stateOrdered hms hltm (fun j hj => ?_) hcarries.state.cases
      rcases Nat.lt_or_eq_of_le (Nat.le_of_lt_succ hj) with hj | rfl
      · exact (hcarries.earlier j hj).1
      · exact hl.marking_persisted hphase
  · show Log.Publishes _ m (advance (advance s.transactionWriter.published batch.upload.transactions.writerLocationWatermark)
      batch.transactionWatermark)
    rcases hcases with hquiet | ⟨hltm, hcarries⟩
    · unfold PreparedUpload.writerLocationWatermark
      rw [hquiet.transactions.1, hquiet.transactions.2]
      exact hpublished
    · have hplaced := hstaged.transactions.mono hgrows
      have hall : ∀ j < batch.upload.completion + 1,
          j ∈ (s.transactionWriter.log.acknowledge batch.upload.transactions.index).persisted := by
        intro j hj
        rcases Nat.lt_or_eq_of_le (Nat.le_of_lt_succ hj) with hj | rfl
        · exact hgrows.persisted (hcarries.earlier j hj).2
        · rw [← hstaged.transactions.index]
          exact Finset.mem_insert_self _ _
      refine hplaced.publishes ?_ hl.transactionOrdered hmt hltm hall hcarries.transactions.cases
      exact hplaced.publishes hpublished hl.transactionOrdered hmt hltm hall (PreparedUpload.writerLocationWatermark_cases _)
  · intro b hb
    have hb' : b ∈ s.inFlight ++ [] := hb
    rw [List.append_nil] at hb'
    exact (h.batches b (List.mem_append_left _ hb')).imp_right fun hcarries => hcarries.mono (.refl _) hgrows
  · intro b hb
    refine h.landed b (List.mem_append_left _ ?_)
    simpa [CommitterPhase.batch] using hb
  · rintro state transactions ⟨⟩

theorem ite_flush {p : Prop} [Decidable p] {phase phase' : CommitterPhase} (h : phase.flush = none)
    (h' : phase'.flush = none) : (if p then phase else phase').flush = none := by
  split
  · exact h
  · exact h'

/-- Looking for published uploads, and moving on. -/
theorem AlignedAt.completePublished (h : s.AlignedAt m) (hl : s.Layout) {phase : CommitterPhase}
    (hbatch : s.phase.batch = none) (hbatch' : phase.batch = none) (hflush : phase.flush = none) :
    AlignedAt { s.completePublished with phase := phase } m := by
  refine h.of_frame hl ⟨.refl _, rfl⟩ ⟨.refl _, rfl⟩ ⟨rfl, rfl⟩ ⟨rfl, rfl⟩ (hbatch'.trans hbatch.symm) ?_
  intro state transactions hsome
  rw [show phase.flush = some (state, transactions) from hsome] at hflush
  cases hflush

/-- A flush brings both watermarks to the end of the same block. -/
theorem AlignedAt.prepareFlush (h : s.AlignedAt m) (hl : s.Layout) (hbatch : s.phase.batch = none) :
    ∃ c ≤ s.received, s.stateWriter.log.Brings m c s.stateWriter.prepareFlush ∧
      s.transactionWriter.log.Brings m c s.transactionWriter.prepareFlush := by
  obtain ⟨hlens, hlent⟩ := hl.received_le
  refine ⟨s.stateWriter.log.contiguous, hl.contiguous_le.1, h.state.flush hl.stateOrdered (h.le.trans hlens), ?_⟩
  rw [hl.contiguous_eq hbatch]
  exact h.transactions.flush hl.transactionOrdered (h.le.trans hlent)

theorem AlignedAt.writeFlush (h : s.AlignedAt m) (hl : s.Layout) {state transactions : Option UInt64}
    (hphase : s.phase.flush = some (state, transactions)) :
    ∃ m' ≤ s.received, m ≤ m' ∧
      s.store.write state transactions = ⟨s.stateWriter.log.mark m', s.transactionWriter.log.mark m'⟩ ∧
      s.stateWriter.log.Publishes m' (s.stateWriter.markFlushPersisted state).published ∧
      s.transactionWriter.log.Publishes m' (s.transactionWriter.markFlushPersisted transactions).published := by
  obtain ⟨c, hc, hbs, hbt⟩ := h.flushing state transactions hphase
  obtain ⟨hlens, hlent⟩ := hl.received_le
  have hms := h.le.trans hlens
  have hmt := h.le.trans hlent
  refine ⟨max m c, Nat.max_le.2 ⟨h.le, hc⟩, Nat.le_max_left .., ?_, h.state.advance hbs hl.stateOrdered hms,
    h.transactions.advance hbt hl.transactionOrdered hmt⟩
  unfold StoreWatermarks.write
  rw [h.store]
  exact congr_arg₂ StoreWatermarks.mk (hbs.advance_mark hl.stateOrdered hms) (hbt.advance_mark hl.transactionOrdered hmt)

/-- Every event keeps the watermarks aligned. -/
theorem AlignedAt.step (h : s.AlignedAt m) (hl : s.Layout) {e : PublishingEvent} (hs : s.step maxInFlight e = some s') :
    ∃ m', s'.AlignedAt m' := by
  cases e with
  | prepareState latest inBand =>
    obtain ⟨-, -, -, rfl⟩ := step_prepareState hs
    exact ⟨m, h.of_frame hl ⟨Log.grows_append _ _, rfl⟩ ⟨.refl _, rfl⟩ ⟨rfl, rfl⟩ ⟨rfl, rfl⟩ rfl h.flushing⟩
  | prepareTransactions latest inBand =>
    obtain ⟨-, -, -, rfl⟩ := step_prepareTransactions hs
    exact ⟨m, h.of_frame hl ⟨.refl _, rfl⟩ ⟨Log.grows_append _ _, rfl⟩ ⟨rfl, rfl⟩ ⟨rfl, rfl⟩ rfl h.flushing⟩
  | send height =>
    obtain ⟨state, transactions, -, -, -, -, rfl⟩ := step_send hs
    exact ⟨m, h.of_frame hl ⟨.refl _, rfl⟩ ⟨.refl _, rfl⟩ ⟨rfl, rfl⟩ ⟨rfl, rfl⟩ rfl h.flushing⟩
  | close =>
    obtain ⟨-, rfl⟩ := step_close hs
    exact ⟨m, h.of_frame hl ⟨.refl _, rfl⟩ ⟨.refl _, rfl⟩ ⟨rfl, rfl⟩ ⟨rfl, rfl⟩ rfl h.flushing⟩
  | receive =>
    obtain ⟨upload, channel, hchannel, hphase, rfl⟩ := step_receive hs
    exact ⟨m, h.stage hl hphase hchannel⟩
  | attempt i =>
    obtain ⟨batch, hbatch, rfl⟩ := step_attempt hs
    have hmem : batch ∈ s.unmarked := List.mem_append_left _ (List.mem_append_left _ (List.mem_of_getElem? hbatch))
    obtain ⟨m', hm, hle, -, hstore⟩ := h.commit hl hmem
    exact ⟨m', h.write hm hle hstore⟩
  | land i =>
    obtain ⟨batch, hbatch, rfl⟩ := step_land hs
    exact h.land hl hbatch
  | join i =>
    obtain ⟨batch, hbatch, hphase, rfl⟩ := step_join hs
    exact ⟨m, h.join hl (batch_of_joinable hphase) hbatch⟩
  | mark =>
    obtain ⟨batch, hphase, rfl⟩ := step_mark hs
    exact ⟨m, h.mark hl hphase _⟩
  | complete =>
    obtain ⟨hphase, rfl⟩ := step_complete hs
    exact ⟨m, h.completePublished hl (batch_of_joinable (.inr hphase)) (ite_batch rfl rfl) (ite_flush rfl rfl)⟩
  | prepareFlush =>
    obtain ⟨closing, hphase, rfl⟩ := step_prepareFlush hs
    have hnone : s.phase.batch = none := congr_arg CommitterPhase.batch hphase
    have hbrings := h.prepareFlush hl hnone
    refine ⟨m, h.of_frame hl ⟨.refl _, rfl⟩ ⟨.refl _, rfl⟩ ⟨rfl, rfl⟩ ⟨rfl, rfl⟩ ((ite_batch rfl rfl).trans hnone.symm) ?_⟩
    intro state transactions hflush
    dsimp only at hflush
    split at hflush
    · cases hflush
    · cases hflush
      exact hbrings
  | attemptFlush =>
    obtain ⟨closing, state, transactions, hphase, rfl⟩ := step_attemptFlush hs
    obtain ⟨m', hle, hm, hstore, -, -⟩ := h.writeFlush hl (congr_arg CommitterPhase.flush hphase)
    exact ⟨m', h.write hm hle hstore⟩
  | landFlush =>
    obtain ⟨closing, state, transactions, hphase, rfl⟩ := step_landFlush hs
    obtain ⟨m', hle, hm, hstore, hps, hpt⟩ := h.writeFlush hl (congr_arg CommitterPhase.flush hphase)
    have h' := h.write hm hle hstore
    have hnone : s.phase.batch = none := congr_arg CommitterPhase.batch hphase
    refine ⟨m', h'.le, h'.store, hps, hpt, ?_, ?_, ?_⟩
    · intro b hb
      refine h'.batches b ?_
      unfold unmarked at hb ⊢
      rwa [show s.phase.batch = none from hnone]
    · intro b hb
      refine h'.landed b ?_
      rwa [show s.phase.batch = none from hnone]
    · rintro state' transactions' ⟨⟩
  | completeFlushed =>
    obtain ⟨closing, hphase, rfl⟩ := step_completeFlushed hs
    have hnone : s.phase.batch = none := congr_arg CommitterPhase.batch hphase
    exact ⟨m, h.completePublished hl hnone (ite_batch rfl rfl) (ite_flush rfl rfl)⟩
  | finish =>
    obtain ⟨hphase, -, -, rfl⟩ := step_finish hs
    exact ⟨m, h.completePublished hl (batch_of_joinable (.inl hphase)) (ite_batch rfl rfl) (ite_flush rfl rfl)⟩

end Aligned

end Publishing

/-! ## Crashes -/

/-- A block the preparer has sent, with the last locations of its two uploads. -/
structure SentBlock where
  height : UInt64
  stateLatest : UInt64
  transactionLatest : UInt64
deriving DecidableEq, Repr

def SentBlock.last (block : SentBlock) : StoreWatermarks := ⟨some block.stateLatest, some block.transactionLatest⟩

/-- The block an event sends. -/
def Publishing.sends (s : Publishing) (e : PublishingEvent) : List SentBlock :=
  match e, s.preparingState, s.preparingTransactions with
  | .send height, some state, some transactions => [⟨height, state.latestLocation, transactions.latestLocation⟩]
  | _, _, _ => []

/-- A publisher, and the blocks that it or those before it have sent. -/
structure Session where
  publishing : Publishing
  sent : List SentBlock

inductive SessionEvent
  | work (event : PublishingEvent)
  /-- The publisher crashes, and another one connects. -/
  | crash
deriving DecidableEq, Repr

namespace Session

def start (store : StoreWatermarks) : Session := ⟨.connect store, []⟩

def step (maxInFlightCommits : Nat) (s : Session) : SessionEvent → Option Session
  | .work event =>
    (s.publishing.step maxInFlightCommits event).map fun publishing => ⟨publishing, s.sent ++ s.publishing.sends event⟩
  | .crash => some { s with publishing := .connect s.publishing.store }

/-- Watermarks at the end of a block sent, or those at the start. -/
def Ends (first : StoreWatermarks) (s : Session) (watermarks : StoreWatermarks) : Prop :=
  watermarks = first ∨ ∃ block ∈ s.sent, watermarks = block.last

structure Sound (first : StoreWatermarks) (s : Session) : Prop where
  layout : s.publishing.Layout
  aligned : ∃ m, s.publishing.AlignedAt m
  ends : ∀ m ≤ s.publishing.heights.length,
    s.Ends first ⟨s.publishing.stateWriter.log.mark m, s.publishing.transactionWriter.log.mark m⟩

variable {maxInFlight : Nat} {first : StoreWatermarks} {s s' : Session}

theorem Ends.mono {watermarks : StoreWatermarks} (h : s.Ends first watermarks) (hsent : s.sent ⊆ s'.sent) :
    s'.Ends first watermarks := by
  rcases h with h | ⟨block, hblock, h⟩
  · exact .inl h
  · exact .inr ⟨block, hsent hblock, h⟩

theorem Sound.store (h : s.Sound first) : s.Ends first s.publishing.store := by
  obtain ⟨m, haligned⟩ := h.aligned
  have hsent := h.layout.sent
  have hle := haligned.le
  rw [haligned.store]
  exact h.ends m (by omega)

theorem sound_connect {store : StoreWatermarks} {sent : List SentBlock} (h : Ends first ⟨.connect store, sent⟩ store) :
    Sound first ⟨.connect store, sent⟩ := by
  refine ⟨Publishing.layout_connect store, ⟨0, Publishing.alignedAt_connect store⟩, fun m hm => ?_⟩
  obtain rfl : m = 0 := Nat.le_zero.1 hm
  exact h

/-- Both writers end at the locations of the block being sent. -/
theorem Sound.send (h : s.Sound first) {height : UInt64} {publishing : Publishing}
    (hs : s.publishing.step maxInFlight (.send height) = some publishing) :
    ∀ m ≤ publishing.heights.length, Ends first ⟨publishing, s.sent ++ s.publishing.sends (.send height)⟩
      ⟨publishing.stateWriter.log.mark m, publishing.transactionWriter.log.mark m⟩ := by
  obtain ⟨state, transactions, hstate, htransactions, -, -, rfl⟩ := Publishing.step_send hs
  obtain ⟨-, hplaced⟩ := (hstate ▸ h.layout.state : PreparingAt _ _ (some state)).send
  obtain ⟨-, hplaced'⟩ := (htransactions ▸ h.layout.transactions : PreparingAt _ _ (some transactions)).send
  intro m hm
  simp only [List.length_append, List.length_singleton] at hm
  rcases Nat.lt_or_eq_of_le hm with hlt | rfl
  · exact (h.ends m (by omega)).mono (List.subset_append_left ..)
  · have hsends : s.publishing.sends (.send height) = [⟨height, state.latestLocation, transactions.latestLocation⟩] := by
      unfold Publishing.sends
      rw [hstate, htransactions]
    refine .inr ⟨⟨height, state.latestLocation, transactions.latestLocation⟩, ?_, ?_⟩
    · rw [hsends]
      exact List.mem_append_right _ (List.mem_singleton_self _)
    · exact congr_arg₂ StoreWatermarks.mk hplaced.latest hplaced'.latest

theorem Sound.step (h : s.Sound first) {e : SessionEvent} (hs : s.step maxInFlight e = some s') : s'.Sound first := by
  cases e with
  | crash =>
    cases hs
    exact sound_connect (h.store.mono (List.Subset.refl _))
  | work e =>
    obtain ⟨publishing, hstep, rfl⟩ := Option.map_eq_some_iff.1 hs
    obtain ⟨m, haligned⟩ := h.aligned
    refine ⟨h.layout.step hstep, haligned.step h.layout hstep, ?_⟩
    by_cases hsend : ∃ height, e = .send height
    · obtain ⟨height, rfl⟩ := hsend
      exact h.send hstep
    · -- no block is sent, and the writers only append
      obtain ⟨hstate, htransactions, hheights⟩ := Publishing.step_grows hstep
      intro k hk
      rw [hheights fun height heq => hsend ⟨height, heq⟩] at hk
      rw [hstate.mark (hk.trans h.layout.state.le_length), htransactions.mark (hk.trans h.layout.transactions.le_length)]
      exact (h.ends k hk).mono (List.subset_append_left ..)

end Session

/-- Whatever the tasks do and whenever the publisher crashes, the two watermarks in the Store are the last
locations of one block that was sent (or what the Store held at first), and so is the pair of positions that
the next publisher recovers. -/
theorem watermarks_aligned (maxInFlight : Nat) (first : StoreWatermarks) (events : List SessionEvent) {s : Session}
    (h : run (Session.step maxInFlight) (.start first) events = some s) :
    s.publishing.store = first ∨
      ∃ block ∈ s.sent, s.publishing.store = ⟨some block.stateLatest, some block.transactionLatest⟩ ∧
        s.publishing.store.nextLocations = ⟨block.stateLatest + 1, block.transactionLatest + 1⟩ := by
  have hsound : s.Sound first := by
    refine run_invariant (I := Session.Sound first) ?_ (Session.sound_connect (.inl rfl)) h
    intro s s' e _ hs hstep
    exact hs.step hstep
  rcases hsound.store with hfirst | ⟨block, hblock, hstore⟩
  · exact .inl hfirst
  · refine .inr ⟨block, hblock, hstore, ?_⟩
    rw [hstore]
    rfl

/-- The second block is prepared between the two marks of the first: its state upload embeds a watermark
and its transaction upload does not. -/
def sampleSession : List SessionEvent :=
  ([.prepareState 4 true, .prepareTransactions 2 true, .send 1, .receive, .land 0, .join 0,
    .prepareState 9 true, .prepareTransactions 5 false, .mark, .complete, .send 2, .receive, .land 0] : List PublishingEvent).map
    .work ++ [.crash]

theorem watermarks_aligned_sample :
    ∃ s, run (Session.step 4) (.start ⟨none, none⟩) sampleSession = some s ∧
      s.publishing.store = ⟨some 9, some 5⟩ ∧
      (s.publishing.store = ⟨none, none⟩ ∨
        ∃ block ∈ s.sent, s.publishing.store = ⟨some block.stateLatest, some block.transactionLatest⟩ ∧
          s.publishing.store.nextLocations = ⟨block.stateLatest + 1, block.transactionLatest + 1⟩) := by
  have hrun : (run (Session.step 4) (.start ⟨none, none⟩) sampleSession).map (fun s => s.publishing.store) =
      some ⟨some 9, some 5⟩ := by decide
  obtain ⟨s, hs, hstore⟩ := Option.map_eq_some_iff.1 hrun
  exact ⟨s, hs, hstore, watermarks_aligned 4 ⟨none, none⟩ sampleSession hs⟩

end Constantinople
