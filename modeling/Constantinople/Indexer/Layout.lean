/-
Where the uploads of a run are. Uploads are numbered as they are prepared; the two writers prepare the
upload of a block under the same number, the channel keeps their order, and a number received is in one
batch until it is marked persisted in the state writer and then in the transaction writer.
-/
import Constantinople.Indexer.Publishing

namespace Constantinople

open Run

/-- An upload is the one numbered `i` of its writer; if it embeds a watermark, all earlier ones are
persisted. -/
structure PreparedUpload.Placed (l : Watermark.Log UInt64) (i : Nat) (u : PreparedUpload) : Prop where
  index : u.index = i
  latest : l.ends[i]? = some u.latestLocation
  inBand : u.inBand = true → ∀ j < i, j ∈ l.persisted

/-- The uploads of one block. -/
structure StagedQmdbUpload.Staged (state transactions : Watermark.Log UInt64) (i : Nat) (u : StagedQmdbUpload) : Prop where
  completion : u.completion = i
  state : u.state.Placed state i
  transactions : u.transactions.Placed transactions i

/-- A writer has the uploads of the `n` blocks sent, and that of the block being prepared. -/
def PreparingAt (l : Watermark.Log UInt64) (n : Nat) (u : Option PreparedUpload) : Prop :=
  (u = none ∧ l.ends.length = n) ∨ ∃ upload, u = some upload ∧ l.ends.length = n + 1 ∧ upload.Placed l n

theorem PreparedUpload.Placed.mono {l l' : Watermark.Log UInt64} {i : Nat} {u : PreparedUpload} (h : u.Placed l i)
    (hl : l.Grows l') : u.Placed l' i :=
  ⟨h.index, hl.get h.latest, fun hb j hj => hl.persisted (h.inBand hb j hj)⟩

theorem StagedQmdbUpload.Staged.mono {state state' transactions transactions' : Watermark.Log UInt64} {i : Nat}
    {u : StagedQmdbUpload} (h : u.Staged state transactions i) (hs : state.Grows state')
    (ht : transactions.Grows transactions') : u.Staged state' transactions' i :=
  ⟨h.completion, h.state.mono hs, h.transactions.mono ht⟩

theorem PreparingAt.acknowledge {l : Watermark.Log UInt64} {n : Nat} {u : Option PreparedUpload} (h : PreparingAt l n u)
    (i : Nat) : PreparingAt (l.acknowledge i) n u := by
  rcases h with ⟨rfl, hlen⟩ | ⟨upload, rfl, hlen, hplaced⟩
  · exact .inl ⟨rfl, hlen⟩
  · exact .inr ⟨upload, rfl, hlen, hplaced.mono (l.grows_acknowledge i)⟩

/-- A writer that prepares the upload of the next block. -/
theorem PreparingAt.prepare {l : Watermark.Log UInt64} {n : Nat} (h : PreparingAt l n none) {latest : UInt64}
    {inBand : Bool} (hb : inBand = true → ∀ i < l.ends.length, i ∈ l.persisted) :
    PreparingAt (l.append latest) n (some ⟨l.ends.length, latest, inBand⟩) := by
  rcases h with ⟨-, rfl⟩ | ⟨upload, ⟨⟩, -⟩
  refine .inr ⟨_, rfl, ?_, rfl, ?_, hb⟩
  · simp [Watermark.Log.append]
  · simp [Watermark.Log.append]

theorem PreparingAt.send {l : Watermark.Log UInt64} {n : Nat} {u : PreparedUpload} (h : PreparingAt l n (some u)) :
    PreparingAt l (n + 1) none ∧ u.Placed l n := by
  rcases h with ⟨⟨⟩, -⟩ | ⟨upload, ⟨⟩, hlen, hplaced⟩
  exact ⟨.inl ⟨rfl, hlen⟩, hplaced⟩

theorem PreparingAt.le_length {l : Watermark.Log UInt64} {n : Nat} {u : Option PreparedUpload} (h : PreparingAt l n u) :
    n ≤ l.ends.length := by
  rcases h with ⟨-, hlen⟩ | ⟨upload, -, hlen, -⟩
  · omega
  · omega

/-- The batch between its two marks. -/
def CommitterPhase.batch : CommitterPhase → Option QmdbCommitBatch
  | .marking batch => some batch
  | _ => none

namespace Publishing

/-- The batches that are not marked persisted in both writers. -/
def unmarked (s : Publishing) : List QmdbCommitBatch := s.inFlight ++ s.phase.batch.toList

/-- The numbers of batches. -/
def numbers (batches : List QmdbCommitBatch) : List Nat := batches.map fun b => b.upload.completion

theorem numbers_perm {batches batches' : List QmdbCommitBatch} (h : batches.Perm batches') :
    (numbers batches).Perm (numbers batches') :=
  h.map _

/-- Every upload is in one place: being prepared, in the channel, in a batch, or marked. -/
structure Layout (s : Publishing) : Prop where
  stateOrdered : s.stateWriter.log.Ordered
  transactionOrdered : s.transactionWriter.log.Ordered
  state : PreparingAt s.stateWriter.log s.heights.length s.preparingState
  transactions : PreparingAt s.transactionWriter.log s.heights.length s.preparingTransactions
  sent : s.received + s.channel.length = s.heights.length
  channel : ∀ j (u : StagedQmdbUpload), s.channel[j]? = some u → u.Staged s.stateWriter.log s.transactionWriter.log (s.received + j)
  batches : ∀ b ∈ s.unmarked, b.upload.completion < s.received ∧
    b.upload.Staged s.stateWriter.log s.transactionWriter.log b.upload.completion
  nodup : (numbers s.unmarked).Nodup
  stateMarked : ∀ i, i ∈ s.stateWriter.log.persisted ↔ i < s.received ∧ i ∉ numbers s.inFlight
  transactionMarked : ∀ i, i ∈ s.transactionWriter.log.persisted ↔ i < s.received ∧ i ∉ numbers s.unmarked

section Layout

variable {maxInFlight : Nat} {s s' : Publishing}

/-- What the layout does not look at. -/
theorem Layout.of_frame (h : s.Layout) (hstate : s'.stateWriter.log = s.stateWriter.log)
    (htransactions : s'.transactionWriter.log = s.transactionWriter.log)
    (hpreparing : s'.preparingState = s.preparingState ∧ s'.preparingTransactions = s.preparingTransactions)
    (hsent : s'.heights = s.heights ∧ s'.channel = s.channel ∧ s'.received = s.received)
    (hinFlight : s'.inFlight.Perm s.inFlight) (hphase : s'.phase.batch = s.phase.batch) : s'.Layout := by
  obtain ⟨hps, hpt⟩ := hpreparing
  obtain ⟨hheights, hchannel, hreceived⟩ := hsent
  have hperm : s'.unmarked.Perm s.unmarked := by
    unfold unmarked
    rw [hphase]
    exact hinFlight.append_right _
  have hnumbers : (numbers s'.unmarked).Perm (numbers s.unmarked) := numbers_perm hperm
  have hnumbers' : (numbers s'.inFlight).Perm (numbers s.inFlight) := numbers_perm hinFlight
  constructor
  · rw [hstate]; exact h.stateOrdered
  · rw [htransactions]; exact h.transactionOrdered
  · rw [hstate, hheights, hps]; exact h.state
  · rw [htransactions, hheights, hpt]; exact h.transactions
  · rw [hreceived, hchannel, hheights]; exact h.sent
  · rw [hstate, htransactions, hchannel, hreceived]; exact h.channel
  · rw [hstate, htransactions, hreceived]
    intro b hb
    exact h.batches b (hperm.mem_iff.1 hb)
  · exact hnumbers.nodup_iff.2 h.nodup
  · intro i
    rw [hstate, hreceived, hnumbers'.mem_iff]
    exact h.stateMarked i
  · intro i
    rw [htransactions, hreceived, hnumbers.mem_iff]
    exact h.transactionMarked i

theorem layout_connect (store : StoreWatermarks) : (connect store).Layout := by
  constructor
  · rintro k p q ⟨⟩
  · rintro k p q ⟨⟩
  · exact .inl ⟨rfl, rfl⟩
  · exact .inl ⟨rfl, rfl⟩
  · rfl
  · rintro j u ⟨⟩
  · rintro b ⟨⟩
  · exact List.nodup_nil
  · intro i
    simp [connect, Writer.new, Watermark.Log.new]
  · intro i
    simp [connect, Writer.new, Watermark.Log.new]

theorem Layout.prepareState (h : s.Layout) {latest : UInt64} {inBand : Bool}
    (hs : s.step maxInFlight (.prepareState latest inBand) = some s') : s'.Layout := by
  obtain ⟨hnone, hlast, hb, rfl⟩ := step_prepareState hs
  have hgrows := s.stateWriter.log.grows_append latest
  have hpreparing : PreparingAt s.stateWriter.log s.heights.length none := hnone ▸ h.state
  exact ⟨h.stateOrdered.append hlast, h.transactionOrdered, hpreparing.prepare hb, h.transactions, h.sent,
    fun j u hu => (h.channel j u hu).mono hgrows (.refl _),
    fun b hb => ⟨(h.batches b hb).1, (h.batches b hb).2.mono hgrows (.refl _)⟩, h.nodup, h.stateMarked,
    h.transactionMarked⟩

theorem Layout.prepareTransactions (h : s.Layout) {latest : UInt64} {inBand : Bool}
    (hs : s.step maxInFlight (.prepareTransactions latest inBand) = some s') : s'.Layout := by
  obtain ⟨hnone, hlast, hb, rfl⟩ := step_prepareTransactions hs
  have hgrows := s.transactionWriter.log.grows_append latest
  have hpreparing : PreparingAt s.transactionWriter.log s.heights.length none := hnone ▸ h.transactions
  exact ⟨h.stateOrdered, h.transactionOrdered.append hlast, h.state, hpreparing.prepare hb, h.sent,
    fun j u hu => (h.channel j u hu).mono (.refl _) hgrows,
    fun b hb => ⟨(h.batches b hb).1, (h.batches b hb).2.mono (.refl _) hgrows⟩, h.nodup, h.stateMarked,
    h.transactionMarked⟩

theorem Layout.send (h : s.Layout) {height : UInt64} (hs : s.step maxInFlight (.send height) = some s') : s'.Layout := by
  obtain ⟨state, transactions, hstate, htransactions, -, -, rfl⟩ := step_send hs
  obtain ⟨hps, hplaced⟩ := (hstate ▸ h.state : PreparingAt _ _ (some state)).send
  obtain ⟨hpt, hplaced'⟩ := (htransactions ▸ h.transactions : PreparingAt _ _ (some transactions)).send
  have hlen : (s.heights ++ [height]).length = s.heights.length + 1 := by simp
  have hsent := h.sent
  refine ⟨h.stateOrdered, h.transactionOrdered, hlen ▸ hps, hlen ▸ hpt, ?_, ?_, h.batches, h.nodup, h.stateMarked,
    h.transactionMarked⟩
  · simp only [List.length_append, List.length_singleton]
    omega
  · intro j u hu
    rcases Nat.lt_or_ge j s.channel.length with hj | hj
    · rw [List.getElem?_append_left hj] at hu
      exact h.channel j u hu
    · -- the new upload is the last in the channel
      rw [List.getElem?_append_right hj] at hu
      obtain ⟨hlt, heq⟩ := List.getElem?_eq_some_iff.1 hu
      simp only [List.length_singleton, Nat.lt_one_iff] at hlt
      obtain rfl : j = s.channel.length := by omega
      simp only [Nat.sub_self, List.getElem_cons_zero] at heq
      subst heq
      rw [hsent]
      exact ⟨rfl, hplaced, hplaced'⟩

/-- A number leaves a list that has it once. -/
theorem not_mem_iff_of_cons_perm {l l' : List Nat} {n r : Nat} (hr : n < r) (hn : n ∉ l) (h : (n :: l).Perm l') (j : Nat) :
    (j < r ∧ j ∉ l) ↔ j = n ∨ (j < r ∧ j ∉ l') := by
  rw [← h.mem_iff, List.mem_cons, not_or]
  constructor
  · rintro ⟨hj, hnot⟩
    by_cases heq : j = n
    · exact .inl heq
    · exact .inr ⟨hj, heq, hnot⟩
  · rintro (rfl | ⟨hj, -, hnot⟩)
    · exact ⟨hr, hn⟩
    · exact ⟨hj, hnot⟩

theorem cons_eraseIdx_perm {α : Type} {l : List α} {i : Nat} {a : α} (h : l[i]? = some a) :
    (a :: l.eraseIdx i).Perm l := by
  obtain ⟨hi, rfl⟩ := List.getElem?_eq_some_iff.1 h
  exact List.getElem_cons_eraseIdx_perm hi

theorem unmarked_of_batch_none (h : s.phase.batch = none) : s.unmarked = s.inFlight := by
  unfold unmarked
  rw [h, Option.toList_none, List.append_nil]

theorem inFlight_land {i : Nat} {batch : QmdbCommitBatch} (h : s.commits[i]? = some batch) :
    (s.commits.eraseIdx i ++ (s.landed ++ [batch])).Perm s.inFlight := by
  have hperm : (s.commits.eraseIdx i ++ (s.landed ++ [batch])).Perm (batch :: s.commits.eraseIdx i ++ s.landed) :=
    ((List.perm_append_singleton batch s.landed).append_left _).trans List.perm_middle
  exact hperm.trans ((cons_eraseIdx_perm h).append_right _)

theorem batch_of_joinable (h : s.phase = .idle ∨ s.phase = .joined) : s.phase.batch = none := by
  rcases h with h | h
  · exact congr_arg CommitterPhase.batch h
  · exact congr_arg CommitterPhase.batch h

theorem ite_batch {p : Prop} [Decidable p] {phase phase' : CommitterPhase} (h : phase.batch = none)
    (h' : phase'.batch = none) : (if p then phase else phase').batch = none := by
  split
  · exact h
  · exact h'

/-- A spawned commit joins those in flight. -/
theorem unmarked_spawn {batch : QmdbCommitBatch} (hcommits : s'.commits = s.commits ++ [batch]) (hlanded : s'.landed = s.landed)
    (hphase : s'.phase = s.phase) :
    s'.inFlight.Perm (batch :: s.inFlight) ∧ s'.unmarked.Perm (batch :: s.unmarked) := by
  have hinFlight : s'.inFlight.Perm (batch :: s.inFlight) := by
    unfold inFlight
    rw [hcommits, hlanded, List.append_assoc]
    exact List.perm_middle
  refine ⟨hinFlight, ?_⟩
  unfold unmarked
  rw [hphase]
  exact hinFlight.append_right _

/-- A joined commit is no longer in flight, but not marked. -/
theorem unmarked_join {i : Nat} {batch : QmdbCommitBatch} (hbatch : s.landed[i]? = some batch) (hphase : s.phase.batch = none)
    (hcommits : s'.commits = s.commits) (hlanded : s'.landed = s.landed.eraseIdx i) (hphase' : s'.phase = .marking batch) :
    (batch :: s'.inFlight).Perm s.inFlight ∧ s'.unmarked.Perm s.unmarked := by
  have hinFlight : (batch :: s'.inFlight).Perm s.inFlight := by
    unfold inFlight
    rw [hcommits, hlanded]
    exact List.perm_middle.symm.trans ((cons_eraseIdx_perm hbatch).append_left s.commits)
  refine ⟨hinFlight, ?_⟩
  rw [unmarked_of_batch_none hphase]
  unfold unmarked
  rw [hphase']
  exact (List.perm_append_singleton batch s'.inFlight).trans hinFlight

theorem unmarked_marking {batch : QmdbCommitBatch} (hphase : s.phase = .marking batch) :
    s.unmarked = s.inFlight ++ [batch] := by
  unfold unmarked
  rw [hphase]
  rfl

/-- The batch of a received upload joins those in flight. -/
theorem Layout.stage (h : s.Layout) {upload : StagedQmdbUpload}
    {channel : List StagedQmdbUpload} (hchannel : s.channel = upload :: channel) :
    upload.Staged s.stateWriter.log s.transactionWriter.log s.received ∧
      ({ s with channel := channel, received := s.received + 1 }.stageAndSpawnCommit upload).Layout := by
  have hstaged : upload.Staged s.stateWriter.log s.transactionWriter.log s.received := by
    refine h.channel 0 upload ?_
    rw [hchannel]
    rfl
  refine ⟨hstaged, ?_⟩
  set s' := { s with channel := channel, received := s.received + 1 }.stageAndSpawnCommit upload
  obtain ⟨batch, hbatch, hcommits⟩ : ∃ batch : QmdbCommitBatch, batch.upload = upload ∧ s'.commits = s.commits ++ [batch] :=
    ⟨_, rfl, rfl⟩
  obtain ⟨hinFlight, hunmarked⟩ := unmarked_spawn hcommits rfl rfl
  have hnumber : batch.upload.completion = s.received := by
    rw [hbatch]
    exact hstaged.completion
  have hin : (numbers s'.inFlight).Perm (s.received :: numbers s.inFlight) := hnumber ▸ numbers_perm hinFlight
  have hun : (numbers s'.unmarked).Perm (s.received :: numbers s.unmarked) := hnumber ▸ numbers_perm hunmarked
  have hfresh : s.received ∉ numbers s.unmarked := by
    intro hmem
    obtain ⟨b, hb, heq⟩ := List.mem_map.1 hmem
    exact absurd (h.batches b hb).1 (by omega)
  -- a number is marked as it was, as the new one is not
  have hmarked : ∀ (i : Nat) (l l' : List Nat), l'.Perm (s.received :: l) →
      ((i < s.received + 1 ∧ i ∉ l') ↔ (i < s.received ∧ i ∉ l)) := by
    intro i l l' hperm
    rw [hperm.mem_iff, List.mem_cons, not_or]
    constructor
    · rintro ⟨hlt, hne, hnot⟩
      exact ⟨by omega, hnot⟩
    · rintro ⟨hlt, hnot⟩
      exact ⟨by omega, by omega, hnot⟩
  constructor
  · exact h.stateOrdered
  · exact h.transactionOrdered
  · exact h.state
  · exact h.transactions
  · have hsent := h.sent
    rw [hchannel, List.length_cons] at hsent
    show s.received + 1 + channel.length = s.heights.length
    omega
  · intro j u hu
    have hu' : s.channel[j + 1]? = some u := by
      rw [hchannel]
      exact hu
    have := h.channel (j + 1) u hu'
    rwa [show s.received + (j + 1) = s.received + 1 + j by omega] at this
  · intro b hb
    rcases List.mem_cons.1 (hunmarked.mem_iff.1 hb) with rfl | hb
    · rw [hnumber, hbatch]
      exact ⟨Nat.lt_succ_self _, hstaged⟩
    · exact ⟨Nat.lt_succ_of_lt (h.batches b hb).1, (h.batches b hb).2⟩
  · exact hun.nodup_iff.2 (List.nodup_cons.2 ⟨hfresh, h.nodup⟩)
  · intro i
    exact (h.stateMarked i).trans (hmarked i _ _ hin).symm
  · intro i
    exact (h.transactionMarked i).trans (hmarked i _ _ hun).symm

/-- The state upload of a joined batch is marked. -/
theorem Layout.join (h : s.Layout) (hphase : s.phase.batch = none) {i : Nat} {batch : QmdbCommitBatch}
    (hbatch : s.landed[i]? = some batch) :
    batch ∈ s.unmarked ∧
      Layout { s with
        landed := s.landed.eraseIdx i
        stateWriter := s.stateWriter.markUploadPersisted batch.upload.state
        phase := .marking batch } := by
  set s' : Publishing := { s with
    landed := s.landed.eraseIdx i
    stateWriter := s.stateWriter.markUploadPersisted batch.upload.state
    phase := .marking batch }
  obtain ⟨hinFlight, hunmarked⟩ : (batch :: s'.inFlight).Perm s.inFlight ∧ s'.unmarked.Perm s.unmarked :=
    unmarked_join hbatch hphase rfl rfl rfl
  have hmem : batch ∈ s.unmarked := by
    rw [unmarked_of_batch_none hphase]
    exact hinFlight.mem_iff.1 (List.mem_cons_self ..)
  refine ⟨hmem, ?_⟩
  obtain ⟨hlt, hstaged⟩ := h.batches batch hmem
  have hin : (batch.upload.completion :: numbers s'.inFlight).Perm (numbers s.inFlight) :=
    numbers_perm hinFlight
  have hun : (numbers s'.unmarked).Perm (numbers s.unmarked) := numbers_perm hunmarked
  have hnodup : (numbers s.inFlight).Nodup := by
    have := h.nodup
    rwa [unmarked_of_batch_none hphase] at this
  obtain ⟨hnot, -⟩ := List.nodup_cons.1 (hin.nodup_iff.2 hnodup)
  have hgrows := s.stateWriter.log.grows_acknowledge batch.upload.state.index
  constructor
  · exact h.stateOrdered
  · exact h.transactionOrdered
  · exact h.state.acknowledge _
  · exact h.transactions
  · exact h.sent
  · intro j u hu
    exact (h.channel j u hu).mono hgrows (.refl _)
  · intro b hb
    obtain ⟨hlt', hstaged'⟩ := h.batches b (hunmarked.mem_iff.1 hb)
    exact ⟨hlt', hstaged'.mono hgrows (.refl _)⟩
  · exact hun.nodup_iff.2 h.nodup
  · intro j
    show j ∈ insert batch.upload.state.index s.stateWriter.log.persisted ↔ _
    rw [Finset.mem_insert, h.stateMarked, hstaged.state.index]
    exact (not_mem_iff_of_cons_perm hlt hnot hin j).symm
  · intro j
    rw [hun.mem_iff]
    exact h.transactionMarked j

/-- And then its transaction upload. -/
theorem Layout.mark (h : s.Layout) {batch : QmdbCommitBatch} (hphase : s.phase = .marking batch)
    (pending : List PendingUploadCompletion) :
    Layout { s with
      stateWriter := s.stateWriter.markFlushPersisted batch.stateWatermark
      transactionWriter :=
        (s.transactionWriter.markUploadPersisted batch.upload.transactions).markFlushPersisted batch.transactionWatermark
      pending := pending
      phase := .joined } := by
  set s' : Publishing := { s with
    stateWriter := s.stateWriter.markFlushPersisted batch.stateWatermark
    transactionWriter :=
      (s.transactionWriter.markUploadPersisted batch.upload.transactions).markFlushPersisted batch.transactionWatermark
    pending := pending
    phase := .joined }
  have hunmarked : (batch :: s'.unmarked).Perm s.unmarked := by
    have hs' : s'.unmarked = s.inFlight := unmarked_of_batch_none rfl
    rw [unmarked_marking hphase, hs']
    exact (List.perm_append_singleton batch s.inFlight).symm
  have hmem : batch ∈ s.unmarked := hunmarked.mem_iff.1 (List.mem_cons_self ..)
  obtain ⟨hlt, hstaged⟩ := h.batches batch hmem
  have hun : (batch.upload.completion :: numbers s'.unmarked).Perm (numbers s.unmarked) :=
    numbers_perm hunmarked
  obtain ⟨hnot, hnodup⟩ := List.nodup_cons.1 (hun.nodup_iff.2 h.nodup)
  have hgrows := s.transactionWriter.log.grows_acknowledge batch.upload.transactions.index
  constructor
  · exact h.stateOrdered
  · exact h.transactionOrdered
  · exact h.state
  · exact h.transactions.acknowledge _
  · exact h.sent
  · intro j u hu
    exact (h.channel j u hu).mono (.refl _) hgrows
  · intro b hb
    obtain ⟨hlt', hstaged'⟩ := h.batches b (hunmarked.mem_iff.1 (List.mem_cons_of_mem _ hb))
    exact ⟨hlt', hstaged'.mono (.refl _) hgrows⟩
  · exact hnodup
  · exact h.stateMarked
  · intro j
    show j ∈ insert batch.upload.transactions.index s.transactionWriter.log.persisted ↔ _
    rw [Finset.mem_insert, h.transactionMarked, hstaged.transactions.index]
    exact (not_mem_iff_of_cons_perm hlt hnot hun j).symm

/-- Other events move no upload, except that a commit that succeeds moves to those to be joined. -/
theorem Layout.step (h : s.Layout) {e : PublishingEvent} (hs : s.step maxInFlight e = some s') : s'.Layout := by
  cases e with
  | prepareState latest inBand => exact h.prepareState hs
  | prepareTransactions latest inBand => exact h.prepareTransactions hs
  | send height => exact h.send hs
  | close =>
    obtain ⟨-, rfl⟩ := step_close hs
    exact h.of_frame rfl rfl ⟨rfl, rfl⟩ ⟨rfl, rfl, rfl⟩ (.refl _) rfl
  | receive =>
    obtain ⟨upload, channel, hchannel, -, rfl⟩ := step_receive hs
    exact (h.stage hchannel).2
  | attempt i =>
    obtain ⟨batch, -, rfl⟩ := step_attempt hs
    exact h.of_frame rfl rfl ⟨rfl, rfl⟩ ⟨rfl, rfl, rfl⟩ (.refl _) rfl
  | land i =>
    obtain ⟨batch, hbatch, rfl⟩ := step_land hs
    exact h.of_frame rfl rfl ⟨rfl, rfl⟩ ⟨rfl, rfl, rfl⟩ (inFlight_land hbatch) rfl
  | join i =>
    obtain ⟨batch, hbatch, hphase, rfl⟩ := step_join hs
    exact (h.join (batch_of_joinable hphase) hbatch).2
  | mark =>
    obtain ⟨batch, hphase, rfl⟩ := step_mark hs
    exact h.mark hphase _
  | complete =>
    obtain ⟨hphase, rfl⟩ := step_complete hs
    refine h.of_frame rfl rfl ⟨rfl, rfl⟩ ⟨rfl, rfl, rfl⟩ (.refl _) ?_
    rw [hphase]
    exact ite_batch rfl rfl
  | prepareFlush =>
    obtain ⟨closing, hphase, rfl⟩ := step_prepareFlush hs
    refine h.of_frame rfl rfl ⟨rfl, rfl⟩ ⟨rfl, rfl, rfl⟩ (.refl _) ?_
    rw [hphase]
    exact ite_batch rfl rfl
  | attemptFlush =>
    obtain ⟨closing, state, transactions, hphase, rfl⟩ := step_attemptFlush hs
    exact h.of_frame rfl rfl ⟨rfl, rfl⟩ ⟨rfl, rfl, rfl⟩ (.refl _) rfl
  | landFlush =>
    obtain ⟨closing, state, transactions, hphase, rfl⟩ := step_landFlush hs
    refine h.of_frame rfl rfl ⟨rfl, rfl⟩ ⟨rfl, rfl, rfl⟩ (.refl _) ?_
    rw [hphase]
    rfl
  | completeFlushed =>
    obtain ⟨closing, hphase, rfl⟩ := step_completeFlushed hs
    refine h.of_frame rfl rfl ⟨rfl, rfl⟩ ⟨rfl, rfl, rfl⟩ (.refl _) ?_
    rw [hphase]
    exact ite_batch rfl rfl
  | finish =>
    obtain ⟨hphase, -, -, rfl⟩ := step_finish hs
    refine h.of_frame rfl rfl ⟨rfl, rfl⟩ ⟨rfl, rfl, rfl⟩ (.refl _) ?_
    rw [hphase]
    exact ite_batch rfl rfl

/-! ## What follows -/

theorem Layout.received_le (h : s.Layout) :
    s.received ≤ s.stateWriter.log.ends.length ∧ s.received ≤ s.transactionWriter.log.ends.length := by
  have hsent := h.sent
  have hstate := h.state.le_length
  have htransactions := h.transactions.le_length
  omega

/-- Between batches the writers have the same uploads marked. -/
theorem Layout.persisted_iff (h : s.Layout) (hphase : s.phase.batch = none) (i : Nat) :
    i ∈ s.stateWriter.log.persisted ↔ i ∈ s.transactionWriter.log.persisted := by
  rw [h.stateMarked, h.transactionMarked, unmarked_of_batch_none hphase]

/-- The batch between its marks is marked in the state writer. -/
theorem Layout.marking_persisted (h : s.Layout) {batch : QmdbCommitBatch} (hphase : s.phase = .marking batch) :
    batch.upload.completion ∈ s.stateWriter.log.persisted := by
  have hunmarked := unmarked_marking hphase
  have hnodup := h.nodup
  have hmem : batch ∈ s.unmarked := by
    rw [hunmarked]
    exact List.mem_append_right _ (List.mem_singleton_self batch)
  rw [hunmarked, numbers, List.map_append] at hnodup
  refine (h.stateMarked _).2 ⟨(h.batches batch hmem).1, fun hin => ?_⟩
  exact (List.disjoint_of_nodup_append hnodup) hin (List.mem_singleton_self _)

theorem Layout.contiguous_le (h : s.Layout) :
    s.stateWriter.log.contiguous ≤ s.received ∧ s.transactionWriter.log.contiguous ≤ s.received :=
  ⟨Watermark.Log.contiguous_le_of_persisted fun i hi => ((h.stateMarked i).1 hi).1,
    Watermark.Log.contiguous_le_of_persisted fun i hi => ((h.transactionMarked i).1 hi).1⟩

theorem Layout.contiguous_eq (h : s.Layout) (hphase : s.phase.batch = none) :
    s.stateWriter.log.contiguous = s.transactionWriter.log.contiguous := by
  obtain ⟨hstate, htransactions⟩ := h.received_le
  obtain ⟨hcs, hct⟩ := h.contiguous_le
  apply Nat.le_antisymm
  · refine Watermark.Log.le_contiguous (hcs.trans htransactions) fun i hi => ?_
    exact (h.persisted_iff hphase i).1 (Watermark.Log.mem_of_lt_contiguous hi)
  · refine Watermark.Log.le_contiguous (hct.trans hstate) fun i hi => ?_
    exact (h.persisted_iff hphase i).2 (Watermark.Log.mem_of_lt_contiguous hi)

end Layout

end Publishing

end Constantinople
