/-
The preparer, the committer and the two QMDB writers of `crates/indexer/src/publisher/qmdb.rs`. An event
is what one task does between two points where another may run: the preparer has one task per writer for
a block, and the committer marks the state upload of a finished commit persisted before it marks the
transaction upload. A writer embeds a watermark in an upload only if all its earlier uploads are marked
persisted, and a flush publishes what is persisted without a gap; a flush for the upload of a batch
counts that upload as persisted, as it is written with it. Only the committer marks uploads, so what a
flush finds in the two writers does not depend on uploads prepared in between, and one event asks both.
The rows of an upload are left out.
-/
import Constantinople.Indexer.Committer
import Constantinople.Lib.Watermark

namespace Constantinople

open Run

/-! ## Writers -/

/-- A prepared upload of one writer: its place among the writer's uploads, its last location, and
whether it embeds the watermark of that location. -/
structure PreparedUpload where
  index : Nat
  latestLocation : UInt64
  inBand : Bool
deriving DecidableEq, Repr

def PreparedUpload.writerLocationWatermark (upload : PreparedUpload) : Option UInt64 :=
  if upload.inBand then some upload.latestLocation else none

/-- A QMDB writer: the last locations of its uploads and those marked persisted, and the watermark it
has published. -/
structure Writer where
  log : Watermark.Log UInt64
  published : Option UInt64

namespace Writer

def new (watermark : Option UInt64) : Writer := ⟨.new watermark, watermark⟩

/-- Operations go after those of earlier uploads. -/
def prepareUpload (w : Writer) (latest : UInt64) (inBand : Bool) : Option (Writer × PreparedUpload) :=
  if (w.log.mark w.log.ends.length).all (· < latest) ∧ (inBand = true → ∀ i < w.log.ends.length, i ∈ w.log.persisted) then
    some ({ w with log := w.log.append latest }, ⟨w.log.ends.length, latest, inBand⟩)
  else none

def markUploadPersisted (w : Writer) (upload : PreparedUpload) : Writer :=
  ⟨w.log.acknowledge upload.index, Watermark.advance w.published upload.writerLocationWatermark⟩

def prepareFlush (w : Writer) : Option UInt64 := w.log.flush w.published

/-- `prepare_flush_for_uploads` of the QMDB writers, whose code is not in the repository. It is assumed to offer what
`prepare_flush` would offer once the upload is marked persisted, and to mark nothing itself. -/
def prepareFlushForUploads (w : Writer) (upload : PreparedUpload) : Option UInt64 :=
  (w.markUploadPersisted upload).prepareFlush

def markFlushPersisted (w : Writer) (watermark : Option UInt64) : Writer :=
  { w with published := Watermark.advance w.published watermark }

theorem prepareUpload_some {w w' : Writer} {latest : UInt64} {inBand : Bool} {upload : PreparedUpload}
    (h : w.prepareUpload latest inBand = some (w', upload)) :
    (∀ p, w.log.mark w.log.ends.length = some p → p < latest) ∧
      (inBand = true → ∀ i < w.log.ends.length, i ∈ w.log.persisted) ∧
      w' = { w with log := w.log.append latest } ∧ upload = ⟨w.log.ends.length, latest, inBand⟩ := by
  unfold prepareUpload at h
  split at h
  · rename_i hguard
    cases h
    exact ⟨fun p hp => by simpa [hp] using hguard.1, hguard.2, rfl, rfl⟩
  · cases h

end Writer

def nextWriterLocation : Option UInt64 → UInt64
  | some location => location + 1
  | none => 0

/-! ## The tasks -/

structure StagedQmdbUpload where
  state : PreparedUpload
  transactions : PreparedUpload
  completion : Nat
deriving DecidableEq, Repr

/-- A Store batch: an upload, and the watermarks written with it. -/
structure QmdbCommitBatch where
  upload : StagedQmdbUpload
  stateWatermark : Option UInt64
  transactionWatermark : Option UInt64
deriving DecidableEq, Repr

/-- Where the committer is: at the top of its loop, between the two marks of a batch, after them, and in
`flush_and_complete_published_uploads` before, during and after the flush, its last if it is closing. -/
inductive CommitterPhase
  | idle
  | marking (batch : QmdbCommitBatch)
  | joined
  | completed (closing : Bool)
  | flushing (closing : Bool) (state transactions : Option UInt64)
  | flushed (closing : Bool)
  | exited
deriving DecidableEq, Repr

/-- The latest watermarks in the Store. -/
structure StoreWatermarks where
  state : Option UInt64
  transactions : Option UInt64
deriving DecidableEq, Repr

/-- The writers, the uploads of the block the preparer is at, the heights it has sent, the channel, the
commits running and finished, and what waits for a watermark or is signalled. An upload's completion is
its number. -/
structure Publishing where
  stateWriter : Writer
  transactionWriter : Writer
  preparingState : Option PreparedUpload
  preparingTransactions : Option PreparedUpload
  heights : List UInt64
  channel : List StagedQmdbUpload
  rxClosed : Bool
  received : Nat
  commits : List QmdbCommitBatch
  landed : List QmdbCommitBatch
  phase : CommitterPhase
  pending : List PendingUploadCompletion
  signalled : List Nat
  store : StoreWatermarks

/-- `Publisher::connect`: both writers recover the watermarks in the Store. -/
def Publishing.connect (store : StoreWatermarks) : Publishing :=
  ⟨.new store.state, .new store.transactions, none, none, [], [], false, 0, [], [], .idle, [], [], store⟩

/-- The positions a publisher recovers from the Store. -/
def StoreWatermarks.nextLocations (store : StoreWatermarks) : FinalizedUploadCursor :=
  ⟨nextWriterLocation store.state, nextWriterLocation store.transactions⟩

inductive PublishingEvent
  /-- The state writer prepares the upload of the current block. -/
  | prepareState (latest : UInt64) (inBand : Bool)
  /-- The transaction writer prepares the upload of the current block. -/
  | prepareTransactions (latest : UInt64) (inBand : Bool)
  /-- The preparer sends the block with this height to the committer. -/
  | send (height : UInt64)
  /-- The committer sees that the channel is closed. -/
  | close
  /-- The committer takes an upload, stages it and spawns its commit. -/
  | receive
  /-- The Store applied a commit whose answer was lost. -/
  | attempt (i : Nat)
  /-- A commit succeeds. -/
  | land (i : Nat)
  /-- The committer joins a finished commit and marks its state upload persisted. -/
  | join (i : Nat)
  /-- It marks the transaction upload and the watermarks of the batch persisted. -/
  | mark
  /-- It signals the uploads that are published already. -/
  | complete
  /-- It prepares the watermarks of what is persisted. -/
  | prepareFlush
  /-- The Store applied the flush but its answer was lost. -/
  | attemptFlush
  /-- The flush succeeds and is marked persisted. -/
  | landFlush
  /-- It signals the uploads that are published now. -/
  | completeFlushed
  /-- The channel is closed and no commit runs: the last flush begins. -/
  | finish
deriving DecidableEq, Repr

/-- The Store after writing a watermark for each writer, if there is one. -/
def StoreWatermarks.write (store : StoreWatermarks) (state transactions : Option UInt64) : StoreWatermarks :=
  ⟨Watermark.advance store.state state, Watermark.advance store.transactions transactions⟩

/-- The Store after a batch. -/
def StoreWatermarks.commit (store : StoreWatermarks) (batch : QmdbCommitBatch) : StoreWatermarks :=
  (store.write batch.upload.state.writerLocationWatermark batch.upload.transactions.writerLocationWatermark).write
    batch.stateWatermark batch.transactionWatermark

namespace Publishing

/-- `complete_published_uploads`. -/
def completePublished (s : Publishing) : Publishing :=
  let (ready, retained) := completePublishedUploads s.stateWriter.published s.transactionWriter.published s.pending
  { s with pending := retained, signalled := s.signalled ++ ready.map PendingUploadCompletion.completion }

/-- Spawns the commit of an upload; the watermarks are written inline if no other commit runs. -/
def stageAndSpawnCommit (s : Publishing) (upload : StagedQmdbUpload) : Publishing :=
  let inlineWatermarks := s.commits.isEmpty && s.landed.isEmpty
  let batch : QmdbCommitBatch :=
    ⟨upload, if inlineWatermarks then s.stateWriter.prepareFlushForUploads upload.state else none,
      if inlineWatermarks then s.transactionWriter.prepareFlushForUploads upload.transactions else none⟩
  { s with commits := s.commits ++ [batch] }

/-- One event; `none` if it cannot happen. -/
def step (maxInFlightCommits : Nat) (s : Publishing) : PublishingEvent → Option Publishing
  | .prepareState latest inBand =>
    match s.preparingState, s.stateWriter.prepareUpload latest inBand with
    | none, some (writer, upload) => some { s with stateWriter := writer, preparingState := some upload }
    | _, _ => none
  | .prepareTransactions latest inBand =>
    match s.preparingTransactions, s.transactionWriter.prepareUpload latest inBand with
    | none, some (writer, upload) => some { s with transactionWriter := writer, preparingTransactions := some upload }
    | _, _ => none
  | .send height =>
    match s.preparingState, s.preparingTransactions with
    | some state, some transactions =>
      if s.rxClosed = false ∧ s.heights.all (· < height) then
        some { s with
          preparingState := none
          preparingTransactions := none
          heights := s.heights ++ [height]
          channel := s.channel ++ [⟨state, transactions, s.heights.length⟩] }
      else none
    | _, _ => none
  | .close => if s.phase = .idle ∧ s.channel = [] then some { s with rxClosed := true } else none
  | .receive =>
    match s.channel with
    | [] => none
    | upload :: channel =>
      if s.phase = .idle ∧ s.commits.length + s.landed.length < maxInFlightCommits then
        some ({ s with channel := channel, received := s.received + 1 }.stageAndSpawnCommit upload)
      else none
  | .attempt i => (s.commits[i]?).map fun batch => { s with store := s.store.commit batch }
  | .land i => (s.commits[i]?).map fun batch =>
      { s with commits := s.commits.eraseIdx i, landed := s.landed ++ [batch], store := s.store.commit batch }
  | .join i =>
    if s.phase = .idle ∨ s.phase = .joined then
      (s.landed[i]?).map fun batch =>
        { s with
          landed := s.landed.eraseIdx i
          stateWriter := s.stateWriter.markUploadPersisted batch.upload.state
          phase := .marking batch }
    else none
  | .mark =>
    match s.phase with
    | .marking batch =>
      some { s with
        stateWriter := s.stateWriter.markFlushPersisted batch.stateWatermark
        transactionWriter :=
          (s.transactionWriter.markUploadPersisted batch.upload.transactions).markFlushPersisted batch.transactionWatermark
        pending := s.pending ++ [⟨batch.upload.state.latestLocation, batch.upload.transactions.latestLocation,
          batch.upload.completion⟩]
        phase := .joined }
    | _ => none
  | .complete =>
    if s.phase = .joined then
      let s := s.completePublished
      some { s with phase := if s.pending.isEmpty then .idle else .completed false }
    else none
  | .prepareFlush =>
    match s.phase with
    | .completed closing =>
      let state := s.stateWriter.prepareFlush
      let transactions := s.transactionWriter.prepareFlush
      if state = none ∧ transactions = none then some { s with phase := .flushed closing }
      else some { s with phase := .flushing closing state transactions }
    | _ => none
  | .attemptFlush =>
    match s.phase with
    | .flushing _ state transactions => some { s with store := s.store.write state transactions }
    | _ => none
  | .landFlush =>
    match s.phase with
    | .flushing closing state transactions =>
      some { s with
        store := s.store.write state transactions
        stateWriter := s.stateWriter.markFlushPersisted state
        transactionWriter := s.transactionWriter.markFlushPersisted transactions
        phase := .flushed closing }
    | _ => none
  | .completeFlushed =>
    match s.phase with
    | .flushed closing => some { s.completePublished with phase := if closing then .exited else .idle }
    | _ => none
  | .finish =>
    if s.phase = .idle ∧ s.rxClosed = true ∧ s.commits = [] ∧ s.landed = [] then
      let s := s.completePublished
      some { s with phase := if s.pending.isEmpty then .exited else .completed true }
    else none

/-- The batches whose commits are not joined. -/
def inFlight (s : Publishing) : List QmdbCommitBatch := s.commits ++ s.landed

/-! ## What each event does -/

section Events

variable {maxInFlight : Nat} {s s' : Publishing}

theorem step_prepareState {latest : UInt64} {inBand : Bool}
    (h : s.step maxInFlight (.prepareState latest inBand) = some s') :
    s.preparingState = none ∧ (∀ p, s.stateWriter.log.mark s.stateWriter.log.ends.length = some p → p < latest) ∧
      (inBand = true → ∀ i < s.stateWriter.log.ends.length, i ∈ s.stateWriter.log.persisted) ∧
      s' = { s with
        stateWriter := { s.stateWriter with log := s.stateWriter.log.append latest }
        preparingState := some ⟨s.stateWriter.log.ends.length, latest, inBand⟩ } := by
  simp only [step] at h
  split at h
  · rename_i writer upload hnone hprepare
    obtain ⟨hlast, hband, rfl, rfl⟩ := Writer.prepareUpload_some hprepare
    exact ⟨hnone, hlast, hband, (Option.some.inj h).symm⟩
  · cases h

theorem step_prepareTransactions {latest : UInt64} {inBand : Bool}
    (h : s.step maxInFlight (.prepareTransactions latest inBand) = some s') :
    s.preparingTransactions = none ∧
      (∀ p, s.transactionWriter.log.mark s.transactionWriter.log.ends.length = some p → p < latest) ∧
      (inBand = true → ∀ i < s.transactionWriter.log.ends.length, i ∈ s.transactionWriter.log.persisted) ∧
      s' = { s with
        transactionWriter := { s.transactionWriter with log := s.transactionWriter.log.append latest }
        preparingTransactions := some ⟨s.transactionWriter.log.ends.length, latest, inBand⟩ } := by
  simp only [step] at h
  split at h
  · rename_i writer upload hnone hprepare
    obtain ⟨hlast, hband, rfl, rfl⟩ := Writer.prepareUpload_some hprepare
    exact ⟨hnone, hlast, hband, (Option.some.inj h).symm⟩
  · cases h

theorem step_send {height : UInt64} (h : s.step maxInFlight (.send height) = some s') :
    ∃ state transactions, s.preparingState = some state ∧ s.preparingTransactions = some transactions ∧
      s.rxClosed = false ∧ (∀ h ∈ s.heights, h < height) ∧
      s' = { s with
        preparingState := none
        preparingTransactions := none
        heights := s.heights ++ [height]
        channel := s.channel ++ [⟨state, transactions, s.heights.length⟩] } := by
  simp only [step] at h
  split at h
  · rename_i state transactions hstate htransactions
    split at h
    · rename_i hguard
      cases h
      exact ⟨state, transactions, hstate, htransactions, hguard.1, by simpa using hguard.2, rfl⟩
    · cases h
  · cases h

theorem step_close (h : s.step maxInFlight .close = some s') : s.channel = [] ∧ s' = { s with rxClosed := true } := by
  simp only [step] at h
  split at h
  · rename_i hguard
    exact ⟨hguard.2, (Option.some.inj h).symm⟩
  · cases h

theorem step_receive (h : s.step maxInFlight .receive = some s') :
    ∃ upload channel, s.channel = upload :: channel ∧ s.phase = .idle ∧
      s' = { s with channel := channel, received := s.received + 1 }.stageAndSpawnCommit upload := by
  simp only [step] at h
  split at h
  · cases h
  rename_i upload channel hchannel
  split at h
  · rename_i hguard
    cases h
    exact ⟨upload, channel, hchannel, hguard.1, rfl⟩
  · cases h

theorem step_attempt {i : Nat} (h : s.step maxInFlight (.attempt i) = some s') :
    ∃ batch, s.commits[i]? = some batch ∧ s' = { s with store := s.store.commit batch } := by
  obtain ⟨batch, hbatch, rfl⟩ := Option.map_eq_some_iff.1 h
  exact ⟨batch, hbatch, rfl⟩

theorem step_land {i : Nat} (h : s.step maxInFlight (.land i) = some s') :
    ∃ batch, s.commits[i]? = some batch ∧
      s' = { s with commits := s.commits.eraseIdx i, landed := s.landed ++ [batch], store := s.store.commit batch } := by
  obtain ⟨batch, hbatch, rfl⟩ := Option.map_eq_some_iff.1 h
  exact ⟨batch, hbatch, rfl⟩

theorem step_join {i : Nat} (h : s.step maxInFlight (.join i) = some s') :
    ∃ batch, s.landed[i]? = some batch ∧ (s.phase = .idle ∨ s.phase = .joined) ∧
      s' = { s with
        landed := s.landed.eraseIdx i
        stateWriter := s.stateWriter.markUploadPersisted batch.upload.state
        phase := .marking batch } := by
  simp only [step] at h
  split at h
  · rename_i hphase
    obtain ⟨batch, hbatch, rfl⟩ := Option.map_eq_some_iff.1 h
    exact ⟨batch, hbatch, hphase, rfl⟩
  · cases h

theorem step_mark (h : s.step maxInFlight .mark = some s') :
    ∃ batch, s.phase = .marking batch ∧
      s' = { s with
        stateWriter := s.stateWriter.markFlushPersisted batch.stateWatermark
        transactionWriter :=
          (s.transactionWriter.markUploadPersisted batch.upload.transactions).markFlushPersisted batch.transactionWatermark
        pending := s.pending ++ [⟨batch.upload.state.latestLocation, batch.upload.transactions.latestLocation,
          batch.upload.completion⟩]
        phase := .joined } := by
  simp only [step] at h
  split at h
  · rename_i batch hphase
    cases h
    exact ⟨batch, hphase, rfl⟩
  · cases h

theorem step_complete (h : s.step maxInFlight .complete = some s') :
    s.phase = .joined ∧
      s' = { s.completePublished with phase := if s.completePublished.pending.isEmpty then .idle else .completed false } := by
  simp only [step] at h
  split at h
  · rename_i hphase
    cases h
    exact ⟨hphase, rfl⟩
  · cases h

theorem step_prepareFlush (h : s.step maxInFlight .prepareFlush = some s') :
    ∃ closing, s.phase = .completed closing ∧
      s' = { s with
        phase := if s.stateWriter.prepareFlush = none ∧ s.transactionWriter.prepareFlush = none then .flushed closing
          else .flushing closing s.stateWriter.prepareFlush s.transactionWriter.prepareFlush } := by
  simp only [step] at h
  split at h
  · rename_i closing hphase
    refine ⟨closing, hphase, ?_⟩
    split at h
    · rename_i hnone
      rw [if_pos hnone]
      exact (Option.some.inj h).symm
    · rename_i hsome
      rw [if_neg hsome]
      exact (Option.some.inj h).symm
  · cases h

theorem step_attemptFlush (h : s.step maxInFlight .attemptFlush = some s') :
    ∃ closing state transactions, s.phase = .flushing closing state transactions ∧
      s' = { s with store := s.store.write state transactions } := by
  simp only [step] at h
  split at h
  · rename_i closing state transactions hphase
    cases h
    exact ⟨closing, state, transactions, hphase, rfl⟩
  · cases h

theorem step_landFlush (h : s.step maxInFlight .landFlush = some s') :
    ∃ closing state transactions, s.phase = .flushing closing state transactions ∧
      s' = { s with
        store := s.store.write state transactions
        stateWriter := s.stateWriter.markFlushPersisted state
        transactionWriter := s.transactionWriter.markFlushPersisted transactions
        phase := .flushed closing } := by
  simp only [step] at h
  split at h
  · rename_i closing state transactions hphase
    cases h
    exact ⟨closing, state, transactions, hphase, rfl⟩
  · cases h

theorem step_completeFlushed (h : s.step maxInFlight .completeFlushed = some s') :
    ∃ closing, s.phase = .flushed closing ∧
      s' = { s.completePublished with phase := if closing then .exited else .idle } := by
  simp only [step] at h
  split at h
  · rename_i closing hphase
    cases h
    exact ⟨closing, hphase, rfl⟩
  · cases h

theorem step_finish (h : s.step maxInFlight .finish = some s') :
    s.phase = .idle ∧ s.rxClosed = true ∧ s.inFlight = [] ∧
      s' = { s.completePublished with phase := if s.completePublished.pending.isEmpty then .exited else .completed true } := by
  simp only [step] at h
  split at h
  · rename_i hguard
    cases h
    refine ⟨hguard.1, hguard.2.1, ?_, rfl⟩
    unfold inFlight
    rw [hguard.2.2.1, hguard.2.2.2, List.append_nil]
  · cases h

/-- The writers only append uploads and mark them; only one event sends a block. -/
theorem step_grows {e : PublishingEvent} (h : s.step maxInFlight e = some s') :
    s.stateWriter.log.Grows s'.stateWriter.log ∧ s.transactionWriter.log.Grows s'.transactionWriter.log ∧
      ((∀ height, e ≠ .send height) → s'.heights = s.heights) := by
  cases e with
  | prepareState latest inBand =>
    obtain ⟨-, -, -, rfl⟩ := step_prepareState h
    exact ⟨Watermark.Log.grows_append _ _, .refl _, fun _ => rfl⟩
  | prepareTransactions latest inBand =>
    obtain ⟨-, -, -, rfl⟩ := step_prepareTransactions h
    exact ⟨.refl _, Watermark.Log.grows_append _ _, fun _ => rfl⟩
  | send height =>
    obtain ⟨state, transactions, -, -, -, -, rfl⟩ := step_send h
    exact ⟨.refl _, .refl _, fun hne => absurd rfl (hne height)⟩
  | close =>
    obtain ⟨-, rfl⟩ := step_close h
    exact ⟨.refl _, .refl _, fun _ => rfl⟩
  | receive =>
    obtain ⟨upload, channel, -, -, rfl⟩ := step_receive h
    exact ⟨.refl _, .refl _, fun _ => rfl⟩
  | attempt i =>
    obtain ⟨batch, -, rfl⟩ := step_attempt h
    exact ⟨.refl _, .refl _, fun _ => rfl⟩
  | land i =>
    obtain ⟨batch, -, rfl⟩ := step_land h
    exact ⟨.refl _, .refl _, fun _ => rfl⟩
  | join i =>
    obtain ⟨batch, -, -, rfl⟩ := step_join h
    exact ⟨Watermark.Log.grows_acknowledge _ _, .refl _, fun _ => rfl⟩
  | mark =>
    obtain ⟨batch, -, rfl⟩ := step_mark h
    exact ⟨.refl _, Watermark.Log.grows_acknowledge _ _, fun _ => rfl⟩
  | complete =>
    obtain ⟨-, rfl⟩ := step_complete h
    exact ⟨.refl _, .refl _, fun _ => rfl⟩
  | prepareFlush =>
    obtain ⟨closing, -, rfl⟩ := step_prepareFlush h
    exact ⟨.refl _, .refl _, fun _ => rfl⟩
  | attemptFlush =>
    obtain ⟨closing, state, transactions, -, rfl⟩ := step_attemptFlush h
    exact ⟨.refl _, .refl _, fun _ => rfl⟩
  | landFlush =>
    obtain ⟨closing, state, transactions, -, rfl⟩ := step_landFlush h
    exact ⟨.refl _, .refl _, fun _ => rfl⟩
  | completeFlushed =>
    obtain ⟨closing, -, rfl⟩ := step_completeFlushed h
    exact ⟨.refl _, .refl _, fun _ => rfl⟩
  | finish =>
    obtain ⟨-, -, -, rfl⟩ := step_finish h
    exact ⟨.refl _, .refl _, fun _ => rfl⟩

end Events

end Publishing

end Constantinople
