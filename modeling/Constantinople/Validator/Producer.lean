/-
The producer of the finalized-upload queue and its recovery after a restart, as in
`bin/validator/src/run.rs`, with the queue entries built by `crates/indexer/src/publisher/qmdb.rs`.
A node is its durable queue and cursor metadata, the number of finalized blocks whose hook call the
caller has recorded, and the volatile cursor with the place the running call has reached.
-/
import Constantinople.Indexer.Upload

namespace Constantinople

variable {C D : Type}

/-! ## Building a queue entry -/

/-- What one iteration of the producer finds outside: the operations the state database can still
prove for a range, the clock, and the positions of the remote Store. -/
structure ProducerEnv where
  historicalProof : (start stop : UInt64) → Option (List StateOperation)
  now : Int
  nextLocations : FinalizedUploadCursor

def loadStateOps (env : ProducerEnv) (start stop : UInt64) : Except PublishError (List StateOperation) :=
  match Word.checkedSub stop start with
  | none => .error (.qmdb "empty batch")
  | some count =>
    if count = 0 then .error (.qmdb "empty batch")
    else
      match env.historicalProof start stop with
      | none => .error (.qmdb "local state op proof")
      | some operations => .ok operations

def buildStateDelta (env : ProducerEnv) (writerNext : UInt64) (block : Block C D) :
    Except PublishError (List StateOperation) :=
  if writerNext = 0 ∧ 1 < block.header.height then .error (.storeEmptyPastGenesis block.header.height)
  else loadStateOps env writerNext block.header.stateRange.stop

/-- `build_queued_finalized_upload_with_context` at a cursor. -/
def buildQueuedFinalizedUpload (env : ProducerEnv) (cursor : FinalizedUploadCursor) (block : SealedBlock C D) :
    Panics (Except PublishError (QueuedFinalizedUpload C D)) :=
  match validateWriterRange cursor.stateNext block.inner.header.stateRange.stop block.inner.header.height with
  | .error error => .ok (.error error)
  | .ok () =>
    match transactionUploadEnd cursor.transactionNext block.inner with
    | .error panic => .error panic
    | .ok (.error error) => .ok (.error error)
    | .ok (.ok _) =>
      match buildStateDelta env cursor.stateNext block.inner with
      | .error error => .ok (.error error)
      | .ok stateDelta => .ok (.ok ⟨block, env.now, cursor.stateNext, cursor.transactionNext, stateDelta⟩)

/-! ## Cursors -/

/-- The two cursor keys of the metadata store. -/
structure CursorMetadata where
  state : Option UInt64
  transaction : Option UInt64
deriving DecidableEq, Repr

namespace FinalizedUploadCursor

def fromParts (stateNext transactionNext : Option UInt64) : Option FinalizedUploadCursor :=
  match stateNext, transactionNext with
  | some stateNext, some transactionNext => some ⟨stateNext, transactionNext⟩
  | _, _ => none

def fromMetadata (metadata : CursorMetadata) : Option FinalizedUploadCursor :=
  fromParts metadata.state metadata.transaction

def fromUpload (upload : QueuedFinalizedUpload C D) : Panics FinalizedUploadCursor :=
  match upload.transactionEnd with
  | .error panic => .error panic
  | .ok transactionEnd => .ok ⟨upload.stateEnd, transactionEnd⟩

/-- The later frontier, as a whole pair. -/
def max (self other : FinalizedUploadCursor) : FinalizedUploadCursor :=
  if self.stateNext < other.stateNext ∨
      (other.stateNext = self.stateNext ∧ self.transactionNext < other.transactionNext) then other
  else self

def toMetadata (cursor : FinalizedUploadCursor) : CursorMetadata :=
  ⟨some cursor.stateNext, some cursor.transactionNext⟩

end FinalizedUploadCursor

def recoveredFinalizedUploadCursor (metadata queue : Option FinalizedUploadCursor) : FinalizedUploadCursor :=
  (metadata.getD default).max (queue.getD default)

/-- The cursor of the last entry read. -/
def scanFinalizedQueueCursor : Option FinalizedUploadCursor → List (QueuedFinalizedUpload C D) →
    Panics (Option FinalizedUploadCursor)
  | cursor, [] => .ok cursor
  | _, upload :: uploads =>
    match FinalizedUploadCursor.fromUpload upload with
    | .error panic => .error panic
    | .ok cursor => scanFinalizedQueueCursor (some cursor) uploads

/-! ## The producer -/

/-- What an iteration of `enqueue` comes to: another one from a cursor, or an entry to write. -/
inductive Iteration (C D : Type)
  | retry (cursor : FinalizedUploadCursor)
  | built (upload : QueuedFinalizedUpload C D)

/-- One iteration of the loop of `enqueue`, up to the queue write. -/
def enqueueIteration (env : ProducerEnv) (block : SealedBlock C D) (cursor : FinalizedUploadCursor) :
    Panics (Iteration C D) :=
  match buildQueuedFinalizedUpload env cursor block with
  | .error panic => .error panic
  | .ok (.ok upload) => .ok (.built upload)
  | .ok (.error (.storeEmptyPastGenesis _)) =>
    if cursor.stateNext = 0 then
      if env.nextLocations.stateNext = 0 ∧ env.nextLocations.transactionNext = 0 then .ok (.retry cursor)
      else .ok (.retry env.nextLocations)
    else .ok (.retry cursor)
  | .ok (.error _) => .ok (.retry cursor)

/-- The loop of `enqueue` over what its iterations find outside, up to the first entry it builds. -/
def enqueueLoop (block : SealedBlock C D) : FinalizedUploadCursor → List ProducerEnv →
    Panics (Option (QueuedFinalizedUpload C D))
  | _, [] => .ok none
  | cursor, env :: envs =>
    match enqueueIteration env block cursor with
    | .error panic => .error panic
    | .ok (.built upload) => .ok (some upload)
    | .ok (.retry cursor) => enqueueLoop block cursor envs

/-- Where the hook call for the next block is. -/
inductive Phase
  /-- No call is running. -/
  | idle
  /-- In the loop, before the queue write. -/
  | calling
  /-- The entry is in the durable queue; the cursor is not stored yet. -/
  | queued (next : FinalizedUploadCursor)
  /-- The cursor is stored; the caller has not recorded the call's completion yet. -/
  | persisted
deriving DecidableEq, Repr

/-- A queue entry with its acknowledgement. -/
structure QueueEntry (C D : Type) where
  upload : QueuedFinalizedUpload C D
  acknowledged : Bool

structure Node (C D : Type) where
  queue : List (QueueEntry C D)
  metadata : CursorMetadata
  completed : Nat
  cursor : FinalizedUploadCursor
  phase : Phase

/-- Every entry ever written, uploaded or not. -/
def Node.uploads (s : Node C D) : List (QueuedFinalizedUpload C D) := s.queue.map QueueEntry.upload

/-- The entries a reader of the queue gets. -/
def Node.unacknowledged (s : Node C D) : List (QueuedFinalizedUpload C D) :=
  (s.queue.filter fun entry => !entry.acknowledged).map QueueEntry.upload

/-- A node that has indexed nothing, from which on `first` blocks are already finalized. -/
def Node.fresh (first : Nat) : Node C D := ⟨[], ⟨none, none⟩, first, default, .idle⟩

inductive NodeEvent
  /-- The next finalized block is delivered: the hook is called. -/
  | deliver
  /-- An iteration that has to be retried. -/
  | retry (env : ProducerEnv)
  /-- An iteration that writes the queue entry; the write is durable when it returns. -/
  | write (env : ProducerEnv)
  /-- An iteration whose queue write fails. -/
  | writeFailed (env : ProducerEnv)
  /-- `persist_finalized_cursor` returns, and the cursor is set. -/
  | persist
  /-- The call has returned and the caller has recorded it. -/
  | complete
  /-- The consumer has uploaded an entry and acknowledged it. -/
  | acknowledge (i : Nat)
  /-- A crash and the restart after it; the listed acknowledgements were not durable. -/
  | crash (lost : List Nat)

/-- The restart: the queue is scanned and the cursor recovered and stored. -/
def Node.restart (s : Node C D) (lost : List Nat) : Panics (Node C D) :=
  let queue := s.queue.mapIdx fun i entry => if i ∈ lost then { entry with acknowledged := false } else entry
  let s := { s with queue := queue, phase := .idle }
  let metadataCursor := FinalizedUploadCursor.fromMetadata s.metadata
  match scanFinalizedQueueCursor none s.unacknowledged with
  | .error panic => .error panic
  | .ok queueCursor =>
    let cursor := recoveredFinalizedUploadCursor metadataCursor queueCursor
    .ok { s with
      cursor := cursor
      metadata := if metadataCursor ≠ some cursor then cursor.toMetadata else s.metadata }

/-- One event over the finalized `chain`; `none` if it cannot happen, or ends in a panic. -/
def Node.step (chain : List (SealedBlock C D)) (s : Node C D) : NodeEvent → Option (Node C D)
  | .deliver => if s.phase = .idle ∧ s.completed < chain.length then some { s with phase := .calling } else none
  | .retry env =>
    match s.phase, chain[s.completed]? with
    | .calling, some block =>
      match enqueueIteration env block s.cursor with
      | .ok (.retry cursor) => some { s with cursor := cursor }
      | _ => none
    | _, _ => none
  | .write env =>
    match s.phase, chain[s.completed]? with
    | .calling, some block =>
      match enqueueIteration env block s.cursor with
      | .ok (.built upload) =>
        match FinalizedUploadCursor.fromUpload upload with
        | .error _ => none
        | .ok next => some { s with queue := s.queue ++ [⟨upload, false⟩], phase := .queued next }
      | _ => none
    | _, _ => none
  | .writeFailed env =>
    match s.phase, chain[s.completed]? with
    | .calling, some block =>
      match enqueueIteration env block s.cursor with
      | .ok (.built _) => some s
      | _ => none
    | _, _ => none
  | .persist =>
    match s.phase with
    | .queued next => some { s with metadata := next.toMetadata, cursor := next, phase := .persisted }
    | _ => none
  | .complete => if s.phase = .persisted then some { s with completed := s.completed + 1, phase := .idle } else none
  | .acknowledge i =>
    some { s with queue := s.queue.modify i fun entry => { entry with acknowledged := true } }
  | .crash lost => (s.restart lost).toOption

end Constantinople
