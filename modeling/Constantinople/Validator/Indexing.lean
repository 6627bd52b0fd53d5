/-
The whole way of a finalized block into the remote Store: the producer and the consumer of the durable
queue in `bin/validator/src/run.rs`, and the publisher with its preparer and committer in
`crates/indexer/src/publisher/qmdb.rs`. A crash loses everything but the queue and the Store, and requests
that were on their way may still reach the Store later, any number of times, also between the two reads of a
connecting publisher. The block and certificate artifacts a finished upload also sends off are left out.
-/
import Constantinople.Indexer.Completion
import Constantinople.Validator.Capture

namespace Constantinople

open Run

variable {C D : Type}

/-! ## The Store -/

/-- A request to the Store: a batch with the rows of an upload, or watermarks alone. -/
inductive StoreRequest (C D : Type)
  | commit (upload : QueuedFinalizedUpload C D) (batch : QmdbCommitBatch)
  | flush (state transactions : Option UInt64)

/-- The watermarks in the Store, and the uploads whose rows are in it. -/
structure RemoteStore (C D : Type) where
  watermarks : StoreWatermarks
  rows : List (QueuedFinalizedUpload C D)

namespace StoreRequest

def writes (watermarks : StoreWatermarks) : StoreRequest C D → StoreWatermarks
  | .commit _ batch => watermarks.commit batch
  | .flush state transactions => watermarks.write state transactions

def rows : StoreRequest C D → List (QueuedFinalizedUpload C D)
  | .commit upload _ => [upload]
  | .flush _ _ => []

end StoreRequest

def RemoteStore.apply (store : RemoteStore C D) (request : StoreRequest C D) : RemoteStore C D :=
  ⟨request.writes store.watermarks, store.rows ++ request.rows⟩

/-! ## A connected publisher -/

/-- The last location after a writer's next `count` operations. -/
def Writer.latestAfter (w : Writer) (count : Nat) : UInt64 :=
  nextWriterLocation (w.log.mark w.log.ends.length) + UInt64.ofNat count - 1

/-- The publisher, and the tasks behind it. -/
structure Connection (C D : Type) where
  publisher : Publisher C D
  publishing : Publishing

namespace Connection

def connect (watermarks : StoreWatermarks) : Connection C D :=
  ⟨⟨watermarks.nextLocations, []⟩, .connect watermarks⟩

/-- The upload the preparer is at, with what is derived from it; it panics on an upload it cannot expand. -/
def preparing (E : Env D) (c : Connection C D) : Option (ExpandedUpload D) :=
  match c.publisher.handed[c.publishing.heights.length]? with
  | none => none
  | some upload =>
    match expandQueuedFinalizedUpload E upload with
    | .ok (.ok expanded) => some expanded
    | _ => none

/-- The uploads that are prepared and sent are those handed over, in order. The validator never closes the
publisher. -/
def allows (E : Env D) (c : Connection C D) : PublishingEvent → Bool
  | .prepareState latest _ =>
    (c.preparing E).any fun upload => latest = c.publishing.stateWriter.latestAfter upload.stateDelta.length
  | .prepareTransactions latest _ =>
    (c.preparing E).any fun upload => latest = c.publishing.transactionWriter.latestAfter upload.transactionOps.length
  | .send height => (c.preparing E).any fun upload => height = upload.height
  | .close | .finish => false
  | _ => true

/-- The request of a commit. -/
def commitRequest (c : Connection C D) (batch : QmdbCommitBatch) : Option (StoreRequest C D) :=
  (c.publisher.handed[batch.upload.completion]?).map fun upload => .commit upload batch

/-- The request of the flush that is running, if one is. -/
def flushRequest (c : Connection C D) : Option (StoreRequest C D) :=
  match c.publishing.phase with
  | .flushing _ state transactions => some (.flush state transactions)
  | _ => none

/-- The request an event applies to the Store. -/
def request (c : Connection C D) : PublishingEvent → Option (StoreRequest C D)
  | .attempt i | .land i => (c.publishing.commits[i]?).bind c.commitRequest
  | .attemptFlush | .landFlush => c.flushRequest
  | _ => none

/-- The requests on their way to the Store. -/
def outstanding (c : Connection C D) : List (StoreRequest C D) :=
  c.publishing.commits.filterMap c.commitRequest ++ c.flushRequest.toList

end Connection

/-! ## The system -/

/-- A task of the consumer: its queue position, and the number of the upload it waits for, if that was not
there already. -/
structure UploadTask where
  position : Nat
  number : Option Nat
deriving DecidableEq, Repr

/-- The queue with its users, the connected publisher, the state watermark that a connecting one has read, the tasks
of the consumer, the Store, and the requests of earlier processes. -/
structure Indexing (C D : Type) where
  queue : UploadQueue C D
  connection : Option (Connection C D)
  recovered : Option (Option UInt64)
  tasks : List UploadTask
  store : RemoteStore C D
  late : List (StoreRequest C D)

inductive IndexingEvent
  /-- An event of the producer, or a crash. -/
  | produce (event : NodeEvent)
  /-- `LazyPublisher` connects, again if it has failed: the watermark of the state writer is read. -/
  | recoverState
  /-- The watermark of the transaction writer is read, and the publisher is there. -/
  | recoverTransactions
  /-- `start_queued_upload` for the next entry the reader gets. -/
  | start
  /-- An event of the preparer, the committer or its commits. -/
  | publish (event : PublishingEvent)
  /-- The completion a task waits for is signalled: the task returns. -/
  | finish (position : Nat)
  /-- `ack_finalized_queue_entry` for a task that has returned. -/
  | acknowledge (position : Nat)
  /-- A request of an earlier process reaches the Store. -/
  | arrive (i : Nat)

namespace Indexing

/-- An iteration of the producer that asks the publisher gets its positions. -/
def answers (chain : List (SealedBlock C D)) (s : Indexing C D) : NodeEvent → Bool
  | .retry env =>
    match chain[s.queue.node.completed]? with
    | none => true
    | some block =>
      match buildQueuedFinalizedUpload env s.queue.node.cursor block with
      | .ok (.error (.storeEmptyPastGenesis _)) =>
        s.queue.node.cursor.stateNext ≠ 0 ∨ (s.connection.any fun c => env.nextLocations = c.publisher.next)
      | _ => true
  | _ => true

/-- What a crash leaves of everything but the queue. -/
def crashed (s : Indexing C D) (queue : UploadQueue C D) : Indexing C D :=
  { s with
    queue := queue
    connection := none
    recovered := none
    tasks := []
    late := s.late ++ s.connection.toList.flatMap Connection.outstanding }

def step (E : Env D) (chain : List (SealedBlock C D)) (maxActive maxInFlightCommits : Nat) (s : Indexing C D) :
    IndexingEvent → Option (Indexing C D)
  | .produce event =>
    if s.answers chain event then
      match s.queue.step chain maxActive (.produce event), event with
      | none, _ => none
      | some queue, .crash _ => some (s.crashed queue)
      | some queue, _ => some { s with queue := queue }
    else none
  | .recoverState =>
    match s.connection with
    | some _ => none
    | none => some { s with recovered := some s.store.watermarks.state }
  | .recoverTransactions =>
    match s.connection, s.recovered with
    | none, some state =>
      some { s with connection := some (.connect ⟨state, s.store.watermarks.transactions⟩), recovered := none }
    | _, _ => none
  | .start =>
    match s.connection, s.queue.next, s.queue.step chain maxActive .receive with
    | some c, some position, some queue =>
      match s.queue.node.uploads[position]? with
      | none => none
      | some upload =>
        match c.publisher.enqueue true upload with
        | .ok (.ok .completed, publisher) =>
          some { s with
            queue := queue
            connection := some { c with publisher := publisher }
            tasks := s.tasks ++ [⟨position, none⟩] }
        | .ok (.ok .waiting, publisher) =>
          some { s with
            queue := queue
            connection := some { c with publisher := publisher }
            tasks := s.tasks ++ [⟨position, some c.publisher.handed.length⟩] }
        -- on an error the loop tries again, with the same publisher
        | _ => none
    | _, _, _ => none
  | .publish event =>
    match s.connection with
    | none => none
    | some c =>
      if c.allows E event then
        match c.publishing.step maxInFlightCommits event with
        | none => none
        | some publishing =>
          some { s with
            connection := some { c with publishing := publishing }
            store := (c.request event).elim s.store s.store.apply }
      else none
  | .finish position =>
    match s.connection, s.tasks.find? fun task => task.position = position with
    | some c, some task =>
      if task.number.all (· ∈ c.publishing.signalled) then
        match s.queue.step chain maxActive (.finish position) with
        | none => none
        | some queue => some { s with queue := queue, tasks := s.tasks.erase task }
      else none
    | _, _ => none
  | .acknowledge position =>
    match s.queue.step chain maxActive (.acknowledge position) with
    | none => none
    | some queue => some { s with queue := queue }
  | .arrive i => (s.late[i]?).map fun request => { s with store := s.store.apply request }

end Indexing

/-- The positions before each frontier, as the last location of each writer. -/
def lastBefore (next : Nat → UInt64) : Nat → Option UInt64
  | 0 => none
  | k + 1 => some (next (k + 1) - 1)

/-- The watermarks of a Store that has the first `k` blocks of a chain. -/
def watermarksAt (chain : List (SealedBlock C D)) (k : Nat) : StoreWatermarks :=
  ⟨lastBefore (fun k => (endsAt chain k).stateNext) k, lastBefore (fun k => (endsAt chain k).transactionNext) k⟩

/-- Nothing is queued yet, and the Store has the blocks before `first`. -/
def Indexing.fresh (chain : List (SealedBlock C D)) (first : Nat) : Indexing C D :=
  ⟨.fresh first, none, none, [], ⟨watermarksAt chain first, []⟩, []⟩

/-- No request of an earlier process reaches the Store between the two reads of a connecting publisher. -/
def Indexing.Undisturbed (s : Indexing C D) : IndexingEvent → Prop
  | .arrive _ => s.recovered = none
  | _ => True

/-- The state database proves what a written entry needs in full. -/
def IndexingEvent.Proves : IndexingEvent → Prop
  | .produce (.write env) => env.ProvesRanges
  | _ => True

end Constantinople
