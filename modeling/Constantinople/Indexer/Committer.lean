/-
The upload pipeline of `crates/indexer/src/publisher/qmdb.rs`: the publisher hands uploads to the
preparer, which hands them to `run_qmdb_committer`, which runs several Store commits at once. An event
is one step of one of these tasks; the events of a run come in any order the tasks allow. The Store
keeps the last committed row of each account. Where the published watermarks stand when completions
are looked for is left open.
-/
import Constantinople.Indexer.Upload
import Constantinople.Lib.LastWrite
import Constantinople.Lib.Run

namespace Constantinople

open Run

variable {C D : Type}

/-! ## The pipeline -/

/-- An upload waiting for the preparer; its completion is its number among the accepted uploads. -/
structure PendingQueuedFinalizedUpload (C D : Type) where
  upload : QueuedFinalizedUpload C D
  completion : Nat

/-- An upload ready to be staged and committed. -/
structure PreparedQmdbUpload (D : Type) where
  height : UInt64
  sqlRows : List (SqlRow D)
  stateLatest : UInt64
  transactionLatest : UInt64
  completion : Nat

structure PendingUploadCompletion where
  stateLatest : UInt64
  transactionLatest : UInt64
  completion : Nat
deriving DecidableEq

/-- Expands an upload and places its operations where the writers continue. -/
def prepareQmdbUpload (E : Env D) (pending : PendingQueuedFinalizedUpload C D) :
    Panics (Except PublishError (PreparedQmdbUpload D)) :=
  match expandQueuedFinalizedUpload E pending.upload with
  | .error panic => .error panic
  | .ok (.error error) => .ok (.error error)
  | .ok (.ok expanded) =>
    .ok (.ok {
      height := expanded.height
      sqlRows := expanded.sqlRows
      stateLatest := pending.upload.stateStart + UInt64.ofNat (expanded.stateDelta.length - 1)
      transactionLatest := pending.upload.transactionStart + UInt64.ofNat (expanded.transactionOps.length - 1)
      completion := pending.completion })

/-- The `account_meta` rows among the rows of a Store batch, with their primary keys. -/
def accountWrites (rows : List (SqlRow D)) : List (AccountKey × AccountMetaRow) :=
  rows.filterMap fun row =>
    match row with
    | .accountMeta row => some (row.account, row)
    | _ => none

/-- The uploads whose published watermarks have come far enough, and the others. -/
def completePublishedUploads (state transactions : Option UInt64) (pending : List PendingUploadCompletion) :
    List PendingUploadCompletion × List PendingUploadCompletion :=
  pending.partition fun upload => state.any (upload.stateLatest ≤ ·) && transactions.any (upload.transactionLatest ≤ ·)

/-- The state of the pipeline: the publisher's positions and what it has accepted, the two channels,
the running and the finished commit tasks, what waits for a watermark, the completions signalled, and
the Store's `account_meta` table. -/
structure Pipeline (C D : Type) where
  next : FinalizedUploadCursor
  accepted : List (QueuedFinalizedUpload C D)
  preparing : List (PendingQueuedFinalizedUpload C D)
  prepared : List (PreparedQmdbUpload D)
  inFlight : List (PreparedQmdbUpload D)
  landed : List (PreparedQmdbUpload D)
  pending : List PendingUploadCompletion
  fired : List Nat
  accountMeta : AccountKey → Option AccountMetaRow

def Pipeline.start : Pipeline C D := ⟨⟨0, 0⟩, [], [], [], [], [], [], [], fun _ => none⟩

inductive Event (C D : Type)
  /-- The publisher is given a queued upload. -/
  | enqueue (upload : QueuedFinalizedUpload C D)
  /-- The preparer takes the next upload. -/
  | prepare
  /-- The committer takes the next upload and spawns its commit. -/
  | spawn
  /-- The Store applied a commit whose answer was lost, so that it will be retried. -/
  | attempt (i : Nat)
  /-- A commit succeeds. -/
  | land (i : Nat)
  /-- The committer joins a finished commit task. -/
  | join (i : Nat)
  /-- Completions are signalled with the watermarks at these places. -/
  | complete (state transactions : Option UInt64)

/-- One event; `none` if it cannot happen, or ends in a panic. -/
def Pipeline.step (E : Env D) (maxInFlightCommits : Nat) (s : Pipeline C D) : Event C D → Option (Pipeline C D)
  | .enqueue upload =>
    match enqueueQueuedFinalized s.next upload with
    | .error _ => none
    | .ok (.error _) => some s
    | .ok (.ok none) => some s
    | .ok (.ok (some next)) =>
      some { s with
        next := next
        accepted := s.accepted ++ [upload]
        preparing := s.preparing ++ [⟨upload, s.accepted.length⟩] }
  | .prepare =>
    match s.preparing with
    | [] => none
    | upload :: preparing =>
      match prepareQmdbUpload E upload with
      | .ok (.ok prepared) => some { s with preparing := preparing, prepared := s.prepared ++ [prepared] }
      | _ => none
  | .spawn =>
    match s.prepared with
    | [] => none
    | upload :: prepared =>
      if s.inFlight.length + s.landed.length < maxInFlightCommits then
        some { s with prepared := prepared, inFlight := s.inFlight ++ [upload] }
      else none
  | .attempt i =>
    match s.inFlight[i]? with
    | none => none
    | some upload => some { s with accountMeta := LastWrite.write s.accountMeta (accountWrites upload.sqlRows) }
  | .land i =>
    match s.inFlight[i]? with
    | none => none
    | some upload =>
      some { s with
        inFlight := s.inFlight.eraseIdx i
        landed := s.landed ++ [upload]
        accountMeta := LastWrite.write s.accountMeta (accountWrites upload.sqlRows) }
  | .join i =>
    match s.landed[i]? with
    | none => none
    | some upload =>
      some { s with
        landed := s.landed.eraseIdx i
        pending := s.pending ++ [⟨upload.stateLatest, upload.transactionLatest, upload.completion⟩] }
  | .complete state transactions =>
    let (ready, retained) := completePublishedUploads state transactions s.pending
    some { s with pending := retained, fired := s.fired ++ ready.map PendingUploadCompletion.completion }

end Constantinople
