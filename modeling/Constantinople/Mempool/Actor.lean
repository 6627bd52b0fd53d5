/-
The mempool actor, as in `crates/mempool/src/webserver/actor.rs`: the batch tables and the functions
over them, then the message loop. A oneshot sender is the number of its channel, and a step returns
what it sends. Where the actor iterates over a hash set, the order is a parameter. Byte counts are
natural numbers; heights and rounds wrap as the source's do.
-/
import Constantinople.Lib.Assoc
import Constantinople.Primitives.Block

namespace Constantinople.Mempool

open Constantinople

variable {C D : Type}

/-! ## Statuses -/

/-- A oneshot channel. -/
abbrev Channel := Nat

/-- Outcome of a submitted batch, delivered when the result is known. -/
inductive TxStatus
  | finalized (height : UInt64)
  | partiallyFinalized (height : UInt64) (included filtered : List String)
  | dropped
deriving DecidableEq, Repr

/-- Latest known status for a submitted batch. -/
inductive BatchStatus
  | accepted (digests : List String)
  | finalized (height : UInt64) (included : List String)
  | partiallyFinalized (height : UInt64) (included filtered : List String)
  | dropped (filtered : List String)
deriving DecidableEq, Repr

inductive DigestOutcome
  | finalized (height : UInt64)
  | dropped
deriving DecidableEq, Repr

inductive IngestStatus
  | accepted
  | dropped
deriving DecidableEq, Repr

def maxStatusEntries : Nat := 1000000

/-- A batch of transactions waiting in the pool. -/
structure PoolEntry (D : Type) where
  transactions : List (SignedTransaction D)
  totalBytes : Nat
deriving DecidableEq

/-- A batch proposed at a given height. -/
structure ProposedBatch (D : Type) where
  height : UInt64
  digests : List D
deriving DecidableEq

/-- What a handled message sends. -/
inductive Reply (D : Type)
  | ingest (channel : Channel) (status : IngestStatus)
  | result (batchId : String) (channel : Channel) (status : TxStatus)
  | status (channel : Channel) (status : Option BatchStatus)
  | consensusRound (channel : Channel) (round : UInt64)
  | transactions (channel : Channel) (transactions : List (SignedTransaction D))
  | acknowledge (channel : Channel)
deriving DecidableEq

/-- The tables that follow submitted batches. -/
structure Tables (D : Type) where
  statuses : Assoc String BatchStatus
  statusOrder : List String
  batchDigests : Assoc String (List D)
  digestWatchers : Assoc D (List String)
  digestOutcomes : Assoc D DigestOutcome
  pendingWaiters : Assoc String (List Channel)

section Tables

variable [DecidableEq D]

/-- The loop of `batch_status_from_outcomes`: the highest finalized height, the included and the
filtered digests so far. -/
def outcomesLoop (display : D → String) (outcomes : Assoc D DigestOutcome) :
    List D → UInt64 → List String → List String → Option (UInt64 × List String × List String)
  | [], height, included, filtered => some (height, included, filtered)
  | digest :: digests, height, included, filtered =>
    match outcomes.get digest with
    | some (.finalized h) => outcomesLoop display outcomes digests (max height h) (included ++ [display digest]) filtered
    | some .dropped => outcomesLoop display outcomes digests height included (filtered ++ [display digest])
    | none => none

/-- The status of a batch all of whose digests have an outcome. -/
def batchStatusFromOutcomes (display : D → String) (digests : List D) (outcomes : Assoc D DigestOutcome) :
    Option BatchStatus :=
  match outcomesLoop display outcomes digests 0 [] [] with
  | none => none
  | some (height, included, filtered) =>
    if included.isEmpty then some (.dropped filtered)
    else if filtered.isEmpty then some (.finalized height included)
    else some (.partiallyFinalized height included filtered)

def txStatusFromBatch : BatchStatus → Option TxStatus
  | .accepted _ => none
  | .finalized height _ => some (.finalized height)
  | .partiallyFinalized height included filtered => some (.partiallyFinalized height included filtered)
  | .dropped _ => some .dropped

def acceptedStatus (display : D → String) (digests : List D) : BatchStatus := .accepted (digests.map display)

namespace Tables

def empty : Tables D := ⟨.empty, [], .empty, .empty, .empty, .empty⟩

/-- The loop of `remember_status` that drops the oldest statuses: what stays and what expired. -/
def expire : Assoc String BatchStatus → List String → Assoc String BatchStatus × List String × List String
  | statuses, [] => (statuses, [], [])
  | statuses, batchId :: order =>
    if maxStatusEntries < statuses.size then
      let (statuses, order, expired) := expire (statuses.erase batchId) order
      (statuses, order, batchId :: expired)
    else (statuses, batchId :: order, [])

/-- Stores a status; the second component lists the batches that expired. -/
def rememberStatus (t : Tables D) (batchId : String) (status : BatchStatus) : Tables D × List String :=
  let order := if t.statuses.contains batchId then t.statusOrder else t.statusOrder ++ [batchId]
  let (statuses, order, expired) := expire (t.statuses.insert batchId status) order
  ({ t with statuses := statuses, statusOrder := order }, expired)

/-- Sends a terminal status to the batch's waiters. -/
def sendPendingWaiters (t : Tables D) (batchId : String) (status : BatchStatus) : Tables D × List (Reply D) :=
  match txStatusFromBatch status with
  | none => (t, [])
  | some status =>
    match t.pendingWaiters.get batchId with
    | none => (t, [])
    | some waiters =>
      ({ t with pendingWaiters := t.pendingWaiters.erase batchId }, waiters.map (.result batchId · status))

/-- Sends the stored status of a batch, if it has one. -/
def announce (t : Tables D) (batchId : String) : Tables D × List (Reply D) :=
  match t.statuses.get batchId with
  | none => (t, [])
  | some status => t.sendPendingWaiters batchId status

def pushWaiter (t : Tables D) (batchId : String) (channel : Channel) : Tables D :=
  { t with pendingWaiters := t.pendingWaiters.insert batchId ((t.pendingWaiters.get batchId).getD [] ++ [channel]) }

/-- Registers the batch with each of its digests, once. -/
def watchBatch (t : Tables D) (batchId : String) (digests : List D) : Tables D :=
  let watch (watchers : Assoc D (List String)) (digest : D) :=
    watchers.insert digest ((watchers.get digest).getD [] ++ [batchId])
  { t with digestWatchers := digests.dedup.foldl watch t.digestWatchers }

/-- Takes a batch off the watchers of one digest; the last one off takes the outcome along. -/
def unwatch (batchId : String) (t : Tables D) (digest : D) : Tables D :=
  match t.digestWatchers.get digest with
  | none => t
  | some batchIds =>
    let batchIds := batchIds.filter (· ≠ batchId)
    if batchIds.isEmpty then
      { t with digestWatchers := t.digestWatchers.erase digest, digestOutcomes := t.digestOutcomes.erase digest }
    else { t with digestWatchers := t.digestWatchers.insert digest batchIds }

def forgetBatch (t : Tables D) (batchId : String) : Tables D :=
  let t := { t with pendingWaiters := t.pendingWaiters.erase batchId }
  match t.batchDigests.get batchId with
  | none => t
  | some digests => digests.dedup.foldl (unwatch batchId) { t with batchDigests := t.batchDigests.erase batchId }

def forgetExpiredBatches (t : Tables D) (expired : List String) : Tables D := expired.foldl forgetBatch t

/-- The batches that watch one of the digests, each once. -/
def watchedBatchesFor (t : Tables D) (digests : List D) : List String :=
  (digests.flatMap fun digest => (t.digestWatchers.get digest).getD []).dedup

/-- Resolves a batch once all its digests have an outcome. -/
def resolveBatchIfTerminal (display : D → String) (t : Tables D) (batchId : String) : Tables D × List (Reply D) :=
  match t.batchDigests.get batchId with
  | none => (t, [])
  | some digests =>
    match batchStatusFromOutcomes display digests t.digestOutcomes with
    | none => (t, [])
    | some status =>
      let (t, expired) := t.rememberStatus batchId status
      let (t, replies) := t.announce batchId
      ((t.forgetBatch batchId).forgetExpiredBatches expired, replies)

/-- Resolves batches one after the other. -/
def resolveAll (display : D → String) : Tables D → List String → Tables D × List (Reply D)
  | t, [] => (t, [])
  | t, batchId :: batchIds =>
    let (t, replies) := t.resolveBatchIfTerminal display batchId
    let (t, rest) := resolveAll display t batchIds
    (t, replies ++ rest)

end Tables

end Tables

/-! ## Transactions -/

section Transactions

variable [DecidableEq D]

/-- The transactions whose digest is not known yet, and the digests known after them. -/
def newTransactions : List (SignedTransaction D) → Finset D → List (SignedTransaction D) × Finset D
  | [], known => ([], known)
  | transaction :: transactions, known =>
    if transaction.messageDigest ∈ known then newTransactions transactions known
    else
      let (accepted, known) := newTransactions transactions (insert transaction.messageDigest known)
      (transaction :: accepted, known)

def removeKnownDigests (transactions : List (SignedTransaction D)) (known : Finset D) : Finset D :=
  transactions.foldl (fun known transaction => known.erase transaction.messageDigest) known

end Transactions

def totalBytesFor (transactions : List (SignedTransaction D)) : Nat :=
  (transactions.map fun transaction => transaction.encodeSize).sum

/-! ## The message loop -/

/-- A consensus round. -/
structure Round where
  epoch : UInt64
  view : UInt64
deriving DecidableEq, Repr

def rotationRound (round : Round) : UInt64 := round.epoch + round.view

/-- The limits of the actor, how digests are displayed, and where a block context holds its round. -/
structure Config (C D : Type) where
  env : Env D
  display : D → String
  round : C → Round
  maxPoolBytes : Nat
  maxProposeBytes : Nat
  dropGraceBlocks : UInt64

/-- A batch of verified transactions submitted by an HTTP handler. -/
structure Submission (D : Type) where
  batchId : String
  digests : List D
  transactions : List (SignedTransaction D)
  totalBytes : Nat
  result : Option Channel
  ingestResult : Option Channel

inductive Message (C D : Type)
  | submit (batch : Submission D)
  | queryStatus (batchId : String) (response : Channel)
  | queryConsensusRound (response : Channel)
  | propose (height : UInt64) (response : Channel)
  | reportBlock (block : SealedBlock C D) (acknowledgement : Channel)
  | reportTip (round : Round)

/-- The order in which each hash set of batch ids is iterated. -/
structure HashOrder where
  iterate : Nat → List String → List String
  perm : ∀ i batchIds, (iterate i batchIds).Perm batchIds

def HashOrder.insertion : HashOrder := ⟨fun _ batchIds => batchIds, fun _ _ => .refl _⟩

/-- The state of the loop. -/
structure Actor (D : Type) where
  pool : List (PoolEntry D)
  poolBytes : Nat
  proposed : List (ProposedBatch D)
  tables : Tables D
  knownDigests : Finset D
  highestConsensusRound : UInt64

section Loop

variable [DecidableEq D] (cfg : Config C D)

namespace Actor

def new : Actor D := ⟨[], 0, [], .empty, ∅, 0⟩

/-- `Some(channel)` sends the reply. -/
def sendTo (channel : Option Channel) (reply : Channel → Reply D) : List (Reply D) :=
  match channel with
  | none => []
  | some channel => [reply channel]

/-- A batch that is already known: its status if it is resolved, else one more waiter. -/
def resubmit (s : Actor D) (batch : Submission D) (status : BatchStatus) : Actor D × List (Reply D) :=
  let ingest := sendTo batch.ingestResult (.ingest · .accepted)
  match batch.result with
  | none => (s, ingest)
  | some result =>
    match txStatusFromBatch status with
    | some status => (s, ingest ++ [.result batch.batchId result status])
    | none => ({ s with tables := s.tables.pushWaiter batch.batchId result }, ingest)

/-- Tracks a new batch in the tables. -/
def trackBatch (t : Tables D) (batch : Submission D) : Tables D :=
  let (t, expired) := t.rememberStatus batch.batchId (acceptedStatus cfg.display batch.digests)
  let t := { t with batchDigests := t.batchDigests.insert batch.batchId batch.digests }
  let t := (t.watchBatch batch.batchId batch.digests).forgetExpiredBatches expired
  match batch.result with
  | none => t
  | some result => t.pushWaiter batch.batchId result

def submit (s : Actor D) (batch : Submission D) : Actor D × List (Reply D) :=
  match s.tables.statuses.get batch.batchId with
  | some status => s.resubmit batch status
  | none =>
    let (transactions, known) := newTransactions batch.transactions s.knownDigests
    let totalBytes := min (totalBytesFor transactions) batch.totalBytes
    if transactions ≠ [] ∧ cfg.maxPoolBytes < s.poolBytes + totalBytes then
      ({ s with knownDigests := removeKnownDigests transactions known },
        sendTo batch.result (.result batch.batchId · .dropped) ++ sendTo batch.ingestResult (.ingest · .dropped))
    else
      let s := { s with knownDigests := known, tables := trackBatch cfg s.tables batch }
      let replies := sendTo batch.ingestResult (.ingest · .accepted)
      if transactions = [] then (s, replies)
      else
        ({ s with poolBytes := s.poolBytes + totalBytes, pool := s.pool ++ [⟨transactions, totalBytes⟩] }, replies)

/-- The loop of `Propose`, with what it has taken so far. -/
def proposeLoop (height : UInt64) :
    List (PoolEntry D) → Nat → List (ProposedBatch D) → List (SignedTransaction D) → Nat →
      List (PoolEntry D) × Nat × List (ProposedBatch D) × List (SignedTransaction D)
  | [], poolBytes, proposed, batchTxs, _ => ([], poolBytes, proposed, batchTxs)
  | entry :: pool, poolBytes, proposed, batchTxs, batchBytes =>
    if cfg.maxProposeBytes < batchBytes + entry.totalBytes ∧ batchTxs ≠ [] then
      (entry :: pool, poolBytes, proposed, batchTxs)
    else
      proposeLoop height pool (poolBytes - entry.totalBytes)
        (proposed ++ [⟨height, entry.transactions.map SignedTransaction.messageDigest⟩])
        (batchTxs ++ entry.transactions) (batchBytes + entry.totalBytes)

def propose (s : Actor D) (height : UInt64) (response : Channel) : Actor D × List (Reply D) :=
  let (pool, poolBytes, proposed, batchTxs) := proposeLoop cfg height s.pool s.poolBytes s.proposed [] 0
  ({ s with pool := pool, poolBytes := poolBytes, proposed := proposed }, [.transactions response batchTxs])

/-- Records an outcome for each digest and forgets that the digests are known. -/
def recordOutcomes (s : Actor D) (digests : List D) (outcome : D → DigestOutcome) : Actor D :=
  digests.foldl
    (fun s digest =>
      { s with
        tables := { s.tables with digestOutcomes := s.tables.digestOutcomes.insert digest (outcome digest) }
        knownDigests := s.knownDigests.erase digest })
    s

def resolveBatches (s : Actor D) (batchIds : List String) : Actor D × List (Reply D) :=
  let (tables, replies) := s.tables.resolveAll cfg.display batchIds
  ({ s with tables := tables }, replies)

/-- One proposed batch against a finalized block; `none` keeps it in the queue. -/
def reportBatch (order : HashOrder) (height : UInt64) (finalized : List D) (i : Nat) (s : Actor D)
    (batch : ProposedBatch D) : Option (Actor D × List (Reply D)) :=
  let affected := order.iterate i (s.tables.watchedBatchesFor batch.digests)
  if batch.digests.any (· ∈ finalized) then
    let s := s.recordOutcomes batch.digests fun digest => if digest ∈ finalized then .finalized height else .dropped
    some (s.resolveBatches cfg affected)
  else if batch.height + cfg.dropGraceBlocks ≤ height then
    let s := s.recordOutcomes batch.digests fun _ => .dropped
    some (s.resolveBatches cfg affected)
  else none

/-- The loop over the drained queue: the state, the batches that remain, and the replies. -/
def reportLoop (order : HashOrder) (height : UInt64) (finalized : List D) :
    Nat → Actor D → List (ProposedBatch D) → Actor D × List (ProposedBatch D) × List (Reply D)
  | _, s, [] => (s, [], [])
  | i, s, batch :: batches =>
    match s.reportBatch cfg order height finalized i batch with
    | none =>
      let (s, remaining, replies) := reportLoop order height finalized (i + 1) s batches
      (s, batch :: remaining, replies)
    | some (s, replies) =>
      let (s, remaining, rest) := reportLoop order height finalized (i + 1) s batches
      (s, remaining, replies ++ rest)

def reportBlock (order : HashOrder) (s : Actor D) (block : SealedBlock C D) (acknowledgement : Channel) :
    Actor D × List (Reply D) :=
  let header := block.inner.header
  let s := { s with highestConsensusRound := max s.highestConsensusRound (rotationRound (cfg.round header.context)) }
  let finalized := bodyDigests cfg.env block.inner.body
  let (s, remaining, replies) := reportLoop cfg order header.height finalized 0 { s with proposed := [] } s.proposed
  ({ s with proposed := remaining }, replies ++ [.acknowledge acknowledgement])

/-- One iteration of `Actor::run`. -/
def handle (order : HashOrder) (s : Actor D) : Message C D → Actor D × List (Reply D)
  | .submit batch => s.submit cfg batch
  | .queryStatus batchId response => (s, [.status response (s.tables.statuses.get batchId)])
  | .queryConsensusRound response => (s, [.consensusRound response s.highestConsensusRound])
  | .propose height response => s.propose cfg height response
  | .reportBlock block acknowledgement => s.reportBlock cfg order block acknowledgement
  | .reportTip round => ({ s with highestConsensusRound := max s.highestConsensusRound (rotationRound round) }, [])

end Actor

end Loop

end Constantinople.Mempool
