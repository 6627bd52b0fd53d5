/-
The relayer, as in `bin/validator/src/relayer.rs`: a batch is decoded, forwarded to the leaders of the next
two views and, each time the view advances, forwarded again without the transactions some leader reports
as included. What the leaders answer, and how their answers parse, are parameters, with an answer for every
request of every round; a round returns what it sends and what it fetches. The relayer's `BatchStatus` is
the mempool's. Byte counts do not saturate, and views wrap.
-/
import Constantinople.Mempool.Http
import Constantinople.Mempool.Tables
import Constantinople.Lib.Word

namespace Constantinople.Relayer

open Constantinople Mempool

variable {D : Type}

inductive StatusCode
  | ok
  | accepted
  | badRequest
  | payloadTooLarge
  | serviceUnavailable
  | other (code : UInt16)
deriving DecidableEq, Repr

structure Leader where
  publicKey : String
  url : String
deriving DecidableEq, Repr

structure DecodedBatch (D : Type) where
  transactions : List (SignedTransaction D)
  digests : List String

/-! ## Requests to leaders -/

/-- A response that arrived; its body may still fail to. -/
structure HttpResponse where
  status : StatusCode
  body : Option Bytes

/-- The client: the response to the request at `position` of the round `retry`, and the parsers of the
two kinds of bodies. -/
structure Http where
  post : (retry position : Nat) → (url : String) → (body : Bytes) → Option HttpResponse
  get : (retry position : Nat) → (url : String) → Option HttpResponse
  ingestResponse : Bytes → Option (List String)
  batchStatus : Bytes → Option BatchStatus

inductive ForwardResult
  | accepted (leader : Leader)
  | deterministic (status : StatusCode)
  | transient (leader : Leader)

def forwardToLeader (http : Http) (retry position : Nat) (leader : Leader) (body : Bytes) : ForwardResult :=
  match http.post retry position (leader.url ++ "/transactions/ingest") body with
  | none => .transient leader
  | some response =>
    match response.status with
    | .accepted =>
      match response.body.bind http.ingestResponse with
      | none => .transient leader
      | some digests => if digests.isEmpty then .transient leader else .accepted leader
    | .badRequest | .payloadTooLarge => .deterministic response.status
    | _ => .transient leader

structure ForwardSummary where
  accepted : Bool
  deterministic : Option StatusCode

/-- One turn of the loop of `forward_to_targets`: the last deterministic answer stays. -/
def ForwardSummary.add (summary : ForwardSummary) : ForwardResult → ForwardSummary
  | .accepted _ => { summary with accepted := true }
  | .deterministic status => { summary with deterministic := some status }
  | .transient _ => summary

def forwardToTargets (http : Http) (retry : Nat) (targets : List Leader) (body : Bytes) : ForwardSummary :=
  (targets.zipIdx.map fun (leader, position) => forwardToLeader http retry position leader body).foldl
    ForwardSummary.add ⟨false, none⟩

def fetchStatusFromLeader (http : Http) (retry position : Nat) (leader : Leader) (batchId : String) :
    Option BatchStatus :=
  match http.get retry position (leader.url ++ "/transactions/" ++ batchId) with
  | none => none
  | some response => if response.status ≠ .ok then none else response.body.bind http.batchStatus

/-- The statuses the loop of `merge_statuses` gets to see. -/
def fetchStatuses (http : Http) (retry : Nat) (attempts : List (String × Leader)) : List BatchStatus :=
  attempts.zipIdx.filterMap fun ((batchId, leader), position) =>
    fetchStatusFromLeader http retry position leader batchId

/-- One turn of the loop of `merge_statuses`. -/
def mergeStatus (merged : Finset String × UInt64) : BatchStatus → Finset String × UInt64
  | .finalized finalizedHeight leaderIncluded => (merged.1 ∪ leaderIncluded.toFinset, max merged.2 finalizedHeight)
  | .partiallyFinalized finalizedHeight leaderIncluded _ =>
    (merged.1 ∪ leaderIncluded.toFinset, max merged.2 finalizedHeight)
  | .accepted _ => merged
  | .dropped _ => merged

def mergeStatuses (http : Http) (retry : Nat) (attempts : List (String × Leader)) (included : Finset String)
    (height : UInt64) : Finset String × UInt64 :=
  (fetchStatuses http retry attempts).foldl mergeStatus (included, height)

/-! ## Bodies -/

def maxRequestBytes (maxBatchBytes : Nat) : Nat := maxBatchBytes + maxBatchLengthPrefixBytes

def minSignedTransactionBytes : Nat :=
  transactionPublicKeySize + transactionPublicKeySize + 1 + 1 + TransactionSignature.minSize

def maxTransactionCount (bodyLen : Nat) : Option Nat :=
  let payloadLen := bodyLen - minBatchLengthPrefixBytes
  let maxTransactions := payloadLen / minSignedTransactionBytes
  if 0 < maxTransactions then some maxTransactions else none

def decodeBatch (E : Env D) (display : D → String) (body : Bytes) (maxBatchBytes : Nat) :
    Except StatusCode (DecodedBatch D) :=
  if maxRequestBytes maxBatchBytes < body.length then .error .payloadTooLarge
  else
    match maxTransactionCount body.length with
    | none => .error .badRequest
    | some maxTransactions =>
      match Reader.decode (readTransactions E maxTransactions) body with
      | .error _ => .error .badRequest
      | .ok transactions =>
        let totalBytes := (transactions.map SignedTransaction.encodeSize).sum
        if maxBatchBytes < totalBytes then .error .payloadTooLarge
        else .ok ⟨transactions, transactions.map fun transaction => display transaction.messageDigest⟩

/-- The encoding of a vector of transactions. -/
def encodeTransactions (E : Env D) (transactions : List (SignedTransaction D)) : Bytes :=
  E.usize.write transactions.length ++ transactions.flatMap SignedTransaction.write

def encodePending (E : Env D) (display : D → String) (batch : DecodedBatch D) (pending : Finset String) : Bytes :=
  encodeTransactions E (batch.transactions.filter fun transaction => display transaction.messageDigest ∈ pending)

def batchId (E : Env D) (display : D → String) (body : Bytes) : String := display (E.hasher.hash body)

/-! ## Leaders and views -/

def nextTwoLeaders (leaders : List Leader) (observedView : UInt64) : List Leader :=
  if h : leaders.length = 0 then []
  else
    let first : Fin leaders.length :=
      ⟨(observedView + 1).toNat % leaders.length, Nat.mod_lt _ (Nat.pos_of_ne_zero h)⟩
    let second : Fin leaders.length :=
      ⟨(observedView + 2).toNat % leaders.length, Nat.mod_lt _ (Nat.pos_of_ne_zero h)⟩
    if first = second then [leaders.get first] else [leaders.get first, leaders.get second]

/-- The watched view: its value, the values it will take, and whether its sender is dropped after them. -/
structure ViewClock where
  currentView : UInt64
  coming : List UInt64
  closed : Bool

/-- The view it advances to and the values still to come, or `none` if the wait does not end. -/
def waitForViewAdvance (closed : Bool) : List UInt64 → UInt64 → Option (UInt64 × List UInt64)
  | [], current => if closed then some (current, []) else none
  | next :: views, current =>
    if current < next then some (next, views) else waitForViewAdvance closed views current

/-! ## Submission -/

structure AppState (D : Type) where
  env : Env D
  display : D → String
  leaders : List Leader
  maxRetryViews : UInt64
  maxBatchBytes : Nat
  viewClock : ViewClock
  http : Http

/-- A response; the body is empty or a status. -/
structure Response where
  code : StatusCode
  status : Option TxStatus
deriving DecidableEq

def jsonResponse (status : TxStatus) : Response := ⟨.ok, some status⟩

def bestEffortStatus (digests : List String) (included : Finset String) (height : UInt64) : TxStatus :=
  if included = ∅ then .dropped
  else
    let filtered := digests.filter fun digest => digest ∉ included
    if filtered.isEmpty then .finalized height
    else .partiallyFinalized height (digests.filter fun digest => digest ∈ included) filtered

/-- The variables of `submit_with_retries`. -/
structure Progress where
  pending : Finset String
  included : Finset String
  height : UInt64
  acceptedAny : Bool
  attempts : List (String × Leader)
  view : UInt64
  views : List UInt64

/-- What a round sent, to whom, and the statuses it fetched. -/
structure Round where
  targets : List Leader
  body : Bytes
  fetched : List BatchStatus

/-- How a round ends. -/
inductive Next
  | returned (response : Response)
  | waiting
  | again (p : Progress)

/-- One turn of the retry loop, with `remaining` turns to come. -/
def attemptRound (state : AppState D) (batch : DecodedBatch D) (remaining : Nat) (p : Progress) : Round × Next :=
  let retry := state.maxRetryViews.toNat - remaining
  let body := encodePending state.env state.display batch p.pending
  let sentBatchId := batchId state.env state.display body
  let attempts := p.attempts ++ (nextTwoLeaders state.leaders p.view).map fun target => (sentBatchId, target)
  let targets := (attempts.filter fun attempt => attempt.1 = sentBatchId).map Prod.snd
  let result := forwardToTargets state.http retry targets body
  match result.deterministic with
  | some status => (⟨targets, body, []⟩, .returned ⟨status, none⟩)
  | none =>
    let acceptedAny := p.acceptedAny || result.accepted
    let merged := mergeStatuses state.http retry attempts p.included p.height
    let pending := p.pending.filter fun digest => digest ∉ merged.1
    let next :=
      if pending = ∅ then .returned (jsonResponse (.finalized merged.2))
      else if retry = state.maxRetryViews.toNat then
        if acceptedAny then .returned (jsonResponse (bestEffortStatus batch.digests merged.1 merged.2))
        else .returned ⟨.serviceUnavailable, none⟩
      else
        match waitForViewAdvance state.viewClock.closed p.views p.view with
        | none => .waiting
        | some (view, views) => .again ⟨pending, merged.1, merged.2, acceptedAny, attempts, view, views⟩
    (⟨targets, body, fetchStatuses state.http retry attempts⟩, next)

/-- The retry loop: the response, if it comes to one, and the rounds it took. -/
def retryLoop (state : AppState D) (batch : DecodedBatch D) : Nat → Progress → Option Response × List Round
  | 0, p => (some (jsonResponse (bestEffortStatus batch.digests p.included p.height)), [])
  | remaining + 1, p =>
    match attemptRound state batch remaining p with
    | (round, .returned response) => (some response, [round])
    | (round, .waiting) => (none, [round])
    | (round, .again p) =>
      let (response, rounds) := retryLoop state batch remaining p
      (response, round :: rounds)

def submitWithRetries (state : AppState D) (batch : DecodedBatch D) : Option Response × List Round :=
  if state.leaders.isEmpty then (some ⟨.serviceUnavailable, none⟩, [])
  else
    retryLoop state batch (state.maxRetryViews.toNat + 1)
      ⟨batch.digests.toFinset, ∅, 0, false, [], state.viewClock.currentView, state.viewClock.coming⟩

end Constantinople.Relayer
