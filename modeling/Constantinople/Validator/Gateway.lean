/-
The relayer's submission endpoint, as in `bin/validator/src/relayer.rs`, and the endpoints of a leader that it
calls, as in `crates/mempool/src/webserver/http.rs`. A request that names a leader is passed on to it as it is;
any other is decoded and forwarded. Headers are text or absent, and texts of responses are bytes. A leader's
handler waits for the actor; how that wait ends is a parameter.
-/
import Constantinople.Validator.Answers
import Constantinople.Mempool.Results

namespace Constantinople.Relayer

open Constantinople Mempool

variable {C D : Type}

/-! ## Requests of clients -/

/-- The two headers that the endpoint reads. -/
structure Headers where
  targetLeader : Option String
  leaderFanout : Option String

/-- `to_lowercase`, of the ASCII texts that headers hold. -/
def toLowercase (text : String) : String := String.ofList (text.toList.map Char.toLower)

def requestedTargetLeader (headers : Headers) : Option String := headers.targetLeader.map toLowercase

/-- `parse::<usize>`: decimal digits, after a plus sign or not. -/
def parseUsize (text : String) : Option Nat :=
  let digits :=
    match text.toList with
    | '+' :: rest => rest
    | chars => chars
  if digits.isEmpty ∨ ¬ digits.all Char.isDigit then none
  else
    let value := digits.foldl (fun value digit => value * 10 + (digit.toNat - '0'.toNat)) 0
    if value < 2 ^ 64 then some value else none

def requestedLeaderFanout (headers : Headers) : Option Nat := headers.leaderFanout.bind parseUsize

/-- How statuses are written as JSON. -/
structure Json where
  txStatus : TxStatus → Bytes
  batchStatus : BatchStatus → Bytes
  injective : Function.Injective txStatus
  nonempty : ∀ status, txStatus status ≠ []

/-- A response as it is sent. -/
def Response.text (json : Json) (response : Response) : StatusCode × Bytes :=
  (response.code, response.status.elim [] json.txStatus)

def leaderById (leaders : List Leader) (publicKey : String) : Option Leader :=
  leaders.find? fun leader => leader.publicKey = publicKey

def pinnedSubmitRetries : Nat := 3

def StatusCode.isServerError : StatusCode → Bool
  | .serviceUnavailable => true
  | .other code => 500 ≤ code && code < 600
  | _ => false

def shouldRetryPinnedSubmit (status : StatusCode) : Bool := status = .serviceUnavailable || status.isServerError

/-- The loop of `submit_blocking_to_leader`, with `remaining` attempts to come. -/
def submitBlockingToLeader (http : Http) (leader : Leader) (body : Bytes) : Nat → StatusCode × Bytes
  | 0 => (.serviceUnavailable, [])
  | remaining + 1 =>
    match http.post (pinnedSubmitRetries - (remaining + 1)) 0 (leader.url ++ "/transactions") body with
    | some response =>
      if shouldRetryPinnedSubmit response.status ∧ 0 < remaining then submitBlockingToLeader http leader body remaining
      else (response.status, response.body.getD [])
    | none =>
      if 0 < remaining then submitBlockingToLeader http leader body remaining else (.serviceUnavailable, [])

def submitToPinnedLeader (state : AppState D) (body : Bytes) (target : String) : StatusCode × Bytes :=
  match leaderById state.leaders target with
  | none => (.badRequest, [])
  | some leader => submitBlockingToLeader state.http leader body pinnedSubmitRetries

/-- `none` if the wait for a view does not end. -/
def submitTransactions (state : AppState D) (json : Json) (headers : Headers) (body : Bytes) :
    Option (StatusCode × Bytes) :=
  match requestedTargetLeader headers with
  | some target =>
    if maxRequestBytes state.maxBatchBytes < body.length then some (.payloadTooLarge, [])
    else if (requestedLeaderFanout headers).any (· ≠ 1) then some (.badRequest, [])
    else some (submitToPinnedLeader state body target)
  | none =>
    match decodeBatch state.env state.display body state.maxBatchBytes with
    | .error status => some (status, [])
    | .ok batch => (submitWithRetries state batch).1.map (Response.text json)

/-! ## Endpoints of a leader -/

/-- How a handler's wait for the actor ends: its message does not fit in the mailbox, the actor drops the
channel, or it answers. -/
inductive Wait (α : Type)
  | full
  | closed
  | answered (answer : α)

def StatusCode.ofHandler : Mempool.StatusCode → StatusCode
  | .payloadTooLarge => .payloadTooLarge
  | .badRequest => .badRequest

def submitBatch (E : Env D) (app : Mempool.AppState) (json : Json) (rng : Nat) (body : Bytes) (wait : Wait TxStatus) :
    StatusCode × Bytes :=
  match verifyBody E app rng body with
  | .error status => (.ofHandler status, [])
  | .ok _ =>
    match wait with
    | .full => (.serviceUnavailable, [])
    | .closed => (.other 500, [])
    | .answered status => (.ok, json.txStatus status)

/-- `digestsJson` writes the digests of an `IngestResponse`. -/
def ingestBatch (E : Env D) (app : Mempool.AppState) (display : D → String) (digestsJson : List String → Bytes) (rng : Nat)
    (body : Bytes) (wait : Wait IngestStatus) : StatusCode × Bytes :=
  match verifyBody E app rng body with
  | .error status => (.ofHandler status, [])
  | .ok batch =>
    match wait with
    | .full => (.serviceUnavailable, [])
    | .closed => (.other 500, [])
    | .answered .dropped => (.serviceUnavailable, [])
    | .answered .accepted => (.accepted, digestsJson (batch.digests.map display))

/-- `answer` is what `query_status` returns. -/
def fetchStatus (json : Json) (answer : Option BatchStatus) : StatusCode × Bytes :=
  match answer with
  | none => (.other 404, [])
  | some status => (.ok, json.batchStatus status)

end Constantinople.Relayer
