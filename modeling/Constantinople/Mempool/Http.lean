/-
The request handlers in front of the actor, as in `crates/mempool/src/webserver/http.rs`: how a request
body becomes a batch, and the messages the two submission endpoints send. The join error of the
blocking task that verifies signatures does not arise here, and byte counts do not saturate.
-/
import Constantinople.Mempool.Actor
import Constantinople.Primitives.Wire

namespace Constantinople.Mempool

open Constantinople

variable {D : Type}

inductive StatusCode
  | payloadTooLarge
  | badRequest
deriving DecidableEq, Repr

/-- What the handlers share. -/
structure AppState where
  transactionNamespace : Bytes
  maxBatchBytes : Nat
  signatureStrategy : Strategy
  hashStrategy : Strategy

def maxBatchLengthPrefixBytes : Nat := 5

def minBatchLengthPrefixBytes : Nat := 1

def minU64VarintBytes : Nat := 1

def maxRequestBytes (maxBatchBytes : Nat) : Nat := maxBatchBytes + maxBatchLengthPrefixBytes

def minSignedTransactionBytes : Nat :=
  transactionPublicKeySize + transactionPublicKeySize + minU64VarintBytes + minU64VarintBytes +
    TransactionSignature.minSize

def maxTransactionCount (bodyLen : Nat) : Option Nat :=
  let payloadLen := bodyLen - minBatchLengthPrefixBytes
  let maxTransactions := payloadLen / minSignedTransactionBytes
  if 0 < maxTransactions then some maxTransactions else none

structure VerifiedBatch (D : Type) where
  transactions : List (SignedTransaction D)
  digests : List D
  totalBytes : Nat

/-- A length-prefixed vector of one to `maxTransactions` signed transactions. -/
def readTransactions (E : Env D) (maxTransactions : Nat) : Reader (List (SignedTransaction D)) := do
  let len ← E.usize.read
  if len < 1 ∨ maxTransactions < len then Reader.fail (.invalidLength len)
  else Reader.replicate (SignedTransaction.read E.crypto E.hasher) len

def verifyBody (E : Env D) (state : AppState) (rng : Nat) (body : Bytes) : Except StatusCode (VerifiedBatch D) :=
  if maxRequestBytes state.maxBatchBytes < body.length then .error .payloadTooLarge
  else
    match maxTransactionCount body.length with
    | none => .error .badRequest
    | some maxTransactions =>
      match Reader.decode (readTransactions E maxTransactions) body with
      | .error _ => .error .badRequest
      | .ok signed =>
        let totalBytes := totalBytesFor signed
        if state.maxBatchBytes < totalBytes then .error .payloadTooLarge
        else
          match verifyTransactionChunks E state.signatureStrategy state.hashStrategy state.transactionNamespace rng
              (signed.map .new) with
          | none => .error .badRequest
          | some transactions => .ok ⟨transactions, transactions.map SignedTransaction.messageDigest, totalBytes⟩

/-- The batch `submit_batch` and `ingest_batch` send for a body: its id is the hash of the body. -/
def submissionOf (E : Env D) (display : D → String) (body : Bytes) (batch : VerifiedBatch D)
    (result ingestResult : Option Channel) : Submission D :=
  ⟨display (E.hasher.hash body), batch.digests, batch.transactions, batch.totalBytes, result, ingestResult⟩

/-! ## What a verified batch carries -/

/-- A batch has transactions, and carries their digests and the sum of their encoded sizes. -/
structure Submission.Measured (batch : Submission D) : Prop where
  nonempty : batch.transactions ≠ []
  digests : batch.digests = batch.transactions.map SignedTransaction.messageDigest
  totalBytes : batch.totalBytes = totalBytesFor batch.transactions

/-- The transactions of a verified batch are what the body decodes to. -/
theorem verifyBody_ok {E : Env D} {state : AppState} {rng : Nat} {body : Bytes} {batch : VerifiedBatch D}
    (h : verifyBody E state rng body = .ok batch) :
    (∃ maxTransactions, maxTransactionCount body.length = some maxTransactions ∧
      Reader.decode (readTransactions E maxTransactions) body = .ok batch.transactions) ∧
    batch.digests = batch.transactions.map SignedTransaction.messageDigest ∧
    batch.totalBytes = totalBytesFor batch.transactions := by
  unfold verifyBody at h
  split at h
  · cases h
  split at h
  · cases h
  rename_i maxTransactions hmax
  split at h
  · cases h
  rename_i signed hdecode
  simp only at h
  split at h
  · cases h
  split at h
  · cases h
  rename_i verified hverified
  obtain rfl := verifyTransactionChunks_new hverified
  cases h
  exact ⟨⟨maxTransactions, hmax, hdecode⟩, rfl, rfl⟩

/-- The length prefix of a body is at least one. -/
theorem readTransactions_ne_nil {E : Env D} {maxTransactions : Nat} {body : Bytes}
    {transactions : List (SignedTransaction D)}
    (h : Reader.decode (readTransactions E maxTransactions) body = .ok transactions) : transactions ≠ [] := by
  obtain ⟨len, _, -, hread⟩ := Reader.bind_ok (Reader.decode_ok.1 h)
  split at hread
  · cases hread
  · rintro rfl
    have hlen := Reader.replicate_length hread
    rw [List.length_nil] at hlen
    omega

theorem submissionOf_measured {E : Env D} {display : D → String} {state : AppState} {rng : Nat} {body : Bytes}
    {batch : VerifiedBatch D} (h : verifyBody E state rng body = .ok batch) (result ingestResult : Option Channel) :
    (submissionOf E display body batch result ingestResult).Measured := by
  obtain ⟨⟨maxTransactions, -, hdecode⟩, hdigests, hbytes⟩ := verifyBody_ok h
  exact ⟨readTransactions_ne_nil hdecode, hdigests, hbytes⟩

/-- Without hash collisions among bodies, the id of a batch determines its digests. -/
theorem submissionOf_identified {E : Env D} {display : D → String}
    (hinj : Function.Injective fun body => display (E.hasher.hash body)) :
    ∃ digestsOf : String → List D, ∀ state rng body batch result ingestResult,
      verifyBody E state rng body = .ok batch →
        (submissionOf E display body batch result ingestResult).digests =
          digestsOf (submissionOf E display body batch result ingestResult).batchId := by
  let digestsAt (body : Bytes) : List D :=
    match maxTransactionCount body.length with
    | none => []
    | some maxTransactions =>
      match Reader.decode (readTransactions E maxTransactions) body with
      | .error _ => []
      | .ok transactions => transactions.map SignedTransaction.messageDigest
  refine ⟨fun id => digestsAt (Function.invFun (fun body => display (E.hasher.hash body)) id), ?_⟩
  intro state rng body batch result ingestResult hverify
  obtain ⟨⟨maxTransactions, hmax, hdecode⟩, hdigests, -⟩ := verifyBody_ok hverify
  calc batch.digests
      = batch.transactions.map SignedTransaction.messageDigest := hdigests
    _ = digestsAt body := by simp only [digestsAt, hmax, hdecode]
    _ = _ := congrArg digestsAt (Function.leftInverse_invFun hinj body).symm

end Constantinople.Mempool
