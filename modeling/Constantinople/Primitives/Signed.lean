/-
Lazily decoded signed transactions and the functions that force a whole body, as in
`crates/primitives/src/signed.rs`. A lazy transaction is a decoded value or the bytes it will be
decoded from; caching the decoded value does not change what `get` returns.
-/
import Constantinople.Primitives.Transaction

namespace Constantinople

/-- A lazily decoded signed transaction. -/
inductive LazySignedTransaction (D : Type)
  | new (value : SignedTransaction D)
  | deferred (pending : Bytes)

/-- What decoding and verifying transactions rests on; `usize` is the codec of lengths. -/
structure Env (D : Type) where
  crypto : Crypto
  hasher : Hasher D
  usize : Reader.Codec Nat

variable {D : Type}

namespace LazySignedTransaction

/-- `LazySignedTransaction::MAX_ENCODED_SIZE`. -/
def maxEncodedSize : Nat := Transaction.size + TransactionSignature.maxSize

/-- The decoded transaction, if decoding succeeds. -/
def get (E : Env D) : LazySignedTransaction D → Option (SignedTransaction D)
  | new value => some value
  | deferred pending => (Reader.decode (SignedTransaction.read E.crypto E.hasher) pending).toOption

/-- The encoded transaction without the length prefix. -/
def encodedSignedTransaction : LazySignedTransaction D → Bytes
  | new value => value.write
  | deferred pending => pending

/-- The length comes from `encode_size` for a decoded value, from the bytes for a deferred one. -/
def write (E : Env D) : LazySignedTransaction D → Bytes
  | new value => E.usize.write value.encodeSize ++ value.write
  | deferred pending => E.usize.write pending.length ++ pending

/-- `usizeSize` is the encoded size of a length. -/
def encodeSize (usizeSize : Nat → Nat) : LazySignedTransaction D → Nat
  | new value => usizeSize value.encodeSize + value.encodeSize
  | deferred pending => usizeSize pending.length + pending.length

/-- Reads the length and that many bytes, and decodes nothing. -/
def read (E : Env D) : Reader (LazySignedTransaction D) := do
  let len ← E.usize.read
  if maxEncodedSize < len then Reader.fail (.invalidLength len)
  else if len < Transaction.size + TransactionSignature.minSize then Reader.fail .endOfBuffer
  else
    let pending ← Reader.take len
    return deferred pending

end LazySignedTransaction

/-! ## Whole bodies -/

/-- The digests of the transactions of a body that decode, in body order. -/
def bodyDigests (E : Env D) (body : List (LazySignedTransaction D)) : List D :=
  body.filterMap fun t => (t.get E).map SignedTransaction.messageDigest

/-- `None` if any transaction fails to decode. -/
def materializeTransactionChunks (E : Env D) (strategy : Strategy) (transactions : List (LazySignedTransaction D)) :
    Option (List (SignedTransaction D)) :=
  if transactions.isEmpty then some []
  else if strategy.parallelismHint ≤ 1 ∨ transactions.length ≤ strategy.parallelismHint then
    transactions.mapM fun lazy => lazy.get E
  else (strategy.mapCollectVec transactions fun lazy => lazy.get E).mapM id

def signatureInputsDecode (E : Env D) (lazy : LazySignedTransaction D) : Bool :=
  match lazy.get E with
  | none => false
  | some transaction => (transaction.value.sender.get E.crypto).isSome

/-- Forces every transaction and its sender key to decode; returns the transactions, now warm. -/
def preloadTransactionChunks (E : Env D) (strategy : Strategy) (transactions : List (LazySignedTransaction D)) :
    Option (List (LazySignedTransaction D)) :=
  if transactions.isEmpty then some []
  else if strategy.parallelismHint ≤ 1 ∨ transactions.length ≤ strategy.parallelismHint then
    if transactions.all (signatureInputsDecode E) then some transactions else none
  else if strategy.fold transactions true (fun decoded lazy => decoded && signatureInputsDecode E lazy)
      (fun left right => left && right) then some transactions
  else none

/-- The loop of `verify_transaction_batch` that queues every signature. -/
def addAll (E : Env D) (domain : Bytes) :
    TransactionBatchVerifier → List (LazySignedTransaction D) → Option TransactionBatchVerifier
  | verifier, [] => some verifier
  | verifier, lazy :: rest =>
    match lazy.get E with
    | none => none
    | some transaction =>
      match transaction.value.sender.get E.crypto with
      | none => none
      | some sender =>
        match verifier.add E.crypto domain (E.hasher.bytes transaction.messageDigest) sender transaction.signature with
        | (false, _) => none
        | (true, verifier) => addAll E domain verifier rest

/-- Every transaction decodes and all signatures verify. -/
def verifyTransactionBatch (E : Env D) (strategy : Strategy) (domain : Bytes) (rng : Nat)
    (transactions : List (LazySignedTransaction D)) : Bool :=
  match addAll E domain .new transactions with
  | none => false
  | some verifier => verifier.verify E.crypto rng strategy

/-- Decodes and verifies a batch; `None` if any transaction is undecodable or any signature invalid. -/
def verifyTransactionChunks (E : Env D) (signatureStrategy hashStrategy : Strategy) (domain : Bytes) (rng : Nat)
    (transactions : List (LazySignedTransaction D)) : Option (List (SignedTransaction D)) :=
  if transactions.isEmpty then some []
  else
    match preloadTransactionChunks E hashStrategy transactions with
    | none => none
    | some transactions =>
      if !verifyTransactionBatch E signatureStrategy domain rng transactions then none
      else transactions.mapM fun lazy => lazy.get E

/-! ## Facts about verified batches -/

theorem preloadTransactionChunks_some {E : Env D} {strategy : Strategy} {ts ts' : List (LazySignedTransaction D)}
    (h : preloadTransactionChunks E strategy ts = some ts') : ts' = ts := by
  unfold preloadTransactionChunks at h
  split at h
  · rename_i hnil; cases h; exact (List.isEmpty_iff.1 hnil).symm
  split at h
  · split at h
    · cases h; rfl
    · cases h
  · split at h
    · cases h; rfl
    · cases h

/-- A verified batch comes back decoded, in order, after its signatures were verified together. -/
theorem verifyTransactionChunks_some {E : Env D} {signatureStrategy hashStrategy : Strategy} {domain : Bytes} {rng : Nat}
    {ts : List (LazySignedTransaction D)} {verified : List (SignedTransaction D)}
    (h : verifyTransactionChunks E signatureStrategy hashStrategy domain rng ts = some verified) :
    ts.map (LazySignedTransaction.get E) = verified.map some ∧
      (ts = [] ∨ verifyTransactionBatch E signatureStrategy domain rng ts = true) := by
  unfold verifyTransactionChunks at h
  split at h
  · rename_i hnil
    cases h
    exact ⟨by rw [List.isEmpty_iff.1 hnil]; rfl, .inl (List.isEmpty_iff.1 hnil)⟩
  split at h
  · cases h
  rename_i ts' hload
  obtain rfl := preloadTransactionChunks_some hload
  split at h
  · cases h
  rename_i hbatch
  rw [Bool.not_eq_true', Bool.not_eq_false] at hbatch
  exact ⟨mapM_eq_some_iff.1 h, .inr hbatch⟩

/-- A batch of decoded transactions comes back as it was given. -/
theorem verifyTransactionChunks_new {E : Env D} {signatureStrategy hashStrategy : Strategy} {domain : Bytes} {rng : Nat}
    {batch verified : List (SignedTransaction D)}
    (h : verifyTransactionChunks E signatureStrategy hashStrategy domain rng (batch.map .new) = some verified) :
    verified = batch := by
  have hget := (verifyTransactionChunks_some h).1
  rw [List.map_map] at hget
  exact (List.map_injective_iff.2 (Option.some_injective _) hget).symm

end Constantinople
