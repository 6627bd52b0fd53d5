/-
Batches of the explorer on the node. The bytes of `encodeTransactionBatch` pass the length and count gates
of the mempool and of the relayer, and both decode them to the transactions the drafts stand for. The
count gate divides by less than any transaction takes, so it never refuses a batch for its count.
-/
import Constantinople.Explorer.Codec
import Constantinople.Validator.Relayer

namespace Constantinople.Explorer

open Constantinople Mempool

variable {D : Type}

/-! ## Bodies -/

/-- The lengths of vectors are read as `u32` varints. -/
def ReadsVarints (E : Env D) : Prop :=
  ∀ n < 2 ^ 32, ∀ rest, E.usize.read (Varint.write 4 n ++ rest) = .ok (n, rest)

/-- A count and the encodings of that many transactions. -/
def bodyOf (txs : List (SignedTransaction D)) : Bytes := Varint.write 4 txs.length ++ txs.flatMap SignedTransaction.write

theorem length_bodyOf (txs : List (SignedTransaction D)) :
    (bodyOf txs).length = (Varint.write 4 txs.length).length + totalBytesFor txs := by
  rw [bodyOf, List.length_append, List.length_flatMap, totalBytesFor]
  congr 2
  exact List.map_congr_left fun t _ => t.length_write

/-- Every transaction takes more bytes than the gate counts for one. -/
theorem count_mul_le_totalBytesFor (txs : List (SignedTransaction D)) :
    txs.length * minSignedTransactionBytes ≤ totalBytesFor txs := by
  have hsize : ∀ n ∈ txs.map SignedTransaction.encodeSize, minSignedTransactionBytes ≤ n := by
    intro n hn
    obtain ⟨t, -, rfl⟩ := List.mem_map.1 hn
    have hmin := t.signature.encodeSize_bounds.1
    simp only [SignedTransaction.encodeSize, minSignedTransactionBytes, Transaction.size, transactionPublicKeySize,
      accountKeySize, minU64VarintBytes, TransactionSignature.minSize, signatureBytes] at hmin ⊢
    omega
  have hsum := List.card_nsmul_le_sum _ _ hsize
  rwa [List.length_map, smul_eq_mul] at hsum

/-- The two gates in front of the decoder. -/
theorem bodyOf_gates {txs : List (SignedTransaction D)} (hne : txs ≠ []) {maxBatchBytes : Nat}
    (hbytes : totalBytesFor txs ≤ maxBatchBytes) :
    (bodyOf txs).length ≤ maxRequestBytes maxBatchBytes ∧
    ∃ maxTransactions, maxTransactionCount (bodyOf txs).length = some maxTransactions ∧
      txs.length ≤ maxTransactions := by
  obtain ⟨hmin, hmax⟩ := Varint.length_write 4 txs.length
  have hlen := length_bodyOf txs
  refine ⟨by simp only [maxRequestBytes, maxBatchLengthPrefixBytes]; omega, ?_⟩
  have hcount : txs.length ≤ ((bodyOf txs).length - minBatchLengthPrefixBytes) / minSignedTransactionBytes := by
    rw [Nat.le_div_iff_mul_le (by decide)]
    have hsum := count_mul_le_totalBytesFor txs
    simp only [minBatchLengthPrefixBytes]
    omega
  have hpos : 0 < txs.length := List.length_pos_iff.2 hne
  exact ⟨_, if_pos (hpos.trans_le hcount), hcount⟩

section Decoding

variable {E : Env D} {txs : List (SignedTransaction D)}

/-- Transactions that are read back one by one are read back from a body. -/
theorem decode_bodyOf (hu : ReadsVarints E) (hne : txs ≠ []) (hcount : txs.length < 2 ^ 32)
    (hread : ∀ t ∈ txs, ∀ rest, SignedTransaction.read E.crypto E.hasher (t.write ++ rest) = .ok (t, rest))
    {maxTransactions : Nat} (hmax : txs.length ≤ maxTransactions) :
    Reader.decode (readTransactions E maxTransactions) (bodyOf txs) = .ok txs := by
  have hpos : 0 < txs.length := List.length_pos_iff.2 hne
  have hreads : Reader.replicate _ txs.length (txs.flatMap SignedTransaction.write ++ []) = .ok (txs.map id, []) :=
    Reader.replicate_reads hread
  rw [Reader.decode_ok]
  unfold readTransactions bodyOf
  rw [Reader.bind_eq (hu _ hcount _), if_neg (by omega)]
  rwa [List.append_nil, List.map_id] at hreads

/-- The last check of `verify_body`, on transactions that were decoded. -/
def signatureVerdict (E : Env D) (state : Mempool.AppState) (rng : Nat) (signed : List (SignedTransaction D)) :
    Except Mempool.StatusCode (VerifiedBatch D) :=
  match verifyTransactionChunks E state.signatureStrategy state.hashStrategy state.transactionNamespace rng
      (signed.map .new) with
  | none => .error .badRequest
  | some transactions => .ok ⟨transactions, transactions.map SignedTransaction.messageDigest, totalBytesFor signed⟩

variable (hu : ReadsVarints E) (hne : txs ≠ []) (hcount : txs.length < 2 ^ 32)
  (hread : ∀ t ∈ txs, ∀ rest, SignedTransaction.read E.crypto E.hasher (t.write ++ rest) = .ok (t, rest))
include hu hne hcount hread

/-- Only the signatures are left to check. -/
theorem verifyBody_bodyOf {state : Mempool.AppState} (hbytes : totalBytesFor txs ≤ state.maxBatchBytes) (rng : Nat) :
    verifyBody E state rng (bodyOf txs) = signatureVerdict E state rng txs := by
  obtain ⟨hlen, maxTransactions, hmax, hle⟩ := bodyOf_gates hne hbytes
  unfold verifyBody
  rw [if_neg (Nat.not_lt.2 hlen), hmax]
  simp only [decode_bodyOf hu hne hcount hread hle]
  rw [if_neg (Nat.not_lt.2 hbytes)]
  rfl

theorem decodeBatch_bodyOf {maxBatchBytes : Nat} (hbytes : totalBytesFor txs ≤ maxBatchBytes) (display : D → String) :
    Relayer.decodeBatch E display (bodyOf txs) maxBatchBytes =
      .ok ⟨txs, txs.map fun t => display t.messageDigest⟩ := by
  obtain ⟨hlen, maxTransactions, hmax, hle⟩ := bodyOf_gates hne hbytes
  -- the relayer's gates compute as the mempool's
  have hrequest : ¬Relayer.maxRequestBytes maxBatchBytes < (bodyOf txs).length := Nat.not_lt.2 hlen
  have hmaximum : Relayer.maxTransactionCount (bodyOf txs).length = some maxTransactions := hmax
  unfold Relayer.decodeBatch
  rw [if_neg hrequest, hmaximum]
  simp only [decode_bodyOf hu hne hcount hread hle]
  exact if_neg (Nat.not_lt.2 hbytes)

end Decoding

/-! ## Batches of drafts -/

/-- A JavaScript array: its length fits 32 bits. -/
abbrev JsArray (α : Type) := { items : List α // items.length < 2 ^ 32 }

/-- A batch of well-formed drafts, signed with passkey assertions, is encoded without an exception. If its
transactions fit, the mempool decodes the body to exactly the transactions the drafts stand for and is left
with their signatures, and the relayer accepts it; the digests shown are the transactions' own. The accounts
of senders with a known scheme have the keys the node derives. -/
theorem explorer_batch_accepted (E : Env (FixedBytes 32)) (hhasher : E.hasher = sha256Hasher E.crypto.sha256)
    (hu : ReadsVarints E) (drafts : JsArray SignedDraft) (hne : drafts.1 ≠ []) (hwf : ∀ s ∈ drafts.1, s.WellFormed)
    (hparses : ∀ s ∈ drafts.1, ∀ h, E.crypto.secp256r1SignatureError ⟨s.rawSignature, h⟩ = none) :
    (∃ encoded body txs, drafts.1.mapM (SignedDraft.encode E.crypto.sha256) = .ok encoded ∧
      encodeTransactionBatch (encoded.map EncodedTransaction.bytes) = .ok body ∧
      List.Forall₂ (SignedDraft.Denotes E.crypto.sha256) drafts.1 txs ∧
      encoded.map EncodedTransaction.digestHex = txs.map (fun t => toHex t.messageDigest.1) ∧
      ∀ maxBatchBytes, (encoded.map fun e => e.bytes.length).sum ≤ maxBatchBytes →
        (∀ state rng, state.maxBatchBytes = maxBatchBytes → verifyBody E state rng body = signatureVerdict E state rng txs) ∧
        ∀ display, Relayer.decodeBatch E display body maxBatchBytes =
          .ok ⟨txs, txs.map fun t => display t.messageDigest⟩) ∧
    ∀ publicKey : Bytes, publicKey.length = publicKeyBytes →
      (publicKey[0]? = some ed25519Scheme ∨ publicKey[0]? = some secp256r1Scheme) →
      ∃ key, AccountKey.fromPublicKeyBytes E.crypto.sha256 publicKey = some key ∧
        accountKeyFromPublicKey E.crypto.sha256 publicKey = .ok key.bytes := by
  refine ⟨?_, fun publicKey hlen hscheme => accountKeyFromPublicKey_eq E.crypto.sha256 hlen hscheme⟩
  obtain ⟨txs, hdenotes, hmem⟩ := exists_forall₂ fun s hs => (hwf s hs).exists_denotes E.crypto.sha256
  have hlen : drafts.1.length = txs.length := hdenotes.length_eq
  have hcount : txs.length < 2 ^ 32 := hlen ▸ drafts.2
  have htxs : txs ≠ [] := by
    rintro rfl
    exact hne (List.length_eq_zero_iff.1 hlen)
  have hread : ∀ t ∈ txs, ∀ rest, SignedTransaction.read E.crypto E.hasher (t.write ++ rest) = .ok (t, rest) := by
    intro t ht rest
    obtain ⟨s, hs, hst⟩ := hmem t ht
    obtain ⟨hsender, hraw⟩ := hst.sender
    obtain ⟨hsize, ha, hc, hsignature⟩ := hst.signature
    have hp : t.signature.Parses E.crypto := by
      rw [hsignature]
      exact hparses s hs hsize
    rw [hhasher]
    exact SignedTransaction.read_write hraw hst.sealed hp rest
  have hencoded := mapM_of_forall₂ (hdenotes.imp fun s t h => h.encode)
  have hbatch : encodeTransactionBatch (txs.map SignedTransaction.write) = .ok (bodyOf txs) := by
    unfold encodeTransactionBatch
    rw [List.length_map, encodeUsize_eq hcount]
    show Except.ok (bytesConcat _) = _
    rw [bytesConcat_eq, List.flatten_cons, List.flatMap_def.symm]
    rfl
  refine ⟨_, bodyOf txs, txs, hencoded, ?_, hdenotes, ?_, ?_⟩
  · rw [List.map_map]
    exact hbatch
  · rw [List.map_map]
    rfl
  · intro maxBatchBytes hbytes
    rw [List.map_map] at hbytes
    have htotal : totalBytesFor txs ≤ maxBatchBytes := by
      refine le_trans (le_of_eq ?_) hbytes
      rw [totalBytesFor]
      exact congrArg List.sum (List.map_congr_left fun t _ => t.length_write.symm)
    refine ⟨?_, fun display => decodeBatch_bodyOf hu htxs hcount hread htotal display⟩
    rintro state rng rfl
    exact verifyBody_bodyOf hu htxs hcount hread htotal rng

def varintEnv : Env (FixedBytes 32) :=
  ⟨permissiveCrypto, sha256Hasher permissiveCrypto.sha256, ⟨Varint.write 4, Varint.read 4⟩⟩

theorem varintEnv_readsVarints : ReadsVarints varintEnv := by
  intro n hn rest
  exact Varint.read_write (by omega) rest

def passkeyDraft (value nonce : Int) (authenticatorData clientDataJSON : Bytes) : SignedDraft :=
  ⟨⟨List.replicate 34 1, List.replicate 32 2, value, nonce⟩, List.replicate 64 3, authenticatorData, clientDataJSON⟩

/-- The largest number and the smallest, and assertions with and without data. -/
def passkeyDrafts : List SignedDraft := [passkeyDraft (2 ^ 64 - 1) 0 [] [], passkeyDraft 1 (2 ^ 64 - 1) [4, 5] [6]]

theorem passkeyDrafts_wellFormed : ∀ s ∈ passkeyDrafts, s.WellFormed := by
  simp only [passkeyDrafts, List.forall_mem_cons]
  refine ⟨⟨rfl, rfl, by decide, by decide, rfl, by decide, by decide⟩,
    ⟨rfl, rfl, by decide, by decide, rfl, by decide, by decide⟩, by simp⟩

theorem explorer_batch_accepted_sample :
    ∃ body txs maxBatchBytes, List.Forall₂ (SignedDraft.Denotes varintEnv.crypto.sha256) passkeyDrafts txs ∧
      txs.length = 2 ∧ Relayer.decodeBatch varintEnv (fun _ => "") body maxBatchBytes = .ok ⟨txs, ["", ""]⟩ := by
  obtain ⟨⟨encoded, body, txs, -, -, hdenotes, -, haccepted⟩, -⟩ :=
    explorer_batch_accepted varintEnv rfl varintEnv_readsVarints ⟨passkeyDrafts, by decide⟩ (by simp [passkeyDrafts])
      passkeyDrafts_wellFormed (fun _ _ _ => rfl)
  have htwo : txs.length = 2 := hdenotes.length_eq.symm
  have hdecode := (haccepted _ le_rfl).2 fun _ => ""
  rw [List.map_const', htwo] at hdecode
  exact ⟨body, txs, _, hdenotes, htwo, hdecode⟩

end Constantinople.Explorer
