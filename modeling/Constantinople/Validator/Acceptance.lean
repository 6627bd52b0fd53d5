/-
Which bodies leaders refuse. What the relayer forwards is read by a leader as the transactions it stands for,
so only a signature or the leader's own limit can make a leader refuse it. A client whose transactions are all
authentic is therefore told of their fate, or that no leader took them, unless a leader's limit is below the batch.
-/
import Constantinople.Validator.Finality
import Constantinople.Primitives.Verification
import Mathlib.Algebra.Order.BigOperators.Group.List

namespace Constantinople.Relayer

open Constantinople Mempool

variable {D : Type}

/-! ## Bodies within the limits -/

section Bodies

variable {E : Env D} {bound : Nat}

theorem length_encodeTransactions (ts : List (SignedTransaction D)) :
    (encodeTransactions E ts).length = (E.usize.write ts.length).length + totalBytesFor ts := by
  have hsum : ts.map (fun t => t.write.length) = ts.map SignedTransaction.encodeSize :=
    List.map_congr_left fun t _ => t.length_write
  rw [encodeTransactions, List.length_append, List.length_flatMap, hsum]
  rfl

/-- No transaction is smaller than the handlers count on. -/
theorem minSignedTransactionBytes_le (t : SignedTransaction D) : Mempool.minSignedTransactionBytes ≤ t.encodeSize := by
  have hsignature := t.signature.encodeSize_bounds.1
  have hsize : t.encodeSize = Transaction.size + t.signature.encodeSize := rfl
  have hmin : Mempool.minSignedTransactionBytes ≤ Transaction.size + TransactionSignature.minSize := by decide
  omega

theorem length_mul_le_totalBytesFor (ts : List (SignedTransaction D)) :
    ts.length * Mempool.minSignedTransactionBytes ≤ totalBytesFor ts := by
  have hsum := List.card_nsmul_le_sum (ts.map SignedTransaction.encodeSize) Mempool.minSignedTransactionBytes
    (List.forall_mem_map.2 fun t _ => minSignedTransactionBytes_le t)
  rwa [List.length_map, smul_eq_mul] at hsum

/-- A handler allows at least as many transactions as the body holds. -/
theorem maxTransactionCount_encodeTransactions (hu : E.usize.RoundTrips (· ≤ bound)) {ts : List (SignedTransaction D)}
    (hlen : ts.length ≤ bound) (hne : ts ≠ []) :
    ∃ maxTransactions, Mempool.maxTransactionCount (encodeTransactions E ts).length = some maxTransactions ∧
      ts.length ≤ maxTransactions := by
  have hpos := List.length_pos_iff.2 hne
  have hcount : 0 < (E.usize.write ts.length).length :=
    List.length_pos_iff.2 (usize_write_ne_nil hu hlen (hpos.trans_le hlen))
  have hle : ts.length ≤
      ((encodeTransactions E ts).length - minBatchLengthPrefixBytes) / Mempool.minSignedTransactionBytes := by
    rw [Nat.le_div_iff_mul_le (by decide)]
    have htotal := length_mul_le_totalBytesFor ts
    have hlength := length_encodeTransactions (E := E) ts
    simp only [minBatchLengthPrefixBytes]
    omega
  exact ⟨_, if_pos (hpos.trans_le hle), hle⟩

/-- A handler takes a body made from decoded authentic transactions, or says that it is above its limit. -/
theorem verifyBody_encodeTransactions (hu : E.usize.RoundTrips (· ≤ bound))
    (hcount : ∀ n ≤ bound, (E.usize.write n).length ≤ maxBatchLengthPrefixBytes) (hsound : E.crypto.BatchSound)
    (hcomplete : E.crypto.BatchComplete) {ts : List (SignedTransaction D)} (hts : ∀ t ∈ ts, t.Decodable E)
    (hlen : ts.length ≤ bound) (hne : ts ≠ []) {app : Mempool.AppState}
    (hauthentic : ∀ t ∈ ts, t.Authentic E app.transactionNamespace) (rng : Nat) :
    verifyBody E app rng (encodeTransactions E ts) =
      if app.maxBatchBytes < totalBytesFor ts then .error .payloadTooLarge
      else .ok ⟨ts, ts.map SignedTransaction.messageDigest, totalBytesFor ts⟩ := by
  obtain ⟨maxTransactions, hmax, hle⟩ := maxTransactionCount_encodeTransactions hu hlen hne
  have hpos := List.length_pos_iff.2 hne
  have hlength := length_encodeTransactions (E := E) ts
  have hwritten := hcount ts.length hlen
  have hdecode : Reader.decode (readTransactions E maxTransactions) (encodeTransactions E ts) = .ok ts := by
    rw [decode_encodeTransactions hu hts hlen, if_neg (by omega)]
  have hverify : verifyTransactionChunks E app.signatureStrategy app.hashStrategy app.transactionNamespace rng
      (ts.map .new) = some ts := by
    rw [verifyTransactionChunks_eq_some hsound hcomplete]
    refine ⟨?_, hauthentic⟩
    rw [List.map_map]
    rfl
  unfold verifyBody
  split
  · -- a body above the limit of a request has transactions above that of a batch
    rename_i hsize
    simp only [Mempool.maxRequestBytes] at hsize
    rw [if_pos (by omega)]
  · rw [hmax]
    simp only [hdecode, hverify]

end Bodies

/-! ## Refusals -/

/-- A leader's URL answers what the endpoint for relayers answers; every leader has its own limit. -/
def Ingests (state : AppState D) (domain : Bytes) (digestsJson : List String → Bytes) (limit : Leader → Nat) : Prop :=
  ∀ retry position, ∀ leader ∈ state.leaders, ∀ body response,
    state.http.post retry position (leader.url ++ "/transactions/ingest") body = some response →
    ∃ app rng wait, app.transactionNamespace = domain ∧ app.maxBatchBytes = limit leader ∧
      response.Shows (ingestBatch state.env app state.display digestsJson rng body wait)

theorem foldl_add_deterministic {status : StatusCode} {results : List ForwardResult} {summary : ForwardSummary}
    (h : (results.foldl ForwardSummary.add summary).deterministic = some status) :
    summary.deterministic = some status ∨ .deterministic status ∈ results := by
  induction results generalizing summary with
  | nil => exact .inl h
  | cons result results ih =>
    rcases ih h with hsummary | hmem
    · cases result with
      | accepted leader => exact .inl hsummary
      | transient leader => exact .inl hsummary
      | deterministic refused =>
        obtain rfl : refused = status := Option.some.inj hsummary
        exact .inr (List.mem_cons_self ..)
    · exact .inr (List.mem_cons_of_mem _ hmem)

/-- A refusal is an answer of one of the targets. -/
theorem forwardToTargets_deterministic {http : Http} {retry : Nat} {targets : List Leader} {body : Bytes} {status : StatusCode}
    (h : (forwardToTargets http retry targets body).deterministic = some status) :
    ∃ leader ∈ targets, ∃ position response,
      http.post retry position (leader.url ++ "/transactions/ingest") body = some response ∧ response.status = status ∧
        (status = .badRequest ∨ status = .payloadTooLarge) := by
  obtain hnone | hmem := foldl_add_deterministic h
  · cases hnone
  obtain ⟨⟨leader, position⟩, hposition, hresult⟩ := List.mem_map.1 hmem
  refine ⟨leader, List.fst_mem_of_mem_zipIdx hposition, position, ?_⟩
  simp only [forwardToLeader] at hresult
  split at hresult
  · cases hresult
  rename_i response hpost
  refine ⟨response, hpost, ?_⟩
  split at hresult
  · split at hresult
    · cases hresult
    · split at hresult
      · cases hresult
      · cases hresult
  · rename_i hstatus
    cases hresult
    exact ⟨rfl, .inl hstatus⟩
  · rename_i hstatus
    cases hresult
    exact ⟨rfl, .inr hstatus⟩
  · cases hresult

section Refusals

variable {state : AppState D} {batch : DecodedBatch D} {limit : Leader → Nat}

variable (state batch limit) in
/-- The batch is above the limit of a leader. -/
def TooLarge : Prop := ∃ leader ∈ state.leaders, limit leader < totalBytesFor batch.transactions

variable (state batch limit) in
/-- No leader refuses a part of the batch but for its size. -/
def Taken : Prop :=
  ∀ ts : List (SignedTransaction D), ts.Sublist batch.transactions → ts ≠ [] → ∀ retry position, ∀ leader ∈ state.leaders,
    ∀ response, state.http.post retry position (leader.url ++ "/transactions/ingest") (encodeTransactions state.env ts) =
      some response → response.status ≠ .badRequest ∧ (response.status = .payloadTooLarge → TooLarge state batch limit)

/-- Leaders take every part of a batch of authentic transactions that is within their limits. -/
theorem Ingests.taken {domain : Bytes} {digestsJson : List String → Bytes} (h : Ingests state domain digestsJson limit)
    {bound : Nat} (hu : state.env.usize.RoundTrips (· ≤ bound))
    (hcount : ∀ n ≤ bound, (state.env.usize.write n).length ≤ maxBatchLengthPrefixBytes)
    (hsound : state.env.crypto.BatchSound) (hcomplete : state.env.crypto.BatchComplete) {body : Bytes}
    (hbatch : decodeBatch state.env state.display body state.maxBatchBytes = .ok batch)
    (hauthentic : ∀ t ∈ batch.transactions, t.Authentic state.env domain) : Taken state batch limit := by
  intro ts hsublist hne retry position leader hleader response hpost
  obtain ⟨app, rng, wait, rfl, hlimit, hcode, -⟩ := h retry position leader hleader _ response hpost
  obtain ⟨⟨maxTransactions, hdecode⟩, -⟩ := decodeBatch_decode hbatch
  have htotal : totalBytesFor ts ≤ totalBytesFor batch.transactions :=
    (hsublist.map SignedTransaction.encodeSize).sum_le_sum fun _ _ => Nat.zero_le _
  have hverified := verifyBody_encodeTransactions hu hcount hsound hcomplete
    (fun t ht => decodable_of_decode hdecode t (hsublist.subset ht)) (hsublist.length_le.trans (length_le_of_decode hu hdecode))
    hne (fun t ht => hauthentic t (hsublist.subset ht)) rng
  rw [hcode, ingestBatch, hverified]
  by_cases hlarge : app.maxBatchBytes < totalBytesFor ts
  · rw [if_pos hlarge]
    exact ⟨nofun, fun _ => ⟨leader, hleader, by omega⟩⟩
  · rw [if_neg hlarge]
    cases wait with
    | full => exact ⟨nofun, nofun⟩
    | closed => exact ⟨nofun, nofun⟩
    | answered status => cases status <;> exact ⟨nofun, nofun⟩

variable (state batch limit) in
/-- Codes that do not blame the transactions. -/
def StatusCode.Blameless (code : StatusCode) : Prop :=
  code = .ok ∨ code = .serviceUnavailable ∨ (code = .payloadTooLarge ∧ TooLarge state batch limit)

theorem attemptRound_blameless (htaken : Taken state batch limit) (hc : batch.Carries state) {past : List Round}
    {p : Progress} (hf : Follows batch past p) (hattempted : Attempted state past p.attempts) {remaining : Nat}
    {response : Response} (h : (attemptRound state batch remaining p).2 = .returned response) :
    response.code.Blameless state batch limit := by
  obtain ⟨hbody, hne⟩ := hf.body hc
  unfold attemptRound at h
  simp only at h
  split at h
  · -- a leader that refuses what is pending
    rename_i status hrefused
    obtain ⟨leader, hleader, position, refusal, hpost, rfl, hcode⟩ := forwardToTargets_deterministic hrefused
    have hmember : leader ∈ state.leaders := by
      obtain ⟨attempt, hattempt, rfl⟩ := List.mem_map.1 hleader
      rcases List.mem_append.1 (List.mem_filter.1 hattempt).1 with hold | hnew
      · exact (hattempted attempt hold).1
      · obtain ⟨target, htarget, rfl⟩ := List.mem_map.1 hnew
        exact nextTwoLeaders_mem htarget
    rw [hbody] at hpost
    obtain ⟨hbad, hlarge⟩ := htaken _ List.filter_sublist hne _ position leader hmember refusal hpost
    cases h
    rcases hcode with hcode | hcode
    · exact absurd hcode hbad
    · exact .inr (.inr ⟨hcode, hlarge hcode⟩)
  · split at h
    · cases h
      exact .inl rfl
    split at h
    · split at h
      · cases h
        exact .inl rfl
      · cases h
        exact .inr (.inl rfl)
    split at h
    · cases h
    · cases h

theorem retryLoop_blameless (htaken : Taken state batch limit) (hc : batch.Carries state) (remaining : Nat) :
    ∀ {past : List Round} {p : Progress} {response : Response}, Follows batch past p → Attempted state past p.attempts →
      (retryLoop state batch remaining p).1 = some response → response.code.Blameless state batch limit := by
  induction remaining with
  | zero =>
    intro past p response _ _ h
    cases h
    exact .inl rfl
  | succ remaining ih =>
    intro past p response hf hattempted h
    obtain ⟨-, -, hagain⟩ := attemptRound_spec hf hc remaining
    have hasks := (attemptRound_asks batch hattempted remaining).2
    rw [retryLoop] at h
    split at h
    · rename_i round returned hround
      cases h
      exact attemptRound_blameless htaken hc hf hattempted (congrArg Prod.snd hround)
    · cases h
    · rename_i round p' hround
      rw [hround] at hagain hasks
      exact ih (hagain p' rfl) (hasks p' rfl) h

end Refusals

/-- A request without a target leader whose body decodes to authentic transactions is answered with a status or told
that no leader took it. It is refused only as too large, and only when a leader's own limit is below the batch. -/
theorem authentic_batch_never_refused {state : AppState D} {json : Json} {domain : Bytes} {digestsJson : List String → Bytes}
    {limit : Leader → Nat} (hingests : Ingests state domain digestsJson limit) {bound : Nat}
    (hu : state.env.usize.RoundTrips (· ≤ bound))
    (hcount : ∀ n ≤ bound, (state.env.usize.write n).length ≤ maxBatchLengthPrefixBytes)
    (hsound : state.env.crypto.BatchSound) (hcomplete : state.env.crypto.BatchComplete) {headers : Headers}
    (hheaders : headers.targetLeader = none) {body : Bytes} {batch : DecodedBatch D}
    (hbatch : decodeBatch state.env state.display body state.maxBatchBytes = .ok batch)
    (hauthentic : ∀ t ∈ batch.transactions, t.Authentic state.env domain) {answer : StatusCode × Bytes}
    (h : submitTransactions state json headers body = some answer) :
    answer.1 = .ok ∨ answer.1 = .serviceUnavailable ∨
      (answer.1 = .payloadTooLarge ∧ ∃ leader ∈ state.leaders, limit leader < totalBytesFor batch.transactions) := by
  have hnone : requestedTargetLeader headers = none := by
    unfold requestedTargetLeader
    rw [hheaders]
    rfl
  have hc := decodeBatch_carries hbatch
  unfold submitTransactions at h
  simp only [hnone, hbatch] at h
  obtain ⟨response, hresponse, rfl⟩ := Option.map_eq_some_iff.1 h
  unfold submitWithRetries at hresponse
  split at hresponse
  · cases hresponse
    exact .inr (.inl rfl)
  · refine retryLoop_blameless (hingests.taken hu hcount hsound hcomplete hbatch hauthentic) hc _ (Follows.start hc) ?_ hresponse
    exact List.forall_mem_nil _

/-! ## A small instance -/

theorem permissiveCrypto_batchSound : permissiveCrypto.BatchSound := fun _ _ _ _ _ => rfl

theorem permissiveCrypto_batchComplete : permissiveCrypto.BatchComplete := ⟨fun _ _ => rfl, fun _ _ _ => rfl⟩

/-- A relayer with one leader, which takes the body and reports nothing about it. -/
def silentRelayer : AppState Nat where
  env := countingApplication.env
  display := tallyConfig.display
  leaders := [⟨"aa", "http://aa"⟩]
  maxRetryViews := 0
  maxBatchBytes := 1000
  viewClock := ⟨0, [], false⟩
  http :=
    { post := fun _ _ _ body => if body = postedBody then some ⟨.accepted, some []⟩ else none
      get := fun _ _ _ => none
      ingestResponse := fun _ => some ["transaction"]
      batchStatus := fun _ => none }

theorem ingests_silentRelayer : Ingests silentRelayer [] (fun _ => []) fun _ => postedApp.maxBatchBytes := by
  intro retry position leader hleader body response hpost
  replace hpost : (if body = postedBody then some (HttpResponse.mk .accepted (some [])) else none) = some response := hpost
  split at hpost
  · rename_i hbody
    subst hbody
    cases hpost
    refine ⟨postedApp, 0, .answered .accepted, rfl, rfl, ?_⟩
    have hverified : verifyBody silentRelayer.env postedApp 0 postedBody = .ok postedBatch := verifyBody_postedBody
    unfold ingestBatch
    rw [hverified]
    exact ⟨rfl, fun text htext => (Option.some.inj htext).symm⟩
  · cases hpost

set_option maxRecDepth 20000 in
theorem authentic_batch_never_refused_sample : ∃ json : Json,
    submitTransactions silentRelayer json ⟨none, none⟩ postedBody = some (.ok, json.txStatus .dropped) ∧
      (∃ batch, decodeBatch silentRelayer.env silentRelayer.display postedBody silentRelayer.maxBatchBytes = .ok batch) ∧
      ∀ answer, submitTransactions silentRelayer json ⟨none, none⟩ postedBody = some answer →
        answer.1 = .ok ∨ answer.1 = .serviceUnavailable ∨ (answer.1 = .payloadTooLarge ∧
          ∃ leader ∈ silentRelayer.leaders, postedApp.maxBatchBytes < totalBytesFor [postedTransaction]) := by
  obtain ⟨json, -⟩ := exists_json
  have hbatch : decodeBatch silentRelayer.env silentRelayer.display postedBody silentRelayer.maxBatchBytes =
      .ok ⟨[postedTransaction], [tallyConfig.display 82]⟩ := rfl
  have hanswer : (submitWithRetries silentRelayer ⟨[postedTransaction], [tallyConfig.display 82]⟩).1 =
      some (jsonResponse .dropped) := by decide
  refine ⟨json, ?_, ⟨_, hbatch⟩, fun answer hsome => ?_⟩
  · unfold submitTransactions
    simp only [requestedTargetLeader, Option.map_none, hbatch, hanswer]
    rfl
  · have hcount : ∀ n ≤ 255, (silentRelayer.env.usize.write n).length ≤ maxBatchLengthPrefixBytes :=
      fun n _ => (by decide : 1 ≤ maxBatchLengthPrefixBytes)
    exact authentic_batch_never_refused ingests_silentRelayer countingEnv_usize hcount permissiveCrypto_batchSound
      permissiveCrypto_batchComplete rfl hbatch (List.forall_mem_singleton.2 ⟨_, rfl, rfl⟩) hsome

end Constantinople.Relayer
