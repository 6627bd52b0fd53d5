/-
What the relayer answers. Its variables follow the statuses fetched so far: the included digests are those
some status lists, the pending ones are the rest of the batch, and the height is the largest one listed.
Every round keeps this, so an answer says of the batch what the leaders reported, and a transaction is
forwarded only as long as no leader reported it.
-/
import Constantinople.Validator.Relayer

namespace Constantinople.Relayer

open Constantinople Mempool

variable {D : Type}

/-! ## What the leaders reported -/

/-- Some fetched status lists the digest as included. -/
def Reported (rounds : List Round) (digest : String) : Prop :=
  ∃ round ∈ rounds, ∃ status ∈ round.fetched, digest ∈ status.included

instance (rounds : List Round) (digest : String) : Decidable (Reported rounds digest) :=
  inferInstanceAs (Decidable (∃ round ∈ rounds, ∃ status ∈ round.fetched, digest ∈ status.included))

/-- The heights of the fetched statuses that report inclusions. -/
def reportedHeights (rounds : List Round) : List UInt64 :=
  (rounds.flatMap Round.fetched).filterMap BatchStatus.inclusionHeight

/-- The part of the batch no fetched status lists. -/
def unreported (state : AppState D) (batch : DecodedBatch D) (rounds : List Round) : List (SignedTransaction D) :=
  batch.transactions.filter fun transaction => ¬Reported rounds (state.display transaction.messageDigest)

/-- The fetched statuses list as included only digests of the batch. A leader is asked about parts of the
batch, so this is so if it lists only digests of what it was asked about. -/
def Confined (batch : DecodedBatch D) (rounds : List Round) : Prop :=
  ∀ round ∈ rounds, ∀ status ∈ round.fetched, ∀ digest ∈ status.included, digest ∈ batch.digests

instance (batch : DecodedBatch D) (rounds : List Round) : Decidable (Confined batch rounds) :=
  inferInstanceAs (Decidable (∀ round ∈ rounds, ∀ status ∈ round.fetched, ∀ digest ∈ status.included,
    digest ∈ batch.digests))

/-- What an answer says of the batch is what was reported. -/
def Supported (batch : DecodedBatch D) (rounds : List Round) : TxStatus → Prop
  | .finalized height => (∀ digest ∈ batch.digests, Reported rounds digest) ∧ (reportedHeights rounds).max? = some height
  | .partiallyFinalized height included filtered =>
    included = batch.digests.filter (fun digest => Reported rounds digest) ∧
    filtered = batch.digests.filter (fun digest => ¬Reported rounds digest) ∧
    included ≠ [] ∧ filtered ≠ [] ∧ (reportedHeights rounds).max? = some height
  | .dropped => ∀ digest ∈ batch.digests, ¬Reported rounds digest

@[simp] theorem not_reported_nil (digest : String) : ¬Reported [] digest := by
  simp [Reported]

@[simp] theorem reported_append (rounds rounds' : List Round) (digest : String) :
    Reported (rounds ++ rounds') digest ↔ Reported rounds digest ∨ Reported rounds' digest := by
  simp [Reported, or_and_right, exists_or]

theorem reported_singleton (round : Round) (digest : String) :
    Reported [round] digest ↔ ∃ status ∈ round.fetched, digest ∈ status.included := by
  simp [Reported]

theorem reportedHeights_append (rounds : List Round) (round : Round) :
    reportedHeights (rounds ++ [round]) = reportedHeights rounds ++ round.fetched.filterMap BatchStatus.inclusionHeight := by
  simp [reportedHeights]

/-- A status that lists a digest has a height. -/
theorem reportedHeights_ne_nil {rounds : List Round} {digest : String} (h : Reported rounds digest) :
    reportedHeights rounds ≠ [] := by
  obtain ⟨round, hround, status, hstatus, hdigest⟩ := h
  have hheight : ∃ height, status.inclusionHeight = some height := by
    cases status with
    | finalized height _ => exact ⟨height, rfl⟩
    | partiallyFinalized height _ _ => exact ⟨height, rfl⟩
    | accepted _ => cases hdigest
    | dropped _ => cases hdigest
  obtain ⟨height, hheight⟩ := hheight
  apply List.ne_nil_of_mem (a := height)
  exact List.mem_filterMap.2 ⟨status, List.mem_flatMap.2 ⟨round, hround, hstatus⟩, hheight⟩

/-! ## A decoded batch -/

/-- A decoded batch has transactions, and carries their digests. -/
structure DecodedBatch.Carries (state : AppState D) (batch : DecodedBatch D) : Prop where
  nonempty : batch.transactions ≠ []
  digests : batch.digests = batch.transactions.map fun transaction => state.display transaction.messageDigest

theorem decodeBatch_carries {state : AppState D} {body : Bytes} {batch : DecodedBatch D}
    (h : decodeBatch state.env state.display body state.maxBatchBytes = .ok batch) : batch.Carries state := by
  unfold decodeBatch at h
  split at h
  · cases h
  split at h
  · cases h
  split at h
  · cases h
  rename_i transactions hdecode
  simp only at h
  split at h
  · cases h
  cases h
  refine ⟨?_, rfl⟩
  exact readTransactions_ne_nil hdecode

/-! ## A round -/

/-- The loop of `merge_statuses` adds what the statuses list and takes the largest height. -/
theorem foldl_mergeStatus (statuses : List BatchStatus) (included : Finset String) (height : UInt64) :
    (∀ digest, digest ∈ (statuses.foldl mergeStatus (included, height)).1 ↔
      digest ∈ included ∨ ∃ status ∈ statuses, digest ∈ status.included) ∧
    (statuses.foldl mergeStatus (included, height)).2 =
      (statuses.filterMap BatchStatus.inclusionHeight).foldl max height := by
  induction statuses generalizing included height with
  | nil => simp
  | cons status statuses ih =>
    rw [List.foldl_cons]
    obtain ⟨hincluded, hheight⟩ := ih (mergeStatus (included, height) status).1 (mergeStatus (included, height) status).2
    refine ⟨fun digest => ?_, ?_⟩
    · rw [hincluded]
      cases status <;> simp [mergeStatus, BatchStatus.included, or_assoc]
    · rw [hheight]
      cases status <;> rfl

/-- The variables follow what was reported in the rounds so far. -/
structure Follows (batch : DecodedBatch D) (past : List Round) (p : Progress) : Prop where
  included : ∀ digest, digest ∈ p.included ↔ Reported past digest
  pending : ∀ digest, digest ∈ p.pending ↔ digest ∈ batch.digests ∧ ¬Reported past digest
  height : p.height = (reportedHeights past).foldl max 0
  waiting : p.pending ≠ ∅

theorem Follows.start {state : AppState D} {batch : DecodedBatch D} (h : batch.Carries state) :
    Follows batch []
      ⟨batch.digests.toFinset, ∅, 0, false, [], state.viewClock.currentView, state.viewClock.coming⟩ where
  included := by simp
  pending := by simp
  height := rfl
  waiting := by simpa [h.digests] using h.nonempty

/-- The best-effort status, from the digests reported and the largest height. -/
theorem bestEffortStatus_supported {batch : DecodedBatch D} {rounds : List Round} {included : Finset String}
    (hincluded : ∀ digest, digest ∈ included ↔ Reported rounds digest) (hconfined : Confined batch rounds) :
    Supported batch rounds (bestEffortStatus batch.digests included ((reportedHeights rounds).foldl max 0)) := by
  unfold bestEffortStatus
  split
  · rename_i hempty
    intro digest _ hreported
    rw [← hincluded, hempty] at hreported
    exact absurd hreported (Finset.notMem_empty digest)
  rename_i hne
  obtain ⟨digest, hdigest⟩ := Finset.nonempty_iff_ne_empty.2 hne
  rw [hincluded] at hdigest
  have hheight := Word.max?_eq_foldl (reportedHeights_ne_nil hdigest)
  simp only [hincluded]
  split
  · rename_i hfiltered
    rw [List.isEmpty_iff, List.filter_eq_nil_iff] at hfiltered
    exact ⟨fun digest hd => by simpa using hfiltered digest hd, hheight⟩
  · rename_i hfiltered
    refine ⟨rfl, rfl, ?_, by simpa using hfiltered, hheight⟩
    obtain ⟨round, hround, status, hstatus, hlisted⟩ := hdigest
    have hmem : digest ∈ batch.digests := hconfined round hround status hstatus digest hlisted
    apply List.ne_nil_of_mem (a := digest)
    exact List.mem_filter.2 ⟨hmem, decide_eq_true ⟨round, hround, status, hstatus, hlisted⟩⟩

section Rounds

variable {state : AppState D} {batch : DecodedBatch D} {past : List Round} {p : Progress}

/-- What is pending is what no status lists, and it is never nothing. -/
theorem Follows.body (hf : Follows batch past p) (hc : batch.Carries state) :
    encodePending state.env state.display batch p.pending =
        encodeTransactions state.env (unreported state batch past) ∧
      unreported state batch past ≠ [] := by
  constructor
  · unfold encodePending unreported
    apply congrArg
    apply List.filter_congr
    intro transaction htransaction
    have hdigest : state.display transaction.messageDigest ∈ batch.digests := by
      rw [hc.digests]
      exact List.mem_map_of_mem htransaction
    simp [hf.pending, hdigest]
  · obtain ⟨digest, hpending⟩ := Finset.nonempty_iff_ne_empty.2 hf.waiting
    obtain ⟨hdigest, hnot⟩ := (hf.pending digest).1 hpending
    rw [hc.digests] at hdigest
    obtain ⟨transaction, htransaction, rfl⟩ := List.mem_map.1 hdigest
    apply List.ne_nil_of_mem (a := transaction)
    exact List.mem_filter.2 ⟨htransaction, by simpa using hnot⟩

/-- The statuses a round fetched, merged into the variables. -/
theorem Follows.merged (hf : Follows batch past p) {round : Round} {retry : Nat} {attempts : List (String × Leader)}
    (hround : round.fetched = fetchStatuses state.http retry attempts) {merged : Finset String × UInt64}
    (hmerged : mergeStatuses state.http retry attempts p.included p.height = merged) :
    (∀ digest, digest ∈ merged.1 ↔ Reported (past ++ [round]) digest) ∧
    merged.2 = (reportedHeights (past ++ [round])).foldl max 0 ∧
    ∀ digest, digest ∈ p.pending.filter (fun digest => digest ∉ merged.1) ↔
      digest ∈ batch.digests ∧ ¬Reported (past ++ [round]) digest := by
  subst hmerged
  obtain ⟨hlisted, hheight⟩ := foldl_mergeStatus (fetchStatuses state.http retry attempts) p.included p.height
  have hincluded : ∀ digest, digest ∈ (mergeStatuses state.http retry attempts p.included p.height).1 ↔
      Reported (past ++ [round]) digest := by
    intro digest
    rw [reported_append, reported_singleton, ← hf.included, hround]
    exact hlisted digest
  refine ⟨hincluded, ?_, fun digest => ?_⟩
  · rw [reportedHeights_append, List.foldl_append, ← hf.height, hround]
    exact hheight
  · rw [Finset.mem_filter, hf.pending, hincluded, reported_append]
    tauto

/-- When nothing of a batch is left, all of it was reported. -/
theorem finalized_supported {rounds : List Round} (hc : batch.Carries state)
    (hall : ∀ digest ∈ batch.digests, Reported rounds digest) :
    Supported batch rounds (.finalized ((reportedHeights rounds).foldl max 0)) := by
  refine ⟨hall, ?_⟩
  have hne : batch.digests ≠ [] := by simpa [hc.digests] using hc.nonempty
  obtain ⟨digest, hdigest⟩ := List.exists_mem_of_ne_nil _ hne
  exact Word.max?_eq_foldl (reportedHeights_ne_nil (hall digest hdigest))

/-- One round: what it forwards, and either the answer it ends with or the variables of the next. -/
theorem attemptRound_spec (hf : Follows batch past p) (hc : batch.Carries state) (remaining : Nat) :
    (attemptRound state batch remaining p).1.body = encodeTransactions state.env (unreported state batch past) ∧
    (∀ response status, (attemptRound state batch remaining p).2 = .returned response →
      response.status = some status → Confined batch (past ++ [(attemptRound state batch remaining p).1]) →
      Supported batch (past ++ [(attemptRound state batch remaining p).1]) status) ∧
    ∀ p', (attemptRound state batch remaining p).2 = .again p' →
      Follows batch (past ++ [(attemptRound state batch remaining p).1]) p' := by
  unfold attemptRound
  simp only
  generalize p.attempts ++ _ = attempts
  generalize state.maxRetryViews.toNat - remaining = retry
  split
  · refine ⟨(hf.body hc).1, ?_, ?_⟩
    · intro response status hresponse hstatus
      cases hresponse
      cases hstatus
    · intro p' hp'
      cases hp'
  generalize hround : (Round.mk _ _ (fetchStatuses state.http retry attempts)) = round
  have hfetched : round.fetched = fetchStatuses state.http retry attempts := by rw [← hround]
  generalize hmerged : mergeStatuses state.http retry attempts p.included p.height = merged
  obtain ⟨hincluded, hlargest, hpending⟩ := hf.merged hfetched hmerged
  refine ⟨by rw [← hround]; exact (hf.body hc).1, ?_, ?_⟩
  · intro response status hresponse hstatus hconfined
    split at hresponse
    · -- nothing is pending any more
      rename_i hempty
      cases hresponse
      cases hstatus
      rw [hlargest]
      refine finalized_supported hc fun digest hdigest => ?_
      by_contra hnot
      have hmem := (hpending digest).2 ⟨hdigest, hnot⟩
      rw [hempty] at hmem
      exact Finset.notMem_empty digest hmem
    split at hresponse
    · split at hresponse
      · cases hresponse
        cases hstatus
        rw [hlargest]
        exact bestEffortStatus_supported hincluded hconfined
      · cases hresponse
        cases hstatus
    · split at hresponse
      · cases hresponse
      · cases hresponse
  · intro p' hp'
    split at hp'
    · cases hp'
    rename_i hne
    split at hp'
    · split at hp'
      · cases hp'
      · cases hp'
    split at hp'
    · cases hp'
    · cases hp'
      exact ⟨hincluded, hpending, hlargest, hne⟩

end Rounds

/-! ## Whole submissions -/

/-- Each round forwards, to every target, the encoding of what no status of an earlier round lists, and
there is something to forward. -/
def Forwarded (state : AppState D) (batch : DecodedBatch D) (past rounds : List Round) : Prop :=
  ∀ before round after, rounds = before ++ round :: after →
    round.body = encodeTransactions state.env (unreported state batch (past ++ before)) ∧
      unreported state batch (past ++ before) ≠ []

theorem Forwarded.nil (state : AppState D) (batch : DecodedBatch D) (past : List Round) :
    Forwarded state batch past [] := by
  intro before round after heq
  cases before with
  | nil => cases heq
  | cons => cases heq

theorem Forwarded.cons {state : AppState D} {batch : DecodedBatch D} {past rounds : List Round} {round : Round}
    (hbody : round.body = encodeTransactions state.env (unreported state batch past))
    (hne : unreported state batch past ≠ []) (h : Forwarded state batch (past ++ [round]) rounds) :
    Forwarded state batch past (round :: rounds) := by
  intro before round' after heq
  cases before with
  | nil =>
    cases heq
    rw [List.append_nil]
    exact ⟨hbody, hne⟩
  | cons first before =>
    cases heq
    have htail := h before round' after rfl
    rwa [List.append_assoc] at htail

/-- What one round keeps, all rounds keep. -/
theorem retryLoop_sound {state : AppState D} {batch : DecodedBatch D} (hc : batch.Carries state) (remaining : Nat) :
    ∀ {past : List Round} {p : Progress}, Follows batch past p →
      Forwarded state batch past (retryLoop state batch remaining p).2 ∧
      (Confined batch (past ++ (retryLoop state batch remaining p).2) →
        ∀ response status, (retryLoop state batch remaining p).1 = some response → response.status = some status →
          Supported batch (past ++ (retryLoop state batch remaining p).2) status) := by
  induction remaining with
  | zero =>
    intro past p hf
    refine ⟨.nil state batch past, ?_⟩
    intro hconfined response status hresponse hstatus
    simp only [retryLoop, List.append_nil] at hconfined hresponse ⊢
    cases hresponse
    cases hstatus
    rw [hf.height]
    exact bestEffortStatus_supported hf.included hconfined
  | succ remaining ih =>
    intro past p hf
    obtain ⟨hbody, hreturned, hagain⟩ := attemptRound_spec hf hc remaining
    have hne := (hf.body hc).2
    rw [retryLoop]
    split
    · rename_i round response hround
      rw [hround] at hbody hreturned
      refine ⟨.cons hbody hne (.nil state batch _), ?_⟩
      intro hconfined response' status hresponse hstatus
      cases hresponse
      exact hreturned response status rfl hstatus hconfined
    · rename_i round hround
      rw [hround] at hbody
      refine ⟨.cons hbody hne (.nil state batch _), ?_⟩
      intro _ response status hresponse
      cases hresponse
    · rename_i round p' hround
      rw [hround] at hbody hagain
      obtain ⟨hforwarded, hsupported⟩ := ih (hagain p' rfl)
      refine ⟨.cons hbody hne hforwarded, ?_⟩
      rwa [List.append_assoc] at hsupported

/-- Whatever views come and whatever the leaders answer: if the statuses list as included only digests of
the batch, the relayer's answer is what they report, and every round forwards exactly what was not reported
before it. -/
theorem relayed_answers_sound (state : AppState D) {body : Bytes} {batch : DecodedBatch D}
    (hbatch : decodeBatch state.env state.display body state.maxBatchBytes = .ok batch)
    (hconfined : Confined batch (submitWithRetries state batch).2) :
    (∀ response status, (submitWithRetries state batch).1 = some response → response.status = some status →
      Supported batch (submitWithRetries state batch).2 status) ∧
    Forwarded state batch [] (submitWithRetries state batch).2 := by
  have hc := decodeBatch_carries hbatch
  unfold submitWithRetries at hconfined ⊢
  split
  · refine ⟨?_, .nil state batch []⟩
    intro response status hresponse hstatus
    cases hresponse
    cases hstatus
  · rename_i hleaders
    rw [if_neg hleaders] at hconfined
    obtain ⟨hforwarded, hsupported⟩ := retryLoop_sound hc (state.maxRetryViews.toNat + 1) (Follows.start hc)
    exact ⟨hsupported hconfined, hforwarded⟩

/-- Digests are sums of bytes. -/
def sumEnv : Env UInt64 :=
  { wordEnv with hasher := ⟨fun bytes => UInt64.ofNat (bytes.map UInt8.toNat).sum, fun digest => toBE 8 digest.toNat⟩ }

theorem length_zeroKey : (List.replicate 34 (0 : UInt8)).length = 34 := rfl

theorem firstValue_ne_zero : (5 : UInt64) ≠ 0 := by decide

theorem secondValue_ne_zero : (6 : UInt64) ≠ 0 := by decide

def sumTransaction (value : UInt64) (h : value ≠ 0) : SignedTransaction UInt64 :=
  ⟨(⟨.deferred ⟨List.replicate 34 0, length_zeroKey⟩, .filled 2, value, h, 0⟩ : Transaction).sealWith sumEnv.hasher,
    ed25519Sample⟩

def sumTransactions : List (SignedTransaction UInt64) :=
  [sumTransaction 5 firstValue_ne_zero, sumTransaction 6 secondValue_ne_zero]

/-- Two leaders. Each accepts what it is sent; in the first round one of them reports the first of two
transactions as included, at height 7, and later none answers. -/
def twoLeaders : AppState UInt64 where
  env := sumEnv
  display digest := if digest = 69 then "first" else "second"
  leaders := [⟨"00", "http://00"⟩, ⟨"01", "http://01"⟩]
  maxRetryViews := 1
  maxBatchBytes := 8 * 1024 * 1024
  viewClock := ⟨0, [1], false⟩
  http :=
    { post := fun _ _ _ _ => some ⟨.accepted, some []⟩
      get := fun retry position _ => if retry = 0 ∧ position = 0 then some ⟨.ok, some []⟩ else none
      ingestResponse := fun _ => some ["first"]
      batchStatus := fun _ => some (.partiallyFinalized 7 ["first"] ["second"]) }

set_option maxRecDepth 20000 in
theorem relayed_answers_sound_sample :
    ∃ batch, decodeBatch twoLeaders.env twoLeaders.display (encodeTransactions sumEnv sumTransactions)
        twoLeaders.maxBatchBytes = .ok batch ∧
      (submitWithRetries twoLeaders batch).1 =
        some (jsonResponse (.partiallyFinalized 7 ["first"] ["second"])) ∧
      Supported batch (submitWithRetries twoLeaders batch).2 (.partiallyFinalized 7 ["first"] ["second"]) ∧
      (submitWithRetries twoLeaders batch).2.map Round.body =
        [encodeTransactions sumEnv sumTransactions, encodeTransactions sumEnv (sumTransactions.drop 1)] := by
  have hbatch : decodeBatch twoLeaders.env twoLeaders.display (encodeTransactions sumEnv sumTransactions)
      twoLeaders.maxBatchBytes = .ok ⟨sumTransactions, ["first", "second"]⟩ := rfl
  have hanswer : (submitWithRetries twoLeaders ⟨sumTransactions, ["first", "second"]⟩).1 =
      some (jsonResponse (.partiallyFinalized 7 ["first"] ["second"])) := by decide
  have hconfined : Confined ⟨sumTransactions, ["first", "second"]⟩
      (submitWithRetries twoLeaders ⟨sumTransactions, ["first", "second"]⟩).2 := by decide
  obtain ⟨hsupported, -⟩ := relayed_answers_sound twoLeaders hbatch hconfined
  exact ⟨_, hbatch, hanswer, hsupported _ _ hanswer rfl, by decide⟩

end Constantinople.Relayer
