/-
What a client may conclude from an answer of the relayer. Every leader serves what its mempool has stored, in
some state it reached from submitted bodies and finalized blocks, and a body is known by its digest. Then an
answer that reports inclusions, whether the relayer merged it from several leaders or passed it on from one,
speaks of the transactions of the client's own body, and each transaction it counts as included is in a
finalized block at or below the height it states.
-/
import Constantinople.Validator.Gateway
import Constantinople.Mempool.Fifo
import Mathlib.Data.Countable.Basic
import Mathlib.Logic.Equiv.List

namespace Constantinople.Relayer

open Constantinople Mempool Run

variable {C D : Type}

/-! ## Bodies -/

section Bodies

variable {E : Env D} {bound : Nat}

/-- A length is never written as nothing. -/
theorem usize_write_ne_nil (hu : E.usize.RoundTrips (· ≤ bound)) {n : Nat} (hn : n ≤ bound) (hbound : 0 < bound) :
    E.usize.write n ≠ [] := by
  intro hnil
  -- then any other length would be read as this one
  obtain ⟨m, hm, hne⟩ : ∃ m ≤ bound, m ≠ n := by
    rcases Nat.eq_zero_or_pos n with rfl | hpos
    · exact ⟨1, hbound, Nat.one_ne_zero⟩
    · exact ⟨0, Nat.zero_le _, hpos.ne⟩
  have hread := hu.reads n hn (E.usize.write m)
  rw [hnil, List.nil_append] at hread
  have hread' := hu.reads m hm []
  rw [List.append_nil, hread] at hread'
  exact hne (congrArg Prod.fst (Except.ok.inj hread')).symm

theorem read_write_of_decodable {t : SignedTransaction D} (h : t.Decodable E) (rest : Bytes) :
    SignedTransaction.read E.crypto E.hasher (t.write ++ rest) = .ok (t, rest) := by
  obtain ⟨hformed, hwire⟩ := h.formed
  have hread := SignedTransaction.read_write (t := t.onWire E.hasher) rfl rfl hformed.signature rest
  rwa [hwire] at hread

theorem decodable_of_decode {maxTransactions : Nat} {body : Bytes} {ts : List (SignedTransaction D)}
    (h : Reader.decode (readTransactions E maxTransactions) body = .ok ts) : ∀ t ∈ ts, t.Decodable E := by
  obtain ⟨len, mid, -, hread⟩ := Reader.bind_ok (Reader.decode_ok.1 h)
  split at hread
  · cases hread
  · exact Reader.replicate_mem (fun bs t rest => SignedTransaction.decodable_of_read) hread

/-- The number of transactions of a body that decodes is one of the lengths that are read. -/
theorem length_le_of_decode (hu : E.usize.RoundTrips (· ≤ bound)) {maxTransactions : Nat} {body : Bytes}
    {ts : List (SignedTransaction D)} (h : Reader.decode (readTransactions E maxTransactions) body = .ok ts) :
    ts.length ≤ bound := by
  obtain ⟨len, mid, hlen, hread⟩ := Reader.bind_ok (Reader.decode_ok.1 h)
  split at hread
  · cases hread
  · rw [Reader.replicate_length hread]
    exact hu.valid _ _ _ hlen

/-- A body made from decoded transactions is read as them, by whoever reads that many. -/
theorem decode_encodeTransactions (hu : E.usize.RoundTrips (· ≤ bound)) {ts : List (SignedTransaction D)}
    (hts : ∀ t ∈ ts, t.Decodable E) (hlen : ts.length ≤ bound) (maxTransactions : Nat) :
    Reader.decode (readTransactions E maxTransactions) (encodeTransactions E ts) =
      if ts.length < 1 ∨ maxTransactions < ts.length then .error (.invalidLength ts.length) else .ok ts := by
  have hread := Reader.bind_eq (f := fun len => if len < 1 ∨ maxTransactions < len then Reader.fail (.invalidLength len)
    else Reader.replicate (SignedTransaction.read E.crypto E.hasher) len) (hu.reads _ hlen (ts.flatMap SignedTransaction.write))
  unfold Reader.decode readTransactions encodeTransactions
  rw [hread]
  by_cases hrange : ts.length < 1 ∨ maxTransactions < ts.length
  · rw [if_pos hrange, if_pos hrange]
    rfl
  · have hall : Reader.replicate (SignedTransaction.read E.crypto E.hasher) ts.length
        (ts.flatMap SignedTransaction.write ++ []) = .ok (ts.map id, []) :=
      Reader.replicate_reads fun t ht rest => read_write_of_decodable (hts t ht) rest
    rw [List.append_nil, List.map_id] at hall
    rw [if_neg hrange, if_neg hrange, hall]

/-- How many transactions are allowed does not change which are read. -/
theorem decode_unique {n m : Nat} {body : Bytes} {ts us : List (SignedTransaction D)}
    (h : Reader.decode (readTransactions E n) body = .ok ts) (h' : Reader.decode (readTransactions E m) body = .ok us) :
    us = ts := by
  obtain ⟨len, mid, hlen, hread⟩ := Reader.bind_ok (Reader.decode_ok.1 h)
  obtain ⟨len', mid', hlen', hread'⟩ := Reader.bind_ok (Reader.decode_ok.1 h')
  rw [hlen] at hlen'
  cases hlen'
  split at hread
  · cases hread
  split at hread'
  · cases hread'
  rw [hread] at hread'
  cases hread'
  rfl

end Bodies

/-! ## What leaders serve -/

/-- The finalized chain and the bodies that clients and relayers send, no two of which have the same digest. -/
structure World (E : Env D) (display : D → String) (C : Type) where
  chain : List (SealedBlock C D)
  bodies : Set Bytes
  distinct : Set.InjOn (fun body => display (E.hasher.hash body)) bodies

namespace World

variable {E : Env D} {display : D → String}

/-- The messages that reach a mempool: bodies that its handlers verified, finalized blocks, and requests. -/
def Arrives (world : World E display C) : Message C D → Prop
  | .submit batch => ∃ app rng body verified result ingestResult, body ∈ world.bodies ∧
      verifyBody E app rng body = .ok verified ∧ batch = submissionOf E display body verified result ingestResult
  | .reportBlock block _ => block ∈ world.chain
  | _ => True

/-- A validator of the network, and the messages that lead its mempool to a state. -/
structure Reaches [DecidableEq D] (world : World E display C) (cfg : Config C D) (ms : List (Message C D))
    (s : Witnessed C D) : Prop where
  env : cfg.env = E
  display : cfg.display = display
  arrives : ∀ m ∈ ms, world.Arrives m
  trace : Trace (Witnessed.Step cfg) ⟨.new, ⟨[], []⟩⟩ ms s

/-- The status is sent on the channel that a handler of the body waits on. -/
def Answers [DecidableEq D] (world : World E display C) (body : Bytes) (status : TxStatus) : Prop :=
  ∃ cfg ms s m order id channel, world.Reaches cfg ms s ∧ world.Arrives m ∧
    .result id channel status ∈ (s.actor.handle cfg order m).2 ∧
    ∀ batch, .submit batch ∈ ms ++ [m] → batch.result = some channel → batch.batchId = display (E.hasher.hash body)

/-- A block of the chain at the height holds the digest. -/
def Holds (world : World E display C) (d : D) (height : UInt64) : Prop :=
  ∃ block ∈ world.chain, block.inner.header.height = height ∧ d ∈ bodyDigests E block.inner.body

end World

/-- What arrives of an answer: its code, and its text unless that is lost. -/
def HttpResponse.Shows (response : HttpResponse) (answer : StatusCode × Bytes) : Prop :=
  response.status = answer.1 ∧ ∀ text ∈ response.body, text = answer.2

/-- What a leader's URL answers is what its handlers answer. -/
structure Serves [DecidableEq D] (state : AppState D) (json : Json) (world : World state.env state.display C) : Prop where
  parsed : ∀ status, state.http.batchStatus (json.batchStatus status) = some status
  status : ∀ retry position, ∀ leader ∈ state.leaders, ∀ id response,
    state.http.get retry position (leader.url ++ "/transactions/" ++ id) = some response →
    ∃ cfg ms s, world.Reaches cfg ms s ∧ response.Shows (fetchStatus json (s.actor.tables.statuses.get id))
  result : ∀ attempt, ∀ leader ∈ state.leaders, ∀ body response,
    state.http.post attempt 0 (leader.url ++ "/transactions") body = some response →
    ∃ app rng wait, response.Shows (submitBatch state.env app json rng body wait) ∧
      ∀ status, wait = .answered status → world.Answers body status

/-! ## What a status says of a body -/

section Attests

variable {E : Env D} {display : D → String} {world : World E display C}

/-- What a status that reports inclusions says of transactions: its lists split their digests, each one listed
as included is in a block at or below the height, and one of them is in a block at the height. -/
def Attests (world : World E display C) (ts : List (SignedTransaction D)) (status : BatchStatus) : Prop :=
  ∀ height, status.inclusionHeight = some height →
    (status.included ++ status.filtered).Perm (ts.map fun t => display t.messageDigest) ∧
    (∀ shown ∈ status.included, ∃ t ∈ ts, display t.messageDigest = shown ∧ ∃ k ≤ height, world.Holds t.messageDigest k) ∧
    ∃ t ∈ ts, display t.messageDigest ∈ status.included ∧ world.Holds t.messageDigest height

/-- What an answer to a client says of the transactions of its body. -/
def Settled (world : World E display C) (ts : List (SignedTransaction D)) : TxStatus → Prop
  | .finalized height =>
    (∀ t ∈ ts, ∃ k ≤ height, world.Holds t.messageDigest k) ∧ ∃ t ∈ ts, world.Holds t.messageDigest height
  | .partiallyFinalized height included filtered =>
    (included ++ filtered).Perm (ts.map fun t => display t.messageDigest) ∧
    (∀ t ∈ ts, display t.messageDigest ∈ included → ∃ k ≤ height, world.Holds t.messageDigest k) ∧
    ∃ t ∈ ts, display t.messageDigest ∈ included ∧ world.Holds t.messageDigest height
  | .dropped => True

theorem Attests.settled (hdisplay : Function.Injective display) {ts : List (SignedTransaction D)} {status : BatchStatus}
    (h : Attests world ts status) {st : TxStatus} (hst : txStatusFromBatch status = some st) : Settled world ts st := by
  -- a listed digest is that of the transaction at hand
  have hheld : ∀ height, status.inclusionHeight = some height → ∀ t ∈ ts, display t.messageDigest ∈ status.included →
      ∃ k ≤ height, world.Holds t.messageDigest k := by
    intro height hheight t _ hlisted
    obtain ⟨u, -, hu, hholds⟩ := (h height hheight).2.1 _ hlisted
    rwa [hdisplay hu] at hholds
  cases status with
  | accepted => cases hst
  | dropped filtered =>
    cases hst
    trivial
  | finalized height included =>
    cases hst
    obtain ⟨hperm, -, t, ht, -, hattained⟩ := h height rfl
    refine ⟨fun t ht => hheld height rfl t ht ?_, t, ht, hattained⟩
    simp only [BatchStatus.filtered, List.append_nil] at hperm
    exact hperm.mem_iff.2 (List.mem_map_of_mem ht)
  | partiallyFinalized height included filtered =>
    cases hst
    obtain ⟨hperm, -, hattained⟩ := h height rfl
    exact ⟨hperm, hheld height rfl, hattained⟩

variable [DecidableEq D] {cfg : Config C D} {ms : List (Message C D)} {s : Witnessed C D}

theorem World.Reaches.measured (h : world.Reaches cfg ms s) : ∀ m ∈ ms, m.Measured := by
  intro m hm
  have harrives := h.arrives m hm
  cases m with
  | submit batch =>
    obtain ⟨app, rng, body, verified, result, ingestResult, -, hverify, rfl⟩ := harrives
    exact submissionOf_measured hverify result ingestResult
  | _ => trivial

theorem World.Reaches.answering (h : world.Reaches cfg ms s) : Answering cfg s :=
  (Answering.start cfg).trace h.measured h.trace

theorem World.Reaches.snoc (h : world.Reaches cfg ms s) {m : Message C D} (hm : world.Arrives m) (order : HashOrder) :
    world.Reaches cfg (ms ++ [m]) ⟨(s.actor.handle cfg order m).1, s.seen.after m⟩ where
  env := h.env
  display := h.display
  arrives := List.forall_mem_append.2 ⟨h.arrives, List.forall_mem_singleton.2 hm⟩
  trace := h.trace.append (.cons ⟨order, rfl⟩ (.nil _))

/-- A sound status of the batch of a body speaks of what the body decodes to. -/
theorem World.Reaches.attests (h : world.Reaches cfg ms s) {body : Bytes} (hbody : body ∈ world.bodies)
    {ts : List (SignedTransaction D)}
    (hts : ∀ maxTransactions us, Reader.decode (readTransactions E maxTransactions) body = .ok us → us = ts)
    {status : BatchStatus} (hsound : s.seen.Sound cfg (display (E.hasher.hash body)) status) : Attests world ts status := by
  intro height hheight
  obtain ⟨batch, hbatch, hid, included, filtered, recorded, hs⟩ := hsound height hheight
  obtain ⟨hsubmissions, hblocks⟩ := seen_trace h.trace
  have hmessage := (hsubmissions batch hbatch).resolve_left nofun
  obtain ⟨app, rng, body', verified, result, ingestResult, hbody', hverify, rfl⟩ := h.arrives _ hmessage
  -- the same id, so the same body
  obtain rfl := world.distinct hbody' hbody hid
  obtain ⟨⟨maxTransactions, -, hdecode⟩, hdigests, -⟩ := verifyBody_ok hverify
  obtain rfl := hts _ _ hdecode
  have hshown : ∀ l : List D, l.map cfg.display = l.map display := fun l => by rw [h.display]
  have hholds : ∀ d ∈ included, world.Holds d (recorded d) := by
    intro d hd
    obtain ⟨block, hblock, hheight, hmem⟩ := hs.held d hd
    obtain ⟨ack, hreport⟩ := (hblocks block hblock).resolve_left nofun
    refine ⟨block, h.arrives _ hreport, hheight, ?_⟩
    rwa [h.env] at hmem
  have hmember : ∀ d ∈ included, ∃ t ∈ verified.transactions, t.messageDigest = d := by
    intro d hd
    have hd := hs.includedSublist.subset hd
    rw [show (submissionOf E display body' verified result ingestResult).digests = verified.digests from rfl, hdigests] at hd
    exact List.mem_map.1 hd
  rw [hs.includedShown, hs.filteredShown, hshown, hshown]
  refine ⟨?_, ?_, ?_⟩
  · have hperm := hs.whole.map display
    rw [show (submissionOf E display body' verified result ingestResult).digests = verified.digests from rfl, hdigests,
      List.map_append, List.map_map] at hperm
    exact hperm
  · intro shown hmem
    obtain ⟨d, hd, rfl⟩ := List.mem_map.1 hmem
    obtain ⟨t, ht, rfl⟩ := hmember d hd
    exact ⟨t, ht, rfl, _, UInt64.le_iff_toNat_le.2 (hs.largest _ hd), hholds _ hd⟩
  · obtain ⟨d, hd, hattained⟩ := hs.attained
    obtain ⟨t, ht, rfl⟩ := hmember d hd
    exact ⟨t, ht, List.mem_map_of_mem hd, hattained ▸ hholds _ hd⟩

end Attests

/-! ## What the relayer asks -/

theorem nextTwoLeaders_mem {leaders : List Leader} {view : UInt64} {leader : Leader}
    (h : leader ∈ nextTwoLeaders leaders view) : leader ∈ leaders := by
  unfold nextTwoLeaders at h
  split at h
  · cases h
  simp only at h
  split at h
  · simp only [List.mem_singleton] at h
    exact h ▸ List.get_mem ..
  · simp only [List.mem_cons, List.not_mem_nil, or_false] at h
    rcases h with rfl | rfl
    · exact List.get_mem ..
    · exact List.get_mem ..

/-- The status was fetched from a leader that was asked about the body of one of the rounds. -/
def Asked (state : AppState D) (rounds : List Round) (status : BatchStatus) : Prop :=
  ∃ leader ∈ state.leaders, ∃ asked ∈ rounds, ∃ retry position,
    fetchStatusFromLeader state.http retry position leader (batchId state.env state.display asked.body) = some status

/-- Each attempt was made at a leader, with the body of one of the rounds. -/
def Attempted (state : AppState D) (rounds : List Round) (attempts : List (String × Leader)) : Prop :=
  ∀ attempt ∈ attempts, attempt.2 ∈ state.leaders ∧ ∃ asked ∈ rounds, attempt.1 = batchId state.env state.display asked.body

section Asked

variable {state : AppState D} {batch : DecodedBatch D} {past : List Round} {p : Progress}

theorem Attempted.asked {rounds : List Round} {attempts : List (String × Leader)} (h : Attempted state rounds attempts)
    {retry : Nat} : ∀ status ∈ fetchStatuses state.http retry attempts, Asked state rounds status := by
  intro status hstatus
  obtain ⟨⟨⟨id, leader⟩, position⟩, hmem, hfetch⟩ := List.mem_filterMap.1 hstatus
  obtain ⟨hleader, asked, hasked, hid⟩ := h (id, leader) (List.fst_mem_of_mem_zipIdx hmem)
  exact ⟨leader, hleader, asked, hasked, retry, position, hid ▸ hfetch⟩

variable (batch) in
theorem attemptRound_asks (h : Attempted state past p.attempts) (remaining : Nat) :
    (∀ status ∈ (attemptRound state batch remaining p).1.fetched,
      Asked state (past ++ [(attemptRound state batch remaining p).1]) status) ∧
    ∀ p', (attemptRound state batch remaining p).2 = .again p' →
      Attempted state (past ++ [(attemptRound state batch remaining p).1]) p'.attempts := by
  have hattempted : ∀ {round : Round}, round.body = encodePending state.env state.display batch p.pending →
      Attempted state (past ++ [round]) (p.attempts ++ (nextTwoLeaders state.leaders p.view).map fun target =>
        (batchId state.env state.display (encodePending state.env state.display batch p.pending), target)) := by
    intro round hbody attempt hattempt
    rcases List.mem_append.1 hattempt with hold | hnew
    · obtain ⟨hleader, asked, hasked, hid⟩ := h attempt hold
      exact ⟨hleader, asked, List.mem_append_left _ hasked, hid⟩
    · obtain ⟨target, htarget, rfl⟩ := List.mem_map.1 hnew
      exact ⟨nextTwoLeaders_mem htarget, round, List.mem_append_right _ (List.mem_singleton_self _), by rw [hbody]⟩
  unfold attemptRound
  simp only
  split
  · exact ⟨List.forall_mem_nil _, nofun⟩
  · refine ⟨(hattempted rfl).asked, fun p' hp' => ?_⟩
    split at hp'
    · cases hp'
    split at hp'
    · split at hp'
      · cases hp'
      · cases hp'
    split at hp'
    · cases hp'
    · cases hp'
      exact hattempted rfl

/-- Every status that a round fetches is about what one of the rounds sent. -/
theorem retryLoop_asks (remaining : Nat) : ∀ {past : List Round} {p : Progress}, Attempted state past p.attempts →
    ∀ round ∈ (retryLoop state batch remaining p).2, ∀ status ∈ round.fetched,
      Asked state (past ++ (retryLoop state batch remaining p).2) status := by
  induction remaining with
  | zero =>
    intro past p _ round hround
    cases hround
  | succ remaining ih =>
    intro past p h
    obtain ⟨hfetched, hagain⟩ := attemptRound_asks batch h remaining
    rw [retryLoop]
    split
    · rename_i round response hround
      rw [hround] at hfetched
      exact List.forall_mem_singleton.2 hfetched
    · rename_i round hround
      rw [hround] at hfetched
      exact List.forall_mem_singleton.2 hfetched
    · rename_i round p' hround
      rw [hround] at hfetched hagain
      have hrest := ih (hagain p' rfl)
      refine List.forall_mem_cons.2 ⟨fun status hstatus => ?_, fun later hlater => ?_⟩
      · obtain ⟨leader, hleader, asked, hasked, hfetch⟩ := hfetched status hstatus
        refine ⟨leader, hleader, asked, ?_, hfetch⟩
        rw [List.append_cons]
        exact List.mem_append_left _ hasked
      · rw [List.append_cons]
        exact hrest later hlater

/-- A whole submission: each round sends a part of the batch that is not empty, each status it fetches is about
such a part, and if the statuses are confined to the batch, the answer is what they report. -/
theorem submitWithRetries_spec (hc : batch.Carries state) :
    (∀ round ∈ (submitWithRetries state batch).2,
      (∃ ts, ts.Sublist batch.transactions ∧ ts ≠ [] ∧ round.body = encodeTransactions state.env ts) ∧
      ∀ status ∈ round.fetched, Asked state (submitWithRetries state batch).2 status) ∧
    (Confined batch (submitWithRetries state batch).2 → ∀ response status, (submitWithRetries state batch).1 = some response →
      response.status = some status → Supported batch (submitWithRetries state batch).2 status) := by
  unfold submitWithRetries
  split
  · refine ⟨List.forall_mem_nil _, ?_⟩
    intro _ response status hresponse hstatus
    cases hresponse
    cases hstatus
  · have hf := Follows.start hc
    obtain ⟨hforwarded, hsupported⟩ := retryLoop_sound hc (state.maxRetryViews.toNat + 1) hf
    refine ⟨fun round hround => ⟨?_, ?_⟩, hsupported⟩
    · obtain ⟨before, after, hsplit⟩ := List.append_of_mem hround
      obtain ⟨hbody, hne⟩ := hforwarded before round after hsplit
      exact ⟨_, List.filter_sublist, hne, hbody⟩
    · refine @retryLoop_asks D state batch _ [] _ ?_ round hround
      exact List.forall_mem_nil _

end Asked

/-! ## Answers to clients -/

section Answers

variable [DecidableEq D] {state : AppState D} {json : Json} {world : World state.env state.display C} {bound : Nat}

/-- A fetched status speaks of a part of the batch. -/
theorem Serves.attests (hserves : Serves state json world) (hu : state.env.usize.RoundTrips (· ≤ bound))
    {batch : DecodedBatch D} (hdecodable : ∀ t ∈ batch.transactions, t.Decodable state.env)
    (hlength : batch.transactions.length ≤ bound) {rounds : List Round} (hbodies : ∀ round ∈ rounds, round.body ∈ world.bodies)
    (hparts : ∀ round ∈ rounds, ∃ ts, ts.Sublist batch.transactions ∧ round.body = encodeTransactions state.env ts)
    {status : BatchStatus} (h : Asked state rounds status) :
    ∃ ts, ts.Sublist batch.transactions ∧ Attests world ts status := by
  obtain ⟨leader, hleader, asked, hasked, retry, position, hfetch⟩ := h
  obtain ⟨ts, hsublist, hbody⟩ := hparts asked hasked
  refine ⟨ts, hsublist, ?_⟩
  unfold fetchStatusFromLeader at hfetch
  split at hfetch
  · cases hfetch
  rename_i response hresponse
  split at hfetch
  · cases hfetch
  rename_i hok
  obtain ⟨text, htext, hparse⟩ := Option.bind_eq_some_iff.1 hfetch
  obtain ⟨cfg, ms, s, hreaches, hcode, hshown⟩ := hserves.status retry position leader hleader _ response hresponse
  -- the leader had a status, and sent it
  rw [hcode] at hok
  have htext := hshown text htext
  unfold fetchStatus at hok htext
  split at hok
  · exact absurd (by decide) hok
  rename_i stored hstored
  rw [hstored] at htext
  rw [htext, hserves.parsed] at hparse
  cases hparse
  refine hreaches.attests (hbodies asked hasked) ?_ (hreaches.answering.sourced.statuses _ _ hstored)
  intro maxTransactions us hus
  have hdecode := decode_encodeTransactions hu (fun t ht => hdecodable t (hsublist.subset ht))
    (hsublist.length_le.trans hlength) maxTransactions
  rw [hbody, hdecode] at hus
  split at hus
  · cases hus
  · exact (Except.ok.inj hus).symm

theorem inclusionHeight_of_mem {status : BatchStatus} {shown : String} (h : shown ∈ status.included) :
    ∃ height, status.inclusionHeight = some height := by
  cases status with
  | accepted => cases h
  | dropped => cases h
  | finalized height _ => exact ⟨height, rfl⟩
  | partiallyFinalized height _ _ => exact ⟨height, rfl⟩

theorem mem_reportedHeights {rounds : List Round} {round : Round} (hround : round ∈ rounds) {status : BatchStatus}
    (hstatus : status ∈ round.fetched) {height : UInt64} (hheight : status.inclusionHeight = some height) :
    height ∈ reportedHeights rounds :=
  List.mem_filterMap.2 ⟨status, List.mem_flatMap.2 ⟨round, hround, hstatus⟩, hheight⟩

omit [DecidableEq D] in
/-- An answer that what was reported supports, when every status speaks of a part of the batch. -/
theorem Supported.settled {batch : DecodedBatch D} (hc : batch.Carries state) {rounds : List Round} {status : TxStatus}
    (h : Supported batch rounds status) (hdisplay : Function.Injective state.display)
    (hattests : ∀ round ∈ rounds, ∀ status ∈ round.fetched, ∃ ts, ts.Sublist batch.transactions ∧ Attests world ts status) :
    Settled world batch.transactions status := by
  have hheld : ∀ {height : UInt64}, (reportedHeights rounds).max? = some height → ∀ t ∈ batch.transactions,
      Reported rounds (state.display t.messageDigest) → ∃ k ≤ height, world.Holds t.messageDigest k := by
    rintro height hmax t - ⟨round, hround, status, hstatus, hlisted⟩
    obtain ⟨ts, -, hattest⟩ := hattests round hround status hstatus
    obtain ⟨listed, hheight⟩ := inclusionHeight_of_mem hlisted
    obtain ⟨u, -, hu, k, hk, hholds⟩ := (hattest listed hheight).2.1 _ hlisted
    have hle := (List.max?_eq_some_iff.1 hmax).2 listed (mem_reportedHeights hround hstatus hheight)
    exact ⟨k, UInt64.le_trans hk hle, hdisplay hu ▸ hholds⟩
  have hattained : ∀ {height : UInt64}, (reportedHeights rounds).max? = some height →
      ∃ t ∈ batch.transactions, Reported rounds (state.display t.messageDigest) ∧ world.Holds t.messageDigest height := by
    intro height hmax
    obtain ⟨status, hmem, hheight⟩ := List.mem_filterMap.1 (List.max?_mem hmax)
    obtain ⟨round, hround, hstatus⟩ := List.mem_flatMap.1 hmem
    obtain ⟨ts, hsublist, hattest⟩ := hattests round hround status hstatus
    obtain ⟨-, -, t, ht, hlisted, hholds⟩ := hattest height hheight
    exact ⟨t, hsublist.subset ht, ⟨round, hround, status, hstatus, hlisted⟩, hholds⟩
  have hmem : ∀ t ∈ batch.transactions, state.display t.messageDigest ∈ batch.digests := by
    intro t ht
    rw [hc.digests]
    exact List.mem_map_of_mem ht
  cases status with
  | dropped => trivial
  | finalized height =>
    obtain ⟨hall, hmax⟩ := h
    obtain ⟨t, ht, -, hholds⟩ := hattained hmax
    exact ⟨fun t ht => hheld hmax t ht (hall _ (hmem t ht)), t, ht, hholds⟩
  | partiallyFinalized height included filtered =>
    obtain ⟨rfl, rfl, -, -, hmax⟩ := h
    refine ⟨?_, ?_, ?_⟩
    · rw [← hc.digests]
      simp only [decide_not]
      exact List.filter_append_perm _ _
    · intro t ht hlisted
      exact hheld hmax t ht (of_decide_eq_true (List.mem_filter.1 hlisted).2)
    · obtain ⟨t, ht, hreported, hholds⟩ := hattained hmax
      exact ⟨t, ht, List.mem_filter.2 ⟨hmem t ht, decide_eq_true hreported⟩, hholds⟩

omit [DecidableEq D] in
theorem decodeBatch_decode {body : Bytes} {batch : DecodedBatch D}
    (h : decodeBatch state.env state.display body state.maxBatchBytes = .ok batch) :
    (∃ maxTransactions, Reader.decode (readTransactions state.env maxTransactions) body = .ok batch.transactions) ∧
      (batch.transactions.map SignedTransaction.encodeSize).sum ≤ state.maxBatchBytes := by
  unfold decodeBatch at h
  split at h
  · cases h
  split at h
  · cases h
  split at h
  · cases h
  rename_i transactions hdecode
  simp only at h
  split at h
  · cases h
  rename_i hbytes
  cases h
  exact ⟨⟨_, hdecode⟩, Nat.not_lt.1 hbytes⟩

/-- An answer merged from the leaders' statuses. -/
theorem Serves.retried_settled (hserves : Serves state json world) (hu : state.env.usize.RoundTrips (· ≤ bound))
    (hdisplay : Function.Injective state.display) {body : Bytes} {batch : DecodedBatch D}
    (hbatch : decodeBatch state.env state.display body state.maxBatchBytes = .ok batch)
    (hbodies : ∀ round ∈ (submitWithRetries state batch).2, round.body ∈ world.bodies) {response : Response}
    {status : TxStatus} (hresponse : (submitWithRetries state batch).1 = some response)
    (hstatus : response.status = some status) : Settled world batch.transactions status := by
  have hc := decodeBatch_carries hbatch
  obtain ⟨⟨maxTransactions, hdecode⟩, -⟩ := decodeBatch_decode hbatch
  obtain ⟨hrounds, hsupported⟩ := submitWithRetries_spec hc
  have hattests : ∀ round ∈ (submitWithRetries state batch).2, ∀ status ∈ round.fetched,
      ∃ ts, ts.Sublist batch.transactions ∧ Attests world ts status := by
    intro round hround status hfetched
    refine hserves.attests hu (decodable_of_decode hdecode) (length_le_of_decode hu hdecode) hbodies (fun round hround => ?_)
      ((hrounds round hround).2 status hfetched)
    obtain ⟨ts, hsublist, -, hbody⟩ := (hrounds round hround).1
    exact ⟨ts, hsublist, hbody⟩
  have hconfined : Confined batch (submitWithRetries state batch).2 := by
    intro round hround status hfetched digest hlisted
    obtain ⟨ts, hsublist, hattest⟩ := hattests round hround status hfetched
    obtain ⟨height, hheight⟩ := inclusionHeight_of_mem hlisted
    obtain ⟨t, ht, rfl, -⟩ := (hattest height hheight).2.1 digest hlisted
    rw [hc.digests]
    exact List.mem_map_of_mem (hsublist.subset ht)
  exact (hsupported hconfined response status hresponse hstatus).settled hc hdisplay hattests

omit [DecidableEq D] in
/-- An answer of a named leader is the answer to one of the requests. -/
theorem submitBlockingToLeader_ok {http : Http} {leader : Leader} {body text : Bytes} (htext : text ≠ []) :
    ∀ {remaining : Nat}, submitBlockingToLeader http leader body remaining = (.ok, text) →
      ∃ attempt response, http.post attempt 0 (leader.url ++ "/transactions") body = some response ∧
        response.status = .ok ∧ response.body = some text
  | 0, h => by cases h
  | remaining + 1, h => by
    unfold submitBlockingToLeader at h
    split at h
    · rename_i response hpost
      split at h
      · exact submitBlockingToLeader_ok htext h
      · obtain ⟨hstatus, hbody⟩ := Prod.mk.inj h
        refine ⟨_, response, hpost, hstatus, ?_⟩
        cases hsome : response.body with
        | none =>
          rw [hsome] at hbody
          exact absurd hbody.symm htext
        | some sent =>
          rw [hsome] at hbody
          exact congrArg some hbody
    · split at h
      · exact submitBlockingToLeader_ok htext h
      · cases h

/-- What is sent to one who waits for the batch of a body. -/
theorem World.Answers.settled {body : Bytes} (hbody : body ∈ world.bodies) {status : TxStatus} (h : world.Answers body status)
    (hdisplay : Function.Injective state.display) {ts : List (SignedTransaction D)} {maxTransactions : Nat}
    (hts : Reader.decode (readTransactions state.env maxTransactions) body = .ok ts) : Settled world ts status := by
  obtain ⟨cfg, ms, s, m, order, id, channel, hreaches, harrives, hresult, hmine⟩ := h
  have hafter := hreaches.snoc harrives order
  have hmeasured : m.Measured := hafter.measured m (List.mem_append_right _ (List.mem_singleton_self _))
  obtain ⟨⟨batch, hbatch, rfl, hchannel⟩, hbacks⟩ := (hreaches.answering.handle hmeasured order).2 id channel status hresult
  have hid := hmine batch (((seen_trace hafter.trace).1 batch hbatch).resolve_left nofun) hchannel
  rcases hbacks with rfl | ⟨stored, hst, hsound⟩
  · trivial
  · rw [hid] at hsound
    exact (hafter.attests hbody (fun n us hus => decode_unique hts hus) hsound).settled hdisplay hst

/-- An answer passed on from a leader. -/
theorem Serves.pinned_settled (hserves : Serves state json world) (hdisplay : Function.Injective state.display)
    {body : Bytes} (hbody : body ∈ world.bodies) {target : String} {status : TxStatus}
    (h : submitToPinnedLeader state body target = (.ok, json.txStatus status)) :
    ∃ maxTransactions ts, Reader.decode (readTransactions state.env maxTransactions) body = .ok ts ∧
      Settled world ts status := by
  unfold submitToPinnedLeader at h
  split at h
  · cases h
  rename_i leader hleader
  obtain ⟨attempt, response, hpost, hok, htext⟩ := submitBlockingToLeader_ok (json.nonempty status) h
  obtain ⟨app, rng, wait, ⟨hcode, hshown⟩, hanswers⟩ :=
    hserves.result attempt leader (List.mem_of_find?_eq_some hleader) body response hpost
  rw [hok] at hcode
  replace hshown := hshown _ htext
  unfold submitBatch at hcode hshown
  split at hcode
  · rename_i refused _
    cases refused
    · cases hcode
    · cases hcode
  rename_i verified hverified
  rw [hverified] at hshown
  obtain ⟨⟨maxTransactions, -, hdecode⟩, -, -⟩ := verifyBody_ok hverified
  refine ⟨maxTransactions, verified.transactions, hdecode, ?_⟩
  cases wait with
  | full => cases hcode
  | closed => cases hcode
  | answered sent =>
    obtain rfl := json.injective hshown
    exact (hanswers status rfl).settled hbody hdisplay hdecode

variable (state) in
/-- The bodies that the relayer may send for a request. -/
def sentBodies (body : Bytes) : List Bytes :=
  match decodeBatch state.env state.display body state.maxBatchBytes with
  | .error _ => [body]
  | .ok batch => body :: (submitWithRetries state batch).2.map Round.body

/-- Whatever headers a request has, whatever views come and whatever the leaders have stored: when the relayer
answers with a status, the body of the request decodes, and what the status counts as included is in finalized
blocks at or below its height. -/
theorem submitted_answers_sound (hserves : Serves state json world) (hu : state.env.usize.RoundTrips (· ≤ bound))
    (hdisplay : Function.Injective state.display) {headers : Headers} {body : Bytes}
    (hbodies : ∀ sent ∈ sentBodies state body, sent ∈ world.bodies) {status : TxStatus}
    (h : submitTransactions state json headers body = some (.ok, json.txStatus status)) :
    ∃ maxTransactions ts, Reader.decode (readTransactions state.env maxTransactions) body = .ok ts ∧
      Settled world ts status := by
  have hbody : body ∈ world.bodies := by
    apply hbodies
    unfold sentBodies
    split
    · exact List.mem_singleton_self _
    · exact List.mem_cons_self ..
  unfold submitTransactions at h
  split at h
  · split at h
    · cases h
    split at h
    · cases h
    · exact hserves.pinned_settled hdisplay hbody (Option.some.inj h)
  · split at h
    · exact absurd (congrArg Prod.snd (Option.some.inj h)).symm (json.nonempty status)
    rename_i batch hbatch
    obtain ⟨response, hresponse, htext⟩ := Option.map_eq_some_iff.1 h
    have htext : response.status.elim [] json.txStatus = json.txStatus status := congrArg Prod.snd htext
    cases hstatus : response.status with
    | none =>
      rw [hstatus] at htext
      exact absurd htext.symm (json.nonempty status)
    | some answered =>
      rw [hstatus] at htext
      obtain rfl := json.injective htext
      obtain ⟨⟨maxTransactions, hdecode⟩, -⟩ := decodeBatch_decode hbatch
      refine ⟨maxTransactions, batch.transactions, hdecode, ?_⟩
      refine hserves.retried_settled hu hdisplay hbatch (fun round hround => hbodies _ ?_) hresponse hstatus
      unfold sentBodies
      rw [hbatch]
      exact List.mem_cons_of_mem _ (List.mem_map_of_mem hround)

end Answers

/-! ## A small instance -/

theorem countable_string : Countable String := by
  have hchar : Countable Char := Function.Injective.countable (f := Char.toNat) fun _ _ => Char.toNat_inj.1
  exact Function.Injective.countable (f := String.toList) fun _ _ => String.toList_inj.1

theorem countable_word : Countable UInt64 := Function.Injective.countable (f := UInt64.toNat) fun _ _ => UInt64.toNat_inj.1

theorem countable_txStatus : Countable TxStatus := by
  have hstring := countable_string
  have hword := countable_word
  refine Function.Injective.countable (f := fun status : TxStatus => match status with
    | .finalized height => some (height, none)
    | .partiallyFinalized height included filtered => some (height, some (included, filtered))
    | .dropped => none) ?_
  intro a b h
  cases a <;> cases b <;> simp_all

theorem countable_batchStatus : Countable BatchStatus := by
  have hstring := countable_string
  have hword := countable_word
  refine Function.Injective.countable (f := fun status : BatchStatus => match status with
    | .dropped filtered => ((none : Option UInt64), filtered, some ([] : List String))
    | .accepted digests => (none, digests, none)
    | .finalized height included => (some height, included, none)
    | .partiallyFinalized height included filtered => (some height, included, some filtered)) ?_
  intro a b h
  cases a <;> cases b <;> simp_all

/-- Texts that tell countably many values apart. -/
theorem exists_texts (α : Type) (hα : Countable α) : ∃ text : α → Bytes, Function.Injective text ∧ ∀ a, text a ≠ [] := by
  obtain ⟨number, hnumber⟩ := hα.exists_injective_nat
  refine ⟨fun a => List.replicate (number a + 1) 0, fun a b h => hnumber ?_, fun a => by simp⟩
  simpa using congrArg List.length h

theorem exists_json : ∃ json : Json, Function.Injective json.batchStatus := by
  obtain ⟨tx, htx, hne⟩ := exists_texts TxStatus countable_txStatus
  obtain ⟨batch, hbatch, -⟩ := exists_texts BatchStatus countable_batchStatus
  exact ⟨⟨tx, batch, htx, hne⟩, hbatch⟩

theorem countingEnv_usize : countingApplication.env.usize.RoundTrips (· ≤ 255) where
  reads n hn rest := by
    have hword : (UInt8.ofNat n).toNat = n := by
      rw [UInt8.toNat_ofNat']
      omega
    show (Reader.u8 >>= fun n => pure n.toNat) (UInt8.ofNat n :: rest) = _
    rw [Reader.bind_eq (Reader.u8_cons _ _), hword]
    rfl
  inverts bs n rest h := by
    obtain ⟨word, mid, hword, h⟩ := Reader.bind_ok h
    obtain ⟨rfl, rfl⟩ := Reader.pure_ok h
    rw [Reader.u8_inverts _ _ _ hword]
    rfl
  valid bs n rest h := by
    obtain ⟨word, mid, hword, h⟩ := Reader.bind_ok h
    obtain ⟨rfl, rfl⟩ := Reader.pure_ok h
    exact Nat.le_of_lt_succ word.toNat_lt

/-- A body with one transaction. -/
def postedBody : Bytes := 1 :: postedTransaction.write

/-- The chain whose one block holds the transaction, and no other body. -/
def postedWorld : World countingApplication.env tallyConfig.display Unit where
  chain := [sampleChild]
  bodies := {postedBody}
  distinct := Set.injOn_singleton _ _

/-- A relayer with one leader, which answers a blocking submission of the body. -/
def postedRelayer (json : Json) (parse : Bytes → Option BatchStatus) : AppState Nat where
  env := countingApplication.env
  display := tallyConfig.display
  leaders := [⟨"aa", "http://aa"⟩]
  maxRetryViews := 0
  maxBatchBytes := 1000
  viewClock := ⟨0, [], false⟩
  http :=
    { post := fun _ _ _ body => if body = postedBody then some ⟨.ok, some (json.txStatus (.finalized 1))⟩ else none
      get := fun _ _ _ => none
      ingestResponse := fun _ => none
      batchStatus := parse }

def postedBatch : VerifiedBatch Nat := ⟨[postedTransaction], [82], 147⟩

def postedApp : Mempool.AppState := ⟨[], 1000, .sequential, .sequential⟩

set_option maxRecDepth 20000 in
theorem verifyBody_postedBody : verifyBody countingApplication.env postedApp 0 postedBody = .ok postedBatch := rfl

def postedMessage : Message Unit Nat :=
  .submit (submissionOf countingApplication.env tallyConfig.display postedBody postedBatch (some 7) none)

theorem arrives_postedMessage : postedWorld.Arrives postedMessage :=
  ⟨postedApp, 0, postedBody, postedBatch, some 7, none, rfl, verifyBody_postedBody, rfl⟩

/-- The body is submitted and its transaction proposed. -/
def postedState : Witnessed Unit Nat :=
  ⟨((Actor.new.handle tallyConfig .insertion postedMessage).1.handle tallyConfig .insertion (.propose 1 9 : Message Unit Nat)).1,
    ((⟨[], []⟩ : Seen Unit Nat).after postedMessage).after (.propose 1 9)⟩

set_option maxRecDepth 20000 in
theorem answers_postedBody : postedWorld.Answers postedBody (.finalized 1) := by
  refine ⟨tallyConfig, [postedMessage, .propose 1 9], postedState, .reportBlock sampleChild 3, .insertion,
    tallyConfig.display (countingApplication.env.hasher.hash postedBody), 7, ⟨rfl, rfl, ?_, ?_⟩, List.mem_singleton_self _, ?_, ?_⟩
  · exact List.forall_mem_cons.2 ⟨arrives_postedMessage, List.forall_mem_singleton.2 trivial⟩
  · exact .cons ⟨.insertion, rfl⟩ (.cons ⟨.insertion, rfl⟩ (.nil _))
  · decide
  · intro batch hbatch _
    simp only [postedMessage, List.cons_append, List.nil_append, List.mem_cons, List.not_mem_nil, or_false, reduceCtorEq,
      Message.submit.injEq] at hbatch
    rw [hbatch]
    rfl

theorem serves_postedRelayer (json : Json) (h : Function.Injective json.batchStatus) :
    Serves (postedRelayer json (Function.partialInv json.batchStatus)) json postedWorld where
  parsed status := Function.partialInv_left h status
  status _ _ _ _ _ _ hget := by cases hget
  result attempt leader hleader body response hpost := by
    replace hpost : (if body = postedBody then some (HttpResponse.mk .ok (some (json.txStatus (.finalized 1)))) else none) =
      some response := hpost
    split at hpost
    · rename_i hbody
      subst hbody
      cases hpost
      refine ⟨postedApp, 0, .answered (.finalized 1), ?_, ?_⟩
      · have hverified : verifyBody (postedRelayer json (Function.partialInv json.batchStatus)).env postedApp 0 postedBody =
          .ok postedBatch := verifyBody_postedBody
        unfold submitBatch
        rw [hverified]
        exact ⟨rfl, fun text htext => (Option.some.inj htext).symm⟩
      · rintro status ⟨⟩
        exact answers_postedBody
    · cases hpost

set_option maxRecDepth 20000 in
theorem submitted_answers_sound_sample : ∃ (json : Json) (parse : Bytes → Option BatchStatus),
    submitTransactions (postedRelayer json parse) json ⟨some "AA", some "1"⟩ postedBody =
      some (.ok, json.txStatus (.finalized 1)) ∧
    ∃ maxTransactions ts, Reader.decode (readTransactions countingApplication.env maxTransactions) postedBody = .ok ts ∧
      Settled postedWorld ts (.finalized 1) := by
  obtain ⟨json, hjson⟩ := exists_json
  have hanswer : submitTransactions (postedRelayer json (Function.partialInv json.batchStatus)) json ⟨some "AA", some "1"⟩
      postedBody = some (.ok, json.txStatus (.finalized 1)) := by
    unfold submitTransactions
    rw [show requestedTargetLeader ⟨some "AA", some "1"⟩ = some "aa" by decide]
    rfl
  have hbodies : ∀ sent ∈ sentBodies (postedRelayer json (Function.partialInv json.batchStatus)) postedBody,
      sent ∈ postedWorld.bodies := by
    intro sent hmem
    unfold sentBodies at hmem
    split at hmem
    · exact List.mem_singleton.1 hmem
    rename_i batch hbatch
    rcases List.mem_cons.1 hmem with rfl | hmem
    · exact rfl
    -- what a round sends is a part of the body that is not empty, so it is all of it
    obtain ⟨round, hround, rfl⟩ := List.mem_map.1 hmem
    obtain ⟨ts, hsublist, hne, hbody⟩ := ((submitWithRetries_spec (decodeBatch_carries hbatch)).1 round hround).1
    cases hbatch
    rw [hbody, (List.sublist_singleton.1 hsublist).resolve_left hne]
    rfl
  exact ⟨json, _, hanswer, submitted_answers_sound (serves_postedRelayer json hjson) countingEnv_usize tallyConfig_display
    hbodies hanswer⟩

end Constantinople.Relayer
