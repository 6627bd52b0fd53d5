/-
Frontiers of a finalized chain: the writer positions after each of its blocks. At its frontier a block
is built into a queue entry that ends at the next one, past it every iteration is retried unchanged,
and recovery from cursors that are frontiers is a frontier.
-/
import Constantinople.Indexer.Log
import Constantinople.Validator.Producer

namespace Constantinople

variable {C D : Type}

/-- What stands in a list with a new last entry stood there before, or is the new one. -/
theorem getElem?_concat_some {α : Type} {l : List α} {a b : α} {i : Nat} (h : (l ++ [a])[i]? = some b) :
    l[i]? = some b ∨ (i = l.length ∧ b = a) := by
  rw [List.getElem?_append] at h
  split at h
  · exact .inl h
  · rw [List.getElem?_singleton] at h
    split at h
    · cases h
      exact .inr ⟨by omega, rfl⟩
    · cases h

/-! ## Finalized chains -/

/-- The writer positions after the first `k` blocks of a chain. -/
def endsAt (chain : List (SealedBlock C D)) : Nat → FinalizedUploadCursor
  | 0 => ⟨0, 0⟩
  | k + 1 =>
    match chain[k]? with
    | none => ⟨0, 0⟩
    | some block => ⟨block.inner.header.stateRange.stop, block.inner.header.transactionsRange.stop⟩

/-- Blocks 1, 2, … of a chain: each state range ends after the one before, and each transaction range
ends where the operations of its block end. -/
structure Consecutive (chain : List (SealedBlock C D)) : Prop where
  height : ∀ k block, chain[k]? = some block → block.inner.header.height.toNat = k + 1
  state : ∀ k block, chain[k]? = some block → (endsAt chain k).stateNext < block.inner.header.stateRange.stop
  transactions : ∀ k block, chain[k]? = some block → block.inner.header.transactionsRange.stop.toNat =
    (endsAt chain k).transactionNext.toNat + opCount (endsAt chain k).transactionNext block.inner

theorem endsAt_succ {chain : List (SealedBlock C D)} {k : Nat} {block : SealedBlock C D} (h : chain[k]? = some block) :
    endsAt chain (k + 1) = ⟨block.inner.header.stateRange.stop, block.inner.header.transactionsRange.stop⟩ := by
  rw [endsAt, h]

/-- A chain linked from a genesis block with one operation is consecutive, once its heights and state
ranges are. -/
theorem consecutive_of_links {genesis : Block C D} {chain : List (SealedBlock C D)}
    (hgenesis : genesis.header.transactionsRange.stop = 1)
    (hlinks : (genesis :: chain.map fun block => block.inner).IsChain RangeLink)
    (hheight : ∀ k block, chain[k]? = some block → block.inner.header.height.toNat = k + 1)
    (hstate : ∀ k block, chain[k]? = some block → (endsAt chain k).stateNext < block.inner.header.stateRange.stop) :
    Consecutive chain := by
  refine ⟨hheight, hstate, ?_⟩
  rintro k block hblock
  obtain ⟨hk, rfl⟩ := List.getElem?_eq_some_iff.1 hblock
  have hlink := List.isChain_iff_getElem.1 hlinks k (by simpa using hk)
  have hstop := hlink.stop
  simp only [List.getElem_cons_succ, List.getElem_map] at hstop
  unfold opCount
  cases k with
  | zero =>
    -- the writer is still empty: the genesis operation is counted with the first block's
    simp only [List.getElem_cons_zero, hgenesis, UInt64.toNat_one] at hstop
    simp only [endsAt, UInt64.toNat_zero, ↓reduceIte]
    omega
  | succ j =>
    simp only [List.getElem_cons_succ, List.getElem_map] at hstop
    have hprev := (List.isChain_iff_getElem.1 hlinks j (by simp; omega)).nonempty
    simp only [List.getElem_cons_succ, List.getElem_map] at hprev
    rw [endsAt_succ (List.getElem?_eq_getElem (show j < chain.length by omega)), if_neg]
    · simp only; omega
    · intro h0
      simp only at h0
      rw [h0, UInt64.toNat_zero] at hprev
      omega

/-- The first state range ends after 0, and each one after the one before. -/
def StateEndsIncrease (chain : List (SealedBlock C D)) : Prop :=
  ∀ k block, chain[k]? = some block → (endsAt chain k).stateNext < block.inner.header.stateRange.stop

section Ends

variable {chain : List (SealedBlock C D)} (hstate : StateEndsIncrease chain)

include hstate

theorem endsAt_lt_succ {k : Nat} (hk : k < chain.length) :
    (endsAt chain k).stateNext < (endsAt chain (k + 1)).stateNext := by
  have hblock := List.getElem?_eq_getElem hk
  rw [endsAt_succ hblock]
  exact hstate k _ hblock

/-- Later frontiers have later state positions. -/
theorem endsAt_lt {j k : Nat} (hjk : j < k) (hk : k ≤ chain.length) :
    (endsAt chain j).stateNext < (endsAt chain k).stateNext := by
  induction hjk with
  | refl => exact endsAt_lt_succ hstate hk
  | step _ ih => exact UInt64.lt_trans (ih (by omega)) (endsAt_lt_succ hstate hk)

theorem endsAt_le {j k : Nat} (hjk : j ≤ k) (hk : k ≤ chain.length) :
    (endsAt chain j).stateNext ≤ (endsAt chain k).stateNext := by
  rcases hjk.eq_or_lt with rfl | hlt
  · exact UInt64.le_refl _
  · exact UInt64.le_of_lt (endsAt_lt hstate hlt hk)

theorem endsAt_ne_zero {k : Nat} (hk : 0 < k) (hlen : k ≤ chain.length) : (endsAt chain k).stateNext ≠ 0 :=
  fun h => absurd (h ▸ endsAt_lt hstate hk hlen) (by simp [endsAt])

/-- Frontiers of a chain are told apart by their state position. -/
theorem endsAt_inj {j k : Nat} (hj : j ≤ chain.length) (hk : k ≤ chain.length) (h : endsAt chain j = endsAt chain k) :
    j = k := by
  rcases Nat.lt_trichotomy j k with hlt | heq | hlt
  · exact absurd (congrArg FinalizedUploadCursor.stateNext h) (UInt64.ne_of_lt (endsAt_lt hstate hlt hk))
  · exact heq
  · exact absurd (congrArg FinalizedUploadCursor.stateNext h).symm (UInt64.ne_of_lt (endsAt_lt hstate hlt hj))

/-- The larger of two frontiers is the later one. -/
theorem max_endsAt {j k : Nat} (hj : j ≤ chain.length) (hk : k ≤ chain.length) :
    (endsAt chain k).max (endsAt chain j) = endsAt chain (max k j) := by
  unfold FinalizedUploadCursor.max
  rcases Nat.lt_trichotomy j k with hlt | rfl | hlt
  · have := endsAt_lt hstate hlt hk
    rw [Nat.max_eq_left hlt.le, if_neg]
    rintro (h | ⟨h, -⟩)
    · exact absurd h (UInt64.lt_asymm this)
    · exact absurd h (UInt64.ne_of_lt this)
  · rw [Nat.max_self, if_neg]
    rintro (h | ⟨-, h⟩)
    · exact UInt64.lt_irrefl _ h
    · exact UInt64.lt_irrefl _ h
  · rw [Nat.max_eq_right hlt.le, if_pos (.inl (endsAt_lt hstate hlt hj))]

end Ends

section Chain

variable {chain : List (SealedBlock C D)} (hchain : Consecutive chain)

include hchain

/-! ## One iteration at a frontier -/

/-- The transaction check of a block passes at the frontier before it. -/
theorem transactionUploadEnd_endsAt {k : Nat} {block : SealedBlock C D} (hblock : chain[k]? = some block) :
    transactionUploadEnd (endsAt chain k).transactionNext block.inner =
      .ok (.ok block.inner.header.transactionsRange.stop) := by
  have htx := hchain.transactions k block hblock
  obtain ⟨start, hstart, heq⟩ := transactionUploadEnd_eq (endsAt chain k).transactionNext block.inner (by omega)
  have hpast : ¬ ((endsAt chain k).transactionNext = 0 ∧ 1 < block.inner.header.height) := by
    rintro ⟨h0, hlt⟩
    have hlt := UInt64.lt_iff_toNat_lt.1 hlt
    rw [hchain.height k block hblock, UInt64.toNat_one] at hlt
    -- only the frontier of the empty chain is at position 0
    obtain ⟨j, rfl⟩ : ∃ j, k = j + 1 := ⟨k - 1, by omega⟩
    have hj : j < chain.length := by have := (List.getElem?_eq_some_iff.1 hblock).1; omega
    have hprev := List.getElem?_eq_getElem hj
    have htx' := hchain.transactions j _ hprev
    rw [endsAt_succ hprev] at h0
    simp only at h0
    rw [h0] at htx'
    unfold opCount at htx'
    simp only [UInt64.toNat_zero] at htx'
    omega
  rw [heq, if_neg hpast, if_neg (not_not.2 (UInt64.toNat_inj.1 (by omega)))]

/-- The state check passes as well. -/
theorem validateWriterRange_endsAt {k : Nat} {block : SealedBlock C D} (hblock : chain[k]? = some block) :
    validateWriterRange (endsAt chain k).stateNext block.inner.header.stateRange.stop block.inner.header.height = .ok () ∧
      ¬ ((endsAt chain k).stateNext = 0 ∧ 1 < block.inner.header.height) := by
  have hlen := (List.getElem?_eq_some_iff.1 hblock).1
  have hpast : ¬ ((endsAt chain k).stateNext = 0 ∧ 1 < block.inner.header.height) := by
    rintro ⟨h0, hlt⟩
    have hlt := UInt64.lt_iff_toNat_lt.1 hlt
    rw [hchain.height k block hblock, UInt64.toNat_one] at hlt
    exact endsAt_ne_zero hchain.state (by omega) (by omega) h0
  refine ⟨?_, hpast⟩
  unfold validateWriterRange
  rw [if_neg hpast, if_neg (UInt64.lt_asymm (hchain.state k block hblock))]

/-- At its frontier a block is built with the operations the database proves, or the iteration is
retried because the database does not prove them. -/
theorem enqueueIteration_endsAt {k : Nat} {block : SealedBlock C D} (hblock : chain[k]? = some block) (env : ProducerEnv) :
    enqueueIteration env block (endsAt chain k) =
      match env.historicalProof (endsAt chain k).stateNext block.inner.header.stateRange.stop with
      | none => .ok (.retry (endsAt chain k))
      | some delta => .ok (.built ⟨block, env.now, (endsAt chain k).stateNext, (endsAt chain k).transactionNext, delta⟩) := by
  obtain ⟨hvalid, hpast⟩ := validateWriterRange_endsAt hchain hblock
  have hlt := UInt64.lt_iff_toNat_lt.1 (hchain.state k block hblock)
  obtain ⟨count, hcount, hcountNat⟩ := Word.checkedSub_of_le (a := block.inner.header.stateRange.stop)
    (b := (endsAt chain k).stateNext) hlt.le
  have hne : count ≠ 0 := by
    rintro rfl
    simp only [UInt64.toNat_zero] at hcountNat
    omega
  unfold enqueueIteration buildQueuedFinalizedUpload buildStateDelta loadStateOps
  simp only [hvalid, transactionUploadEnd_endsAt hchain hblock, if_neg hpast, hcount, if_neg hne]
  cases env.historicalProof (endsAt chain k).stateNext block.inner.header.stateRange.stop with
  | none => rfl
  | some delta => rfl

/-- The frontier of a built entry is that after its block. -/
theorem fromUpload_endsAt {k : Nat} {block : SealedBlock C D} (hblock : chain[k]? = some block) (now : Int)
    (delta : List StateOperation) :
    FinalizedUploadCursor.fromUpload
      ⟨block, now, (endsAt chain k).stateNext, (endsAt chain k).transactionNext, delta⟩ = .ok (endsAt chain (k + 1)) := by
  unfold FinalizedUploadCursor.fromUpload QueuedFinalizedUpload.transactionEnd
  simp only [transactionUploadEnd_endsAt hchain hblock, endsAt_succ hblock]
  rfl

/-- Past its frontier a block is out of step with the writer, whatever the environment: the iteration
comes back to the same cursor. -/
theorem enqueueIteration_past {k : Nat} {block : SealedBlock C D} (hblock : chain[k]? = some block) (env : ProducerEnv) :
    enqueueIteration env block (endsAt chain (k + 1)) = .ok (.retry (endsAt chain (k + 1))) := by
  have hlen := (List.getElem?_eq_some_iff.1 hblock).1
  have htx := hchain.transactions k block hblock
  have hstate := endsAt_ne_zero hchain.state (k := k + 1) (by omega) hlen
  rw [endsAt_succ hblock] at hstate ⊢
  have hwriter : block.inner.header.transactionsRange.stop ≠ 0 := by
    intro h0
    rw [h0] at htx
    unfold opCount at htx
    simp only [UInt64.toNat_zero] at htx
    omega
  obtain ⟨start, hstart, heq⟩ := transactionUploadEnd_eq block.inner.header.transactionsRange.stop block.inner (by
    unfold opCount at htx ⊢
    rw [if_neg hwriter]
    omega)
  have hne : block.inner.header.transactionsRange.stop ≠ start := by
    intro h
    rw [← h] at hstart
    unfold opCount at hstart
    omega
  have hvalid : validateWriterRange block.inner.header.stateRange.stop block.inner.header.stateRange.stop
      block.inner.header.height = .ok () := by
    unfold validateWriterRange
    rw [if_neg (fun h => hstate h.1), if_neg (UInt64.lt_irrefl _)]
  unfold enqueueIteration buildQueuedFinalizedUpload
  simp only [hvalid, heq, if_neg (fun h : _ ∧ _ => hwriter h.1), if_pos hne]

/-! ## Cursors that are in step -/

/-- The cursor of a node that has captured the blocks from `first` up to `k`: the frontier after `k`
blocks, or the empty cursor while nothing is captured. -/
def AtFrontier (chain : List (SealedBlock C D)) (first k : Nat) (cursor : FinalizedUploadCursor) : Prop :=
  cursor = endsAt chain k ∨ (k = first ∧ cursor = default)

/-- Until the node has captured a block, the remote Store is where the blocks before `first` end. -/
def StoreAtFirst (chain : List (SealedBlock C D)) (first k : Nat) (env : ProducerEnv) : Prop :=
  0 < first → k = first → env.nextLocations = endsAt chain first

/-- With the empty cursor past genesis the producer takes over the positions of the Store. -/
theorem enqueueIteration_empty {k : Nat} {block : SealedBlock C D} (hblock : chain[k]? = some block) (hk : 0 < k)
    (env : ProducerEnv) : enqueueIteration env block default = .ok (.retry env.nextLocations) := by
  have hpast : (0 : UInt64) = 0 ∧ 1 < block.inner.header.height := by
    refine ⟨rfl, UInt64.lt_iff_toNat_lt.2 ?_⟩
    rw [hchain.height k block hblock, UInt64.toNat_one]
    omega
  have hvalid : validateWriterRange 0 block.inner.header.stateRange.stop block.inner.header.height =
      .error (.storeEmptyPastGenesis block.inner.header.height) := by
    unfold validateWriterRange
    rw [if_pos hpast]
  unfold enqueueIteration buildQueuedFinalizedUpload
  simp only [show (default : FinalizedUploadCursor) = ⟨0, 0⟩ from rfl, hvalid, ↓reduceIte]
  split
  · -- an empty Store: the cursor stays empty, like the positions
    rename_i hzero
    obtain ⟨now, proof, ⟨stateNext, transactionNext⟩⟩ := env
    obtain ⟨rfl, rfl⟩ := hzero
    rfl
  · rfl

omit hchain in
/-- The empty cursor counts as in step for itself only past genesis. -/
theorem AtFrontier.cases {first k : Nat} {cursor : FinalizedUploadCursor} (h : AtFrontier chain first k cursor) :
    cursor = endsAt chain k ∨ (0 < k ∧ k = first ∧ cursor = default) := by
  rcases h with h | ⟨rfl, rfl⟩
  · exact .inl h
  · rcases Nat.eq_zero_or_pos k with rfl | hk
    · exact .inl rfl
    · exact .inr ⟨hk, rfl, rfl⟩

/-- A retried iteration leaves the cursor in step. -/
theorem AtFrontier.retry {first k : Nat} {block : SealedBlock C D} {cursor next : FinalizedUploadCursor}
    {env : ProducerEnv} (hblock : chain[k]? = some block) (hcursor : AtFrontier chain first k cursor)
    (henv : StoreAtFirst chain first k env) (h : enqueueIteration env block cursor = .ok (.retry next)) :
    AtFrontier chain first k next := by
  rcases hcursor.cases with rfl | ⟨hk, rfl, rfl⟩
  · rw [enqueueIteration_endsAt hchain hblock env] at h
    split at h
    · cases h; exact hcursor
    · cases h
  · rw [enqueueIteration_empty hchain hblock hk, henv hk rfl] at h
    cases h
    exact .inl rfl

/-- An entry is only built at the block's frontier. -/
theorem AtFrontier.built {first k : Nat} {block : SealedBlock C D} {cursor : FinalizedUploadCursor}
    {env : ProducerEnv} {upload : QueuedFinalizedUpload C D} (hblock : chain[k]? = some block)
    (hcursor : AtFrontier chain first k cursor) (h : enqueueIteration env block cursor = .ok (.built upload)) :
    upload.block = block ∧ FinalizedUploadCursor.fromUpload upload = .ok (endsAt chain (k + 1)) := by
  rcases hcursor.cases with rfl | ⟨hk, rfl, rfl⟩
  · rw [enqueueIteration_endsAt hchain hblock env] at h
    split at h
    · cases h
    · cases h; exact ⟨rfl, fromUpload_endsAt hchain hblock _ _⟩
  · rw [enqueueIteration_empty hchain hblock hk] at h
    cases h

/-- A node in step that finds the operations of the block builds its entry in at most two iterations. -/
theorem AtFrontier.returns {first k : Nat} {block : SealedBlock C D} {cursor : FinalizedUploadCursor}
    (hblock : chain[k]? = some block) (hcursor : AtFrontier chain first k cursor) {env env' : ProducerEnv}
    (henv : StoreAtFirst chain first k env)
    (hproof : ∀ e ∈ [env, env'], (e.historicalProof (endsAt chain k).stateNext block.inner.header.stateRange.stop).isSome) :
    ∃ upload, enqueueLoop block cursor [env, env'] = .ok (some upload) ∧ upload.block = block := by
  simp only [List.forall_mem_cons] at hproof
  obtain ⟨hproof, hproof', -⟩ := hproof
  obtain ⟨delta, hdelta⟩ := Option.isSome_iff_exists.1 hproof
  obtain ⟨delta', hdelta'⟩ := Option.isSome_iff_exists.1 hproof'
  rcases hcursor.cases with rfl | ⟨hk, rfl, rfl⟩
  · simp only [enqueueLoop, enqueueIteration_endsAt hchain hblock, hdelta]
    exact ⟨_, rfl, rfl⟩
  · -- the first iteration only takes over the positions of the Store
    simp only [enqueueLoop, enqueueIteration_empty hchain hblock hk, henv hk rfl,
      enqueueIteration_endsAt hchain hblock, hdelta']
    exact ⟨_, rfl, rfl⟩

/-- Recovery from the stored cursor and the last entry read, none of them past `k`, is in step. -/
theorem AtFrontier.recovered {first k : Nat} {metadata queue : Option FinalizedUploadCursor} (hlen : k ≤ chain.length)
    (hmetadata : AtFrontier chain first k (metadata.getD default))
    (hqueue : ∀ c ∈ queue, ∃ j, first < j ∧ j ≤ k ∧ c = endsAt chain j) :
    AtFrontier chain first k (recoveredFinalizedUploadCursor metadata queue) := by
  unfold recoveredFinalizedUploadCursor
  rcases hmetadata with h | ⟨rfl, h⟩
  · left
    rw [h]
    cases queue with
    | none => exact (max_endsAt hchain.state (Nat.zero_le _) hlen).trans (by rw [Nat.max_eq_left (Nat.zero_le k)])
    | some c =>
      obtain ⟨j, -, hj, rfl⟩ := hqueue c rfl
      exact (max_endsAt hchain.state (by omega) hlen).trans (by rw [Nat.max_eq_left hj])
  · right
    cases queue with
    | none => rw [h]; exact ⟨rfl, rfl⟩
    | some c =>
      obtain ⟨j, hj, hj', -⟩ := hqueue c rfl
      omega

/-- An entry that the stored cursor is not past is where recovery ends. -/
theorem AtFrontier.recovered_entry {first k j : Nat} {metadata : Option FinalizedUploadCursor}
    (hmetadata : AtFrontier chain first k (metadata.getD default)) (hj : k ≤ j) (hlen : j ≤ chain.length) :
    recoveredFinalizedUploadCursor metadata (some (endsAt chain j)) = endsAt chain j := by
  unfold recoveredFinalizedUploadCursor
  rcases hmetadata with h | ⟨-, h⟩
  · rw [h]
    exact (max_endsAt hchain.state hlen (by omega)).trans (by rw [Nat.max_eq_right hj])
  · -- nothing stored is the frontier before the first block
    rw [h]
    exact (max_endsAt hchain.state hlen (Nat.zero_le _)).trans (by rw [Nat.max_eq_right (Nat.zero_le j)])

end Chain

/-- The scan of entries whose frontiers are known ends at the frontier of one of them. -/
theorem scanFinalizedQueueCursor_spec {P : FinalizedUploadCursor → Prop} :
    ∀ {uploads : List (QueuedFinalizedUpload C D)} {cursor : Option FinalizedUploadCursor},
      (∀ upload ∈ uploads, ∃ next, FinalizedUploadCursor.fromUpload upload = .ok next ∧ P next) →
      (∀ c ∈ cursor, P c) →
      ∃ last, scanFinalizedQueueCursor cursor uploads = .ok last ∧ ∀ c ∈ last, P c
  | [], cursor, _, hcursor => ⟨cursor, rfl, hcursor⟩
  | upload :: uploads, _, huploads, _ => by
    obtain ⟨next, hnext, hP⟩ := huploads upload (List.mem_cons_self ..)
    simp only [scanFinalizedQueueCursor, hnext]
    apply scanFinalizedQueueCursor_spec
    · exact fun u hu => huploads u (List.mem_cons_of_mem _ hu)
    · rintro c ⟨⟩
      exact hP

/-- It ends at the frontier of the last one. -/
theorem scanFinalizedQueueCursor_concat {uploads : List (QueuedFinalizedUpload C D)} {upload : QueuedFinalizedUpload C D}
    {next : FinalizedUploadCursor} (hupload : FinalizedUploadCursor.fromUpload upload = .ok next) :
    ∀ {cursor last : Option FinalizedUploadCursor},
      scanFinalizedQueueCursor cursor (uploads ++ [upload]) = .ok last → last = some next := by
  induction uploads with
  | nil =>
    intro cursor last h
    simp only [List.nil_append, scanFinalizedQueueCursor, hupload] at h
    cases h
    rfl
  | cons u uploads ih =>
    intro cursor last h
    rw [List.cons_append, scanFinalizedQueueCursor] at h
    split at h
    · cases h
    · exact ih h

end Constantinople
