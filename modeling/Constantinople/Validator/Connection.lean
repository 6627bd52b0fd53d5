/-
What a connected publisher writes to the Store. The watermarks of a batch are both those of its block or
absent, and those of a flush end at one block; so every request, whenever it arrives, brings the Store to a
frontier of the chain with the rows of all blocks before it. A publisher that connects at a frontier stays
in step with the chain from there on. One whose two reads are of different frontiers takes nothing and writes nothing.
-/
import Constantinople.Validator.Indexing

namespace Constantinople

open Run Watermark

variable {C D : Type}

/-! ## Watermarks of frontiers -/

section LastBefore

variable {next : Nat → UInt64} {n a b : Nat} (hnext : ∀ j k, j < k → k ≤ n → next j < next k)

include hnext

theorem lastBefore_le_iff (ha : a + 1 ≤ n) (hb : b + 1 ≤ n) : next (b + 1) - 1 ≤ next (a + 1) - 1 ↔ b ≤ a := by
  have hpos : ∀ k, k + 1 ≤ n → 1 ≤ next (k + 1) := by
    intro k hk
    have hlt := UInt64.lt_iff_toNat_lt.1 (hnext 0 (k + 1) (Nat.succ_pos k) hk)
    rw [UInt64.le_iff_toNat_le, UInt64.toNat_one]
    omega
  rw [UInt64.le_iff_toNat_le, UInt64.toNat_sub_of_le _ _ (hpos b hb), UInt64.toNat_sub_of_le _ _ (hpos a ha)]
  have ha' := UInt64.le_iff_toNat_le.1 (hpos a ha)
  have hb' := UInt64.le_iff_toNat_le.1 (hpos b hb)
  simp only [UInt64.toNat_one] at ha' hb' ⊢
  rcases Nat.lt_trichotomy a b with hlt | rfl | hlt
  · have := UInt64.lt_iff_toNat_lt.1 (hnext (a + 1) (b + 1) (by omega) hb)
    omega
  · simp
  · have := UInt64.lt_iff_toNat_lt.1 (hnext (b + 1) (a + 1) (by omega) ha)
    omega

/-- Publishing a frontier gives the later one. -/
theorem advance_lastBefore (ha : a ≤ n) (hb : b ≤ n) :
    advance (lastBefore next a) (lastBefore next b) = lastBefore next (max a b) := by
  cases b with
  | zero => rw [Nat.max_eq_left (Nat.zero_le a)]; rfl
  | succ b =>
    cases a with
    | zero => rw [Nat.max_eq_right (Nat.zero_le _)]; rfl
    | succ a =>
      simp only [lastBefore, advance, Option.any_some, decide_eq_true_eq, lastBefore_le_iff hnext ha hb]
      split
      · rw [Nat.max_eq_left (by omega)]
      · rw [Nat.max_eq_right (by omega)]

theorem lastBefore_inj (ha : a ≤ n) (hb : b ≤ n) (h : lastBefore next a = lastBefore next b) : a = b := by
  cases a with
  | zero =>
    cases b with
    | zero => rfl
    | succ b => cases h
  | succ a =>
    cases b with
    | zero => cases h
    | succ b =>
      have heq := Option.some.inj h
      have hab := (lastBefore_le_iff hnext hb ha).1 (heq ▸ UInt64.le_refl _)
      have hba := (lastBefore_le_iff hnext ha hb).1 (heq ▸ UInt64.le_refl _)
      omega

end LastBefore

/-- The next location after a frontier's watermark. -/
theorem nextWriterLocation_lastBefore {next : Nat → UInt64} (hzero : next 0 = 0) (k : Nat) :
    nextWriterLocation (lastBefore next k) = next k := by
  cases k with
  | zero => exact hzero.symm
  | succ k => exact UInt64.sub_add_cancel _ _

section Frontiers

variable {chain : List (SealedBlock C D)} (hchain : Consecutive chain)

include hchain

theorem endsAt_stateNext_lt (j k : Nat) (hjk : j < k) (hk : k ≤ chain.length) :
    (endsAt chain j).stateNext < (endsAt chain k).stateNext := endsAt_lt hchain.state hjk hk

theorem endsAt_transactionNext_lt (j k : Nat) (hjk : j < k) (hk : k ≤ chain.length) :
    (endsAt chain j).transactionNext < (endsAt chain k).transactionNext := by
  have hsucc : ∀ j < chain.length, (endsAt chain j).transactionNext < (endsAt chain (j + 1)).transactionNext := by
    intro j hj
    have hblock := List.getElem?_eq_getElem hj
    have hcount := hchain.transactions j _ hblock
    rw [endsAt_succ hblock, UInt64.lt_iff_toNat_lt]
    unfold opCount at hcount
    simp only
    omega
  induction hjk with
  | refl => exact hsucc j hk
  | step _ ih => exact UInt64.lt_trans (ih (by omega)) (hsucc _ hk)

theorem endsAt_transactionNext_le {j k : Nat} (hjk : j ≤ k) (hk : k ≤ chain.length) :
    (endsAt chain j).transactionNext ≤ (endsAt chain k).transactionNext := by
  rcases hjk.eq_or_lt with rfl | hlt
  · exact UInt64.le_refl _
  · exact UInt64.le_of_lt (endsAt_transactionNext_lt hchain j k hlt hk)

theorem advance_watermarksAt {a b : Nat} (ha : a ≤ chain.length) (hb : b + 1 ≤ chain.length) :
    advance (watermarksAt chain a).state (some ((endsAt chain (b + 1)).stateNext - 1)) =
        (watermarksAt chain (max a (b + 1))).state ∧
      advance (watermarksAt chain a).transactions (some ((endsAt chain (b + 1)).transactionNext - 1)) =
        (watermarksAt chain (max a (b + 1))).transactions := by
  have hstate := advance_lastBefore (endsAt_stateNext_lt hchain) ha hb
  have htransactions := advance_lastBefore (endsAt_transactionNext_lt hchain) ha hb
  exact ⟨hstate, htransactions⟩

theorem watermarksAt_inj {a b : Nat} (ha : a ≤ chain.length) (hb : b ≤ chain.length)
    (h : watermarksAt chain a = watermarksAt chain b) : a = b :=
  lastBefore_inj (endsAt_stateNext_lt hchain) ha hb (congrArg StoreWatermarks.state h)

end Frontiers

theorem nextLocations_watermarksAt (chain : List (SealedBlock C D)) (k : Nat) :
    (watermarksAt chain k).nextLocations = endsAt chain k := by
  unfold StoreWatermarks.nextLocations watermarksAt
  rw [nextWriterLocation_lastBefore rfl, nextWriterLocation_lastBefore rfl]

/-! ## Requests -/

/-- The rows of block `j` are in the Store. -/
def RemoteStore.Covers (chain : List (SealedBlock C D)) (store : RemoteStore C D) (j : Nat) : Prop :=
  ∃ upload ∈ store.rows, upload.CapturedAt chain j

/-- The Store has the watermarks of the frontier after `published` blocks, and the rows of all of them from
`first` on. -/
structure RemoteStore.Holds (chain : List (SealedBlock C D)) (first published : Nat) (store : RemoteStore C D) : Prop where
  begun : first ≤ published
  bounded : published ≤ chain.length
  watermarks : store.watermarks = watermarksAt chain published
  rows : ∀ j, first ≤ j → j < published → store.Covers chain j

/-- A request that brings the watermarks of a Store that is at `floor` or later to the frontier `b`, with
all rows before it. -/
structure StoreRequest.Brings (chain : List (SealedBlock C D)) (first floor : Nat) (store : RemoteStore C D) (b : Nat)
    (request : StoreRequest C D) : Prop where
  bounded : b ≤ chain.length
  writes : ∀ k, floor ≤ k → k ≤ chain.length → request.writes (watermarksAt chain k) = watermarksAt chain (max k b)
  rows : ∀ j, first ≤ j → j < b → (store.apply request).Covers chain j

section Requests

variable {chain : List (SealedBlock C D)} {first published floor b : Nat} {store store' : RemoteStore C D}
  {request : StoreRequest C D}

theorem RemoteStore.Covers.mono {j : Nat} (h : store.Covers chain j) (hrows : store.rows ⊆ store'.rows) :
    store'.Covers chain j := by
  obtain ⟨upload, hu, hcaptured⟩ := h
  exact ⟨upload, hrows hu, hcaptured⟩

theorem RemoteStore.rows_subset_apply (store : RemoteStore C D) (request : StoreRequest C D) :
    store.rows ⊆ (store.apply request).rows :=
  List.subset_append_left _ _

theorem StoreRequest.Brings.mono {floor' : Nat} (h : request.Brings chain first floor store b) (hfloor : floor ≤ floor')
    (hrows : store.rows ⊆ store'.rows) : request.Brings chain first floor' store' b where
  bounded := h.bounded
  writes k hk := h.writes k (hfloor.trans hk)
  rows j hfirst hj := (h.rows j hfirst hj).mono (List.append_subset.2
    ⟨List.Subset.trans hrows (List.subset_append_left _ _), List.subset_append_right _ _⟩)

/-- The Store after a request. -/
theorem RemoteStore.Holds.apply (h : store.Holds chain first published) (hr : request.Brings chain first floor store b)
    (hfloor : floor ≤ published) : (store.apply request).Holds chain first (max published b) where
  begun := h.begun.trans (Nat.le_max_left ..)
  bounded := Nat.max_le.2 ⟨h.bounded, hr.bounded⟩
  watermarks := by
    show request.writes store.watermarks = _
    rw [h.watermarks]
    exact hr.writes published hfloor h.bounded
  rows := by
    intro j hfirst hj
    rcases Nat.lt_or_ge j published with hlt | hge
    · exact (h.rows j hfirst hlt).mono (store.rows_subset_apply request)
    · exact hr.rows j hfirst (by omega)

end Requests

/-! ## Connections -/

/-- What the preparer derives from an upload ends where its block does. -/
theorem expandQueuedFinalizedUpload_spans {E : Env D} {upload : QueuedFinalizedUpload C D} {expanded : ExpandedUpload D}
    (h : expandQueuedFinalizedUpload E upload = .ok (.ok expanded)) :
    expanded.stateDelta = upload.stateDelta ∧ upload.transactionStart.toNat + expanded.transactionOps.length =
      upload.block.inner.header.transactionsRange.stop.toNat := by
  unfold expandQueuedFinalizedUpload at h
  split at h
  · cases h
  split at h
  · cases h
  · cases h
  rename_i ops hops
  cases h
  refine ⟨rfl, ?_⟩
  unfold buildTransactionUploadFromDigests at hops
  split at hops
  · cases hops
  unfold transactionOpsFromDigests at hops
  simp only at hops
  split at hops
  · cases hops
  rename_i hfits
  split at hops
  · cases hops
  rename_i start hstart
  split at hops
  · cases hops
  rename_i hsame
  cases hops
  have hsub := Word.checkedSub_eq_some.1 hstart
  rw [Word.toNat_ofNat (by omega), ← not_not.1 hsame] at hsub
  simp only
  omega

/-- A writer's log that continues the chain after `base` blocks. -/
structure LogAt (next : Nat → UInt64) (base : Nat) (log : Log UInt64) : Prop where
  recovered : log.recovered = lastBefore next base
  ends : ∀ i location, log.ends[i]? = some location → location = next (base + i + 1) - 1

theorem LogAt.mark {next : Nat → UInt64} {base : Nat} {log : Log UInt64} (h : LogAt next base log) {m : Nat}
    (hm : m ≤ log.ends.length) : log.mark m = lastBefore next (base + m) := by
  cases m with
  | zero => exact h.recovered
  | succ m =>
    have hget := List.getElem?_eq_getElem (show m < log.ends.length from hm)
    show log.ends[m]? = _
    rw [hget, h.ends m _ hget]
    rfl

/-- A log with the next piece, of as many operations as the chain has there. -/
theorem LogAt.append {next : Nat → UInt64} {base count : Nat} {w : Writer} (h : LogAt next base w.log) (hzero : next 0 = 0)
    (hcount : (next (base + w.log.ends.length)).toNat + count = (next (base + w.log.ends.length + 1)).toNat) :
    LogAt next base (w.log.append (w.latestAfter count)) := by
  refine ⟨h.recovered, fun i location hi => ?_⟩
  have hlast : w.latestAfter count = next (base + w.log.ends.length + 1) - 1 := by
    unfold Writer.latestAfter
    rw [h.mark le_rfl, nextWriterLocation_lastBefore hzero]
    congr 1
    have hlt := (next (base + w.log.ends.length + 1)).toNat_lt
    apply UInt64.toNat_inj.1
    rw [UInt64.toNat_add, Word.toNat_ofNat (by omega), hcount, Nat.mod_eq_of_lt hlt]
  simp only [Log.append] at hi
  rcases Nat.lt_or_ge i w.log.ends.length with hold | hnew
  · rw [List.getElem?_append_left hold] at hi
    exact h.ends i location hi
  · obtain rfl : i = w.log.ends.length := by
      have hlt := (List.getElem?_eq_some_iff.1 hi).1
      rw [List.length_append, List.length_singleton] at hlt
      omega
    rw [List.getElem?_concat_length] at hi
    cases hi
    exact hlast

/-- A publisher that connected when the Store had `base` blocks: it was handed the blocks after them, in
order, its writers continue the chain there, and the rows of every upload that is not in a running commit
are in the Store. -/
structure Connection.Follows (chain : List (SealedBlock C D)) (first published : Nat) (store : RemoteStore C D) (base : Nat)
    (c : Connection C D) : Prop where
  begun : first ≤ base
  next : c.publisher.next = endsAt chain (base + c.publisher.handed.length)
  handed : ∀ n (upload : QueuedFinalizedUpload C D), c.publisher.handed[n]? = some upload →
    upload.CapturedAt chain (base + n)
  stateLog : LogAt (fun k => (endsAt chain k).stateNext) base c.publishing.stateWriter.log
  transactionLog : LogAt (fun k => (endsAt chain k).transactionNext) base c.publishing.transactionWriter.log
  statePrepared : c.publishing.stateWriter.log.ends.length ≤ c.publisher.handed.length
  transactionsPrepared : c.publishing.transactionWriter.log.ends.length ≤ c.publisher.handed.length
  layout : c.publishing.Layout
  completions : c.publishing.Completions
  aligned : ∃ m, c.publishing.AlignedAt m ∧ base + m ≤ published
  written : ∀ i < c.publishing.received, i ∉ Publishing.numbers c.publishing.commits → store.Covers chain (base + i)

namespace Connection

variable {chain : List (SealedBlock C D)} {first published base : Nat} {store : RemoteStore C D} {c : Connection C D}

theorem connect_follows (h : store.Holds chain first published) :
    (connect store.watermarks : Connection C D).Follows chain first published store published where
  begun := h.begun
  next := by
    show store.watermarks.nextLocations = endsAt chain (published + 0)
    rw [h.watermarks, nextLocations_watermarksAt, Nat.add_zero]
  handed := by rintro n upload ⟨⟩
  stateLog := ⟨congrArg StoreWatermarks.state h.watermarks, by rintro i location ⟨⟩⟩
  transactionLog := ⟨congrArg StoreWatermarks.transactions h.watermarks, by rintro i location ⟨⟩⟩
  statePrepared := le_rfl
  transactionsPrepared := le_rfl
  layout := Publishing.layout_connect _
  completions := Publishing.completions_connect _
  aligned := ⟨0, Publishing.alignedAt_connect _, le_rfl⟩
  written := by rintro i ⟨⟩

theorem Follows.base_le (h : c.Follows chain first published store base) : base ≤ published := by
  obtain ⟨m, -, hm⟩ := h.aligned
  omega

/-- Everything received was handed over. -/
theorem Follows.received_le (h : c.Follows chain first published store base) :
    c.publishing.received ≤ c.publisher.handed.length :=
  h.layout.received_le.1.trans h.statePrepared

theorem Follows.handed_le (h : c.Follows chain first published store base) (hs : store.Holds chain first published) :
    base + c.publisher.handed.length ≤ chain.length := by
  have hbase := h.base_le.trans hs.bounded
  rcases Nat.eq_zero_or_pos c.publisher.handed.length with hzero | hpos
  · omega
  · have hlast := List.getElem?_eq_getElem (show c.publisher.handed.length - 1 < c.publisher.handed.length by omega)
    have := (h.handed _ _ hlast).lt_length
    omega

theorem Follows.publishing_store (h : c.Follows chain first published store base) {m : Nat} (ha : c.publishing.AlignedAt m) :
    c.publishing.store = watermarksAt chain (base + m) := by
  obtain ⟨hs, ht⟩ := h.layout.received_le
  rw [ha.store, h.stateLog.mark (ha.le.trans hs), h.transactionLog.mark (ha.le.trans ht)]
  rfl

/-- An upload marked persisted is in the Store. -/
theorem Follows.covers (h : c.Follows chain first published store base) {i : Nat}
    (hi : i ∈ c.publishing.stateWriter.log.persisted) : store.Covers chain (base + i) := by
  obtain ⟨hlt, hnot⟩ := (h.layout.stateMarked i).1 hi
  refine h.written i hlt fun hmem => hnot ?_
  rw [Publishing.inFlight, Publishing.numbers, List.map_append]
  exact List.mem_append_left _ hmem

/-- What block a batch in flight is of. -/
theorem Follows.batch (h : c.Follows chain first published store base) {batch : QmdbCommitBatch}
    (hb : batch ∈ c.publishing.commits) :
    batch.upload.completion < c.publishing.received ∧
      batch.upload.Staged c.publishing.stateWriter.log c.publishing.transactionWriter.log batch.upload.completion ∧
      ∃ upload, c.publisher.handed[batch.upload.completion]? = some upload ∧
        upload.CapturedAt chain (base + batch.upload.completion) := by
  obtain ⟨hlt, hstaged⟩ := h.layout.batches batch (List.mem_append_left _ (List.mem_append_left _ hb))
  have hget := List.getElem?_eq_getElem (hlt.trans_le h.received_le)
  exact ⟨hlt, hstaged, _, hget, h.handed _ _ hget⟩

/-- The request of a commit writes both watermarks of its block, with all earlier rows in the Store, or none. -/
theorem Follows.commit_brings (hchain : Consecutive chain) (h : c.Follows chain first published store base)
    (hs : store.Holds chain first published) {m : Nat} (ha : c.publishing.AlignedAt m) {batch : QmdbCommitBatch}
    (hb : batch ∈ c.publishing.commits) {upload : QueuedFinalizedUpload C D}
    (hu : upload.CapturedAt chain (base + batch.upload.completion)) :
    ∃ b ≤ base + c.publisher.handed.length,
      (StoreRequest.commit upload batch).Brings chain first (base + m) store b := by
  obtain ⟨hlt, hstaged, -⟩ := h.batch hb
  have hlen := h.received_le
  rcases ha.batches batch (List.mem_append_left _ (List.mem_append_left _ hb)) with hquiet | hcarries
  · refine ⟨0, Nat.zero_le _, Nat.zero_le _, fun k _ _ => ?_, fun j _ hj => absurd hj (Nat.not_lt_zero j)⟩
    show (watermarksAt chain k).commit batch = _
    unfold StoreWatermarks.commit StoreWatermarks.write PreparedUpload.writerLocationWatermark
    rw [hquiet.state.1, hquiet.state.2, hquiet.transactions.1, hquiet.transactions.2, Nat.max_eq_left (Nat.zero_le k)]
    rfl
  · have hbound : base + batch.upload.completion + 1 ≤ chain.length := hu.lt_length
    refine ⟨base + batch.upload.completion + 1, by omega, hbound, fun k _ hk => ?_, fun j hfirst hj => ?_⟩
    · obtain ⟨hstate, htransactions⟩ := advance_watermarksAt hchain hk hbound
      rw [← h.stateLog.ends _ _ hstaged.state.latest] at hstate
      rw [← h.transactionLog.ends _ _ hstaged.transactions.latest] at htransactions
      exact congr_arg₂ StoreWatermarks.mk ((hcarries.state.advance _).trans hstate)
        ((hcarries.transactions.advance _).trans htransactions)
    · -- the rows of its own block come with it
      rcases Nat.lt_or_eq_of_le (Nat.le_of_lt_succ hj) with hj | rfl
      · refine RemoteStore.Covers.mono ?_ (store.rows_subset_apply _)
        rcases Nat.lt_or_ge j base with hbase | hbase
        · exact hs.rows j hfirst (hbase.trans_le h.base_le)
        · obtain ⟨i, rfl⟩ := Nat.exists_eq_add_of_le hbase
          exact h.covers (hcarries.earlier i (by omega)).1
      · exact ⟨upload, List.mem_append_right _ (List.mem_singleton_self upload), hu⟩

/-- The request of a flush brings both watermarks to the end of one block that is in the Store. -/
theorem Follows.flush_brings (hchain : Consecutive chain) (h : c.Follows chain first published store base)
    (hs : store.Holds chain first published) {m : Nat} (ha : c.publishing.AlignedAt m) (hm : base + m ≤ published)
    {state transactions : Option UInt64} (hphase : c.publishing.phase.flush = some (state, transactions)) :
    ∃ b ≤ base + c.publisher.handed.length,
      (StoreRequest.flush (C := C) (D := D) state transactions).Brings chain first (base + m) store b := by
  obtain ⟨n, hn, hstate, htransactions⟩ := ha.flushing state transactions hphase
  have hlen := h.received_le
  have hbound : base + n ≤ chain.length := by
    have := h.handed_le hs
    omega
  -- each watermark is that of the block, or the Store is past it
  have hwrites : ∀ {next : Nat → UInt64} {log : Log UInt64} {watermark : Option UInt64},
      (∀ j k, j < k → k ≤ chain.length → next j < next k) → LogAt next base log → log.Brings m n watermark →
      ∀ k, base + m ≤ k → k ≤ chain.length → advance (lastBefore next k) watermark = lastBefore next (max k (base + n)) := by
    intro next log watermark hnext hlog hbrings k hk hk'
    rcases hbrings with ⟨rfl, hnm⟩ | ⟨i, location, rfl, rfl, hend, -⟩
    · rw [Nat.max_eq_left (by omega)]
      rfl
    · rw [hlog.ends i location hend]
      have hadvance := advance_lastBefore hnext hk' hbound
      exact hadvance
  refine ⟨base + n, by omega, hbound, fun k hk hk' => ?_, fun j hfirst hj => ?_⟩
  · exact congr_arg₂ StoreWatermarks.mk (hwrites (endsAt_stateNext_lt hchain) h.stateLog hstate k hk hk')
      (hwrites (endsAt_transactionNext_lt hchain) h.transactionLog htransactions k hk hk')
  · refine RemoteStore.Covers.mono ?_ (store.rows_subset_apply _)
    rcases Nat.lt_or_ge j published with hlt | hge
    · exact hs.rows j hfirst hlt
    · rcases hstate with ⟨-, hnm⟩ | ⟨i, location, rfl, -, -, hall⟩
      · omega
      · obtain ⟨i', rfl⟩ := Nat.exists_eq_add_of_le (show base ≤ j by omega)
        exact h.covers (hall i' (by omega))

/-- Every request on its way is sound. -/
theorem Follows.outstanding_brings (hchain : Consecutive chain) (h : c.Follows chain first published store base)
    (hs : store.Holds chain first published) {request : StoreRequest C D} (hr : request ∈ c.outstanding) :
    ∃ b ≤ base + c.publisher.handed.length, request.Brings chain first published store b := by
  obtain ⟨m, ha, hm⟩ := h.aligned
  rcases List.mem_append.1 hr with hr | hr
  · obtain ⟨batch, hb, hrequest⟩ := List.mem_filterMap.1 hr
    obtain ⟨upload, hu, rfl⟩ := Option.map_eq_some_iff.1 hrequest
    obtain ⟨b, hle, hbrings⟩ := h.commit_brings hchain hs ha hb (h.handed _ _ hu)
    exact ⟨b, hle, hbrings.mono hm (List.Subset.refl _)⟩
  · rw [Option.mem_toList, flushRequest] at hr
    split at hr
    · rename_i closing state transactions hphase
      cases hr
      obtain ⟨b, hle, hbrings⟩ := h.flush_brings hchain hs ha hm (congr_arg CommitterPhase.flush hphase)
      exact ⟨b, hle, hbrings.mono hm (List.Subset.refl _)⟩
    · cases hr

theorem preparing_some {E : Env D} {expanded : ExpandedUpload D} (h : c.preparing E = some expanded) :
    ∃ upload, c.publisher.handed[c.publishing.heights.length]? = some upload ∧
      expandQueuedFinalizedUpload E upload = .ok (.ok expanded) := by
  unfold preparing at h
  split at h
  · cases h
  · rename_i upload hupload
    split at h
    · rename_i hexpanded
      cases h
      exact ⟨upload, hupload, hexpanded⟩
    · cases h

section Publish

variable {E : Env D} {maxInFlight : Nat} {e : PublishingEvent} {publishing : Publishing}

/-- A writer that has the uploads of the blocks sent is at the block the preparer is at. -/
theorem Follows.preparing_block (h : c.Follows chain first published store base) {expanded : ExpandedUpload D}
    (hx : c.preparing E = some expanded) {log : Log UInt64} (hat : PreparingAt log c.publishing.heights.length none) :
    log.ends.length < c.publisher.handed.length ∧ ∃ upload : QueuedFinalizedUpload C D,
      upload.CapturedAt chain (base + log.ends.length) ∧ expandQueuedFinalizedUpload E upload = .ok (.ok expanded) := by
  obtain ⟨upload, hupload, hexpanded⟩ := preparing_some hx
  rcases hat with ⟨-, hlen⟩ | ⟨u, ⟨⟩, -⟩
  rw [← hlen] at hupload
  exact ⟨(List.getElem?_eq_some_iff.1 hupload).1, upload, h.handed _ _ hupload, hexpanded⟩

/-- The writers go on with the chain. -/
theorem Follows.logs (h : c.Follows chain first published store base) (hallows : c.allows E e = true)
    (hstep : c.publishing.step maxInFlight e = some publishing) :
    (LogAt (fun k => (endsAt chain k).stateNext) base publishing.stateWriter.log ∧
      publishing.stateWriter.log.ends.length ≤ c.publisher.handed.length) ∧
    LogAt (fun k => (endsAt chain k).transactionNext) base publishing.transactionWriter.log ∧
      publishing.transactionWriter.log.ends.length ≤ c.publisher.handed.length := by
  have hstate := h.stateLog
  have htransactions := h.transactionLog
  have hkept : publishing.stateWriter.log.recovered = c.publishing.stateWriter.log.recovered →
      publishing.stateWriter.log.ends = c.publishing.stateWriter.log.ends →
      publishing.transactionWriter.log.recovered = c.publishing.transactionWriter.log.recovered →
      publishing.transactionWriter.log.ends = c.publishing.transactionWriter.log.ends →
      (LogAt (fun k => (endsAt chain k).stateNext) base publishing.stateWriter.log ∧
        publishing.stateWriter.log.ends.length ≤ c.publisher.handed.length) ∧
      LogAt (fun k => (endsAt chain k).transactionNext) base publishing.transactionWriter.log ∧
        publishing.transactionWriter.log.ends.length ≤ c.publisher.handed.length := by
    intro hrs hes hrt het
    refine ⟨⟨⟨hrs.trans hstate.recovered, ?_⟩, ?_⟩, ⟨hrt.trans htransactions.recovered, ?_⟩, ?_⟩
    · rw [hes]; exact hstate.ends
    · rw [hes]; exact h.statePrepared
    · rw [het]; exact htransactions.ends
    · rw [het]; exact h.transactionsPrepared
  cases e with
  | prepareState latest inBand =>
    obtain ⟨hnone, -, -, rfl⟩ := Publishing.step_prepareState hstep
    obtain ⟨expanded, hx, hlatest⟩ := (Option.any_eq_true _ _).1 hallows
    obtain ⟨hlt, upload, hcaptured, hexpanded⟩ := h.preparing_block hx (hnone ▸ h.layout.state)
    obtain rfl := of_decide_eq_true hlatest
    refine ⟨⟨hstate.append rfl ?_, ?_⟩, htransactions, h.transactionsPrepared⟩
    · rw [(expandQueuedFinalizedUpload_spans hexpanded).1, Nat.add_comm]
      exact hcaptured.delta
    · simp only [Log.append, List.length_append, List.length_singleton]
      omega
  | prepareTransactions latest inBand =>
    obtain ⟨hnone, -, -, rfl⟩ := Publishing.step_prepareTransactions hstep
    obtain ⟨expanded, hx, hlatest⟩ := (Option.any_eq_true _ _).1 hallows
    obtain ⟨hlt, upload, hcaptured, hexpanded⟩ := h.preparing_block hx (hnone ▸ h.layout.transactions)
    obtain rfl := of_decide_eq_true hlatest
    refine ⟨⟨hstate, h.statePrepared⟩, htransactions.append rfl ?_, ?_⟩
    · rw [← hcaptured.transactionStart, endsAt_succ hcaptured.block]
      exact (expandQueuedFinalizedUpload_spans hexpanded).2
    · simp only [Log.append, List.length_append, List.length_singleton]
      omega
  | send height =>
    obtain ⟨state, transactions, -, -, -, -, rfl⟩ := Publishing.step_send hstep
    exact hkept rfl rfl rfl rfl
  | close => cases hallows
  | receive =>
    obtain ⟨upload, channel, -, -, rfl⟩ := Publishing.step_receive hstep
    exact hkept rfl rfl rfl rfl
  | attempt i =>
    obtain ⟨batch, -, rfl⟩ := Publishing.step_attempt hstep
    exact hkept rfl rfl rfl rfl
  | land i =>
    obtain ⟨batch, -, rfl⟩ := Publishing.step_land hstep
    exact hkept rfl rfl rfl rfl
  | join i =>
    obtain ⟨batch, -, -, rfl⟩ := Publishing.step_join hstep
    exact hkept rfl rfl rfl rfl
  | mark =>
    obtain ⟨batch, -, rfl⟩ := Publishing.step_mark hstep
    exact hkept rfl rfl rfl rfl
  | complete =>
    obtain ⟨-, rfl⟩ := Publishing.step_complete hstep
    exact hkept rfl rfl rfl rfl
  | prepareFlush =>
    obtain ⟨closing, -, rfl⟩ := Publishing.step_prepareFlush hstep
    exact hkept rfl rfl rfl rfl
  | attemptFlush =>
    obtain ⟨closing, state, transactions, -, rfl⟩ := Publishing.step_attemptFlush hstep
    exact hkept rfl rfl rfl rfl
  | landFlush =>
    obtain ⟨closing, state, transactions, -, rfl⟩ := Publishing.step_landFlush hstep
    exact hkept rfl rfl rfl rfl
  | completeFlushed =>
    obtain ⟨closing, -, rfl⟩ := Publishing.step_completeFlushed hstep
    exact hkept rfl rfl rfl rfl
  | finish => cases hallows

/-- What an event applies to the Store: nothing, or a sound request. -/
theorem Follows.request_brings (hchain : Consecutive chain) (h : c.Follows chain first published store base)
    (hs : store.Holds chain first published) {m : Nat} (ha : c.publishing.AlignedAt m) (hm : base + m ≤ published)
    (hstep : c.publishing.step maxInFlight e = some publishing) :
    (c.request e = none ∧ publishing.store = c.publishing.store) ∨
      ∃ request b, c.request e = some request ∧ b ≤ base + c.publisher.handed.length ∧
        request.Brings chain first (base + m) store b ∧ publishing.store = request.writes c.publishing.store := by
  have hcommit : ∀ (i : Nat) (batch : QmdbCommitBatch), c.publishing.commits[i]? = some batch → ∃ request b,
      (c.publishing.commits[i]?).bind c.commitRequest = some request ∧ b ≤ base + c.publisher.handed.length ∧
        request.Brings chain first (base + m) store b ∧
        c.publishing.store.commit batch = request.writes c.publishing.store := by
    intro i batch hbatch
    have hmem := List.mem_of_getElem? hbatch
    obtain ⟨-, -, upload, hupload, hcaptured⟩ := h.batch hmem
    obtain ⟨b, hb, hbrings⟩ := h.commit_brings hchain hs ha hmem hcaptured
    refine ⟨.commit upload batch, b, ?_, hb, hbrings, rfl⟩
    rw [hbatch, Option.bind_some, commitRequest, hupload]
    rfl
  have hflush : ∀ closing state transactions, c.publishing.phase = .flushing closing state transactions →
      ∃ request b, c.flushRequest = some request ∧ b ≤ base + c.publisher.handed.length ∧
        request.Brings chain first (base + m) store b ∧
        c.publishing.store.write state transactions = request.writes c.publishing.store := by
    intro closing state transactions hphase
    obtain ⟨b, hb, hbrings⟩ := h.flush_brings hchain hs ha hm (congr_arg CommitterPhase.flush hphase)
    refine ⟨.flush state transactions, b, ?_, hb, hbrings, rfl⟩
    rw [flushRequest, hphase]
  cases e with
  | prepareState latest inBand =>
    obtain ⟨-, -, -, rfl⟩ := Publishing.step_prepareState hstep
    exact .inl ⟨rfl, rfl⟩
  | prepareTransactions latest inBand =>
    obtain ⟨-, -, -, rfl⟩ := Publishing.step_prepareTransactions hstep
    exact .inl ⟨rfl, rfl⟩
  | send height =>
    obtain ⟨state, transactions, -, -, -, -, rfl⟩ := Publishing.step_send hstep
    exact .inl ⟨rfl, rfl⟩
  | close =>
    obtain ⟨-, rfl⟩ := Publishing.step_close hstep
    exact .inl ⟨rfl, rfl⟩
  | receive =>
    obtain ⟨upload, channel, -, -, rfl⟩ := Publishing.step_receive hstep
    exact .inl ⟨rfl, rfl⟩
  | attempt i =>
    obtain ⟨batch, hbatch, rfl⟩ := Publishing.step_attempt hstep
    exact .inr (hcommit i batch hbatch)
  | land i =>
    obtain ⟨batch, hbatch, rfl⟩ := Publishing.step_land hstep
    exact .inr (hcommit i batch hbatch)
  | join i =>
    obtain ⟨batch, -, -, rfl⟩ := Publishing.step_join hstep
    exact .inl ⟨rfl, rfl⟩
  | mark =>
    obtain ⟨batch, -, rfl⟩ := Publishing.step_mark hstep
    exact .inl ⟨rfl, rfl⟩
  | complete =>
    obtain ⟨-, rfl⟩ := Publishing.step_complete hstep
    exact .inl ⟨rfl, rfl⟩
  | prepareFlush =>
    obtain ⟨closing, -, rfl⟩ := Publishing.step_prepareFlush hstep
    exact .inl ⟨rfl, rfl⟩
  | attemptFlush =>
    obtain ⟨closing, state, transactions, hphase, rfl⟩ := Publishing.step_attemptFlush hstep
    exact .inr (hflush closing state transactions hphase)
  | landFlush =>
    obtain ⟨closing, state, transactions, hphase, rfl⟩ := Publishing.step_landFlush hstep
    exact .inr (hflush closing state transactions hphase)
  | completeFlushed =>
    obtain ⟨closing, -, rfl⟩ := Publishing.step_completeFlushed hstep
    exact .inl ⟨rfl, rfl⟩
  | finish =>
    obtain ⟨-, -, -, rfl⟩ := Publishing.step_finish hstep
    exact .inl ⟨rfl, rfl⟩

/-- A commit that is no longer running has written its rows. -/
theorem Follows.written_step (h : c.Follows chain first published store base) {store' : RemoteStore C D}
    (hrows : store.rows ⊆ store'.rows) (hrequest : ∀ request, c.request e = some request → request.rows ⊆ store'.rows)
    (hstep : c.publishing.step maxInFlight e = some publishing) :
    ∀ i < publishing.received, i ∉ Publishing.numbers publishing.commits → store'.Covers chain (base + i) := by
  have hkept : publishing.received = c.publishing.received → publishing.commits = c.publishing.commits →
      ∀ i < publishing.received, i ∉ Publishing.numbers publishing.commits → store'.Covers chain (base + i) := by
    intro hreceived hcommits i hi hnot
    exact (h.written i (hreceived ▸ hi) (hcommits ▸ hnot)).mono hrows
  cases e with
  | prepareState latest inBand =>
    obtain ⟨-, -, -, rfl⟩ := Publishing.step_prepareState hstep
    exact hkept rfl rfl
  | prepareTransactions latest inBand =>
    obtain ⟨-, -, -, rfl⟩ := Publishing.step_prepareTransactions hstep
    exact hkept rfl rfl
  | send height =>
    obtain ⟨state, transactions, -, -, -, -, rfl⟩ := Publishing.step_send hstep
    exact hkept rfl rfl
  | close =>
    obtain ⟨-, rfl⟩ := Publishing.step_close hstep
    exact hkept rfl rfl
  | receive =>
    obtain ⟨upload, channel, hchannel, -, rfl⟩ := Publishing.step_receive hstep
    obtain ⟨hstaged, -⟩ := h.layout.stage hchannel
    intro i hi hnot
    -- the new number is that of the new commit
    have hnumbers : Publishing.numbers ({ c.publishing with channel := channel, received := c.publishing.received + 1 }.stageAndSpawnCommit
        upload).commits = Publishing.numbers c.publishing.commits ++ [c.publishing.received] := by
      rw [← hstaged.completion]
      exact List.map_append
    rw [hnumbers, List.mem_append, List.mem_singleton, not_or] at hnot
    have hlt : i < c.publishing.received := by
      have : i < c.publishing.received + 1 := hi
      omega
    exact (h.written i hlt hnot.1).mono hrows
  | attempt i =>
    obtain ⟨batch, -, rfl⟩ := Publishing.step_attempt hstep
    exact hkept rfl rfl
  | land k =>
    obtain ⟨batch, hbatch, rfl⟩ := Publishing.step_land hstep
    obtain ⟨-, -, upload, hupload, hcaptured⟩ := h.batch (List.mem_of_getElem? hbatch)
    intro i hi hnot
    by_cases hown : i = batch.upload.completion
    · subst hown
      have hsubset := hrequest (.commit upload batch) (by rw [request, hbatch, Option.bind_some, commitRequest, hupload]; rfl)
      exact ⟨upload, hsubset (List.mem_singleton_self upload), hcaptured⟩
    · refine (h.written i hi fun hmem => ?_).mono hrows
      have hperm := Publishing.numbers_perm (Publishing.cons_eraseIdx_perm hbatch)
      rcases List.mem_cons.1 (hperm.mem_iff.2 hmem) with heq | hmem
      · exact hown heq
      · exact hnot hmem
  | join i =>
    obtain ⟨batch, -, -, rfl⟩ := Publishing.step_join hstep
    exact hkept rfl rfl
  | mark =>
    obtain ⟨batch, -, rfl⟩ := Publishing.step_mark hstep
    exact hkept rfl rfl
  | complete =>
    obtain ⟨-, rfl⟩ := Publishing.step_complete hstep
    exact hkept rfl rfl
  | prepareFlush =>
    obtain ⟨closing, -, rfl⟩ := Publishing.step_prepareFlush hstep
    exact hkept rfl rfl
  | attemptFlush =>
    obtain ⟨closing, state, transactions, -, rfl⟩ := Publishing.step_attemptFlush hstep
    exact hkept rfl rfl
  | landFlush =>
    obtain ⟨closing, state, transactions, -, rfl⟩ := Publishing.step_landFlush hstep
    exact hkept rfl rfl
  | completeFlushed =>
    obtain ⟨closing, -, rfl⟩ := Publishing.step_completeFlushed hstep
    exact hkept rfl rfl
  | finish =>
    obtain ⟨-, -, -, rfl⟩ := Publishing.step_finish hstep
    exact hkept rfl rfl

/-- A later Store, with the same connection. -/
theorem Follows.mono {published' : Nat} {store' : RemoteStore C D} (h : c.Follows chain first published store base)
    (hle : published ≤ published') (hrows : store.rows ⊆ store'.rows) : c.Follows chain first published' store' base := by
  obtain ⟨m, ha, hm⟩ := h.aligned
  exact ⟨h.begun, h.next, h.handed, h.stateLog, h.transactionLog, h.statePrepared, h.transactionsPrepared, h.layout,
    h.completions, ⟨m, ha, hm.trans hle⟩, fun i hi hnot => (h.written i hi hnot).mono hrows⟩

/-- Every event of the tasks keeps the Store at a frontier, and the connection in step with it. -/
theorem Follows.publish (hchain : Consecutive chain) (h : c.Follows chain first published store base)
    (hs : store.Holds chain first published) (hallows : c.allows E e = true)
    (hstep : c.publishing.step maxInFlight e = some publishing) :
    ∃ published', published ≤ published' ∧ published' ≤ max published (base + c.publisher.handed.length) ∧
      ((c.request e).elim store store.apply).Holds chain first published' ∧
      store.rows ⊆ ((c.request e).elim store store.apply).rows ∧
      Connection.Follows chain first published' ((c.request e).elim store store.apply) base
        { c with publishing := publishing } := by
  obtain ⟨m, ha, hm⟩ := h.aligned
  obtain ⟨m', ha'⟩ := ha.step h.layout hstep
  obtain ⟨⟨hstate, hstatePrepared⟩, htransactions, htransactionsPrepared⟩ := h.logs hallows hstep
  have hlayout := h.layout.step hstep
  have hcompletions := h.completions.step ha h.layout hstep
  have hbound := h.handed_le hs
  -- the writers publish at most what the Store has
  have haligned : publishing.store = watermarksAt chain (base + m') ∧ base + m' ≤ chain.length := by
    obtain ⟨hlens, hlent⟩ := hlayout.received_le
    have hle := ha'.le
    refine ⟨?_, by omega⟩
    rw [ha'.store, hstate.mark (hle.trans hlens), htransactions.mark (hle.trans hlent)]
    rfl
  have hmlen : base + m ≤ chain.length := hm.trans hs.bounded
  rcases h.request_brings hchain hs ha hm hstep with ⟨hnone, hstore⟩ | ⟨request, b, hrequest, hb, hbrings, hstore⟩
  · have hrows := List.Subset.refl store.rows
    refine ⟨published, le_rfl, Nat.le_max_left .., ?_⟩
    rw [hnone, Option.elim_none]
    have hsame : base + m' = base + m := by
      refine watermarksAt_inj hchain haligned.2 hmlen ?_
      rw [← haligned.1, hstore, h.publishing_store ha]
    refine ⟨hs, hrows, h.begun, h.next, h.handed, hstate, htransactions, hstatePrepared, htransactionsPrepared, hlayout,
      hcompletions, ⟨m', ha', by omega⟩, h.written_step hrows ?_ hstep⟩
    intro request hrequest
    rw [hnone] at hrequest
    cases hrequest
  · have hrows := store.rows_subset_apply request
    refine ⟨max published b, Nat.le_max_left .., by omega, ?_⟩
    rw [hrequest, Option.elim_some]
    have hmax : base + m' = max (base + m) b := by
      refine watermarksAt_inj hchain haligned.2 (Nat.max_le.2 ⟨hmlen, hbrings.bounded⟩) ?_
      rw [← haligned.1, hstore, h.publishing_store ha]
      exact hbrings.writes _ le_rfl hmlen
    refine ⟨hs.apply hbrings hm, hrows, h.begun, h.next, h.handed, hstate, htransactions, hstatePrepared,
      htransactionsPrepared, hlayout, hcompletions, ⟨m', ha', by omega⟩, h.written_step hrows ?_ hstep⟩
    intro request' hrequest'
    rw [hrequest] at hrequest'
    cases hrequest'
    exact List.subset_append_right _ _

end Publish

/-- An upload whose completion is signalled is published. -/
theorem Follows.signalled (h : c.Follows chain first published store base) {n : Nat}
    (hn : n ∈ c.publishing.signalled) : base + n < published := by
  obtain ⟨m, ha, hm⟩ := h.aligned
  obtain ⟨⟨location, hend, hreached⟩, -⟩ := h.completions.signalled n hn
  obtain ⟨k, hk, hpublished, -⟩ := ha.state
  obtain ⟨hlen, -⟩ := h.layout.received_le
  rw [hpublished] at hreached
  have := (h.layout.stateOrdered.reached_iff (hk.trans (ha.le.trans hlen)) hend).1 hreached
  omega

/-- The publisher is handed the next block. -/
theorem Follows.enqueued (h : c.Follows chain first published store base) {upload : QueuedFinalizedUpload C D}
    (hcaptured : upload.CapturedAt chain upload.index) (hindex : upload.index = base + c.publisher.handed.length) :
    Follows chain first published store base
      { c with publisher := ⟨endsAt chain (upload.index + 1), c.publisher.handed ++ [upload]⟩ } := by
  have hlen : (c.publisher.handed ++ [upload]).length = c.publisher.handed.length + 1 := List.length_append
  refine ⟨h.begun, ?_, ?_, h.stateLog, h.transactionLog, ?_, ?_, h.layout, h.completions, h.aligned, h.written⟩
  · simp only [hlen, hindex, Nat.add_assoc]
  · intro n u hn
    rcases getElem?_concat_some hn with hold | ⟨rfl, rfl⟩
    · exact h.handed n u hold
    · exact hindex ▸ hcaptured
  · have := h.statePrepared
    simp only [hlen]
    omega
  · have := h.transactionsPrepared
    simp only [hlen]
    omega

/-! ## Publishers out of step -/

/-- The positions of the publisher are those of an earlier frontier for the state and of a later one for the
transactions. -/
def Mixed (chain : List (SealedBlock C D)) (c : Connection C D) : Prop :=
  ∃ k j, k < j ∧ j ≤ chain.length ∧ c.publisher.next = ⟨(endsAt chain k).stateNext, (endsAt chain j).transactionNext⟩

/-- A publisher that read the state watermark when the Store had `base` blocks and the other when it had more, and
has done nothing since. -/
structure Stalled (chain : List (SealedBlock C D)) (first published base : Nat) (c : Connection C D) : Prop where
  begun : first ≤ base
  mixed : ∃ k, base < k ∧ k ≤ published ∧
    c = connect ⟨(watermarksAt chain base).state, (watermarksAt chain k).transactions⟩

theorem Stalled.handed (h : c.Stalled chain first published base) : c.publisher.handed = [] := by
  obtain ⟨k, -, -, rfl⟩ := h.mixed
  rfl

theorem Stalled.base_lt (h : c.Stalled chain first published base) : base < published := by
  obtain ⟨k, hlt, hk, -⟩ := h.mixed
  omega

theorem Stalled.mono {published' : Nat} (h : c.Stalled chain first published base) (hle : published ≤ published') :
    c.Stalled chain first published' base := by
  obtain ⟨k, hlt, hk, hc⟩ := h.mixed
  exact ⟨h.begun, k, hlt, hk.trans hle, hc⟩

theorem Stalled.next (h : c.Stalled chain first published base) :
    ∃ k, base < k ∧ k ≤ published ∧
      c.publisher.next = ⟨(endsAt chain base).stateNext, (endsAt chain k).transactionNext⟩ := by
  obtain ⟨k, hlt, hk, rfl⟩ := h.mixed
  refine ⟨k, hlt, hk, ?_⟩
  change StoreWatermarks.nextLocations _ = _
  rw [← nextLocations_watermarksAt, ← nextLocations_watermarksAt]
  rfl

/-- Nothing is handed over, so nothing is prepared, committed or flushed. -/
theorem Stalled.publish_none {E : Env D} {maxInFlight : Nat} (h : c.Stalled chain first published base)
    {e : PublishingEvent} (hallows : c.allows E e = true) : c.publishing.step maxInFlight e = none := by
  obtain ⟨k, -, -, rfl⟩ := h.mixed
  cases e with
  | prepareState latest inBand => cases hallows
  | prepareTransactions latest inBand => cases hallows
  | send height => cases hallows
  | close => cases hallows
  | finish => cases hallows
  | receive | attempt | land | join | mark | complete | prepareFlush | attemptFlush | landFlush | completeFlushed => rfl

theorem Stalled.outstanding (h : c.Stalled chain first published base) : c.outstanding = [] := by
  obtain ⟨k, -, -, rfl⟩ := h.mixed
  rfl

/-- An entry of a published block is answered as completed, and that of the next one is refused. -/
theorem Stalled.enqueue (hchain : Consecutive chain) (h : c.Stalled chain first published base)
    (hbounded : published ≤ chain.length) {upload : QueuedFinalizedUpload C D}
    (hcaptured : upload.CapturedAt chain upload.index) (hle : upload.index ≤ base) :
    (upload.index < base ∧ c.publisher.enqueue true upload = .ok (.ok .completed, c.publisher)) ∨
      c.publisher.enqueue true upload = .ok
        (.error (.writerOutOfSync c.publisher.next.transactionNext upload.transactionStart), c.publisher) := by
  obtain ⟨k, hlt, hk, hnext⟩ := h.next
  have hcontinues := hcaptured.continues hchain
  have hpublisher : c.publisher = ⟨c.publisher.next, c.publisher.handed⟩ := rfl
  rcases Nat.lt_or_eq_of_le hle with hdone | hnew
  · refine .inl ⟨hdone, ?_⟩
    rw [hpublisher]
    refine enqueue_done hcontinues ?_ ?_ _ true
    · rw [hnext]
      exact endsAt_le hchain.state hdone (by omega)
    · rw [hnext]
      exact endsAt_transactionNext_le hchain (by omega) (by omega)
  · right
    have hstate : c.publisher.next.stateNext = upload.stateStart := by
      rw [hnext, ← hnew]
      exact hcaptured.stateStart.symm
    have htransactions : c.publisher.next.transactionNext ≠ upload.transactionStart := by
      rw [hnext, hcaptured.transactionStart, hnew]
      exact (UInt64.ne_of_lt (endsAt_transactionNext_lt hchain _ _ hlt (by omega))).symm
    have hfresh : ¬(upload.stateEnd ≤ c.publisher.next.stateNext ∧
        (endsAt chain (upload.index + 1)).transactionNext ≤ c.publisher.next.transactionNext) := by
      rintro ⟨hstop, -⟩
      rw [hnext, ← hnew, ← hcontinues.stateEnd] at hstop
      exact absurd (UInt64.lt_of_lt_of_le (endsAt_stateNext_lt hchain _ _ (Nat.lt_succ_self _) (by omega)) hstop)
        (UInt64.lt_irrefl _)
    unfold Publisher.enqueue enqueueQueuedFinalized
    simp only [hcontinues.transactionEnd]
    rw [if_neg hfresh, if_neg (not_not.2 hstate), if_pos htransactions]

/-- A publisher that follows the chain from `base` on, or one that is out of step. -/
def Connected (chain : List (SealedBlock C D)) (first published : Nat) (store : RemoteStore C D) (base : Nat)
    (c : Connection C D) : Prop :=
  c.Follows chain first published store base ∨ c.Stalled chain first published base

theorem Connected.begun (h : c.Connected chain first published store base) : first ≤ base :=
  h.elim Follows.begun Stalled.begun

theorem Connected.base_le (h : c.Connected chain first published store base) : base ≤ published :=
  h.elim Follows.base_le fun hstalled => hstalled.base_lt.le

theorem Connected.handed (h : c.Connected chain first published store base) {n : Nat}
    {upload : QueuedFinalizedUpload C D} (hn : c.publisher.handed[n]? = some upload) :
    upload.CapturedAt chain (base + n) := by
  rcases h with hfollows | hstalled
  · exact hfollows.handed n upload hn
  · rw [hstalled.handed] at hn
    cases hn

theorem Connected.mono {published' : Nat} {store' : RemoteStore C D} (h : c.Connected chain first published store base)
    (hle : published ≤ published') (hrows : store.rows ⊆ store'.rows) : c.Connected chain first published' store' base :=
  h.imp (fun hfollows => hfollows.mono hle hrows) fun hstalled => hstalled.mono hle

/-- What a publisher is that has read the two watermarks one after the other. -/
theorem connect_connected (hs : store.Holds chain first published) {k : Nat} (hbegun : first ≤ k) (hk : k ≤ published) :
    (connect ⟨(watermarksAt chain k).state, store.watermarks.transactions⟩ : Connection C D).Connected chain first
      published store k := by
  rcases Nat.lt_or_eq_of_le hk with hlt | rfl
  · exact .inr ⟨hbegun, published, hlt, le_rfl, by rw [hs.watermarks]⟩
  · left
    rw [show (⟨(watermarksAt chain k).state, store.watermarks.transactions⟩ : StoreWatermarks) = store.watermarks by
      rw [hs.watermarks]]
    exact connect_follows hs

theorem Stalled.isMixed (h : c.Stalled chain first published base) (hbounded : published ≤ chain.length) :
    c.Mixed chain := by
  obtain ⟨k, hlt, hk, hnext⟩ := h.next
  exact ⟨base, k, hlt, hk.trans hbounded, hnext⟩

/-- The positions of a frontier are not mixed. -/
theorem not_mixed (hchain : Consecutive chain) {n : Nat} (hn : n ≤ chain.length)
    (hnext : c.publisher.next = endsAt chain n) : ¬c.Mixed chain := by
  rintro ⟨k, j, hlt, hj, hmixed⟩
  rw [hnext] at hmixed
  have hstate := congrArg FinalizedUploadCursor.stateNext hmixed
  have htransactions := congrArg FinalizedUploadCursor.transactionNext hmixed
  rcases Nat.lt_or_ge n j with hnj | hnj
  · exact UInt64.ne_of_lt (endsAt_transactionNext_lt hchain n j hnj hj) htransactions
  · exact (UInt64.ne_of_lt (endsAt_stateNext_lt hchain k n (by omega) hn)).symm hstate

end Connection

end Constantinople
