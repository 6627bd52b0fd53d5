/-
The order of the entries in the finalized-upload queue, across crashes at any point. An entry is captured
at the frontier before its block, and the next one is of the block after it or of the same block again;
of the same only if the block is published, since the scan after a crash misses only entries that were
acknowledged.
-/
import Constantinople.Indexer.Reconnect
import Constantinople.Validator.Recovery

namespace Constantinople

open Run

variable {C D : Type}

/-! ## Entries -/

/-- How many blocks of the chain come before that of the entry. -/
def QueuedFinalizedUpload.index (upload : QueuedFinalizedUpload C D) : Nat := upload.height.toNat - 1

/-- The entry of block `j`, captured at the frontier before it, with as many operations as the state range
has there. -/
structure QueuedFinalizedUpload.CapturedAt (chain : List (SealedBlock C D)) (j : Nat)
    (upload : QueuedFinalizedUpload C D) : Prop where
  block : chain[j]? = some upload.block
  stateStart : upload.stateStart = (endsAt chain j).stateNext
  transactionStart : upload.transactionStart = (endsAt chain j).transactionNext
  delta : upload.stateDelta.length + (endsAt chain j).stateNext.toNat = (endsAt chain (j + 1)).stateNext.toNat

/-- The state database proves as many operations as it is asked for. -/
def ProducerEnv.ProvesRanges (env : ProducerEnv) : Prop :=
  ∀ start stop operations, env.historicalProof start stop = some operations →
    operations.length = stop.toNat - start.toNat

section Entries

variable {chain : List (SealedBlock C D)} {j : Nat} {upload : QueuedFinalizedUpload C D}

theorem QueuedFinalizedUpload.CapturedAt.index (hchain : Consecutive chain) (h : upload.CapturedAt chain j) :
    upload.index = j := by
  have hheight := hchain.height j upload.block h.block
  unfold QueuedFinalizedUpload.index QueuedFinalizedUpload.height
  omega

theorem QueuedFinalizedUpload.CapturedAt.lt_length (h : upload.CapturedAt chain j) : j < chain.length :=
  (List.getElem?_eq_some_iff.1 h.block).1

theorem QueuedFinalizedUpload.CapturedAt.continues (hchain : Consecutive chain) (h : upload.CapturedAt chain j) :
    upload.Continues (endsAt chain j) (endsAt chain (j + 1)) := by
  have hends := fromUpload_endsAt hchain h.block upload.finalizedTsMicros upload.stateDelta
  rw [← h.stateStart, ← h.transactionStart] at hends
  change FinalizedUploadCursor.fromUpload upload = _ at hends
  have hstop := hchain.state j upload.block h.block
  refine ⟨h.stateStart, h.transactionStart, ?_, ?_, ?_⟩
  · rw [h.stateStart]
    exact UInt64.le_of_lt hstop
  · rw [endsAt_succ h.block]
    rfl
  · unfold FinalizedUploadCursor.fromUpload at hends
    split at hends
    · cases hends
    · rename_i stop hstop
      rw [hstop, ← Except.ok.inj hends]

theorem QueuedFinalizedUpload.CapturedAt.ends (hchain : Consecutive chain) (h : upload.CapturedAt chain j) :
    FinalizedUploadCursor.fromUpload upload = .ok (endsAt chain (j + 1)) := by
  have hcontinues := h.continues hchain
  unfold FinalizedUploadCursor.fromUpload
  simp only [hcontinues.transactionEnd, ← hcontinues.stateEnd]

end Entries

/-! ## The order of entries -/

/-- Entries in the order of their blocks, starting with block `first`; only published blocks may have a
second entry. -/
structure QueueOrder (chain : List (SealedBlock C D)) (first published : Nat)
    (uploads : List (QueuedFinalizedUpload C D)) : Prop where
  captured : ∀ upload ∈ uploads, upload.CapturedAt chain upload.index
  start : ∀ upload, uploads[0]? = some upload → upload.index = first
  next : ∀ i upload upload', uploads[i]? = some upload → uploads[i + 1]? = some upload' →
    upload'.index = upload.index + 1 ∨ (upload'.index = upload.index ∧ upload.index < published)

/-- The number of blocks up to the last captured one. -/
def queueTop (first : Nat) (uploads : List (QueuedFinalizedUpload C D)) : Nat :=
  match uploads.getLast? with
  | none => first
  | some upload => upload.index + 1

@[simp] theorem queueTop_nil (first : Nat) : queueTop first ([] : List (QueuedFinalizedUpload C D)) = first := rfl

@[simp] theorem queueTop_concat (first : Nat) (uploads : List (QueuedFinalizedUpload C D))
    (upload : QueuedFinalizedUpload C D) : queueTop first (uploads ++ [upload]) = upload.index + 1 := by
  simp [queueTop]

namespace QueueOrder

variable {chain : List (SealedBlock C D)} {first published : Nat} {uploads : List (QueuedFinalizedUpload C D)}
  {i i' : Nat} {upload upload' : QueuedFinalizedUpload C D}

theorem nil : QueueOrder chain first published ([] : List (QueuedFinalizedUpload C D)) where
  captured := by rintro upload ⟨⟩
  start := by rintro upload ⟨⟩
  next := by rintro i upload upload' ⟨⟩

theorem mono {published' : Nat} (h : QueueOrder chain first published uploads) (hle : published ≤ published') :
    QueueOrder chain first published' uploads where
  captured := h.captured
  start := h.start
  next i upload upload' hi hi' := (h.next i upload upload' hi hi').imp_right fun ⟨heq, hlt⟩ => ⟨heq, hlt.trans_le hle⟩

/-- Entries do not go back, and those of one block come from a published block. -/
theorem index_le (h : QueueOrder chain first published uploads) (hle : i ≤ i') (hi : uploads[i]? = some upload)
    (hi' : uploads[i']? = some upload') :
    upload.index ≤ upload'.index ∧ (i < i' → upload.index = upload'.index → upload.index < published) := by
  induction i', hle using Nat.le_induction generalizing upload' with
  | base =>
    rw [hi] at hi'
    cases hi'
    exact ⟨le_rfl, fun hlt => absurd hlt (Nat.lt_irrefl i)⟩
  | succ k hik ih =>
    have hk : k < uploads.length := Nat.lt_of_succ_lt (List.getElem?_eq_some_iff.1 hi').1
    obtain ⟨hle, hsame⟩ := ih (List.getElem?_eq_getElem hk)
    rcases h.next k _ upload' (List.getElem?_eq_getElem hk) hi' with hnext | ⟨hnext, hlt⟩
    · exact ⟨by omega, fun _ heq => absurd heq (by omega)⟩
    · refine ⟨by omega, fun _ heq => ?_⟩
      rw [heq, hnext]
      exact hlt

theorem first_le (h : QueueOrder chain first published uploads) (hi : uploads[i]? = some upload) :
    first ≤ upload.index := by
  have hpos : 0 < uploads.length := Nat.zero_lt_of_lt (List.getElem?_eq_some_iff.1 hi).1
  have hzero := List.getElem?_eq_getElem hpos
  rw [← h.start _ hzero]
  exact (h.index_le (Nat.zero_le i) hzero hi).1

theorem lt_top (h : QueueOrder chain first published uploads) (hi : uploads[i]? = some upload) :
    upload.index < queueTop first uploads := by
  obtain rfl | ⟨init, last, rfl⟩ := List.eq_nil_or_concat' uploads
  · cases hi
  · rw [queueTop_concat]
    have hlt := (List.getElem?_eq_some_iff.1 hi).1
    rw [List.length_append, List.length_singleton] at hlt
    have hlast : (init ++ [last])[init.length]? = some last := List.getElem?_concat_length
    exact Nat.lt_succ_of_le (h.index_le (Nat.le_of_lt_succ hlt) hi hlast).1

theorem first_le_top (h : QueueOrder chain first published uploads) : first ≤ queueTop first uploads := by
  obtain rfl | ⟨init, last, rfl⟩ := List.eq_nil_or_concat' uploads
  · exact le_rfl
  · have hlast : (init ++ [last])[init.length]? = some last := List.getElem?_concat_length
    exact (h.first_le hlast).trans (h.lt_top hlast).le

theorem top_le (h : QueueOrder chain first published uploads) (hfirst : first ≤ chain.length) :
    queueTop first uploads ≤ chain.length := by
  obtain rfl | ⟨init, last, rfl⟩ := List.eq_nil_or_concat' uploads
  · exact hfirst
  · rw [queueTop_concat]
    exact (h.captured last (List.mem_append_right _ (List.mem_singleton_self last))).lt_length

/-- The next entry is that of the block after the last one, or again that of the last, published one. -/
theorem concat (h : QueueOrder chain first published uploads) (hupload : upload.CapturedAt chain upload.index)
    (htop : queueTop first uploads = upload.index ∨
      (queueTop first uploads = upload.index + 1 ∧ first ≤ upload.index ∧ upload.index < published)) :
    QueueOrder chain first published (uploads ++ [upload]) := by
  constructor
  · intro u hu
    rcases List.mem_append.1 hu with hu | hu
    · exact h.captured u hu
    · obtain rfl := List.mem_singleton.1 hu
      exact hupload
  · intro u hu
    obtain rfl | ⟨init, last, rfl⟩ := List.eq_nil_or_concat' uploads
    · cases hu
      rw [queueTop_nil] at htop
      omega
    · refine h.start u ?_
      rwa [List.getElem?_append_left (by simp)] at hu
  · intro i u u' hi hi'
    have hlt := (List.getElem?_eq_some_iff.1 hi').1
    rw [List.length_append, List.length_singleton] at hlt
    rw [List.getElem?_append_left (by omega)] at hi
    rcases Nat.lt_or_ge (i + 1) uploads.length with hold | hnew
    · rw [List.getElem?_append_left hold] at hi'
      exact h.next i u u' hi hi'
    · -- the new entry, right after the last one
      obtain rfl | ⟨init, last, rfl⟩ := List.eq_nil_or_concat' uploads
      · cases hi
      rw [List.length_append, List.length_singleton] at hnew hlt
      obtain rfl : i = init.length := by omega
      rw [List.getElem?_concat_length] at hi
      rw [show init.length + 1 = (init ++ [last]).length by simp, List.getElem?_concat_length] at hi'
      cases hi
      cases hi'
      rw [queueTop_concat] at htop
      omega

end QueueOrder

/-! ## The producer -/

/-- The order of a node's entries, and where its cursor is: at the frontier before the block being
captured or after it, or empty at the first block. It is before a block that already has an entry only if
the block is published, and empty only while every entry is acknowledged. -/
structure Node.Capturing (chain : List (SealedBlock C D)) (first published : Nat) (s : Node C D) : Prop where
  order : QueueOrder chain first published s.uploads
  top : (queueTop first s.uploads = s.completed ∧ s.phase.written = 0) ∨ queueTop first s.uploads = s.completed + 1
  cursor : s.cursor = endsAt chain s.completed ∨ s.cursor = endsAt chain (s.completed + 1) ∨
    (s.completed = first ∧ s.cursor = default)
  again : s.phase.written = 0 → queueTop first s.uploads = s.completed + 1 →
    s.cursor = endsAt chain (s.completed + 1) ∨ s.completed < published
  persisted : s.phase = .persisted → s.cursor = endsAt chain (s.completed + 1)
  emptied : s.phase.written = 0 → s.completed = first → s.cursor = default →
    ∀ entry ∈ s.queue, entry.acknowledged = true

/-- An iteration that asks the publisher for its positions gets those after some captured blocks. -/
def Node.Asked (chain : List (SealedBlock C D)) (first : Nat) (s : Node C D) (env : ProducerEnv) : Prop :=
  ∀ block height, chain[s.completed]? = some block →
    buildQueuedFinalizedUpload env s.cursor block = .ok (.error (.storeEmptyPastGenesis height)) →
    s.cursor.stateNext = 0 →
    ∃ n, first ≤ n ∧ n ≤ queueTop first s.uploads ∧ env.nextLocations = endsAt chain n

namespace Node

variable {chain : List (SealedBlock C D)} {first published : Nat} {s s' : Node C D}

theorem fresh_capturing : (Node.fresh first : Node C D).Capturing chain first published where
  order := .nil
  top := .inl ⟨rfl, rfl⟩
  cursor := .inr (.inr ⟨rfl, rfl⟩)
  again := by
    intro _ htop
    change first = first + 1 at htop
    omega
  persisted := by rintro ⟨⟩
  emptied _ _ _ := List.forall_mem_nil _

theorem Capturing.mono {published' : Nat} (h : s.Capturing chain first published) (hle : published ≤ published') :
    s.Capturing chain first published' :=
  ⟨h.order.mono hle, h.top, h.cursor, fun hw ht => (h.again hw ht).imp_right fun hlt => hlt.trans_le hle, h.persisted,
    h.emptied⟩

theorem Capturing.deliver (h : s.Capturing chain first published) (hphase : s.phase = .idle) :
    Node.Capturing chain first published { s with phase := .calling } where
  order := h.order
  top := h.top.imp_left fun ⟨htop, _⟩ => ⟨htop, rfl⟩
  cursor := h.cursor
  again _ htop := h.again (congrArg Phase.written hphase) htop
  persisted := by rintro ⟨⟩
  emptied _ := h.emptied (congrArg Phase.written hphase)

/-- The empty cursor is a frontier before the first block of the chain; later it cannot build anything. -/
theorem Capturing.cursor_cases (h : s.Capturing chain first published) :
    s.cursor = endsAt chain s.completed ∨ s.cursor = endsAt chain (s.completed + 1) ∨
      (0 < s.completed ∧ s.completed = first ∧ s.cursor = default) := by
  rcases h.cursor with hat | hpast | ⟨hfirst, hempty⟩
  · exact .inl hat
  · exact .inr (.inl hpast)
  · rcases Nat.eq_zero_or_pos s.completed with hzero | hpos
    · left
      rw [hempty, hzero]
      rfl
    · exact .inr (.inr ⟨hpos, hfirst, hempty⟩)

/-- A cursor at position zero is empty, at the first block. -/
theorem Capturing.empty_cursor (hchain : Consecutive chain) (h : s.Capturing chain first published)
    (hbegun : first ≤ s.completed) {block : SealedBlock C D} (hblock : chain[s.completed]? = some block)
    (hzero : s.cursor.stateNext = 0) : s.completed = first ∧ s.cursor = default := by
  have hlen := (List.getElem?_eq_some_iff.1 hblock).1
  rcases h.cursor with hat | hpast | hempty
  · rcases Nat.eq_zero_or_pos s.completed with hstart | hpos
    · refine ⟨by omega, ?_⟩
      rw [hat, hstart]
      rfl
    · rw [hat] at hzero
      exact absurd hzero (endsAt_ne_zero hchain.state hpos hlen.le)
  · rw [hpast] at hzero
    exact absurd hzero (endsAt_ne_zero hchain.state (Nat.succ_pos _) hlen)
  · exact hempty

theorem Capturing.retry (hchain : Consecutive chain) (h : s.Capturing chain first published)
    (hphase : s.phase = .calling) {env : ProducerEnv} (hasked : s.Asked chain first env) {block : SealedBlock C D}
    {cursor : FinalizedUploadCursor} (hblock : chain[s.completed]? = some block)
    (hiter : enqueueIteration env block s.cursor = .ok (.retry cursor)) :
    Node.Capturing chain first published { s with cursor := cursor } := by
  have hwritten : s.phase.written = 0 := congrArg Phase.written hphase
  have hkept : cursor = s.cursor → Node.Capturing chain first published { s with cursor := cursor } := by
    rintro rfl
    exact h
  rcases h.cursor_cases with hat | hpast | ⟨hpos, hfirst, hempty⟩
  · rw [hat, enqueueIteration_endsAt hchain hblock env, ← hat] at hiter
    split at hiter
    · cases hiter
      exact hkept rfl
    · cases hiter
  · rw [hpast, enqueueIteration_past hchain hblock env, ← hpast] at hiter
    cases hiter
    exact hkept rfl
  · -- the positions of the publisher are those before or after the block
    obtain ⟨height, hbuild⟩ : ∃ height,
        buildQueuedFinalizedUpload env s.cursor block = .ok (.error (.storeEmptyPastGenesis height)) := by
      refine ⟨block.inner.header.height, ?_⟩
      have hpast : (0 : UInt64) = 0 ∧ 1 < block.inner.header.height := by
        refine ⟨rfl, UInt64.lt_iff_toNat_lt.2 ?_⟩
        rw [hchain.height _ block hblock, UInt64.toNat_one]
        omega
      have hvalid : validateWriterRange 0 block.inner.header.stateRange.stop block.inner.header.height =
          .error (.storeEmptyPastGenesis block.inner.header.height) := by
        unfold validateWriterRange
        rw [if_pos hpast]
      rw [hempty]
      unfold buildQueuedFinalizedUpload
      simp only [show (default : FinalizedUploadCursor) = ⟨0, 0⟩ from rfl, hvalid]
    obtain ⟨n, hfirst', htop, hnext⟩ := hasked block height hblock hbuild (by rw [hempty]; rfl)
    rw [hempty, enqueueIteration_empty hchain hblock hpos, hnext] at hiter
    cases hiter
    have hn : n = s.completed ∨ n = s.completed + 1 := by
      rcases h.top with ⟨ht, -⟩ | ht
      · omega
      · omega
    refine ⟨h.order, h.top, ?_, fun _ ht => ?_, ?_, fun _ _ hzero => ?_⟩
    · rcases hn with rfl | rfl
      · exact .inl rfl
      · exact .inr (.inl rfl)
    · rcases h.again hwritten ht with hcursor | hlt
      · -- the cursor was empty
        have hlen := (List.getElem?_eq_some_iff.1 hblock).1
        have hne := endsAt_ne_zero hchain.state (k := s.completed + 1) (Nat.succ_pos _) hlen
        rw [← hcursor, hempty] at hne
        exact absurd rfl hne
      · exact .inr hlt
    · intro hpersisted
      rw [show s.phase = .persisted from hpersisted] at hphase
      cases hphase
    · have hlen := (List.getElem?_eq_some_iff.1 hblock).1
      exact absurd (congrArg FinalizedUploadCursor.stateNext hzero)
        (endsAt_ne_zero hchain.state (k := n) (by omega) (by omega))

/-- An entry is built at the frontier before its block, and captures it. -/
theorem Capturing.built (hchain : Consecutive chain) (h : s.Capturing chain first published) {env : ProducerEnv}
    (hproves : env.ProvesRanges) {block : SealedBlock C D} {upload : QueuedFinalizedUpload C D}
    (hblock : chain[s.completed]? = some block)
    (hiter : enqueueIteration env block s.cursor = .ok (.built upload)) :
    s.cursor = endsAt chain s.completed ∧ upload.CapturedAt chain s.completed := by
  rcases h.cursor_cases with hat | hpast | ⟨hpos, -, hempty⟩
  · refine ⟨hat, ?_⟩
    rw [hat, enqueueIteration_endsAt hchain hblock env] at hiter
    split at hiter
    · cases hiter
    · rename_i delta hdelta
      cases hiter
      refine ⟨hblock, rfl, rfl, ?_⟩
      have hlt := UInt64.lt_iff_toNat_lt.1 (hchain.state _ block hblock)
      rw [endsAt_succ hblock]
      simp only [hproves _ _ _ hdelta]
      omega
  · rw [hpast, enqueueIteration_past hchain hblock env] at hiter
    cases hiter
  · rw [hempty, enqueueIteration_empty hchain hblock hpos] at hiter
    cases hiter

theorem Capturing.write (hchain : Consecutive chain) (h : s.Capturing chain first published) (hbegun : first ≤ s.completed)
    (hphase : s.phase = .calling) {env : ProducerEnv} (hproves : env.ProvesRanges) {block : SealedBlock C D}
    {upload : QueuedFinalizedUpload C D} {next : FinalizedUploadCursor} (hblock : chain[s.completed]? = some block)
    (hiter : enqueueIteration env block s.cursor = .ok (.built upload)) :
    Node.Capturing chain first published { s with queue := s.queue ++ [⟨upload, false⟩], phase := .queued next } := by
  obtain ⟨hcursor, hcaptured⟩ := h.built hchain hproves hblock hiter
  have hindex := hcaptured.index hchain
  have hwritten : s.phase.written = 0 := congrArg Phase.written hphase
  have huploads : Node.uploads { s with queue := s.queue ++ [⟨upload, false⟩], phase := .queued next } =
      s.uploads ++ [upload] := by simp [uploads]
  refine ⟨?_, .inr ?_, h.cursor, ?_, ?_, ?_⟩
  · rw [huploads]
    refine h.order.concat (hindex.symm ▸ hcaptured) ?_
    rw [hindex]
    rcases h.top with ⟨htop, -⟩ | htop
    · exact .inl htop
    · rcases h.again hwritten htop with hpast | hlt
      · -- the cursor is before the block
        have hlen := hcaptured.lt_length
        have heq := endsAt_inj hchain.state hlen.le hlen (hcursor.symm.trans hpast)
        omega
      · exact .inr ⟨htop, hbegun, hlt⟩
  · rw [huploads, queueTop_concat, hindex]
  · rintro ⟨⟩
  · rintro ⟨⟩
  · rintro ⟨⟩

theorem Capturing.persist (h : s.Capturing chain first published) {next : FinalizedUploadCursor}
    (hphase : s.phase = .queued next) (hnext : next = endsAt chain (s.completed + 1)) :
    Node.Capturing chain first published { s with metadata := next.toMetadata, cursor := next, phase := .persisted } := by
  have hwritten : s.phase.written ≠ 0 := by
    rw [hphase]
    exact one_ne_zero
  subst hnext
  refine ⟨h.order, .inr ?_, .inr (.inl rfl), fun hw => absurd hw one_ne_zero, fun _ => rfl,
    fun hw => absurd hw one_ne_zero⟩
  rcases h.top with ⟨-, hw⟩ | htop
  · exact absurd hw hwritten
  · exact htop

theorem Capturing.complete (h : s.Capturing chain first published) (hbegun : first ≤ s.completed)
    (hphase : s.phase = .persisted) :
    Node.Capturing chain first published { s with completed := s.completed + 1, phase := .idle } := by
  have htop : queueTop first s.uploads = s.completed + 1 := by
    rcases h.top with ⟨-, hw⟩ | htop
    · rw [hphase] at hw
      cases hw
    · exact htop
  refine ⟨h.order, .inl ⟨htop, rfl⟩, .inl (h.persisted hphase), fun _ ht => ?_, by rintro ⟨⟩, fun _ hfirst => ?_⟩
  · change queueTop first s.uploads = s.completed + 1 + 1 at ht
    omega
  · change s.completed + 1 = first at hfirst
    omega

theorem Capturing.acknowledge (h : s.Capturing chain first published) (position : Nat) :
    Node.Capturing chain first published
      { s with queue := s.queue.modify position fun entry => { entry with acknowledged := true } } := by
  have huploads := uploads_acknowledge s.queue position
  refine ⟨?_, ?_, h.cursor, ?_, h.persisted, fun hw hfirst hempty entry hentry => ?_⟩
  · rw [uploads, huploads]
    exact h.order
  · rw [uploads, huploads]
    exact h.top
  · rw [uploads, huploads]
    exact h.again
  · obtain ⟨i, hi⟩ := List.mem_iff_getElem?.1 hentry
    simp only [List.getElem?_modify, Option.map_eq_map, Option.map_eq_some_iff] at hi
    obtain ⟨old, hold, rfl⟩ := hi
    split
    · rfl
    · exact h.emptied hw hfirst hempty old (List.mem_of_getElem? hold)

end Node

/-! ## Restarts -/

/-- The cursor the scan ends with is that of a captured block, and that of the last one if its entry is not
acknowledged; it is empty only if there is nothing to scan. -/
theorem QueueOrder.scan {chain : List (SealedBlock C D)} (hchain : Consecutive chain) {first published : Nat} {s : Node C D}
    (h : QueueOrder chain first published s.uploads) {queueCursor : Option FinalizedUploadCursor}
    (hscan : scanFinalizedQueueCursor none s.unacknowledged = .ok queueCursor) :
    ∃ b, queueCursor.getD default = endsAt chain b ∧ b ≤ queueTop first s.uploads ∧
      ((b = 0 ∧ s.unacknowledged = []) ∨ first < b) ∧
      (b = queueTop first s.uploads ∨
        ∀ i entry, s.queue[i]? = some entry → entry.upload.index + 1 = queueTop first s.uploads →
          i + 1 = s.queue.length → entry.acknowledged = true) := by
  have hread : ∀ upload ∈ s.unacknowledged, upload ∈ s.uploads := by
    intro upload hu
    obtain ⟨entry, he, rfl⟩ := List.mem_map.1 hu
    exact List.mem_map_of_mem (List.mem_filter.1 he).1
  have hindexed : ∃ b, queueCursor.getD default = endsAt chain b ∧ b ≤ queueTop first s.uploads ∧
      ((b = 0 ∧ s.unacknowledged = []) ∨ first < b) := by
    have hends : ∀ upload ∈ s.unacknowledged, ∃ next, FinalizedUploadCursor.fromUpload upload = .ok next ∧
        ∃ b, next = endsAt chain b ∧ b ≤ queueTop first s.uploads ∧ first < b := by
      intro upload hu
      obtain ⟨i, hi⟩ := List.mem_iff_getElem?.1 (hread upload hu)
      exact ⟨_, (h.captured upload (hread upload hu)).ends hchain, _, rfl, h.lt_top hi, Nat.lt_succ_of_le (h.first_le hi)⟩
    obtain ⟨last, hlast, hcursor⟩ := scanFinalizedQueueCursor_spec hends (fun c (hc : c ∈ none) => nomatch hc)
    obtain rfl : queueCursor = last := Except.ok.inj (hscan.symm.trans hlast)
    cases queueCursor with
    | none =>
      refine ⟨0, rfl, Nat.zero_le _, .inl ⟨rfl, ?_⟩⟩
      obtain hnil | ⟨init, last, hconcat⟩ := List.eq_nil_or_concat' s.unacknowledged
      · exact hnil
      · obtain ⟨next, hnext, -⟩ := hends last (by rw [hconcat]; simp)
        rw [hconcat] at hscan
        cases scanFinalizedQueueCursor_concat hnext hscan
    | some c =>
      obtain ⟨b, rfl, hb, hfirst⟩ := hcursor c rfl
      exact ⟨b, rfl, hb, .inr hfirst⟩
  obtain hnil | ⟨init, last, hconcat⟩ := List.eq_nil_or_concat' s.queue
  · obtain ⟨b, hb, hle, hpos⟩ := hindexed
    refine ⟨b, hb, hle, hpos, .inr ?_⟩
    rintro i entry hi
    rw [hnil] at hi
    cases hi
  cases hack : last.acknowledged with
  | true =>
    obtain ⟨b, hb, hle, hpos⟩ := hindexed
    refine ⟨b, hb, hle, hpos, .inr fun i entry hi _ hlen => ?_⟩
    rw [hconcat, List.length_append, List.length_singleton] at hlen
    rw [hconcat, show i = init.length by omega, List.getElem?_concat_length] at hi
    cases hi
    exact hack
  | false =>
    -- the last entry is read last
    have huploads : s.uploads = init.map QueueEntry.upload ++ [last.upload] := by simp [Node.uploads, hconcat]
    have hunread : s.unacknowledged = (init.filter fun entry => !entry.acknowledged).map QueueEntry.upload ++ [last.upload] := by
      simp [Node.unacknowledged, hconcat, hack]
    have hmem : last.upload ∈ s.uploads := by
      rw [huploads]
      exact List.mem_append_right _ (List.mem_singleton_self _)
    have hends := (h.captured last.upload hmem).ends hchain
    rw [hunread] at hscan
    obtain rfl := scanFinalizedQueueCursor_concat hends hscan
    obtain ⟨i, hi⟩ := List.mem_iff_getElem?.1 hmem
    have htop : queueTop first s.uploads = last.upload.index + 1 := by rw [huploads, queueTop_concat]
    refine ⟨last.upload.index + 1, rfl, htop.ge, .inr (Nat.lt_succ_of_le (h.first_le hi)), .inl htop.symm⟩

/-- A restart keeps the order. If the last block was captured but its cursor is not recovered, its entry was
acknowledged, so the block is published. -/
theorem Node.Capturing.restart {chain : List (SealedBlock C D)} (hchain : Consecutive chain)
    {first published started returned : Nat} {s s' : Node C D} (h : s.Capturing chain first published)
    (hnode : s.Recoverable chain first started returned) {lost : List Nat} (hs : s.restart lost = .ok s')
    (hpublished : ∀ entry ∈ s'.queue, entry.acknowledged = true → entry.upload.index < published) :
    s'.Capturing chain first published := by
  obtain ⟨queueCursor, hscan, hcursor, -, hcompleted, hphase⟩ := restart_inv hs
  have huploads := restart_uploads hs
  have hwritten : s'.phase.written = 0 := congrArg Phase.written hphase
  have horder : QueueOrder chain first published s'.uploads := huploads ▸ h.order
  obtain ⟨b, hb, hle, hfirst, hlast⟩ := horder.scan hchain hscan
  obtain ⟨k, hreturned, hstarted, hat, hcaptured⟩ := hnode.stored
  have hbegun := hnode.begun
  have hrecorded := hnode.recorded
  have hnext := hnode.next
  have hbounded := hnode.bounded
  have htop : queueTop first s'.uploads = s.completed ∨ queueTop first s'.uploads = s.completed + 1 := by
    rw [huploads]
    exact h.top.imp_left And.left
  -- every block up to the stored cursor is captured
  have hktop : k ≤ queueTop first s'.uploads := by
    rcases Nat.lt_or_ge first k with hlt | hge
    · obtain ⟨upload, hu, hblock⟩ := hcaptured (k - 1) (by omega) (by omega)
      obtain ⟨i, hi⟩ := List.mem_iff_getElem?.1 (huploads ▸ hu)
      have hindex : upload.index = k - 1 := by
        have hheight := hchain.height (k - 1) upload.block hblock
        unfold QueuedFinalizedUpload.index QueuedFinalizedUpload.height
        omega
      have := horder.lt_top hi
      omega
    · exact hge.trans horder.first_le_top
  have htoplen : queueTop first s'.uploads ≤ chain.length := horder.top_le (by omega)
  -- the recovered cursor is the later of two frontiers
  obtain ⟨a, ha, hacases⟩ : ∃ a, (FinalizedUploadCursor.fromMetadata s.metadata).getD default = endsAt chain a ∧
      ((a = 0 ∧ k = first) ∨ (a = k ∧ first < k)) := by
    rcases hat with ⟨hk, hzero⟩ | ⟨hlt, hends⟩
    · exact ⟨0, hzero, .inl ⟨rfl, hk⟩⟩
    · exact ⟨k, hends, .inr ⟨rfl, hlt⟩⟩
  have hmax : s'.cursor = endsAt chain (max a b) := by
    rw [hcursor, recoveredFinalizedUploadCursor, ha, hb]
    exact max_endsAt hchain.state (by omega) (by omega)
  have hcases : max a b = s.completed ∨ max a b = s.completed + 1 ∨ (s.completed = first ∧ max a b = 0) := by omega
  refine ⟨horder, ?_, ?_, fun _ hpast => ?_, fun hpersisted => ?_, fun _ _ hempty entry hentry => ?_⟩
  · rw [hcompleted]
    exact htop.imp_left fun ht => ⟨ht, hwritten⟩
  · rw [hcompleted, hmax]
    rcases hcases with hm | hm | ⟨hm, hm'⟩
    · exact .inl (by rw [hm])
    · exact .inr (.inl (by rw [hm]))
    · exact .inr (.inr ⟨hm, by rw [hm']; rfl⟩)
  · rw [hcompleted] at hpast ⊢
    rcases hlast with hlast | hlast
    · left
      rw [hmax, show max a b = s.completed + 1 by omega]
    · -- the last entry is acknowledged
      right
      obtain hnil | ⟨init, last, hconcat⟩ := List.eq_nil_or_concat' s'.queue
      · rw [show s'.uploads = [] by rw [uploads, hnil]; rfl, queueTop_nil] at hpast
        omega
      · have hlastTop : last.upload.index + 1 = queueTop first s'.uploads := by
          rw [show s'.uploads = init.map QueueEntry.upload ++ [last.upload] by simp [uploads, hconcat], queueTop_concat]
        have hack := hlast init.length last (by rw [hconcat, List.getElem?_concat_length]) hlastTop (by simp [hconcat])
        have hlt := hpublished last (by rw [hconcat]; simp) hack
        omega
  · rw [hphase] at hpersisted
    cases hpersisted
  · -- an entry that is not acknowledged would have been scanned
    have hzero : b = 0 := by
      by_contra hne
      rw [hmax] at hempty
      exact endsAt_ne_zero hchain.state (k := max a b) (by omega) (by omega)
        (congrArg FinalizedUploadCursor.stateNext hempty)
    obtain ⟨-, hnone⟩ : b = 0 ∧ s'.unacknowledged = [] := hfirst.resolve_right (by omega)
    by_contra hunread
    have hmem : entry.upload ∈ s'.unacknowledged :=
      List.mem_map_of_mem (List.mem_filter.2 ⟨hentry, by simpa using hunread⟩)
    rw [hnone] at hmem
    cases hmem

end Constantinople
