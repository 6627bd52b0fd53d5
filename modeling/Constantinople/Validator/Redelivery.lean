/-
Redelivery of a finalized block after a crash. Once the queue entry of a block is durable, a restart
finds the block captured, and the redelivered hook call cannot return without capturing it again: at
the recovered cursor it retries forever, unless the entry was acknowledged before its cursor was stored.
In runs that crash only before the queue write or after the caller has recorded the call, every block is
captured exactly once and every call can return.
-/
import Constantinople.Validator.Frontier

namespace Constantinople

open Run

variable {C D : Type}

/-! ## Nodes in step -/

/-- Entries of the running call that are already in the queue. -/
def Phase.written : Phase → Nat
  | .idle | .calling => 0
  | .queued _ | .persisted => 1

/-- Entries of the running call that the stored cursor covers. -/
def Phase.stored : Phase → Nat
  | .idle | .calling | .queued _ => 0
  | .persisted => 1

theorem Phase.calling_or_written : ∀ {phase : Phase}, phase ≠ .idle → phase = .calling ∨ phase.written = 1
  | .idle, h => absurd rfl h
  | .calling, _ => .inl rfl
  | .queued _, _ => .inr rfl
  | .persisted, _ => .inr rfl

/-- The blocks from `first` on, up to the one being captured, are each in the queue once and in order;
the stored and the volatile cursor are at the frontier of what the caller or the metadata covers. -/
structure Node.InStep (chain : List (SealedBlock C D)) (first : Nat) (s : Node C D) : Prop where
  started : first ≤ s.completed
  bounded : s.completed + s.phase.written ≤ chain.length
  captured : s.uploads.map QueuedFinalizedUpload.block = (chain.take (s.completed + s.phase.written)).drop first
  ends : ∀ i upload, s.uploads[i]? = some upload →
    FinalizedUploadCursor.fromUpload upload = .ok (endsAt chain (first + i + 1))
  metadata : AtFrontier chain first (s.completed + s.phase.stored)
    ((FinalizedUploadCursor.fromMetadata s.metadata).getD default)
  cursor : AtFrontier chain first (s.completed + s.phase.stored) s.cursor
  next : ∀ next, s.phase = .queued next → next = endsAt chain (s.completed + 1)

namespace Node

variable {chain : List (SealedBlock C D)} {first : Nat} {s s' : Node C D}

theorem InStep.length (h : s.InStep chain first) : first + s.uploads.length = s.completed + s.phase.written := by
  have hlen := congrArg List.length h.captured
  rw [List.length_map, List.length_drop, List.length_take, min_eq_left h.bounded] at hlen
  have := h.started
  omega

theorem fresh_inStep (hfirst : first ≤ chain.length) : (Node.fresh first : Node C D).InStep chain first where
  started := le_rfl
  bounded := hfirst
  captured := by
    simp only [uploads, fresh, Phase.written, List.map_nil, Nat.add_zero]
    rw [List.drop_eq_nil_of_le (List.length_take_le ..)]
  ends := by rintro i upload ⟨⟩
  metadata := .inr ⟨rfl, rfl⟩
  cursor := .inr ⟨rfl, rfl⟩
  next := by rintro next ⟨⟩

/-- Losing acknowledgements does not change the entries. -/
theorem uploads_lost (queue : List (QueueEntry C D)) (lost : List Nat) :
    (queue.mapIdx fun i entry => if i ∈ lost then { entry with acknowledged := false } else entry).map
      QueueEntry.upload = queue.map QueueEntry.upload := by
  apply List.ext_getElem?
  intro i
  rw [List.getElem?_map, List.getElem?_map, List.getElem?_mapIdx]
  cases queue[i]? with
  | none => rfl
  | some entry =>
    simp only [Option.map_some, Option.some.injEq]
    split <;> rfl

/-- Acknowledging an entry does not change the entries. -/
theorem uploads_acknowledge (queue : List (QueueEntry C D)) (j : Nat) :
    (queue.modify j fun entry => { entry with acknowledged := true }).map QueueEntry.upload =
      queue.map QueueEntry.upload := by
  apply List.ext_getElem?
  intro i
  rw [List.getElem?_map, List.getElem?_map, List.getElem?_modify]
  cases queue[i]? with
  | none => rfl
  | some entry =>
    simp only [Option.map_eq_map, Option.map_some, Option.some.injEq]
    split <;> rfl

/-- The frontiers of the entries in the queue. -/
theorem InStep.mem_ends (h : s.InStep chain first) {upload : QueuedFinalizedUpload C D} (hu : upload ∈ s.uploads) :
    ∃ next, FinalizedUploadCursor.fromUpload upload = .ok next ∧
      ∃ j, first < j ∧ j ≤ s.completed + s.phase.written ∧ next = endsAt chain j := by
  obtain ⟨i, hi⟩ := List.mem_iff_getElem?.1 hu
  have hlt := (List.getElem?_eq_some_iff.1 hi).1
  have hlen := h.length
  exact ⟨_, h.ends i upload hi, first + i + 1, by omega, by omega, rfl⟩

/-- A restart comes up when the frontier of every entry can be read: the cursor is recovered from the
stored one and that of an entry, and is stored. -/
theorem restart_ok {P : FinalizedUploadCursor → Prop} (lost : List Nat)
    (h : ∀ upload ∈ s.uploads, ∃ next, FinalizedUploadCursor.fromUpload upload = .ok next ∧ P next) :
    ∃ s' : Node C D, s.restart lost = .ok s' ∧
      s'.queue = (s.queue.mapIdx fun i entry => if i ∈ lost then { entry with acknowledged := false } else entry) ∧
      s'.completed = s.completed ∧ s'.phase = .idle ∧
      FinalizedUploadCursor.fromMetadata s'.metadata = some s'.cursor ∧
      ∃ queueCursor, s'.cursor =
          recoveredFinalizedUploadCursor (FinalizedUploadCursor.fromMetadata s.metadata) queueCursor ∧
        ∀ c ∈ queueCursor, P c := by
  set queue := s.queue.mapIdx fun i entry => if i ∈ lost then { entry with acknowledged := false } else entry
    with hqueue
  have hsame : queue.map QueueEntry.upload = s.uploads := uploads_lost s.queue lost
  -- the entries a reader gets are among those ever written
  have hread : ∀ upload ∈ (queue.filter fun entry => !entry.acknowledged).map QueueEntry.upload, upload ∈ s.uploads := by
    intro upload hu
    obtain ⟨entry, he, rfl⟩ := List.mem_map.1 hu
    rw [← hsame]
    exact List.mem_map_of_mem (List.mem_filter.1 he).1
  obtain ⟨last, hscan, hlast⟩ := scanFinalizedQueueCursor_spec
    (fun upload hu => h upload (hread upload hu)) (fun c (hc : c ∈ none) => nomatch hc)
  unfold Node.restart
  simp only [← hqueue, unacknowledged, hscan]
  refine ⟨_, rfl, rfl, rfl, rfl, ?_, last, rfl, hlast⟩
  split
  · rfl
  · rename_i heq
    exact not_not.1 heq

/-- What a restart that has come up did. -/
theorem restart_inv {lost : List Nat} (h : s.restart lost = .ok s') :
    ∃ queueCursor, scanFinalizedQueueCursor none s'.unacknowledged = .ok queueCursor ∧
      s'.cursor = recoveredFinalizedUploadCursor (FinalizedUploadCursor.fromMetadata s.metadata) queueCursor ∧
      s'.queue = (s.queue.mapIdx fun i entry => if i ∈ lost then { entry with acknowledged := false } else entry) ∧
      s'.completed = s.completed ∧ s'.phase = .idle := by
  unfold Node.restart at h
  simp only at h
  split at h
  · cases h
  · rename_i queueCursor hscan
    cases h
    exact ⟨queueCursor, hscan, rfl, rfl, rfl, rfl⟩

theorem restart_uploads {lost : List Nat} (h : s.restart lost = .ok s') : s'.uploads = s.uploads := by
  obtain ⟨-, -, -, hqueue, -⟩ := restart_inv h
  rw [uploads, hqueue]
  exact uploads_lost s.queue lost

/-- Every restart comes up, with the same entries. -/
theorem InStep.restart (h : s.InStep chain first) (lost : List Nat) :
    ∃ s' : Node C D, s.restart lost = .ok s' ∧ s'.uploads = s.uploads ∧ s'.completed = s.completed ∧ s'.phase = .idle ∧
      FinalizedUploadCursor.fromMetadata s'.metadata = some s'.cursor ∧
      ∃ queueCursor, s'.cursor =
          recoveredFinalizedUploadCursor (FinalizedUploadCursor.fromMetadata s.metadata) queueCursor ∧
        ∀ c ∈ queueCursor, ∃ j, first < j ∧ j ≤ s.completed + s.phase.written ∧ c = endsAt chain j := by
  obtain ⟨s', hs', -, hrest⟩ := restart_ok lost (fun upload hu => h.mem_ends hu)
  exact ⟨s', hs', restart_uploads hs', hrest⟩

end Node

/-! ## Runs -/

/-- A retry that asks the Store finds the positions the node started from. -/
def StoreKept (chain : List (SealedBlock C D)) (first : Nat) (s : Node C D) : NodeEvent → Prop
  | .retry env => StoreAtFirst chain first s.completed env
  | _ => True

/-- A crash before the queue write of the running call, or between two calls. -/
def CrashBetween (s : Node C D) : NodeEvent → Prop
  | .crash _ => s.phase = .idle ∨ s.phase = .calling
  | _ => True

namespace Node

variable {chain : List (SealedBlock C D)} {first : Nat} {s s' : Node C D} {event : NodeEvent}

theorem step_deliver (h : s.step chain .deliver = some s') :
    s.phase = .idle ∧ s.completed < chain.length ∧ s' = { s with phase := .calling } := by
  simp only [Node.step] at h
  split at h
  · rename_i hidle
    cases h
    exact ⟨hidle.1, hidle.2, rfl⟩
  · cases h

theorem step_persist (h : s.step chain .persist = some s') :
    ∃ next, s.phase = .queued next ∧ s' = { s with metadata := next.toMetadata, cursor := next, phase := .persisted } := by
  simp only [Node.step] at h
  split at h
  · rename_i next hphase
    cases h
    exact ⟨next, hphase, rfl⟩
  · cases h

theorem step_complete (h : s.step chain .complete = some s') :
    s.phase = .persisted ∧ s' = { s with completed := s.completed + 1, phase := .idle } := by
  simp only [Node.step] at h
  split at h
  · rename_i hphase
    cases h
    exact ⟨hphase, rfl⟩
  · cases h

theorem step_retry {env : ProducerEnv} (h : s.step chain (.retry env) = some s') :
    s.phase = .calling ∧ ∃ block cursor, chain[s.completed]? = some block ∧
      enqueueIteration env block s.cursor = .ok (.retry cursor) ∧ s' = { s with cursor := cursor } := by
  simp only [Node.step] at h
  split at h
  · rename_i block hphase hblock
    split at h
    · rename_i cursor hiter
      cases h
      exact ⟨hphase, block, cursor, hblock, hiter, rfl⟩
    · cases h
  · cases h

theorem step_write {env : ProducerEnv} (h : s.step chain (.write env) = some s') :
    s.phase = .calling ∧ ∃ block upload next, chain[s.completed]? = some block ∧
      enqueueIteration env block s.cursor = .ok (.built upload) ∧ FinalizedUploadCursor.fromUpload upload = .ok next ∧
      s' = { s with queue := s.queue ++ [⟨upload, false⟩], phase := .queued next } := by
  simp only [Node.step] at h
  split at h
  · rename_i block hphase hblock
    split at h
    · rename_i upload hiter
      split at h
      · cases h
      · rename_i next hnext
        cases h
        exact ⟨hphase, block, upload, next, hblock, hiter, hnext, rfl⟩
    · cases h
  · cases h

theorem step_writeFailed {env : ProducerEnv} (h : s.step chain (.writeFailed env) = some s') : s' = s := by
  simp only [Node.step] at h
  split at h
  · split at h
    · cases h; rfl
    · cases h
  · cases h

theorem step_crash {lost : List Nat} (h : s.step chain (.crash lost) = some s') : s.restart lost = .ok s' := by
  simp only [Node.step] at h
  cases hrestart : s.restart lost with
  | error panic => rw [hrestart] at h; cases h
  | ok s₁ => rw [hrestart] at h; cases h; rfl

/-- The queue write appends the entry of the delivered block. -/
theorem InStep.write (hchain : Consecutive chain) (h : s.InStep chain first) (hphase : s.phase = .calling)
    {block : SealedBlock C D} {env : ProducerEnv} {upload : QueuedFinalizedUpload C D} {next : FinalizedUploadCursor}
    (hblock : chain[s.completed]? = some block) (hiter : enqueueIteration env block s.cursor = .ok (.built upload))
    (hnext : FinalizedUploadCursor.fromUpload upload = .ok next) :
    Node.InStep chain first { s with queue := s.queue ++ [⟨upload, false⟩], phase := .queued next } := by
  have hcursor := h.cursor
  have hmetadata := h.metadata
  have hcaptured := h.captured
  have hlength := h.length
  simp only [hphase, Phase.stored, Phase.written, Nat.add_zero] at hcursor hmetadata hcaptured hlength
  obtain ⟨hupload, hends⟩ := hcursor.built hchain hblock hiter
  obtain rfl : next = endsAt chain (s.completed + 1) := Except.ok.inj (hnext.symm.trans hends)
  have huploads : Node.uploads { s with queue := s.queue ++ [⟨upload, false⟩], phase := .queued (endsAt chain (s.completed + 1)) } =
      s.uploads ++ [upload] := by simp [uploads]
  have hlt := (List.getElem?_eq_some_iff.1 hblock).1
  constructor
  · exact h.started
  · exact hlt
  · rw [huploads, List.map_append, hcaptured]
    simp only [Phase.written]
    rw [List.take_add_one, hblock, List.drop_append_of_le_length (by rw [List.length_take]; have := h.started; omega)]
    simp [hupload]
  · intro i u hu
    rw [huploads] at hu
    rcases getElem?_concat_some hu with hold | ⟨rfl, rfl⟩
    · exact h.ends i u hold
    · rw [hends, hlength]
  · exact hmetadata
  · exact hcursor
  · rintro next ⟨⟩
    rfl

/-- A restart of a call that has not written its entry is in step. -/
theorem InStep.crash (hchain : Consecutive chain) (h : s.InStep chain first) (hphase : s.phase.written = 0)
    {lost : List Nat} (hrestart : s.restart lost = .ok s') : s'.InStep chain first := by
  obtain ⟨s₁, hs₁, huploads, hcompleted, hidle, hmetadata, queueCursor, hcursor, hqueue⟩ := h.restart lost
  obtain rfl : s₁ = s' := Except.ok.inj (hs₁.symm.trans hrestart)
  have hstored : s.phase.stored = 0 := by
    cases hp : s.phase with
    | idle => rfl
    | calling => rfl
    | queued next => rfl
    | persisted => rw [hp] at hphase; cases hphase
  have hold := h.metadata
  have hbounded := h.bounded
  rw [hphase] at hbounded hqueue
  rw [hstored] at hold
  have hfrontier : AtFrontier chain first s₁.completed s₁.cursor := by
    rw [hcursor, hcompleted]
    exact AtFrontier.recovered hchain hbounded hold hqueue
  constructor
  · rw [hcompleted]; exact h.started
  · rw [hcompleted, hidle]; exact hbounded
  · have hcaptured := h.captured
    rw [hphase] at hcaptured
    rw [huploads, hcompleted, hidle]
    exact hcaptured
  · rw [huploads]; exact h.ends
  · rw [hmetadata, hidle]; exact hfrontier
  · rw [hidle]; exact hfrontier
  · intro next hnext
    rw [hidle] at hnext
    cases hnext

/-- Every event of a run that crashes only before queue writes or between calls keeps the node in step. -/
theorem InStep.step (hchain : Consecutive chain) (h : s.InStep chain first) (hstore : StoreKept chain first s event)
    (hcrash : CrashBetween s event) (hstep : s.step chain event = some s') : s'.InStep chain first := by
  have ⟨hstarted, hbounded, hcaptured, hends, hmetadata, hcursor, hnext⟩ := h
  cases event with
  | deliver =>
    obtain ⟨hidle, -, rfl⟩ := step_deliver hstep
    rw [hidle] at hbounded hcaptured hmetadata hcursor
    exact ⟨hstarted, hbounded, hcaptured, hends, hmetadata, hcursor, by rintro next ⟨⟩⟩
  | retry env =>
    obtain ⟨hphase, block, cursor, hblock, hiter, rfl⟩ := step_retry hstep
    refine ⟨hstarted, hbounded, hcaptured, hends, hmetadata, ?_, hnext⟩
    simp only [hphase, Phase.stored, Nat.add_zero] at hcursor ⊢
    exact hcursor.retry hchain hblock hstore hiter
  | write env =>
    obtain ⟨hphase, block, upload, next, hblock, hiter, hupload, rfl⟩ := step_write hstep
    exact h.write hchain hphase hblock hiter hupload
  | writeFailed env =>
    obtain rfl := step_writeFailed hstep
    exact h
  | persist =>
    obtain ⟨next, hphase, rfl⟩ := step_persist hstep
    obtain rfl := hnext next hphase
    rw [hphase] at hbounded hcaptured
    exact ⟨hstarted, hbounded, hcaptured, hends, .inl rfl, .inl rfl, by rintro next ⟨⟩⟩
  | complete =>
    obtain ⟨hphase, rfl⟩ := step_complete hstep
    rw [hphase] at hbounded hcaptured hmetadata hcursor
    exact ⟨Nat.le_succ_of_le hstarted, hbounded, hcaptured, hends, hmetadata, hcursor, by rintro next ⟨⟩⟩
  | acknowledge i =>
    cases hstep
    have huploads : Node.uploads { s with queue := s.queue.modify i fun entry => { entry with acknowledged := true } } =
        s.uploads := uploads_acknowledge s.queue i
    exact ⟨hstarted, hbounded, by rw [huploads]; exact hcaptured, by rw [huploads]; exact hends, hmetadata, hcursor, hnext⟩
  | crash lost =>
    -- the condition on crashes leaves the two phases without an entry in the queue
    have hwritten : s.phase.written = 0 := by
      rcases hcrash with hphase | hphase
      · rw [hphase]; rfl
      · rw [hphase]; rfl
    exact h.crash hchain hwritten (step_crash hstep)

/-- The hook call for `block` returns from here: whatever two iterations find outside, as long as
the state database proves the operations of the block. -/
def Returns (chain : List (SealedBlock C D)) (first : Nat) (s : Node C D) (block : SealedBlock C D) : Prop :=
  ∀ env env' : ProducerEnv, StoreAtFirst chain first s.completed env →
    (∀ e ∈ [env, env'],
      (e.historicalProof (endsAt chain s.completed).stateNext block.inner.header.stateRange.stop).isSome) →
    ∃ upload, enqueueLoop block s.cursor [env, env'] = .ok (some upload) ∧ upload.block = block

theorem InStep.returns (hchain : Consecutive chain) (h : s.InStep chain first) (hphase : s.phase = .calling)
    {block : SealedBlock C D} (hblock : chain[s.completed]? = some block) : s.Returns chain first block := by
  intro env env' henv hproof
  have hcursor := h.cursor
  rw [hphase] at hcursor
  exact hcursor.returns hchain hblock henv hproof

/-- The next block is not among those captured before its queue write. -/
theorem InStep.not_captured (hchain : Consecutive chain) (h : s.InStep chain first) (hphase : s.phase.written = 0)
    {block : SealedBlock C D} (hblock : chain[s.completed]? = some block) :
    block ∉ s.uploads.map QueuedFinalizedUpload.block := by
  intro hmem
  rw [h.captured, hphase] at hmem
  obtain ⟨j, hj⟩ := List.mem_iff_getElem?.1 (List.mem_of_mem_drop hmem)
  rw [List.getElem?_take] at hj
  split at hj
  · rename_i hlt
    have := hchain.height j block hj
    have := hchain.height _ block hblock
    omega
  · cases hj

/-- From its queue write on, the block of the running call is captured. -/
theorem InStep.captured_of_written (h : s.InStep chain first) (hphase : s.phase.written = 1)
    {block : SealedBlock C D} (hblock : chain[s.completed]? = some block) :
    block ∈ s.uploads.map QueuedFinalizedUpload.block := by
  rw [h.captured, hphase]
  refine List.mem_iff_getElem?.2 ⟨s.completed - first, ?_⟩
  have := h.started
  rw [List.getElem?_drop, List.getElem?_take, if_pos (by omega), ← hblock]
  congr 1
  omega

/-- The cursor was stored, or the last entry is there for the scan. -/
def Recovers (phase : Phase) (queue : List (QueueEntry C D)) : Prop :=
  phase = .persisted ∨ ∃ entry ∈ queue.getLast?, entry.acknowledged = false

/-- What the scan finds after a crash of a call that has written its entry: this entry, which is the last one, or, if it
is acknowledged, those of earlier blocks. -/
theorem InStep.scan_written (h : s.InStep chain first) (hwritten : s.phase.written = 1) (huploads : s'.uploads = s.uploads)
    {queueCursor : Option FinalizedUploadCursor} (hscan : scanFinalizedQueueCursor none s'.unacknowledged = .ok queueCursor) :
    ∃ entry ∈ s'.queue.getLast?,
      (entry.acknowledged = false ∧ queueCursor = some (endsAt chain (s.completed + 1))) ∨
      (entry.acknowledged = true ∧ ∀ c ∈ queueCursor, ∃ j, first < j ∧ j ≤ s.completed ∧ c = endsAt chain j) := by
  have hlength := h.length
  have hstarted := h.started
  rw [hwritten, ← huploads, uploads, List.length_map] at hlength
  obtain hnil | ⟨init, entry, hconcat⟩ := List.eq_nil_or_concat' s'.queue
  · rw [hnil, List.length_nil] at hlength
    omega
  rw [hconcat, List.length_append, List.length_singleton] at hlength
  have hends : ∀ (i : Nat) (e : QueueEntry C D), (init ++ [entry])[i]? = some e →
      FinalizedUploadCursor.fromUpload e.upload = .ok (endsAt chain (first + i + 1)) := by
    intro i e he
    refine h.ends i e.upload ?_
    rw [← huploads, uploads, hconcat, List.getElem?_map, he]
    rfl
  refine ⟨entry, by rw [hconcat]; simp, ?_⟩
  rw [Node.unacknowledged, hconcat, List.filter_append, List.map_append, List.filter_singleton] at hscan
  cases hack : entry.acknowledged with
  | false =>
    have hlast := hends init.length entry List.getElem?_concat_length
    rw [show first + init.length + 1 = s.completed + 1 by omega] at hlast
    rw [hack] at hscan
    exact .inl ⟨rfl, scanFinalizedQueueCursor_concat hlast hscan⟩
  | true =>
    have hinit : ∀ upload ∈ (init.filter fun e => !e.acknowledged).map QueueEntry.upload, ∃ next,
        FinalizedUploadCursor.fromUpload upload = .ok next ∧ ∃ j, first < j ∧ j ≤ s.completed ∧ next = endsAt chain j := by
      intro upload hu
      obtain ⟨e, he, rfl⟩ := List.mem_map.1 hu
      obtain ⟨i, hi⟩ := List.mem_iff_getElem?.1 (List.mem_filter.1 he).1
      have hlt := (List.getElem?_eq_some_iff.1 hi).1
      exact ⟨_, hends i e ((List.getElem?_append_left hlt).trans hi), first + i + 1, by omega, by omega, rfl⟩
    obtain ⟨last, hlast, hearlier⟩ := scanFinalizedQueueCursor_spec hinit (fun c (hc : c ∈ none) => nomatch hc)
    simp only [hack, Bool.not_true, cond_false, List.map_nil, List.append_nil] at hscan
    obtain rfl := Except.ok.inj (hscan.symm.trans hlast)
    exact .inr ⟨rfl, hearlier⟩

/-- After such a crash the cursor is past the block if it was stored or the entry is scanned, and otherwise where the
call started. -/
theorem InStep.crash_written (hchain : Consecutive chain) (h : s.InStep chain first) (hwritten : s.phase.written = 1)
    {lost : List Nat} (hrestart : s.restart lost = .ok s') :
    (Recovers s.phase s'.queue → s'.cursor = endsAt chain (s.completed + 1)) ∧
      (¬Recovers s.phase s'.queue → AtFrontier chain first s.completed s'.cursor) := by
  obtain ⟨queueCursor, hscan, hcursor, -⟩ := restart_inv hrestart
  have huploads := restart_uploads hrestart
  have hstarted := h.started
  have hbounded := h.bounded
  have hmetadata := h.metadata
  rw [hwritten] at hbounded
  obtain ⟨entry, hentry, ⟨hunread, rfl⟩ | ⟨hack, hearlier⟩⟩ := h.scan_written hwritten huploads hscan
  · refine ⟨fun _ => ?_, fun hnot => absurd (.inr ⟨entry, hentry, hunread⟩) hnot⟩
    have hstored : s.phase.stored ≤ 1 := by cases s.phase <;> simp [Phase.stored]
    rw [hcursor]
    exact AtFrontier.recovered_entry hchain hmetadata (by omega) hbounded
  · constructor
    · rintro (hphase | ⟨other, hother, hunread⟩)
      · have hat : AtFrontier chain first (s.completed + 1) s'.cursor := by
          rw [hphase] at hmetadata
          rw [hcursor]
          refine AtFrontier.recovered hchain hbounded hmetadata ?_
          intro c hc
          obtain ⟨j, hj, hj', rfl⟩ := hearlier c hc
          exact ⟨j, hj, by omega, rfl⟩
        exact hat.resolve_right (by rintro ⟨heq, -⟩; omega)
      · obtain rfl := Option.some.inj (hentry.symm.trans hother)
        rw [hack] at hunread
        cases hunread
    · intro hnot
      have hstored : s.phase.stored = 0 := by
        cases hphase : s.phase with
        | persisted => exact absurd (.inl hphase) hnot
        | idle | calling | queued => rfl
      rw [hstored] at hmetadata
      rw [hcursor]
      exact AtFrontier.recovered hchain (by omega) hmetadata hearlier

/-- Every crash is followed by a restart and the redelivery of the same block. -/
theorem InStep.redelivered (h : s.InStep chain first) (lost : List Nat) {block : SealedBlock C D}
    (hblock : chain[s.completed]? = some block) :
    ∃ s' : Node C D, s.restart lost = .ok s' ∧ s'.completed = s.completed ∧ s'.uploads = s.uploads ∧
      s.step chain (.crash lost) = some s' ∧ s'.step chain .deliver = some { s' with phase := .calling } := by
  obtain ⟨s', hs', huploads, hcompleted, hidle, -⟩ := h.restart lost
  have hlt := (List.getElem?_eq_some_iff.1 hblock).1
  rw [← hcompleted] at hlt
  refine ⟨s', hs', hcompleted, huploads, ?_, ?_⟩
  · simp only [Node.step, hs', Except.toOption]
  · simp only [Node.step, hidle, hlt, and_self, ↓reduceIte]

/-- The steps of a run whose crashes all come before a queue write or between two calls. -/
def Guarded (chain : List (SealedBlock C D)) (first : Nat) (s : Node C D) (event : NodeEvent) (s' : Node C D) : Prop :=
  StoreKept chain first s event ∧ CrashBetween s event ∧ s.step chain event = some s'

theorem enqueueLoop_stuck {block : SealedBlock C D} {cursor : FinalizedUploadCursor}
    (h : ∀ env, enqueueIteration env block cursor = .ok (.retry cursor)) :
    ∀ envs, enqueueLoop block cursor envs = .ok none
  | [] => rfl
  | env :: envs => by
    simp only [enqueueLoop, h env]
    exact enqueueLoop_stuck h envs

/-- In every run whose crashes come before the queue write of the running call or between two calls,
each finalized block is captured exactly once, in order, and the call for the next block returns.
A crash in a call is followed by such a redelivery exactly when it comes before the queue write. After
the write the redelivered call never returns, unless the entry was acknowledged before its cursor was
stored; then it captures the block once more. -/
theorem redelivery_idempotent (hchain : Consecutive chain) (hfirst : first ≤ chain.length) {events : List NodeEvent}
    (h : Trace (Guarded chain first) (Node.fresh first) events s) :
    s.uploads.map QueuedFinalizedUpload.block = (chain.take (s.completed + s.phase.written)).drop first ∧
    (∀ block, s.phase = .calling → chain[s.completed]? = some block → s.Returns chain first block) ∧
    ∀ lost block, s.phase ≠ .idle → chain[s.completed]? = some block →
      ∃ s', run (Node.step chain) s [.crash lost, .deliver] = some s' ∧
        (s'.Returns chain first block ∧ block ∉ s'.uploads.map QueuedFinalizedUpload.block ↔ s.phase = .calling) ∧
        (s.phase ≠ .calling → block ∈ s'.uploads.map QueuedFinalizedUpload.block ∧
          (Recovers s.phase s'.queue → ∀ envs, enqueueLoop block s'.cursor envs = .ok none) ∧
          (¬Recovers s.phase s'.queue → s'.Returns chain first block)) := by
  have hin : s.InStep chain first := Trace.invariant (I := InStep chain first)
    (fun _ _ _ hs hstep => hs.step hchain hstep.1 hstep.2.1 hstep.2.2) (fresh_inStep hfirst) h
  refine ⟨hin.captured, fun block hphase hblock => hin.returns hchain hphase hblock, ?_⟩
  intro lost block hidle hblock
  obtain ⟨s', hs', hcompleted, huploads, hcrash, hdeliver⟩ := hin.redelivered lost hblock
  refine ⟨_, run_cons.2 ⟨s', hcrash, run_cons.2 ⟨_, hdeliver, rfl⟩⟩, ⟨?_, ?_⟩, ?_⟩
  · rintro ⟨-, hnot⟩
    rcases Phase.calling_or_written hidle with hphase | hphase
    · exact hphase
    · exact absurd (hin.captured_of_written hphase hblock) (huploads ▸ hnot)
  · intro hphase
    have hwritten : s.phase.written = 0 := by rw [hphase]; rfl
    have hin' : Node.InStep chain first { s' with phase := .calling } :=
      (hin.crash hchain hwritten hs').step hchain (show StoreKept chain first s' .deliver from trivial)
        trivial hdeliver
    rw [← hcompleted] at hblock
    exact ⟨hin'.returns hchain rfl hblock, hin'.not_captured hchain rfl hblock⟩
  · intro hcalling
    have hwritten := (Phase.calling_or_written hidle).resolve_left hcalling
    obtain ⟨hpast, hstart⟩ := hin.crash_written hchain hwritten hs'
    refine ⟨huploads ▸ hin.captured_of_written hwritten hblock, ?_, ?_⟩
    · intro hrecovers
      rw [show Node.cursor { s' with phase := .calling } = _ from hpast hrecovers]
      exact enqueueLoop_stuck (enqueueIteration_past hchain hblock)
    · intro hrecovers env env' henv hproof
      rw [show Node.completed { s' with phase := .calling } = _ from hcompleted] at henv hproof
      exact (hstart hrecovers).returns hchain hblock henv hproof

end Node

/-! ## A block already captured -/

/-- The state operations of the sample child and the genesis commit before it. -/
def sampleEnv : ProducerEnv where
  historicalProof _ _ :=
    some [.commitFloor none 0, .update (.filled 1) (encodeAccount ⟨95, ⟨1, 0⟩⟩), .commitFloor none 0]
  now := 0
  nextLocations := ⟨0, 0⟩

set_option maxRecDepth 20000 in
theorem consecutive_sample : Consecutive [sampleChild] where
  height := by
    rintro (_ | k) block hblock
    · cases hblock; rfl
    · cases hblock
  state := by
    rintro (_ | k) block hblock
    · cases hblock; decide
    · cases hblock
  transactions := by
    rintro (_ | k) block hblock
    · cases hblock; rfl
    · cases hblock

set_option maxRecDepth 20000 in
/-- A crash in the call for block 1 before its queue write: the redelivered call returns, and captures the
block once even if the acknowledgement of its entry is lost in a later crash. -/
theorem redelivery_idempotent_sample :
    (∃ s : Node Unit Nat,
      Trace (Node.Guarded [sampleChild] 0) (Node.fresh 0) [.deliver, .crash [], .deliver] s ∧
      s.phase = .calling ∧ s.Returns [sampleChild] 0 sampleChild) ∧
    ∃ s : Node Unit Nat,
      Trace (Node.Guarded [sampleChild] 0) (Node.fresh 0)
        [.deliver, .crash [], .deliver, .write sampleEnv, .persist, .complete, .acknowledge 0, .crash [0]] s ∧
      s.completed = 1 ∧ s.uploads.map QueuedFinalizedUpload.block = [sampleChild] := by
  have hbefore : Trace (Node.Guarded [sampleChild] 0) (Node.fresh 0) [.deliver, .crash [], .deliver] _ :=
    .cons ⟨trivial, trivial, rfl⟩ (.cons ⟨trivial, .inr rfl, rfl⟩ (.cons ⟨trivial, trivial, rfl⟩ (.nil _)))
  have hafter : Trace (Node.Guarded [sampleChild] 0) (Node.fresh 0)
      [.deliver, .crash [], .deliver, .write sampleEnv, .persist, .complete, .acknowledge 0, .crash [0]] _ :=
    hbefore.append (.cons ⟨trivial, trivial, rfl⟩ (.cons ⟨trivial, trivial, rfl⟩ (.cons ⟨trivial, trivial, rfl⟩
      (.cons ⟨trivial, trivial, rfl⟩ (.cons ⟨trivial, .inl rfl, rfl⟩ (.nil _))))))
  exact ⟨⟨_, hbefore, rfl, (Node.redelivery_idempotent consecutive_sample (Nat.zero_le _) hbefore).2.1 _ rfl rfl⟩,
    ⟨_, hafter, rfl, (Node.redelivery_idempotent consecutive_sample (Nat.zero_le _) hafter).1⟩⟩

set_option maxRecDepth 20000 in
/-- A crash after the queue write of block 1, before or after its cursor is stored: the redelivered call
starts from a cursor past the block and never returns. -/
theorem redelivery_never_returns : Consecutive [sampleChild] ∧
    ∀ events ∈ [[NodeEvent.deliver, .write sampleEnv, .crash [], .deliver],
      [.deliver, .write sampleEnv, .persist, .crash [], .deliver]],
    ∃ s : Node Unit Nat, run (Node.step [sampleChild]) (Node.fresh 0) events = some s ∧
      s.completed = 0 ∧ s.phase = .calling ∧ ∀ envs, enqueueLoop sampleChild s.cursor envs = .ok none := by
  refine ⟨consecutive_sample, ?_⟩
  have hstuck := Node.enqueueLoop_stuck (enqueueIteration_past consecutive_sample (k := 0) rfl)
  simp only [List.forall_mem_cons]
  exact ⟨⟨_, rfl, rfl, rfl, hstuck⟩, ⟨_, rfl, rfl, rfl, hstuck⟩, List.forall_mem_nil _⟩

end Constantinople
