/-
The producer together with the consumer of the finalized-upload queue, as in `bin/validator/src/run.rs`,
and what a restart recovers after a crash at any point. The consumer reads entries in order, uploads up
to `max_active` of them at once, and acknowledges them in the order in which the uploads complete. The
recovered cursor is the frontier of the last block whose `enqueue` call has returned, or of the one whose
call was running, and of every block up to it a copy is in the queue or uploaded.
-/
import Constantinople.Validator.Redelivery

namespace Constantinople

open Run

variable {C D : Type}

/-! ## Producer and consumer -/

/-- The queue with both its users. Blocks up to `started` have had their `enqueue` call started, those up to
`returned` have had it return; `uploaded` lists the positions whose upload is complete. -/
structure UploadQueue (C D : Type) where
  node : Node C D
  started : Nat
  returned : Nat
  reader : Nat
  active : List Nat
  finished : List Nat
  uploaded : List Nat

inductive UploadEvent
  /-- An event of the producer, or a crash. -/
  | produce (event : NodeEvent)
  /-- `start_queued_upload` for the next entry the reader gets. -/
  | receive
  /-- The upload of an entry is complete: its task returns. -/
  | finish (position : Nat)
  /-- `ack_finalized_queue_entry` for a task that has returned. -/
  | acknowledge (position : Nat)

namespace UploadQueue

/-- Nothing is queued yet; `first` blocks were finalized before. -/
def fresh (first : Nat) : UploadQueue C D := ⟨.fresh first, first, first, 0, [], [], []⟩

/-- The next entry `try_recv` returns: the first one at or after the reader's position that is not
acknowledged. -/
def next (s : UploadQueue C D) : Option Nat :=
  (List.range s.node.queue.length).find? fun i =>
    s.reader ≤ i ∧ (s.node.queue[i]?).any fun entry => !entry.acknowledged

def produce (s : UploadQueue C D) (node : Node C D) : NodeEvent → Option (UploadQueue C D)
  | .deliver => some { s with node := node, started := s.node.completed + 1 }
  | .persist => some { s with node := node, returned := s.node.completed + 1 }
  -- the tasks are gone, and the scan resets the reader
  | .crash _ => some { s with node := node, reader := 0, active := [], finished := [] }
  | .acknowledge _ => none
  | _ => some { s with node := node }

def step (chain : List (SealedBlock C D)) (maxActive : Nat) (s : UploadQueue C D) : UploadEvent → Option (UploadQueue C D)
  | .produce event =>
    match s.node.step chain event with
    | none => none
    | some node => s.produce node event
  | .receive =>
    if s.active.length + s.finished.length < max maxActive 1 then
      match s.next with
      | none => none
      | some i => some { s with reader := i + 1, active := s.active ++ [i] }
    else none
  | .finish i =>
    if i ∈ s.active then
      some { s with active := s.active.erase i, finished := s.finished ++ [i], uploaded := s.uploaded ++ [i] }
    else none
  | .acknowledge i =>
    if i ∈ s.finished then
      match s.node.step chain (.acknowledge i) with
      | none => none
      | some node => some { s with node := node, finished := s.finished.erase i }
    else none

end UploadQueue

/-! ## Entries -/

/-- An entry that is built ends where its block does, whatever cursor it was built from. -/
theorem enqueueIteration_built {env : ProducerEnv} {block : SealedBlock C D} {cursor : FinalizedUploadCursor}
    {upload : QueuedFinalizedUpload C D} (h : enqueueIteration env block cursor = .ok (.built upload)) :
    upload.block = block ∧ FinalizedUploadCursor.fromUpload upload =
      .ok ⟨block.inner.header.stateRange.stop, block.inner.header.transactionsRange.stop⟩ := by
  unfold enqueueIteration at h
  split at h
  · cases h
  · rename_i upload' hbuild
    cases h
    unfold buildQueuedFinalizedUpload at hbuild
    split at hbuild
    · cases hbuild
    split at hbuild
    · cases hbuild
    · cases hbuild
    rename_i stop hend
    split at hbuild
    · cases hbuild
    cases hbuild
    refine ⟨rfl, ?_⟩
    obtain ⟨-, -, rfl⟩ := transactionUploadEnd_ok hend
    unfold FinalizedUploadCursor.fromUpload QueuedFinalizedUpload.transactionEnd
    simp only [hend]
    rfl
  · split at h
    · split at h
      · cases h
      · cases h
    · cases h
  · cases h

theorem stateEndsIncrease_of_isChain {chain : List (SealedBlock C D)}
    (h : chain.IsChain fun block next => block.inner.header.stateRange.stop < next.inner.header.stateRange.stop) :
    StateEndsIncrease chain := by
  intro k block hblock
  cases k with
  | zero => exact UInt64.lt_of_le_of_lt (UInt64.zero_le ..) block.inner.header.stateRange.nonempty
  | succ k =>
    obtain ⟨hk, rfl⟩ := List.getElem?_eq_some_iff.1 hblock
    rw [endsAt_succ (List.getElem?_eq_getElem (Nat.lt_of_succ_lt hk))]
    exact List.isChain_iff_getElem.1 h k hk

/-! ## Recovered cursors -/

/-- The cursor of a node that has stored the frontier after `k` blocks, or nothing while `k` is `first`. -/
def StoredAt (chain : List (SealedBlock C D)) (first k : Nat) (cursor : FinalizedUploadCursor) : Prop :=
  (k = first ∧ cursor = ⟨0, 0⟩) ∨ (first < k ∧ cursor = endsAt chain k)

/-- With no entry past the block after the stored frontier, recovery stays at that frontier or moves by
one block, to one whose entry it has read. -/
theorem StoredAt.recovered {chain : List (SealedBlock C D)} (hstate : StateEndsIncrease chain) {first k started : Nat}
    {metadata queue : Option FinalizedUploadCursor} {Q : Nat → Prop} (hk : k ≤ chain.length) (hnext : started ≤ k + 1)
    (hlen : started ≤ chain.length) (hmetadata : StoredAt chain first k (metadata.getD default))
    (hqueue : ∀ c ∈ queue, ∃ j, first ≤ j ∧ j < started ∧ Q j ∧ c = endsAt chain (j + 1)) :
    StoredAt chain first k (recoveredFinalizedUploadCursor metadata queue) ∨
      (k < started ∧ Q k ∧ StoredAt chain first (k + 1) (recoveredFinalizedUploadCursor metadata queue)) := by
  unfold recoveredFinalizedUploadCursor
  cases queue with
  | none =>
    left
    rcases hmetadata with ⟨rfl, h⟩ | ⟨hlt, h⟩
    · rw [h]
      exact .inl ⟨rfl, rfl⟩
    · refine .inr ⟨hlt, ?_⟩
      rw [h]
      exact (max_endsAt hstate (Nat.zero_le _) hk).trans (by rw [Nat.max_eq_left (Nat.zero_le k)])
  | some c =>
    obtain ⟨j, hfirst, hj, hQ, rfl⟩ := hqueue c rfl
    rcases hmetadata with ⟨rfl, h⟩ | ⟨hlt, h⟩
    · -- nothing is stored yet, so the entry read is the first block's
      obtain rfl : j = k := by omega
      refine .inr ⟨hj, hQ, .inr ⟨Nat.lt_succ_self j, ?_⟩⟩
      rw [h]
      exact (max_endsAt hstate (k := 0) (j := j + 1) (by omega) (Nat.zero_le _)).trans (by rw [Nat.max_eq_right (Nat.zero_le _)])
    · rw [h, Option.getD_some, max_endsAt hstate (by omega) hk]
      rcases Nat.lt_or_ge j k with hjk | hjk
      · rw [Nat.max_eq_left hjk]
        exact .inl (.inr ⟨hlt, rfl⟩)
      · obtain rfl : j = k := by omega
        rw [Nat.max_eq_right (Nat.le_succ j)]
        exact .inr ⟨hj, hQ, .inr ⟨by omega, rfl⟩⟩

/-! ## The producer's side -/

/-- A copy of block `j` is in the queue. -/
def Node.Captured (chain : List (SealedBlock C D)) (s : Node C D) (j : Nat) : Prop :=
  ∃ upload ∈ s.uploads, chain[j]? = some upload.block

/-- The stored cursor is the frontier after `k` blocks, all of which are captured. -/
def Node.Stored (chain : List (SealedBlock C D)) (first : Nat) (s : Node C D) (k : Nat) : Prop :=
  StoredAt chain first k ((FinalizedUploadCursor.fromMetadata s.metadata).getD default) ∧
    ∀ j, first ≤ j → j < k → s.Captured chain j

/-- What the phase of the running call says. -/
def Node.InPhase (chain : List (SealedBlock C D)) (s : Node C D) (started returned : Nat) : Prop :=
  match s.phase with
  | .idle => True
  | .calling => started = s.completed + 1
  | .queued next => started = s.completed + 1 ∧ next = endsAt chain (s.completed + 1) ∧ s.Captured chain s.completed
  | .persisted => returned = s.completed + 1

/-- The calls of blocks up to `started` have started and of those up to `returned` have returned. Every entry
is one of a block whose call has started, and the stored cursor lies between the two. -/
structure Node.Recoverable (chain : List (SealedBlock C D)) (first : Nat) (s : Node C D) (started returned : Nat) :
    Prop where
  begun : first ≤ s.completed
  recorded : s.completed ≤ returned
  ordered : returned ≤ started
  next : started ≤ s.completed + 1
  bounded : started ≤ chain.length
  entries : ∀ upload ∈ s.uploads, ∃ j, first ≤ j ∧ j < started ∧ chain[j]? = some upload.block ∧
    FinalizedUploadCursor.fromUpload upload = .ok (endsAt chain (j + 1))
  stored : ∃ k, returned ≤ k ∧ k ≤ started ∧ s.Stored chain first k
  phase : s.InPhase chain started returned

namespace Node

variable {chain : List (SealedBlock C D)} {first started returned : Nat} {s s' : Node C D}

theorem fresh_recoverable (hfirst : first ≤ chain.length) :
    (Node.fresh first : Node C D).Recoverable chain first first first where
  begun := le_rfl
  recorded := le_rfl
  ordered := le_rfl
  next := Nat.le_succ first
  bounded := hfirst
  entries := by rintro upload ⟨⟩
  stored := ⟨first, le_rfl, le_rfl, .inl ⟨rfl, rfl⟩, fun j h h' => absurd h' (Nat.not_lt.2 h)⟩
  phase := trivial

theorem Captured.of_uploads {j : Nat} (h : s.Captured chain j) (huploads : ∀ u ∈ s.uploads, u ∈ s'.uploads) :
    s'.Captured chain j := by
  obtain ⟨upload, hu, hblock⟩ := h
  exact ⟨upload, huploads upload hu, hblock⟩

/-- Every restart comes up at a frontier between the calls that have returned and those that have started;
the blocks up to it are captured, and it is stored. -/
theorem Recoverable.restart (hstate : StateEndsIncrease chain) (h : s.Recoverable chain first started returned)
    (lost : List Nat) :
    ∃ s' : Node C D, s.restart lost = .ok s' ∧
      s'.queue = (s.queue.mapIdx fun i entry => if i ∈ lost then { entry with acknowledged := false } else entry) ∧
      s'.Recoverable chain first started returned ∧
      ∃ k, returned ≤ k ∧ k ≤ started ∧ StoredAt chain first k s'.cursor ∧ ∀ j, first ≤ j → j < k → s'.Captured chain j := by
  obtain ⟨k, hreturned, hstarted, hcursor, hcaptured⟩ := h.stored
  have hread : ∀ upload ∈ s.uploads, ∃ next, FinalizedUploadCursor.fromUpload upload = .ok next ∧
      ∃ j, first ≤ j ∧ j < started ∧ s.Captured chain j ∧ next = endsAt chain (j + 1) := by
    intro upload hu
    obtain ⟨j, hfirst, hj, hblock, hends⟩ := h.entries upload hu
    exact ⟨_, hends, j, hfirst, hj, ⟨upload, hu, hblock⟩, rfl⟩
  obtain ⟨s', hs', hqueue, hcompleted, hidle, hmetadata, queueCursor, hrecovered, hlast⟩ := restart_ok lost hread
  have huploads := restart_uploads hs'
  have hkept : ∀ {j}, s.Captured chain j → s'.Captured chain j := fun hj => hj.of_uploads fun u hu => huploads ▸ hu
  have hnext := h.next
  have hrecorded := h.recorded
  have hbounded := h.bounded
  have hstored : ∃ k, returned ≤ k ∧ k ≤ started ∧ StoredAt chain first k s'.cursor ∧
      ∀ j, first ≤ j → j < k → s'.Captured chain j := by
    rw [hrecovered]
    rcases StoredAt.recovered hstate (by omega) (by omega) hbounded hcursor hlast with hat | ⟨hlt, hnew, hat⟩
    · exact ⟨k, hreturned, hstarted, hat, fun j hfirst hj => hkept (hcaptured j hfirst hj)⟩
    · refine ⟨k + 1, by omega, hlt, hat, fun j hfirst hj => hkept ?_⟩
      rcases Nat.lt_succ_iff_lt_or_eq.1 hj with hj | rfl
      · exact hcaptured j hfirst hj
      · exact hnew
  refine ⟨s', hs', hqueue, ?_, hstored⟩
  constructor
  · rw [hcompleted]; exact h.begun
  · rw [hcompleted]; exact hrecorded
  · exact h.ordered
  · rw [hcompleted]; exact hnext
  · exact hbounded
  · rw [huploads]; exact h.entries
  · obtain ⟨k, hreturned, hstarted, hat, hcaptured⟩ := hstored
    refine ⟨k, hreturned, hstarted, ?_, hcaptured⟩
    rw [hmetadata]
    exact hat
  · rw [InPhase, hidle]
    trivial

theorem Recoverable.deliver (h : s.Recoverable chain first started returned) (hlen : s.completed < chain.length) :
    Node.Recoverable chain first { s with phase := .calling } (s.completed + 1) returned := by
  obtain ⟨k, hreturned, hstarted, hstored⟩ := h.stored
  have hnext := h.next
  refine ⟨h.begun, h.recorded, h.ordered.trans hnext, le_rfl, hlen, fun upload hu => ?_,
    ⟨k, hreturned, hstarted.trans hnext, hstored⟩, rfl⟩
  obtain ⟨j, hfirst, hj, hentry⟩ := h.entries upload hu
  exact ⟨j, hfirst, hj.trans_le hnext, hentry⟩

/-- The write adds an entry for the block whose call is running. -/
theorem Recoverable.write (h : s.Recoverable chain first started returned) (hphase : s.phase = .calling)
    {block : SealedBlock C D} {env : ProducerEnv} {upload : QueuedFinalizedUpload C D} {next : FinalizedUploadCursor}
    (hblock : chain[s.completed]? = some block) (hiter : enqueueIteration env block s.cursor = .ok (.built upload))
    (hnext : FinalizedUploadCursor.fromUpload upload = .ok next) :
    Node.Recoverable chain first { s with queue := s.queue ++ [⟨upload, false⟩], phase := .queued next } started
      returned := by
  obtain ⟨hupload, hends⟩ := enqueueIteration_built hiter
  rw [← endsAt_succ hblock] at hends
  obtain rfl : next = endsAt chain (s.completed + 1) := Except.ok.inj (hnext.symm.trans hends)
  have hstarted : started = s.completed + 1 := by
    have hin := h.phase
    rwa [InPhase, hphase] at hin
  set s' : Node C D :=
    { s with queue := s.queue ++ [⟨upload, false⟩], phase := .queued (endsAt chain (s.completed + 1)) }
  have huploads : s'.uploads = s.uploads ++ [upload] := by simp [s', uploads]
  have hkept : ∀ {j}, s.Captured chain j → s'.Captured chain j :=
    fun hj => hj.of_uploads fun u hu => huploads ▸ List.mem_append_left _ hu
  obtain ⟨k, hreturned, hk, hat, hcaptured⟩ := h.stored
  refine ⟨h.begun, h.recorded, h.ordered, h.next, h.bounded, fun u hu => ?_,
    ⟨k, hreturned, hk, hat, fun j hfirst hj => hkept (hcaptured j hfirst hj)⟩, hstarted, rfl, upload, ?_, ?_⟩
  · rw [huploads] at hu
    rcases List.mem_append.1 hu with hu | hu
    · exact h.entries u hu
    · obtain rfl := List.mem_singleton.1 hu
      exact ⟨s.completed, h.begun, by omega, hupload ▸ hblock, hends⟩
  · rw [huploads]
    exact List.mem_append_right _ (List.mem_singleton.2 rfl)
  · exact hupload ▸ hblock

theorem Recoverable.persist (h : s.Recoverable chain first started returned) {next : FinalizedUploadCursor}
    (hphase : s.phase = .queued next) :
    Node.Recoverable chain first { s with metadata := next.toMetadata, cursor := next, phase := .persisted } started
      (s.completed + 1) := by
  have hin := h.phase
  rw [InPhase, hphase] at hin
  obtain ⟨hstarted, rfl, hwritten⟩ := hin
  obtain ⟨k, hreturned, -, -, hcaptured⟩ := h.stored
  have hbegun := h.begun
  have hrecorded := h.recorded
  refine ⟨hbegun, Nat.le_succ _, hstarted.ge, h.next, h.bounded, h.entries,
    ⟨s.completed + 1, le_rfl, hstarted.ge, .inr ⟨by omega, rfl⟩, fun j hfirst hj => ?_⟩, rfl⟩
  rcases Nat.lt_succ_iff_lt_or_eq.1 hj with hj | rfl
  · exact hcaptured j hfirst (by omega)
  · exact hwritten

theorem Recoverable.complete (h : s.Recoverable chain first started returned) (hphase : s.phase = .persisted) :
    Node.Recoverable chain first { s with completed := s.completed + 1, phase := .idle } started returned := by
  have hin := h.phase
  rw [InPhase, hphase] at hin
  have hnext := h.next
  exact ⟨Nat.le_succ_of_le h.begun, hin.ge, h.ordered, by simp only; omega, h.bounded, h.entries, h.stored, trivial⟩

end Node

/-! ## Both sides -/

namespace UploadQueue

variable {chain : List (SealedBlock C D)} {first maxActive : Nat} {s s' : UploadQueue C D}

/-- An acknowledged entry is uploaded. -/
structure Consistent (chain : List (SealedBlock C D)) (first : Nat) (s : UploadQueue C D) : Prop where
  node : s.node.Recoverable chain first s.started s.returned
  acknowledged : ∀ i entry, s.node.queue[i]? = some entry → entry.acknowledged → i ∈ s.uploaded
  finished : ∀ i ∈ s.finished, i ∈ s.uploaded

/-- Lost acknowledgements take nothing from what is uploaded. -/
theorem Consistent.lost (h : s.Consistent chain first) (lost : List Nat) :
    ∀ i entry, (s.node.queue.mapIdx fun i entry => if i ∈ lost then { entry with acknowledged := false } else entry)[i]? =
      some entry → entry.acknowledged → i ∈ s.uploaded := by
  intro i entry hentry hack
  rw [List.getElem?_mapIdx, Option.map_eq_some_iff] at hentry
  obtain ⟨old, hold, rfl⟩ := hentry
  split at hack
  · cases hack
  · exact h.acknowledged i old hold hack

theorem Consistent.produce (hstate : StateEndsIncrease chain) (h : s.Consistent chain first) {event : NodeEvent}
    {node : Node C D} (hnode : s.node.step chain event = some node) (hproduce : s.produce node event = some s') :
    s'.Consistent chain first := by
  cases event with
  | deliver =>
    obtain ⟨-, hlen, rfl⟩ := Node.step_deliver hnode
    cases hproduce
    exact ⟨h.node.deliver hlen, h.acknowledged, h.finished⟩
  | retry env =>
    obtain ⟨-, block, cursor, -, -, rfl⟩ := Node.step_retry hnode
    cases hproduce
    have ⟨hbegun, hrecorded, hordered, hnext, hbounded, hentries, hstored, hphase⟩ := h.node
    exact ⟨⟨hbegun, hrecorded, hordered, hnext, hbounded, hentries, hstored, hphase⟩, h.acknowledged, h.finished⟩
  | write env =>
    obtain ⟨hphase, block, upload, next, hblock, hiter, hupload, rfl⟩ := Node.step_write hnode
    cases hproduce
    refine ⟨h.node.write hphase hblock hiter hupload, fun i entry hentry hack => ?_, h.finished⟩
    rcases getElem?_concat_some hentry with hold | ⟨-, rfl⟩
    · exact h.acknowledged i entry hold hack
    · cases hack
  | writeFailed env =>
    obtain rfl := Node.step_writeFailed hnode
    cases hproduce
    exact h
  | persist =>
    obtain ⟨next, hphase, rfl⟩ := Node.step_persist hnode
    cases hproduce
    exact ⟨h.node.persist hphase, h.acknowledged, h.finished⟩
  | complete =>
    obtain ⟨hphase, rfl⟩ := Node.step_complete hnode
    cases hproduce
    exact ⟨h.node.complete hphase, h.acknowledged, h.finished⟩
  | acknowledge i => cases hproduce
  | crash lost =>
    obtain ⟨node', hnode', hqueue, hrecoverable, -⟩ := h.node.restart hstate lost
    obtain rfl : node' = node := Except.ok.inj (hnode'.symm.trans (Node.step_crash hnode))
    cases hproduce
    refine ⟨hrecoverable, ?_, List.forall_mem_nil _⟩
    simp only [hqueue]
    exact h.lost lost

theorem Consistent.acknowledge (h : s.Consistent chain first) {i : Nat} (hi : i ∈ s.finished) :
    Consistent chain first { s with
      node := { s.node with queue := s.node.queue.modify i fun entry => { entry with acknowledged := true } }
      finished := s.finished.erase i } := by
  set node : Node C D := { s.node with queue := s.node.queue.modify i fun entry => { entry with acknowledged := true } }
  have huploads : node.uploads = s.node.uploads := Node.uploads_acknowledge s.node.queue i
  have hcaptured : ∀ j, node.Captured chain j ↔ s.node.Captured chain j := by
    intro j
    rw [Node.Captured, huploads]
    rfl
  have ⟨hbegun, hrecorded, hordered, hnext, hbounded, hentries, ⟨k, hk, hk', hat, hall⟩, hphase⟩ := h.node
  refine ⟨⟨hbegun, hrecorded, hordered, hnext, hbounded, by rw [huploads]; exact hentries, ⟨k, hk, hk', hat, ?_⟩, ?_⟩,
    ?_, ?_⟩
  · intro j hfirst hj
    exact (hcaptured j).2 (hall j hfirst hj)
  · unfold Node.InPhase at hphase ⊢
    simp only [hcaptured]
    exact hphase
  · intro j entry hentry hack
    rw [List.getElem?_modify] at hentry
    split at hentry
    · rename_i heq
      exact heq ▸ h.finished i hi
    · rw [Option.map_eq_map, Option.map_id_fun'] at hentry
      exact h.acknowledged j entry hentry hack
  · intro j hj
    exact h.finished j (List.mem_of_mem_erase hj)

theorem Consistent.step (hstate : StateEndsIncrease chain) (h : s.Consistent chain first) {event : UploadEvent}
    (hstep : s.step chain maxActive event = some s') : s'.Consistent chain first := by
  cases event with
  | produce event =>
    simp only [UploadQueue.step] at hstep
    split at hstep
    · cases hstep
    · rename_i node hnode
      exact h.produce hstate hnode hstep
  | receive =>
    simp only [UploadQueue.step] at hstep
    split at hstep
    · split at hstep
      · cases hstep
      · cases hstep
        exact ⟨h.node, h.acknowledged, h.finished⟩
    · cases hstep
  | finish i =>
    simp only [UploadQueue.step] at hstep
    split at hstep
    · cases hstep
      refine ⟨h.node, fun j entry hentry hack => List.mem_append_left _ (h.acknowledged j entry hentry hack), ?_⟩
      intro j hj
      rcases List.mem_append.1 hj with hj | hj
      · exact List.mem_append_left _ (h.finished j hj)
      · exact List.mem_append_right _ hj
    · cases hstep
  | acknowledge i =>
    simp only [UploadQueue.step, Node.step] at hstep
    split at hstep
    · rename_i hi
      cases hstep
      exact h.acknowledge hi
    · cases hstep

/-- After a crash at any point of any run the restart comes up. Its cursor is empty, and then no `enqueue`
call had returned; or it is where one finalized block ends, the last one whose call had returned or the one
whose call had started since. Of every block up to it that the producer was given a copy can still be read
from the queue or is uploaded. -/
theorem recovered_cursor_frontier
    (hstate : chain.IsChain fun block next => block.inner.header.stateRange.stop < next.inner.header.stateRange.stop)
    (hfirst : first ≤ chain.length) {events : List UploadEvent}
    (h : Trace (fun s event s' => s.step chain maxActive event = some s') (fresh first) events s) (lost : List Nat) :
    ∃ node, s.node.restart lost = .ok node ∧
      ((node.cursor = ⟨0, 0⟩ ∧ s.returned = first) ∨
        ∃ k block, chain[k]? = some block ∧ first ≤ k ∧
          node.cursor = ⟨block.inner.header.stateRange.stop, block.inner.header.transactionsRange.stop⟩ ∧
          (s.returned = k + 1 ∨ (s.returned = k ∧ s.started = k + 1)) ∧
          ∀ j, first ≤ j → j ≤ k → ∃ i entry, node.queue[i]? = some entry ∧ chain[j]? = some entry.upload.block ∧
            (entry.acknowledged = false ∨ i ∈ s.uploaded)) := by
  have hends := stateEndsIncrease_of_isChain hstate
  have hconsistent : s.Consistent chain first := by
    refine Trace.invariant (I := Consistent chain first) (fun s event s' hs hstep => hs.step hends hstep) ?_ h
    exact ⟨Node.fresh_recoverable hfirst, by rintro i entry ⟨⟩, List.forall_mem_nil _⟩
  obtain ⟨node, hnode, hqueue, hrecoverable, k, hreturned, hstarted, hat, hcaptured⟩ :=
    hconsistent.node.restart hends lost
  have ⟨hbegun, hrecorded, hordered, hnext, hbounded, _, _, _⟩ := hrecoverable
  refine ⟨node, hnode, ?_⟩
  rcases hat with ⟨rfl, hcursor⟩ | ⟨hlt, hcursor⟩
  · exact .inl ⟨hcursor, by omega⟩
  · right
    obtain ⟨k, rfl⟩ : ∃ j, k = j + 1 := ⟨k - 1, by omega⟩
    have hblock := List.getElem?_eq_getElem (show k < chain.length by omega)
    rw [endsAt_succ hblock] at hcursor
    refine ⟨k, _, hblock, by omega, hcursor, by omega, fun j hj hjk => ?_⟩
    obtain ⟨upload, hu, hcopy⟩ := hcaptured j hj (by omega)
    obtain ⟨entry, hentry, rfl⟩ := List.mem_map.1 hu
    obtain ⟨i, hi⟩ := List.mem_iff_getElem?.1 hentry
    refine ⟨i, entry, hi, hcopy, ?_⟩
    cases hack : entry.acknowledged with
    | false => exact .inl rfl
    | true => exact .inr (hconsistent.lost lost i entry (hqueue ▸ hi) hack)

set_option maxRecDepth 20000 in
/-- Block 1 is queued, uploaded and acknowledged before its cursor is stored; its call then returns. -/
theorem recovered_cursor_sample :
    ∃ (events : List UploadEvent) (s : UploadQueue Unit Nat),
      Trace (fun s event s' => s.step [sampleChild] 1 event = some s') (fresh 0) events s ∧
      s.node.unacknowledged.length = 0 ∧ s.returned = 1 ∧
      ∃ (node : Node Unit Nat) (k : Nat) (block : SealedBlock Unit Nat), s.node.restart [] = .ok node ∧
        [sampleChild][k]? = some block ∧
        node.cursor = ⟨block.inner.header.stateRange.stop, block.inner.header.transactionsRange.stop⟩ ∧
        ∃ i entry, node.queue[i]? = some entry ∧ [sampleChild][k]? = some entry.upload.block ∧
          (entry.acknowledged = false ∨ i ∈ s.uploaded) := by
  have htrace : Trace (fun s event s' => s.step [sampleChild] 1 event = some s') (fresh 0)
      [.produce .deliver, .produce (.write sampleEnv), .receive, .finish 0, .acknowledge 0, .produce .persist] _ :=
    .cons rfl (.cons rfl (.cons rfl (.cons rfl (.cons rfl (.cons rfl (.nil _))))))
  obtain ⟨node, hnode, hcursor⟩ := recovered_cursor_frontier (.singleton _) (Nat.zero_le 1) htrace []
  refine ⟨_, _, htrace, rfl, rfl, node, ?_⟩
  rcases hcursor with ⟨-, hreturned⟩ | ⟨k, block, hblock, hk, hcursor, -, hcopies⟩
  · exact absurd hreturned (by decide)
  · exact ⟨k, block, hnode, hblock, hcursor, hcopies k hk le_rfl⟩

set_option maxRecDepth 20000 in
/-- A crash just before the cursor of block 1 is stored, when its entry is already acknowledged: a block has
been queued, and the recovered cursor is empty. -/
theorem queued_block_not_recovered :
    ∃ (events : List UploadEvent) (s : UploadQueue Unit Nat) (node : Node Unit Nat),
      Trace (fun s event s' => s.step [sampleChild] 1 event = some s') (fresh 0) events s ∧
      s.node.uploads.map QueuedFinalizedUpload.block = [sampleChild] ∧
      s.node.restart [] = .ok node ∧ node.cursor = ⟨0, 0⟩ ∧
      ∀ block ∈ [sampleChild],
        node.cursor ≠ ⟨block.inner.header.stateRange.stop, block.inner.header.transactionsRange.stop⟩ := by
  have htrace : Trace (fun s event s' => s.step [sampleChild] 1 event = some s') (fresh 0)
      [.produce .deliver, .produce (.write sampleEnv), .receive, .finish 0, .acknowledge 0] _ :=
    .cons rfl (.cons rfl (.cons rfl (.cons rfl (.cons rfl (.nil _)))))
  exact ⟨_, _, _, htrace, rfl, rfl, rfl, List.forall_mem_cons.2 ⟨by decide, List.forall_mem_nil _⟩⟩

end UploadQueue

end Constantinople
