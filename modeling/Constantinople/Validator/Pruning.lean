/-
Pruning after finalized blocks, as in `finalized` of `crates/application/src/consensus/glue.rs`, around the hook that
captures blocks for the indexer. Every `prune_cadence_blocks` blocks the marshal is pruned one cadence below the
block, and the state database to where the state of the cadence before ended, but not past its sync boundary. That
position is volatile: a process starts with the state end of the genesis block or of the floor block it recovers,
as `engine.rs` has it. Over every run with crashes, what the hook asks the state database for is not pruned. A node
that starts past genesis, from a synced state, has to learn from the Store where its first block starts.
-/
import Constantinople.Validator.Recovery

namespace Constantinople

open Run

variable {C D : Type}

/-! ## The finalized callback -/

/-- `prune_cadence_blocks` is not zero. -/
structure PruneCadence where
  blocks : UInt64
  nonzero : blocks ≠ 0

def PruneCadence.shouldPruneAfterFinalize (cadence : PruneCadence) (height : UInt64) : Bool :=
  height ≠ 0 && height % cadence.blocks = 0

/-- `height.saturating_sub(cadence)`. -/
def PruneCadence.pruneHeight (cadence : PruneCadence) (height : UInt64) : UInt64 :=
  if height < cadence.blocks then 0 else height - cadence.blocks

/-- Where the call of `finalized` is once the hook has returned. -/
inductive PruneStage
  | pending
  /-- The marshal is pruned, and the state database has yet to be. -/
  | marshalPruned (statePruneTarget : UInt64)
  | done
deriving DecidableEq, Repr

/-- The queue with its users, the volatile position of the last cadence, and what is pruned: blocks below a height
and state operations below a location. `starts` lists the state ends that processes have started with, and where the
state database starts. -/
structure Finalizer (C D : Type) where
  queue : UploadQueue C D
  previousPruneCadenceStateEnd : UInt64
  stage : PruneStage
  marshalPruned : UInt64
  statePruned : UInt64
  starts : List UInt64

inductive FinalizerEvent
  /-- The hook is called or goes on, or the consumer of its queue does. -/
  | index (event : UploadEvent)
  | pruneMarshal
  | pruneState (syncBoundary : UInt64)
  /-- `finalized` has returned and the caller has recorded it. -/
  | complete
  /-- A crash, and a restart with the state end of a floor. -/
  | crash (lost : List Nat) (stateEnd : UInt64)

namespace Finalizer

/-- A node with `first` blocks already finalized, and the operations from `synced` on in its state database. -/
def fresh (first : Nat) (stateEnd synced : UInt64) : Finalizer C D :=
  ⟨.fresh first, stateEnd, .pending, 0, synced, [stateEnd, synced]⟩

/-- The block whose call of `finalized` is past the hook. -/
def hooked (chain : List (SealedBlock C D)) (s : Finalizer C D) : Option (SealedBlock C D) :=
  if s.queue.node.phase = .persisted then chain[s.queue.node.completed]? else none

def step (chain : List (SealedBlock C D)) (cadence : PruneCadence) (maxActive : Nat) (s : Finalizer C D) :
    FinalizerEvent → Option (Finalizer C D)
  | .index (.produce .complete) => none
  | .index (.produce (.crash _)) => none
  | .index event => (s.queue.step chain maxActive event).map fun queue => { s with queue := queue }
  | .pruneMarshal =>
    match s.hooked chain, s.stage with
    | some block, .pending =>
      if cadence.shouldPruneAfterFinalize block.inner.header.height then
        some { s with
          previousPruneCadenceStateEnd := block.inner.header.stateRange.stop
          stage := .marshalPruned s.previousPruneCadenceStateEnd
          marshalPruned := max s.marshalPruned (cadence.pruneHeight block.inner.header.height) }
      else none
    | _, _ => none
  | .pruneState syncBoundary =>
    match s.stage with
    | .marshalPruned statePruneTarget =>
      some { s with stage := .done, statePruned := max s.statePruned (min statePruneTarget syncBoundary) }
    | _ => none
  | .complete =>
    match s.hooked chain with
    | none => none
    | some block =>
      if s.stage = .done ∨ (s.stage = .pending ∧ ¬cadence.shouldPruneAfterFinalize block.inner.header.height) then
        (s.queue.step chain maxActive (.produce .complete)).map fun queue => { s with queue := queue, stage := .pending }
      else none
  | .crash lost stateEnd =>
    (s.queue.step chain maxActive (.produce (.crash lost))).map fun queue =>
      { s with queue := queue, previousPruneCadenceStateEnd := stateEnd, stage := .pending, starts := stateEnd :: s.starts }

end Finalizer

/-! ## Where the hook is -/

/-- The cursor is a frontier at or past the calls that have returned, and the blocks before it are captured. Until a call
has returned on a node that starts past genesis, the cursor is empty or what the Store reports. -/
structure UploadQueue.Positioned (chain : List (SealedBlock C D)) (first : Nat) (s : UploadQueue C D) : Prop where
  consistent : s.Consistent chain first
  cursor : (∃ k, s.returned ≤ k ∧ k ≤ s.node.completed + 1 ∧ k ≤ chain.length ∧ s.node.cursor = endsAt chain k ∧
      ∀ j, first ≤ j → j < k → s.node.Captured chain j) ∨
    (0 < first ∧ s.returned = first)

namespace UploadQueue

variable {chain : List (SealedBlock C D)} {first maxActive : Nat} {s s' : UploadQueue C D}

theorem fresh_positioned (hfirst : first ≤ chain.length) : (fresh first : UploadQueue C D).Positioned chain first where
  consistent := ⟨Node.fresh_recoverable hfirst, by rintro i entry ⟨⟩, List.forall_mem_nil _⟩
  cursor := by
    rcases Nat.eq_zero_or_pos first with rfl | hpos
    · exact .inl ⟨0, le_rfl, Nat.zero_le _, Nat.zero_le _, rfl, fun j _ hj => absurd hj (Nat.not_lt_zero j)⟩
    · exact .inr ⟨hpos, rfl⟩

/-- A frontier at or past the calls that have returned is that before the block or that after it. -/
theorem Positioned.cursor_cases (h : s.Positioned chain first) :
    s.node.cursor = endsAt chain s.node.completed ∨
      (s.node.cursor = endsAt chain (s.node.completed + 1) ∧ s.node.Captured chain s.node.completed) ∨
      (0 < first ∧ s.returned = first) := by
  rcases h.cursor with ⟨k, hreturned, hk, -, hcursor, hcaptured⟩ | hstart
  · have hrecorded := h.consistent.node.recorded
    obtain rfl | rfl : k = s.node.completed ∨ k = s.node.completed + 1 := by omega
    · exact .inl hcursor
    · exact .inr (.inl ⟨hcursor, hcaptured _ h.consistent.node.begun (Nat.lt_succ_self _)⟩)
  · exact .inr (.inr hstart)

/-- An iteration that is retried at a frontier leaves the cursor where it is. -/
theorem Positioned.retry (hchain : Consecutive chain) (h : s.Positioned chain first) {env : ProducerEnv}
    {block : SealedBlock C D} {cursor : FinalizedUploadCursor} {k : Nat} (hreturned : s.returned ≤ k)
    (hk : k ≤ s.node.completed + 1) (hcursor : s.node.cursor = endsAt chain k)
    (hblock : chain[s.node.completed]? = some block)
    (hiter : enqueueIteration env block s.node.cursor = .ok (.retry cursor)) : cursor = s.node.cursor := by
  have hrecorded := h.consistent.node.recorded
  rw [hcursor] at hiter ⊢
  obtain rfl | rfl : k = s.node.completed ∨ k = s.node.completed + 1 := by omega
  · rw [enqueueIteration_endsAt hchain hblock env] at hiter
    split at hiter
    · cases hiter
      rfl
    · cases hiter
  · rw [enqueueIteration_past hchain hblock env] at hiter
    cases hiter
    rfl

theorem Positioned.produce (hchain : Consecutive chain) (h : s.Positioned chain first) {event : NodeEvent}
    {node : Node C D} (hnode : s.node.step chain event = some node) (hproduce : s.produce node event = some s') :
    s'.Positioned chain first := by
  refine ⟨h.consistent.produce hchain.state hnode hproduce, ?_⟩
  cases event with
  | deliver =>
    obtain ⟨-, -, rfl⟩ := Node.step_deliver hnode
    cases hproduce
    exact h.cursor
  | retry env =>
    obtain ⟨-, block, cursor, hblock, hiter, rfl⟩ := Node.step_retry hnode
    cases hproduce
    refine h.cursor.imp_left ?_
    rintro ⟨k, hreturned, hk, hlen, hcursor, hcaptured⟩
    exact ⟨k, hreturned, hk, hlen, (h.retry hchain hreturned hk hcursor hblock hiter).trans hcursor, hcaptured⟩
  | write env =>
    obtain ⟨-, block, upload, next, -, -, -, rfl⟩ := Node.step_write hnode
    cases hproduce
    refine h.cursor.imp_left ?_
    rintro ⟨k, hreturned, hk, hlen, hcursor, hcaptured⟩
    refine ⟨k, hreturned, hk, hlen, hcursor, fun j hfirst hj => (hcaptured j hfirst hj).of_uploads fun u hu => ?_⟩
    simp only [Node.uploads, List.map_append]
    exact List.mem_append_left _ hu
  | writeFailed env =>
    obtain rfl := Node.step_writeFailed hnode
    cases hproduce
    exact h.cursor
  | persist =>
    obtain ⟨next, hphase, rfl⟩ := Node.step_persist hnode
    cases hproduce
    have hin := h.consistent.node.phase
    rw [Node.InPhase, hphase] at hin
    obtain ⟨hstarted, hnext, hblock⟩ := hin
    have hbounded := h.consistent.node.bounded
    have hrecorded := h.consistent.node.recorded
    obtain ⟨k, hreturned, -, -, hcaptured⟩ := h.consistent.node.stored
    refine .inl ⟨s.node.completed + 1, le_rfl, le_rfl, by omega, hnext, fun j hfirst hj => ?_⟩
    rcases Nat.lt_succ_iff_lt_or_eq.1 hj with hj | rfl
    · exact hcaptured j hfirst (by omega)
    · exact hblock
  | complete =>
    obtain ⟨-, rfl⟩ := Node.step_complete hnode
    cases hproduce
    refine h.cursor.imp_left ?_
    rintro ⟨k, hreturned, hk, hlen, hcursor, hcaptured⟩
    exact ⟨k, hreturned, Nat.le_succ_of_le hk, hlen, hcursor, hcaptured⟩
  | acknowledge i => cases hproduce
  | crash lost =>
    obtain ⟨node', hnode', -, hrecoverable, k, hreturned, hstarted, hat, hcaptured⟩ :=
      h.consistent.node.restart hchain.state lost
    obtain rfl : node' = node := Except.ok.inj (hnode'.symm.trans (Node.step_crash hnode))
    cases hproduce
    have hnext := hrecoverable.next
    have hbounded := hrecoverable.bounded
    rcases hat with ⟨rfl, hempty⟩ | ⟨-, hends⟩
    · rcases Nat.eq_zero_or_pos k with rfl | hpos
      · exact .inl ⟨0, hreturned, Nat.zero_le _, Nat.zero_le _, hempty, hcaptured⟩
      · -- nothing is stored yet
        exact .inr ⟨hpos, le_antisymm hreturned (hrecoverable.begun.trans hrecoverable.recorded)⟩
    · exact .inl ⟨k, hreturned, by simp only; omega, by omega, hends, hcaptured⟩

theorem Positioned.step (hchain : Consecutive chain) (h : s.Positioned chain first) {event : UploadEvent}
    (hstep : s.step chain maxActive event = some s') : s'.Positioned chain first := by
  have hconsistent := h.consistent.step hchain.state hstep
  cases event with
  | produce event =>
    simp only [UploadQueue.step] at hstep
    split at hstep
    · cases hstep
    · rename_i node hnode
      exact h.produce hchain hnode hstep
  | receive =>
    simp only [UploadQueue.step] at hstep
    split at hstep
    · split at hstep
      · cases hstep
      · cases hstep
        exact ⟨hconsistent, h.cursor⟩
    · cases hstep
  | finish i =>
    simp only [UploadQueue.step] at hstep
    split at hstep
    · cases hstep
      exact ⟨hconsistent, h.cursor⟩
    · cases hstep
  | acknowledge i =>
    simp only [UploadQueue.step, Node.step] at hstep
    split at hstep
    · cases hstep
      refine ⟨hconsistent, h.cursor.imp_left ?_⟩
      rintro ⟨k, hreturned, hk, hlen, hcursor, hcaptured⟩
      refine ⟨k, hreturned, hk, hlen, hcursor, fun j hfirst hj => (hcaptured j hfirst hj).of_uploads fun u hu => ?_⟩
      rw [Node.uploads, Node.uploads_acknowledge]
      exact hu
    · cases hstep

/-- What every event but the last of a call and a crash leaves of the call that is past the hook. -/
theorem Positioned.during (h : s.Positioned chain first) {event : UploadEvent} (hstep : s.step chain maxActive event = some s')
    (hcomplete : event ≠ .produce .complete) (hcrash : ∀ lost, event ≠ .produce (.crash lost)) :
    s'.node.completed = s.node.completed ∧ s.returned ≤ s'.returned ∧
      (s.node.phase = .persisted → s'.node.phase = .persisted) := by
  cases event with
  | produce event =>
    simp only [UploadQueue.step] at hstep
    split at hstep
    · cases hstep
    rename_i node hnode
    cases event with
    | deliver =>
      obtain ⟨hphase, -, rfl⟩ := Node.step_deliver hnode
      cases hstep
      exact ⟨rfl, le_rfl, fun h => by rw [hphase] at h; cases h⟩
    | retry env =>
      obtain ⟨-, block, cursor, -, -, rfl⟩ := Node.step_retry hnode
      cases hstep
      exact ⟨rfl, le_rfl, id⟩
    | write env =>
      obtain ⟨hphase, block, upload, next, -, -, -, rfl⟩ := Node.step_write hnode
      cases hstep
      exact ⟨rfl, le_rfl, fun h => by rw [hphase] at h; cases h⟩
    | writeFailed env =>
      obtain rfl := Node.step_writeFailed hnode
      cases hstep
      exact ⟨rfl, le_rfl, id⟩
    | persist =>
      obtain ⟨next, -, rfl⟩ := Node.step_persist hnode
      cases hstep
      exact ⟨rfl, h.consistent.node.ordered.trans h.consistent.node.next, fun _ => rfl⟩
    | complete => exact absurd rfl hcomplete
    | acknowledge i => cases hstep
    | crash lost => exact absurd rfl (hcrash lost)
  | receive =>
    simp only [UploadQueue.step] at hstep
    split at hstep
    · split at hstep
      · cases hstep
      · cases hstep
        exact ⟨rfl, le_rfl, id⟩
    · cases hstep
  | finish i =>
    simp only [UploadQueue.step] at hstep
    split at hstep
    · cases hstep
      exact ⟨rfl, le_rfl, id⟩
    · cases hstep
  | acknowledge i =>
    simp only [UploadQueue.step, Node.step] at hstep
    split at hstep
    · cases hstep
      exact ⟨rfl, le_rfl, id⟩
    · cases hstep

theorem step_produce {event : NodeEvent} (h : s.step chain maxActive (.produce event) = some s') :
    ∃ node, s.node.step chain event = some node ∧ s.produce node event = some s' := by
  simp only [UploadQueue.step] at h
  split at h
  · cases h
  · rename_i node hnode
    exact ⟨node, hnode, h⟩

theorem Positioned.returned_eq (h : s.Positioned chain first) (hphase : s.node.phase = .persisted) :
    s.returned = s.node.completed + 1 := by
  have hin := h.consistent.node.phase
  rwa [Node.InPhase, hphase] at hin

end UploadQueue

/-! ## What is pruned -/

/-- The state database proves the operations of a range that is not pruned, up to its size. -/
def ProducerEnv.Proves (env : ProducerEnv) (pruned size : UInt64) : Prop :=
  ∀ start, pruned ≤ start → start < size → (env.historicalProof start size).isSome

/-- A location below a state end that some process has started with or below the start of the state database, or at
least one cadence below block `n`. -/
def Prunable (chain : List (SealedBlock C D)) (cadence : PruneCadence) (starts : List UInt64) (n : Nat)
    (location : UInt64) : Prop :=
  (∃ start ∈ starts, location ≤ start) ∨
    ∃ k, k + cadence.blocks.toNat ≤ n ∧ location ≤ (endsAt chain k).stateNext

theorem Prunable.mono {chain : List (SealedBlock C D)} {cadence : PruneCadence} {starts starts' : List UInt64}
    {n n' : Nat} {location location' : UInt64} (h : Prunable chain cadence starts n location)
    (hstarts : ∀ start ∈ starts, start ∈ starts') (hn : n ≤ n') (hle : location' ≤ location) :
    Prunable chain cadence starts' n' location' := by
  rcases h with ⟨start, hmem, hstart⟩ | ⟨k, hk, hend⟩
  · exact .inl ⟨start, hstarts start hmem, UInt64.le_trans hle hstart⟩
  · exact .inr ⟨k, hk.trans hn, UInt64.le_trans hle hend⟩

theorem PruneCadence.shouldPrune_iff {cadence : PruneCadence} {height : UInt64} :
    cadence.shouldPruneAfterFinalize height = true ↔ 0 < height.toNat ∧ cadence.blocks.toNat ∣ height.toNat := by
  unfold shouldPruneAfterFinalize
  rw [Nat.dvd_iff_mod_eq_zero, Nat.pos_iff_ne_zero]
  simp [← UInt64.toNat_inj]

theorem PruneCadence.toNat_pruneHeight (cadence : PruneCadence) {height : UInt64}
    (h : cadence.blocks.toNat ≤ height.toNat) :
    (cadence.pruneHeight height).toNat + cadence.blocks.toNat = height.toNat := by
  have hle : cadence.blocks ≤ height := UInt64.le_iff_toNat_le.2 h
  unfold pruneHeight
  rw [if_neg (UInt64.not_lt.2 hle), UInt64.toNat_sub_of_le _ _ hle]
  omega

namespace Finalizer

/-- What is pruned, and what the volatile state says about it. -/
structure Retains (chain : List (SealedBlock C D)) (first : Nat) (cadence : PruneCadence) (s : Finalizer C D) :
    Prop where
  positioned : s.queue.Positioned chain first
  hooked : s.stage ≠ .pending → s.queue.node.phase = .persisted
  previous : s.previousPruneCadenceStateEnd ∈ s.starts ∨ ∃ k, cadence.blocks.toNat ∣ k ∧
    (k ≤ s.queue.node.completed ∨ (s.stage ≠ .pending ∧ k = s.queue.node.completed + 1)) ∧
    s.previousPruneCadenceStateEnd = (endsAt chain k).stateNext
  target : ∀ target, s.stage = .marshalPruned target →
    Prunable chain cadence s.starts (s.queue.node.completed + 1) target
  marshal : s.marshalPruned = 0 ∨ s.marshalPruned.toNat + cadence.blocks.toNat ≤ s.queue.returned
  state : Prunable chain cadence s.starts s.queue.returned s.statePruned
  kept : s.statePruned ≤ (endsAt chain s.queue.returned).stateNext

/-- The sync boundary of the state database is in the state that the block leaves. -/
def Bounded (chain : List (SealedBlock C D)) (s : Finalizer C D) : FinalizerEvent → Prop
  | .pruneState syncBoundary => syncBoundary ≤ (endsAt chain (s.queue.node.completed + 1)).stateNext
  | _ => True

variable {chain : List (SealedBlock C D)} {first maxActive : Nat} {cadence : PruneCadence} {s s' : Finalizer C D}

theorem fresh_retains (hfirst : first ≤ chain.length) (stateEnd : UInt64) {synced : UInt64}
    (hsynced : synced ≤ (endsAt chain first).stateNext) :
    (fresh first stateEnd synced : Finalizer C D).Retains chain first cadence where
  positioned := UploadQueue.fresh_positioned hfirst
  hooked h := absurd rfl h
  previous := .inl (List.mem_cons_self ..)
  target := by rintro target ⟨⟩
  marshal := .inl rfl
  state := .inl ⟨synced, List.mem_cons_of_mem _ (List.mem_singleton_self _), UInt64.le_refl _⟩
  kept := hsynced

theorem step_index {event : UploadEvent} (h : s.step chain cadence maxActive (.index event) = some s') :
    event ≠ .produce .complete ∧ (∀ lost, event ≠ .produce (.crash lost)) ∧
      ∃ queue, s.queue.step chain maxActive event = some queue ∧ s' = { s with queue := queue } := by
  have hmap : ∀ {event : UploadEvent},
      ((s.queue.step chain maxActive event).map fun queue => { s with queue := queue }) = some s' →
      ∃ queue, s.queue.step chain maxActive event = some queue ∧ s' = { s with queue := queue } := by
    intro event h
    obtain ⟨queue, hqueue, rfl⟩ := Option.map_eq_some_iff.1 h
    exact ⟨queue, hqueue, rfl⟩
  cases event with
  | produce event =>
    cases event with
    | complete => cases h
    | crash lost => cases h
    | deliver => exact ⟨by simp, by simp, hmap h⟩
    | retry env => exact ⟨by simp, by simp, hmap h⟩
    | write env => exact ⟨by simp, by simp, hmap h⟩
    | writeFailed env => exact ⟨by simp, by simp, hmap h⟩
    | persist => exact ⟨by simp, by simp, hmap h⟩
    | acknowledge i => exact ⟨by simp, by simp, hmap h⟩
  | receive => exact ⟨by simp, by simp, hmap h⟩
  | finish i => exact ⟨by simp, by simp, hmap h⟩
  | acknowledge i => exact ⟨by simp, by simp, hmap h⟩

theorem step_pruneMarshal (h : s.step chain cadence maxActive .pruneMarshal = some s') :
    s.queue.node.phase = .persisted ∧ s.stage = .pending ∧ ∃ block, chain[s.queue.node.completed]? = some block ∧
      cadence.shouldPruneAfterFinalize block.inner.header.height = true ∧
      s' = { s with
        previousPruneCadenceStateEnd := block.inner.header.stateRange.stop
        stage := .marshalPruned s.previousPruneCadenceStateEnd
        marshalPruned := max s.marshalPruned (cadence.pruneHeight block.inner.header.height) } := by
  simp only [step, Finalizer.hooked] at h
  split at h
  · rename_i block hblock hstage
    split at hblock
    · rename_i hphase
      split at h
      · rename_i hshould
        cases h
        exact ⟨hphase, hstage, block, hblock, hshould, rfl⟩
      · cases h
    · cases hblock
  · cases h

theorem step_pruneState {syncBoundary : UInt64} (h : s.step chain cadence maxActive (.pruneState syncBoundary) = some s') :
    ∃ target, s.stage = .marshalPruned target ∧
      s' = { s with stage := .done, statePruned := max s.statePruned (min target syncBoundary) } := by
  simp only [step] at h
  split at h
  · rename_i target hstage
    cases h
    exact ⟨target, hstage, rfl⟩
  · cases h

theorem step_complete (h : s.step chain cadence maxActive .complete = some s') :
    ∃ queue, s.queue.step chain maxActive (.produce .complete) = some queue ∧
      s' = { s with queue := queue, stage := .pending } := by
  simp only [step] at h
  split at h
  · cases h
  · split at h
    · obtain ⟨queue, hqueue, rfl⟩ := Option.map_eq_some_iff.1 h
      exact ⟨queue, hqueue, rfl⟩
    · cases h

theorem step_crash {lost : List Nat} {stateEnd : UInt64}
    (h : s.step chain cadence maxActive (.crash lost stateEnd) = some s') :
    ∃ queue, s.queue.step chain maxActive (.produce (.crash lost)) = some queue ∧ s' = { s with
      queue := queue, previousPruneCadenceStateEnd := stateEnd, stage := .pending, starts := stateEnd :: s.starts } := by
  obtain ⟨queue, hqueue, rfl⟩ := Option.map_eq_some_iff.1 h
  exact ⟨queue, hqueue, rfl⟩

/-! ## One event -/

theorem Retains.index (hchain : Consecutive chain) (h : s.Retains chain first cadence) {event : UploadEvent}
    (hstep : s.step chain cadence maxActive (.index event) = some s') : s'.Retains chain first cadence := by
  obtain ⟨hcomplete, hcrash, queue, hqueue, rfl⟩ := step_index hstep
  obtain ⟨hcompleted, hreturned, hphase⟩ := h.positioned.during hqueue hcomplete hcrash
  have hpositioned := h.positioned.step hchain hqueue
  have hlen := hpositioned.consistent.node.ordered.trans hpositioned.consistent.node.bounded
  refine ⟨hpositioned, fun hstage => hphase (h.hooked hstage), ?_, ?_, ?_, ?_, ?_⟩
  · simp only [hcompleted]
    exact h.previous
  · simp only [hcompleted]
    exact h.target
  · exact h.marshal.imp_right fun hle => hle.trans hreturned
  · exact h.state.mono (fun _ => id) hreturned (UInt64.le_refl _)
  · exact UInt64.le_trans h.kept (endsAt_le hchain.state hreturned hlen)

theorem Retains.pruneMarshal (hchain : Consecutive chain) (h : s.Retains chain first cadence)
    (hstep : s.step chain cadence maxActive .pruneMarshal = some s') : s'.Retains chain first cadence := by
  obtain ⟨hphase, hstage, block, hblock, hshould, rfl⟩ := step_pruneMarshal hstep
  obtain ⟨hpos, hdvd⟩ := PruneCadence.shouldPrune_iff.1 hshould
  have hheight := hchain.height _ block hblock
  have hreturned := h.positioned.returned_eq hphase
  have hle := Nat.le_of_dvd hpos hdvd
  refine ⟨h.positioned, fun _ => hphase, .inr ⟨s.queue.node.completed + 1, hheight ▸ hdvd, .inr ⟨by simp, rfl⟩, ?_⟩, ?_, ?_,
    h.state, h.kept⟩
  · rw [endsAt_succ hblock]
  · -- the end of an earlier cadence, or of where the process started
    rintro target ⟨⟩
    rcases h.previous with hstart | ⟨k, hk, hle | ⟨hne, -⟩, hprevious⟩
    · exact .inl ⟨_, hstart, UInt64.le_refl _⟩
    · rw [hheight] at hdvd
      have hgap := Nat.le_of_dvd (by omega) (Nat.dvd_sub hdvd hk)
      exact .inr ⟨k, by simp only; omega, by rw [hprevious]; exact UInt64.le_refl _⟩
    · exact absurd hstage hne
  · have hnew := cadence.toNat_pruneHeight hle
    simp only
    rcases Std.max_eq_or (a := s.marshalPruned) (b := cadence.pruneHeight block.inner.header.height) with hmax | hmax
    · rw [hmax]
      exact h.marshal
    · rw [hmax]
      right
      omega

theorem Retains.pruneState (h : s.Retains chain first cadence) {syncBoundary : UInt64}
    (hbounded : s.Bounded chain (.pruneState syncBoundary))
    (hstep : s.step chain cadence maxActive (.pruneState syncBoundary) = some s') : s'.Retains chain first cadence := by
  obtain ⟨target, hstage, rfl⟩ := step_pruneState hstep
  have hphase := h.hooked (by simp [hstage])
  have hreturned := h.positioned.returned_eq hphase
  refine ⟨h.positioned, fun _ => hphase, ?_, by rintro _ ⟨⟩, h.marshal, ?_, ?_⟩
  · have hprevious := h.previous
    simp only [hstage, ne_eq, reduceCtorEq, not_false_eq_true, true_and] at hprevious ⊢
    exact hprevious
  · simp only
    rcases Std.max_eq_or (a := s.statePruned) (b := min target syncBoundary) with hmax | hmax
    · rw [hmax]
      exact h.state
    · rw [hmax, hreturned]
      exact (h.target target hstage).mono (fun _ => id) le_rfl Std.min_le_left
  · simp only
    rcases Std.max_eq_or (a := s.statePruned) (b := min target syncBoundary) with hmax | hmax
    · rw [hmax]
      exact h.kept
    · rw [hmax, hreturned]
      exact UInt64.le_trans Std.min_le_right hbounded

theorem Retains.complete (hchain : Consecutive chain) (h : s.Retains chain first cadence)
    (hstep : s.step chain cadence maxActive .complete = some s') : s'.Retains chain first cadence := by
  obtain ⟨queue, hqueue, rfl⟩ := step_complete hstep
  have hpositioned := h.positioned.step hchain hqueue
  obtain ⟨node, hnode, hproduce⟩ := UploadQueue.step_produce hqueue
  obtain ⟨-, rfl⟩ := Node.step_complete hnode
  cases hproduce
  refine ⟨hpositioned, fun hstage => absurd rfl hstage, ?_, by rintro _ ⟨⟩, h.marshal, h.state, h.kept⟩
  refine h.previous.imp_right ?_
  rintro ⟨k, hk, hle | ⟨-, rfl⟩, hprevious⟩
  · exact ⟨k, hk, .inl (Nat.le_succ_of_le hle), hprevious⟩
  · exact ⟨_, hk, .inl le_rfl, hprevious⟩

theorem Retains.crash (hchain : Consecutive chain) (h : s.Retains chain first cadence) {lost : List Nat} {stateEnd : UInt64}
    (hstep : s.step chain cadence maxActive (.crash lost stateEnd) = some s') : s'.Retains chain first cadence := by
  obtain ⟨queue, hqueue, rfl⟩ := step_crash hstep
  have hpositioned := h.positioned.step hchain hqueue
  obtain ⟨node, -, hproduce⟩ := UploadQueue.step_produce hqueue
  cases hproduce
  exact ⟨hpositioned, fun hstage => absurd rfl hstage, .inl (List.mem_cons_self ..), by rintro _ ⟨⟩, h.marshal,
    h.state.mono (fun _ => List.mem_cons_of_mem _) le_rfl (UInt64.le_refl _), h.kept⟩

/-! ## Every run -/

/-- At the frontier before its block, the hook asks for operations that are not pruned. -/
theorem Retains.kept_before (hchain : Consecutive chain) (h : s.Retains chain first cadence) {block : SealedBlock C D}
    (hcursor : s.queue.node.cursor = endsAt chain s.queue.node.completed)
    (hblock : chain[s.queue.node.completed]? = some block) :
    s.statePruned ≤ (endsAt chain s.queue.node.completed).stateNext := by
  have hrecorded := h.positioned.consistent.node.recorded
  have hbegun := h.positioned.consistent.node.begun
  have hlen := (List.getElem?_eq_some_iff.1 hblock).1
  have hreturned : s.queue.returned ≤ s.queue.node.completed := by
    rcases h.positioned.cursor with ⟨k, hreturned, -, hk, hends, -⟩ | ⟨-, hstart⟩
    · rwa [← endsAt_inj hchain.state hk hlen.le (hends.symm.trans hcursor)]
    · omega
  exact UInt64.le_trans h.kept (endsAt_le hchain.state hreturned hlen.le)

/-- Over every run with crashes at any point, of a node that starts after any block and whatever state end a process
starts with: what is pruned of the state is below such an end or the start of the database, or at least one cadence
below the last call of the hook that has returned, and the marshal keeps the last cadence of blocks. The cursor is the
frontier before the block that is due or, if that is captured, the one after it, except that a node which starts past
genesis first takes what the Store reports, an empty Store's positions too. The hook is never stuck on pruned
operations: at the frontier before its block, any iteration in which the state database proves what is not pruned
captures the block. -/
theorem capture_never_pruned (hchain : Consecutive chain) (hfirst : first ≤ chain.length) {stateEnd synced : UInt64}
    (hsynced : synced ≤ (endsAt chain first).stateNext) {events : List FinalizerEvent}
    (h : Trace (fun s event s' => s.Bounded chain event ∧ s.step chain cadence maxActive event = some s')
      (fresh first stateEnd synced) events s) :
    Prunable chain cadence s.starts s.queue.returned s.statePruned ∧
    (s.marshalPruned = 0 ∨ s.marshalPruned.toNat + cadence.blocks.toNat ≤ s.queue.returned) ∧
    (s.queue.node.cursor = endsAt chain s.queue.node.completed ∨
      (s.queue.node.cursor = endsAt chain (s.queue.node.completed + 1) ∧
        s.queue.node.Captured chain s.queue.node.completed) ∨
      (0 < first ∧ s.queue.returned = first)) ∧
    ∀ block, chain[s.queue.node.completed]? = some block → ∀ env : ProducerEnv,
      (s.queue.node.cursor = endsAt chain s.queue.node.completed →
        env.Proves s.statePruned block.inner.header.stateRange.stop →
          ∃ upload, enqueueIteration env block s.queue.node.cursor = .ok (.built upload)) ∧
      (s.queue.node.cursor = default → 0 < first →
        enqueueIteration env block s.queue.node.cursor = .ok (.retry env.nextLocations)) := by
  have hretains : s.Retains chain first cadence := by
    refine Trace.invariant (I := Retains chain first cadence) (fun s event s' hs hstep => ?_)
      (fresh_retains hfirst stateEnd hsynced) h
    obtain ⟨hbounded, hstep⟩ := hstep
    cases event with
    | index event => exact hs.index hchain hstep
    | pruneMarshal => exact hs.pruneMarshal hchain hstep
    | pruneState syncBoundary => exact hs.pruneState hbounded hstep
    | complete => exact hs.complete hchain hstep
    | crash lost stateEnd => exact hs.crash hchain hstep
  refine ⟨hretains.state, hretains.marshal, hretains.positioned.cursor_cases, fun block hblock env => ⟨?_, ?_⟩⟩
  · intro hcursor hproves
    obtain ⟨delta, hdelta⟩ := Option.isSome_iff_exists.1
      (hproves _ (hretains.kept_before hchain hcursor hblock) (hchain.state _ block hblock))
    rw [hcursor, enqueueIteration_endsAt hchain hblock env, hdelta]
    exact ⟨_, rfl⟩
  · intro hempty hpos
    rw [hempty]
    exact enqueueIteration_empty hchain hblock (hpos.trans_le hretains.positioned.consistent.node.begun) env

theorem sampleRanges_nonempty : (3 : UInt64) < 5 ∧ (1 : UInt64) < 4 := by decide

/-- An empty block on top of the sample child. -/
def sampleGrandchild : SealedBlock Unit Nat :=
  (Block.new ⟨(), 0, 2, 2, 0, ⟨3, 5, sampleRanges_nonempty.1⟩, 0, ⟨1, 4, sampleRanges_nonempty.2⟩⟩ []).sealWith
    countingApplication.env countingCodecs

theorem oneBlock_ne_zero : (1 : UInt64) ≠ 0 := by decide

def everyBlock : PruneCadence := ⟨1, oneBlock_ne_zero⟩

set_option maxRecDepth 20000 in
theorem consecutive_two : Consecutive [sampleChild, sampleGrandchild] where
  height := by
    rintro (_ | _ | k) block hblock
    · cases hblock; rfl
    · cases hblock; rfl
    · cases hblock
  state := by
    rintro (_ | _ | k) block hblock
    · cases hblock; decide
    · cases hblock; decide
    · cases hblock
  transactions := by
    rintro (_ | _ | k) block hblock
    · cases hblock; rfl
    · cases hblock; rfl
    · cases hblock

set_option maxRecDepth 20000 in
/-- The genesis operation is pruned after block 1, and the process crashes before block 2 is captured. -/
theorem capture_never_pruned_sample :
    ∃ s : Finalizer Unit Nat,
      Trace (fun s event s' => s.Bounded [sampleChild, sampleGrandchild] event ∧
          s.step [sampleChild, sampleGrandchild] everyBlock 1 event = some s') (fresh 0 1 0)
        [.index (.produce .deliver), .index (.produce (.write sampleEnv)), .index (.produce .persist), .pruneMarshal,
          .pruneState 3, .complete, .crash [] 3, .index (.produce .deliver)] s ∧
      s.statePruned = 1 ∧ s.queue.node.phase = .calling ∧ s.queue.node.completed = 1 ∧
      ∀ env : ProducerEnv, env.Proves s.statePruned 5 →
        ∃ upload, enqueueIteration env sampleGrandchild s.queue.node.cursor = .ok (.built upload) := by
  have htrace : Trace (fun s event s' => s.Bounded [sampleChild, sampleGrandchild] event ∧
      s.step [sampleChild, sampleGrandchild] everyBlock 1 event = some s') (fresh 0 1 0)
      [.index (.produce .deliver), .index (.produce (.write sampleEnv)), .index (.produce .persist), .pruneMarshal,
        .pruneState 3, .complete, .crash [] 3, .index (.produce .deliver)] _ :=
    .cons ⟨trivial, rfl⟩ (.cons ⟨trivial, rfl⟩ (.cons ⟨trivial, rfl⟩ (.cons ⟨trivial, rfl⟩
      (.cons ⟨UInt64.le_refl 3, rfl⟩ (.cons ⟨trivial, rfl⟩ (.cons ⟨trivial, rfl⟩ (.cons ⟨trivial, rfl⟩ (.nil _))))))))
  exact ⟨_, htrace, rfl, rfl, rfl, fun env hproves =>
    ((capture_never_pruned consecutive_two (Nat.zero_le _) (UInt64.zero_le ..) htrace).2.2.2 sampleGrandchild rfl env).1
      rfl hproves⟩

end Finalizer

end Constantinople
