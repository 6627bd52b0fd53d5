/-
Uploads after a reconnect. The publisher recovers the ends of the last block whose watermarks were
published and is given again a suffix of the durable queue. What is already there is answered at once;
every later upload goes to the preparer once, in order. A call that fails leaves the positions alone.
-/
import Constantinople.Indexer.Latest
import Constantinople.Indexer.Log

namespace Constantinople

open Run

variable {C D : Type}

/-! ## The publisher -/

/-- Completion of a queued upload: signalled already, or to be signalled by the committer. -/
inductive UploadCompletion
  | completed
  | waiting
deriving DecidableEq, Repr

/-- The publisher's positions, and the uploads it has handed to the preparer. -/
structure Publisher (C D : Type) where
  next : FinalizedUploadCursor
  handed : List (QueuedFinalizedUpload C D)

namespace Publisher

/-- One call of `enqueue_queued_finalized`. The preparer may have stopped, and then takes nothing; the
positions move only after it took the upload. -/
def enqueue (preparerRuns : Bool) (p : Publisher C D) (upload : QueuedFinalizedUpload C D) :
    Panics (Except PublishError UploadCompletion × Publisher C D) :=
  match enqueueQueuedFinalized p.next upload with
  | .error panic => .error panic
  | .ok (.error error) => .ok (.error error, p)
  | .ok (.ok none) => .ok (.ok .completed, p)
  | .ok (.ok (some next)) =>
    if preparerRuns then .ok (.ok .waiting, ⟨next, p.handed ++ [upload]⟩)
    else .ok (.error (.committerStopped upload.height), p)

/-- Calls for the entries of the queue, in order: the answers and the publisher after them. -/
def replay : Publisher C D → List (QueuedFinalizedUpload C D) →
    Panics (List (Except PublishError UploadCompletion) × Publisher C D)
  | p, [] => .ok ([], p)
  | p, upload :: uploads => do
    let (answer, p) ← p.enqueue true upload
    let (answers, p) ← replay p uploads
    return (answer :: answers, p)

end Publisher

/-! ## Chains of uploads -/

/-- The upload starts at the positions `c` and ends at `c'`. -/
structure QueuedFinalizedUpload.Continues (c : FinalizedUploadCursor) (upload : QueuedFinalizedUpload C D)
    (c' : FinalizedUploadCursor) : Prop where
  stateStart : upload.stateStart = c.stateNext
  transactionStart : upload.transactionStart = c.transactionNext
  stateRange : upload.stateStart ≤ upload.stateEnd
  stateEnd : c'.stateNext = upload.stateEnd
  transactionEnd : upload.transactionEnd = .ok c'.transactionNext

section Chain

variable {c c' frontier : FinalizedUploadCursor}

theorem QueuedFinalizedUpload.Continues.lt {upload : QueuedFinalizedUpload C D} (h : upload.Continues c c') :
    c.stateNext ≤ c'.stateNext ∧ c.transactionNext < c'.transactionNext := by
  constructor
  · rw [← h.stateStart, h.stateEnd]
    exact h.stateRange
  · have hend := h.transactionEnd
    unfold QueuedFinalizedUpload.transactionEnd at hend
    split at hend
    · cases hend
    · cases hend
    rename_i stop hstop
    cases hend
    rw [← h.transactionStart]
    -- a block has a commit at least, so the writer moves
    obtain ⟨-, hcount, -⟩ := transactionUploadEnd_ok hstop
    unfold opCount at hcount
    exact UInt64.lt_iff_toNat_lt.2 (by omega)

theorem chain_le {uploads : List (QueuedFinalizedUpload C D)}
    (h : Trace (fun c upload c' => QueuedFinalizedUpload.Continues c upload c') c uploads c') :
    c.stateNext ≤ c'.stateNext ∧ c.transactionNext ≤ c'.transactionNext := by
  induction h with
  | nil c => exact ⟨UInt64.le_refl _, UInt64.le_refl _⟩
  | cons head tail ih =>
    exact ⟨UInt64.le_trans head.lt.1 ih.1, UInt64.le_trans (UInt64.le_of_lt head.lt.2) ih.2⟩

/-- An upload that ends at or before the positions is answered as completed. -/
theorem enqueue_done {upload : QueuedFinalizedUpload C D} (h : upload.Continues c c')
    (hstate : c'.stateNext ≤ frontier.stateNext) (htransaction : c'.transactionNext ≤ frontier.transactionNext)
    (handed : List (QueuedFinalizedUpload C D)) (preparerRuns : Bool) :
    Publisher.enqueue preparerRuns ⟨frontier, handed⟩ upload = .ok (.ok .completed, ⟨frontier, handed⟩) := by
  rw [h.stateEnd] at hstate
  unfold Publisher.enqueue enqueueQueuedFinalized
  simp only [h.transactionEnd, hstate, htransaction, and_self, if_true]

/-- An upload that starts at the positions is handed to the preparer. -/
theorem enqueue_next {upload : QueuedFinalizedUpload C D} (h : upload.Continues c c')
    (handed : List (QueuedFinalizedUpload C D)) :
    Publisher.enqueue true ⟨c, handed⟩ upload = .ok (.ok .waiting, ⟨c', handed ++ [upload]⟩) := by
  have hnew : ¬ (c'.stateNext ≤ c.stateNext ∧ c'.transactionNext ≤ c.transactionNext) :=
    fun hle => UInt64.lt_irrefl _ (UInt64.lt_of_lt_of_le h.lt.2 hle.2)
  unfold Publisher.enqueue enqueueQueuedFinalized
  simp only [h.transactionEnd, if_neg hnew, h.stateStart, h.transactionStart, ne_eq, not_true_eq_false, if_false, if_true,
    ← h.stateEnd]

theorem replay_fresh {uploads : List (QueuedFinalizedUpload C D)}
    (h : Trace (fun c upload c' => QueuedFinalizedUpload.Continues c upload c') c uploads c') :
    ∀ handed, Publisher.replay ⟨c, handed⟩ uploads =
      .ok (uploads.map fun _ => .ok .waiting, ⟨c', handed ++ uploads⟩) := by
  induction h with
  | nil c =>
    intro handed
    rw [List.append_nil]
    rfl
  | @cons c m c' upload uploads head tail ih =>
    intro handed
    rw [Publisher.replay, enqueue_next head]
    simp only [bind, Except.bind, ih (handed ++ [upload]), List.append_assoc, List.singleton_append]
    rfl

theorem replay_done {uploads fresh : List (QueuedFinalizedUpload C D)} {p : Publisher C D}
    {answers : List (Except PublishError UploadCompletion)}
    (h : Trace (fun c upload c' => QueuedFinalizedUpload.Continues c upload c') c uploads frontier)
    (hfresh : Publisher.replay ⟨frontier, []⟩ fresh = .ok (answers, p)) :
    Publisher.replay ⟨frontier, []⟩ (uploads ++ fresh) = .ok ((uploads.map fun _ => .ok .completed) ++ answers, p) := by
  induction h with
  | nil c => exact hfresh
  | cons head tail ih =>
    obtain ⟨hstate, htransaction⟩ := chain_le tail
    rw [List.cons_append, Publisher.replay, enqueue_done head hstate htransaction]
    simp only [bind, Except.bind, ih hfresh]
    rfl

end Chain

/-- The frontier is the end of some block of a chain; the queue is replayed from any block up to the one
after it. Uploads up to the frontier are answered as completed, and those after it are handed to the
preparer, each once and in order. And whatever the upload, a call that fails moves no position. -/
theorem upload_exactly_once :
    (∀ {start frontier stop : FinalizedUploadCursor} {skipped done fresh : List (QueuedFinalizedUpload C D)},
      Trace (fun c upload c' => QueuedFinalizedUpload.Continues c upload c') start (skipped ++ done) frontier →
      Trace (fun c upload c' => QueuedFinalizedUpload.Continues c upload c') frontier fresh stop →
      Publisher.replay ⟨frontier, []⟩ (done ++ fresh) =
        .ok ((done.map fun _ => .ok .completed) ++ fresh.map fun _ => .ok .waiting, ⟨stop, fresh⟩)) ∧
    ∀ (preparerRuns : Bool) (p p' : Publisher C D) (upload : QueuedFinalizedUpload C D) (error : PublishError),
      p.enqueue preparerRuns upload = .ok (.error error, p') → p'.next = p.next ∧ p'.handed = p.handed := by
  constructor
  · intro start frontier stop skipped done fresh hdone hfresh
    obtain ⟨middle, -, hdone⟩ := hdone.split
    exact replay_done hdone (replay_fresh hfresh [])
  · intro preparerRuns p p' upload error h
    unfold Publisher.enqueue at h
    split at h
    · cases h
    · cases h
      exact ⟨rfl, rfl⟩
    · cases h
    split at h
    · cases h
    · cases h
      exact ⟨rfl, rfl⟩

set_option maxRecDepth 20000 in
/-- The first of two blocks is there already. -/
theorem upload_exactly_once_sample :
    Publisher.replay ⟨⟨3, 3⟩, []⟩ [firstUpload, secondUpload] =
      .ok ([.ok .completed, .ok .waiting], ⟨⟨5, 5⟩, [secondUpload]⟩) := by
  have hfirst : firstUpload.Continues ⟨0, 0⟩ ⟨3, 3⟩ := ⟨rfl, rfl, by decide, rfl, rfl⟩
  have hsecond : secondUpload.Continues ⟨3, 3⟩ ⟨5, 5⟩ := ⟨rfl, rfl, by decide, rfl, rfl⟩
  have hdone : Trace (fun c (upload : QueuedFinalizedUpload Unit Nat) c' => upload.Continues c c') ⟨0, 0⟩
      ([] ++ [firstUpload]) ⟨3, 3⟩ := .cons hfirst (.nil _)
  exact upload_exactly_once.1 hdone (.cons hsecond (.nil _))

end Constantinople
