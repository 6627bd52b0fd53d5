/-
The feed and the page with the server between them. The server keeps a log of ingest batches with increasing
sequence numbers and sends a stream the batches from a sequence number on, or, when none is asked for, from where
it likes. Streams end and fail at any time, batches are published at any time, and the flush timer fires at any
time after a block has come. Whatever happens in between, the page goes on with the first batch it has not had.
-/
import Constantinople.Explorer.Feed
import Constantinople.Lib.Resume

namespace Constantinople.Explorer

open Constantinople Run

variable {D : Type}

/-! ## The system -/

structure LiveView (D : Type) where
  log : List (MetaBatch D)
  /-- The place in the log of the next batch of an open stream. -/
  stream : Option Nat
  subscription : Subscription
  /-- What `subscribeBlocks` threw. -/
  thrown : Option StreamError
  board : Board

def LiveView.new : LiveView D := ⟨[], none, .new, none, .new⟩

inductive LiveEvent (D : Type)
  | published (batch : MetaBatch D)
  | subscribed (start : Nat)
  | framed (batch : MetaBatch D) (arrivedAt : Nat) (yielded : List ObservedBlock)
  | ended
  | failed (error : StreamError)
  | flushed

/-- `sql.subscribe` from the next sequence number. -/
def LiveView.subscribe (view : LiveView D) (start : Nat) : LiveView D :=
  { view with
    stream := some (Resume.position MetaBatch.sequenceNumber view.log view.subscription.nextSequence start)
    board := { view.board with status := .connecting } }

/-- A frame, whose blocks the page queues one by one. -/
def LiveView.onFrame (view : LiveView D) (digestBytes : D → Bytes) (index arrivedAt : Nat) (batch : MetaBatch D) :
    LiveView D × List ObservedBlock :=
  let handled := view.subscription.onFrame arrivedAt (batch.frame digestBytes)
  ({ view with
      stream := some (index + 1)
      subscription := handled.1
      board := handled.2.foldl (fun board block => queueObservedBlocks board [block]) view.board },
    handled.2)

/-- An error of the stream: the page shows a network error, and an error that ends the subscription. -/
def LiveView.onError (view : LiveView D) (error : StreamError) : LiveView D :=
  match view.subscription.onError error with
  | .error error => { view with
      stream := none
      thrown := some error
      board := { view.board with status := .error (errorMessage error) } }
  | .ok subscription => { view with
      stream := none
      subscription
      board := { view.board with
        status := if isNetworkError error then .error ("network error: ".toList ++ errorMessage error)
          else view.board.status } }

variable (digestBytes : D → Bytes)

inductive LiveStep : LiveView D → LiveEvent D → LiveView D → Prop
  | publish {view : LiveView D} (batch : MetaBatch D)
      (above : ∀ earlier ∈ view.log, earlier.sequenceNumber < batch.sequenceNumber) :
    LiveStep view (.published batch) { view with log := view.log ++ [batch] }
  | subscribe {view : LiveView D} (start : Nat) (alive : view.thrown = none) (noStream : view.stream = none)
      (within : start ≤ view.log.length) :
    LiveStep view (.subscribed start) (view.subscribe start)
  | frame {view : LiveView D} {index : Nat} {batch : MetaBatch D} (arrivedAt : Nat) (alive : view.thrown = none)
      (streaming : view.stream = some index) (there : view.log[index]? = some batch) :
    LiveStep view (.framed batch arrivedAt (view.onFrame digestBytes index arrivedAt batch).2)
      (view.onFrame digestBytes index arrivedAt batch).1
  | finish {view : LiveView D} (alive : view.thrown = none) (streaming : view.stream.isSome) :
    LiveStep view .ended { view with stream := none }
  | fail {view : LiveView D} (error : StreamError) (alive : view.thrown = none) (streaming : view.stream.isSome) :
    LiveStep view (.failed error) (view.onError error)
  | flush {view : LiveView D} (due : view.board.flushDue) :
    LiveStep view .flushed { view with board := flush view.board }

/-- The batches the page got. -/
def batches (events : List (LiveEvent D)) : List (MetaBatch D) :=
  events.filterMap fun event => match event with
    | .framed batch _ _ => some batch
    | _ => none

/-- The rows in them. -/
def deliveredRows (events : List (LiveEvent D)) : List (BlockMetaRow D) := (batches events).flatMap MetaBatch.rows

/-- The blocks the subscription yielded. -/
def yielded (events : List (LiveEvent D)) : List ObservedBlock :=
  events.flatMap fun event => match event with
    | .framed _ _ blocks => blocks
    | _ => []

/-- The blocks in the frames of a run, frame by frame. -/
def decoded (events : List (LiveEvent D)) : List (List ObservedBlock) :=
  events.filterMap fun event => match event with
    | .framed batch arrivedAt _ => some (decodeFrame arrivedAt (batch.frame digestBytes))
    | _ => none

/-! ## Reading the log -/

/-- The page as a reader of the log. -/
def LiveView.reader (view : LiveView D) : Resume.Reader (MetaBatch D) :=
  ⟨view.log, view.stream, view.subscription.nextSequence⟩

/-- What an event is to the reader; a flush is nothing. -/
def LiveEvent.read : LiveEvent D → List (Resume.Event (MetaBatch D))
  | .published batch => [.appended batch]
  | .subscribed start => [.opened start]
  | .framed batch _ _ => [.delivered batch]
  | .ended => [.closed]
  | .failed _ => [.closed]
  | .flushed => []

/-- An error that ends the subscription after so many retries since the last frame. -/
def Fatal (retries : Nat) (error : StreamError) : Prop :=
  isNetworkError error = false ∧ (isTransientBatchRaceError error = true → maxTransientRetries ≤ retries)

/-- The retries since the last frame after an error that is not fatal. -/
def retriesAfter (retries : Nat) (error : StreamError) : Nat :=
  if isTransientBatchRaceError error then retries + 1 else retries

theorem isNetworkError_of_transient {error : StreamError} (h : isTransientBatchRaceError error = true) :
    isNetworkError error = false := by
  cases error with
  | connect code message =>
    obtain ⟨rfl, -⟩ : code = .outOfRange ∧ _ := by simpa [isTransientBatchRaceError] using h
    simp [isNetworkError]
  | type message => cases h
  | other text => cases h

/-- What an error does: it ends the subscription, or only a retry is counted. -/
theorem LiveView.onError_cases (view : LiveView D) (error : StreamError) :
    (Fatal view.subscription.transientRetries error ∧ view.onError error = { view with
      stream := none
      thrown := some error
      board := { view.board with status := .error (errorMessage error) } }) ∨
    (¬Fatal view.subscription.transientRetries error ∧ ∃ status, view.onError error = { view with
      stream := none
      subscription := { view.subscription with
        transientRetries := retriesAfter view.subscription.transientRetries error }
      board := { view.board with status } }) := by
  unfold LiveView.onError Subscription.onError Fatal retriesAfter
  by_cases hnetwork : isNetworkError error = true
  · have htransient : isTransientBatchRaceError error = false := by
      by_contra h
      rw [isNetworkError_of_transient (by simpa using h)] at hnetwork
      cases hnetwork
    refine .inr ⟨by simp [hnetwork], .error ("network error: ".toList ++ errorMessage error), ?_⟩
    simp [hnetwork, htransient]
  · by_cases hfatal : ¬isTransientBatchRaceError error ∨ maxTransientRetries ≤ view.subscription.transientRetries
    · refine .inl ⟨⟨by simpa using hnetwork, ?_⟩, by simp only [hnetwork, hfatal]; rfl⟩
      intro htransient
      exact hfatal.resolve_left (by simpa using htransient)
    · obtain ⟨htransient, hretries⟩ := not_or.1 hfatal
      have htransient : isTransientBatchRaceError error = true := by simpa using htransient
      refine .inr ⟨fun h => hretries (h.2 htransient), view.board.status, ?_⟩
      simp [hnetwork, htransient, hretries]

theorem onError_reader (view : LiveView D) (error : StreamError) :
    (view.onError error).reader = { view.reader with stream := none } := by
  rcases view.onError_cases error with ⟨-, heq⟩ | ⟨-, status, heq⟩
  · rw [heq]
    rfl
  · rw [heq]
    rfl

theorem onError_cursor (view : LiveView D) (error : StreamError) :
    (view.onError error).subscription.cursor = view.subscription.cursor := by
  rcases view.onError_cases error with ⟨-, heq⟩ | ⟨-, status, heq⟩
  · rw [heq]
  · rw [heq]

variable {digestBytes}

theorem LiveStep.read {view view' : LiveView D} {event : LiveEvent D} (h : LiveStep digestBytes view event view') :
    Trace (Resume.Step MetaBatch.sequenceNumber) view.reader event.read view'.reader := by
  cases h with
  | publish batch above => exact .cons (.append batch above) (.nil _)
  | subscribe start alive noStream within => exact .cons (.openStream start within) (.nil _)
  | frame arrivedAt alive streaming there => exact .cons (.deliver streaming there) (.nil _)
  | finish alive streaming => exact .cons .close (.nil _)
  | fail error alive streaming =>
    rw [onError_reader]
    exact .cons .close (.nil _)
  | flush due => exact .nil _

theorem read_trace {view view' : LiveView D} {events : List (LiveEvent D)}
    (hrun : Trace (LiveStep digestBytes) view events view') :
    Trace (Resume.Step MetaBatch.sequenceNumber) view.reader (events.flatMap LiveEvent.read) view'.reader := by
  induction hrun with
  | nil view => exact .nil _
  | cons head tail ih => exact head.read.append ih

theorem delivered_read (events : List (LiveEvent D)) :
    Resume.delivered (events.flatMap LiveEvent.read) = batches events := by
  induction events with
  | nil => rfl
  | cons event events ih =>
    rw [List.flatMap_cons, Resume.delivered, List.filterMap_append, ← Resume.delivered, ← Resume.delivered, ih]
    cases event <;> rfl

/-- The batches got are a part of the log without gaps, and the next one asked for follows it. -/
theorem batches_slice {view : LiveView D} {events : List (LiveEvent D)}
    (hrun : Trace (LiveStep digestBytes) .new events view) :
    (∃ before after, view.log = before ++ batches events ++ after) ∧
      view.subscription.nextSequence = (batches events).getLast?.map (·.sequenceNumber + 1) := by
  have hreads := Resume.Reads.new.trace (read_trace hrun)
  rw [List.nil_append, delivered_read] at hreads
  refine ⟨?_, hreads.next_eq⟩
  by_cases hnone : batches events = []
  · exact ⟨view.log, [], by simp [hnone]⟩
  · obtain ⟨before, after, hlog, -⟩ := hreads.slice hnone
    exact ⟨before, after, hlog⟩

/-! ## Yielding blocks -/

theorem collectCalls_cons (cursor : BlockSequenceCursor) (blocks : List ObservedBlock)
    (calls : List (List ObservedBlock)) :
    collectCalls cursor (blocks :: calls) =
      ((collectCalls (collectLiveBlocks cursor blocks).1 calls).1,
        (collectLiveBlocks cursor blocks).2 ++ (collectCalls (collectLiveBlocks cursor blocks).1 calls).2) := by
  rw [collectCalls_eq, collectCalls_eq, List.flatten_cons, collectLiveBlocks, List.foldl_append, ← collectLiveBlocks,
    foldl_collectLiveBlock]

/-- A run yields what the cursor lets through of the blocks in its frames. -/
theorem collectCalls_decoded {view view' : LiveView D} {events : List (LiveEvent D)}
    (hrun : Trace (LiveStep digestBytes) view events view') :
    collectCalls view.subscription.cursor (decoded digestBytes events) =
      (view'.subscription.cursor, yielded events) := by
  induction hrun with
  | nil view => rfl
  | @cons view mid view' event events head tail ih =>
    cases head with
    | frame arrivedAt alive streaming there =>
      show collectCalls view.subscription.cursor (decodeFrame arrivedAt _ :: decoded digestBytes events) = _
      change collectCalls (collectLiveBlocks view.subscription.cursor (decodeFrame arrivedAt _)).1 _ = _ at ih
      rw [collectCalls_cons, ih]
      rfl
    | fail error alive streaming =>
      rw [onError_cursor] at ih
      exact ih
    | publish batch above => exact ih
    | subscribe start alive noStream within => exact ih
    | finish alive streaming => exact ih
    | flush due => exact ih

/-- What a block shows of its row. -/
def ObservedBlock.facts (block : ObservedBlock) : Int × Bytes × Int := (block.height, block.digest, block.txCount)

variable (digestBytes) in
def rowFacts (row : BlockMetaRow D) : Int × Bytes × Int :=
  (row.height.toNat, digestBytes row.digest, Double.round row.txCount.toNat)

variable (digestBytes) in
/-- The blocks in the frames are the rows of the batches. -/
theorem decoded_perm (events : List (LiveEvent D)) :
    ((decoded digestBytes events).flatten.map ObservedBlock.facts).Perm
      ((deliveredRows events).map (rowFacts digestBytes)) := by
  induction events with
  | nil => exact .nil
  | cons event events ih =>
    cases event with
    | framed batch arrivedAt blocks =>
      show ((decodeFrame arrivedAt _ ++ (decoded digestBytes events).flatten).map ObservedBlock.facts).Perm
        ((batch.rows ++ deliveredRows events).map (rowFacts digestBytes))
      rw [List.map_append, List.map_append]
      refine .append ?_ ih
      have hframe := (decodeFrame_frame digestBytes arrivedAt batch).map ObservedBlock.facts
      rwa [List.map_map] at hframe
    | published batch => exact ih
    | subscribed start => exact ih
    | ended => exact ih
    | failed error => exact ih
    | flushed => exact ih

theorem collectLiveBlocks_sublist (cursor : BlockSequenceCursor) (blocks : List ObservedBlock) :
    (collectLiveBlocks cursor blocks).2.Sublist blocks := by
  induction blocks using List.reverseRecOn with
  | nil => exact .refl _
  | append_singleton blocks block ih =>
    rw [collectLiveBlocks_concat]
    rcases collectLiveBlock_cases (collectLiveBlocks cursor blocks) block with ⟨-, heq⟩ | ⟨-, heq⟩
    · rw [heq]
      exact ih.trans (List.sublist_append_left _ _)
    · rw [heq]
      exact ih.append_right [block]

section Yielded

variable {view : LiveView D} {events : List (LiveEvent D)} (hrun : Trace (LiveStep digestBytes) .new events view)

include hrun

theorem yielded_sublist : (yielded events).Sublist (decoded digestBytes events).flatten := by
  have hcollect := collectCalls_decoded hrun
  rw [collectCalls_eq] at hcollect
  have hsublist := collectLiveBlocks_sublist (LiveView.new : LiveView D).subscription.cursor
    (decoded digestBytes events).flatten
  rwa [hcollect] at hsublist

/-- Every block yielded is a row of a batch. -/
theorem yielded_facts {block : ObservedBlock} (hblock : block ∈ yielded events) :
    ∃ row ∈ deliveredRows events, block.facts = rowFacts digestBytes row := by
  have hfacts := (decoded_perm digestBytes events).subset (List.mem_map_of_mem ((yielded_sublist hrun).subset hblock))
  obtain ⟨row, hrow, heq⟩ := List.mem_map.1 hfacts
  exact ⟨row, hrow, heq.symm⟩

/-- Every height of a row is yielded, and again only after as many others as the cursor remembers. -/
theorem yielded_heights :
    (∀ row ∈ deliveredRows events, (row.height.toNat : Int) ∈ (yielded events).map ObservedBlock.height) ∧
      Recent.Spaced 4096 ((yielded events).map ObservedBlock.height) := by
  obtain ⟨hfollows, hmem, hcapacity⟩ := collectLiveBlocks_follows none (decoded digestBytes events).flatten
  have hcollect := collectCalls_decoded hrun
  rw [collectCalls_eq] at hcollect
  change collectLiveBlocks (createBlockSequenceCursor none) _ = _ at hcollect
  rw [hcollect] at hfollows hmem hcapacity
  constructor
  · intro row hrow
    have hfacts := (decoded_perm digestBytes events).symm.subset (List.mem_map_of_mem hrow)
    obtain ⟨block, hblock, heq⟩ := List.mem_map.1 hfacts
    have hheight : block.height = row.height.toNat := congrArg Prod.fst heq
    rw [← hheight]
    exact hmem block hblock
  · have hspaced := hfollows.spaced.of_map heightKey_injective
    rw [hcapacity] at hspaced
    have h4096 : seenCapacity none = 4096 := by decide +kernel
    rwa [h4096] at hspaced

/-- A block yielded for a height has the digest and the count of its rows, if they agree. -/
theorem yielded_row {row : BlockMetaRow D}
    (hagree : ∀ other ∈ deliveredRows events, other.height = row.height →
      rowFacts digestBytes other = rowFacts digestBytes row)
    {block : ObservedBlock} (hblock : block ∈ yielded events) (hheight : block.height = row.height.toNat) :
    block.facts = rowFacts digestBytes row := by
  obtain ⟨other, hother, heq⟩ := yielded_facts hrun hblock
  have hsame : (other.height.toNat : Int) = row.height.toNat := (congrArg Prod.fst heq).symm.trans hheight
  rw [heq]
  exact hagree other hother (UInt64.toNat_inj.1 (by exact_mod_cast hsame))

end Yielded

/-- Over any run of disconnects, the page gets the batches of the server's log from its first one on in order and
without a gap, and asks for the one after them next. It yields a block for every height in them and no height again
before 4096 others; each block is one of the rows, and has the digest and the count of all rows of its height if they
agree. -/
theorem live_blocks_exactly_once {view : LiveView D} {events : List (LiveEvent D)}
    (hrun : Trace (LiveStep digestBytes) .new events view) :
    (∃ before after, view.log = before ++ batches events ++ after) ∧
    view.subscription.nextSequence = (batches events).getLast?.map (·.sequenceNumber + 1) ∧
    (∀ row ∈ deliveredRows events,
      (row.height.toNat : Int) ∈ (yielded events).map ObservedBlock.height) ∧
    (∀ block ∈ yielded events, ∃ row ∈ deliveredRows events, block.facts = rowFacts digestBytes row) ∧
    (∀ row ∈ deliveredRows events,
      (∀ other ∈ deliveredRows events, other.height = row.height →
        rowFacts digestBytes other = rowFacts digestBytes row) →
      ∀ block ∈ yielded events, block.height = row.height.toNat → block.facts = rowFacts digestBytes row) ∧
    Recent.Spaced 4096 ((yielded events).map ObservedBlock.height) := by
  obtain ⟨hslice, hnext⟩ := batches_slice hrun
  obtain ⟨hheights, hspaced⟩ := yielded_heights hrun
  exact ⟨hslice, hnext, hheights, fun block hblock => yielded_facts hrun hblock,
    fun row _ hagree block hblock hheight => yielded_row hrun hagree hblock hheight, hspaced⟩

def liveBatch (sequenceNumber : Nat) (height txCount : UInt64) : MetaBatch Unit :=
  ⟨sequenceNumber, [⟨height, (), txCount, (), 0, 0, 0⟩]⟩

/-- A run that loses its connection between two frames, and for good after them, with a flush at the end. -/
def liveRun (first second : List ObservedBlock) : List (LiveEvent Unit) :=
  [.published (liveBatch 5 1 2), .subscribed 0, .framed (liveBatch 5 1 2) 100 first,
    .failed (.connect .unavailable []), .published (liveBatch 7 2 3), .subscribed 0,
    .framed (liveBatch 7 2 3) 200 second, .failed (.connect .internal []), .flushed]

theorem liveRun_trace : ∃ first second view, Trace (LiveStep fun _ => []) .new (liveRun first second) view := by
  refine ⟨_, _, _, .cons (.publish _ (List.forall_mem_nil _)) <| .cons (.subscribe 0 rfl rfl (Nat.zero_le _)) <|
    .cons (.frame 100 rfl rfl rfl) <| .cons (.fail _ rfl rfl) <| .cons (.publish _ ?_) <|
    .cons (.subscribe 0 rfl rfl (Nat.zero_le _)) <| .cons (.frame 200 rfl rfl rfl) <| .cons (.fail _ rfl rfl) <|
    .cons (.flush ?_) <| .nil _⟩
  · decide +kernel
  · decide +kernel

theorem live_blocks_exactly_once_sample : ∃ first second view,
    Trace (LiveStep fun _ => []) .new (liveRun first second) view ∧ view.subscription.nextSequence = some 8 ∧
      (1 : Int) ∈ (first ++ second).map ObservedBlock.height ∧
      (2 : Int) ∈ (first ++ second).map ObservedBlock.height := by
  obtain ⟨first, second, view, hrun⟩ := liveRun_trace
  obtain ⟨-, hnext, hheights, -⟩ := live_blocks_exactly_once hrun
  have hyielded : yielded (liveRun first second) = first ++ second := by simp [yielded, liveRun]
  rw [hyielded] at hheights
  exact ⟨first, second, view, hrun, hnext, hheights _ List.mem_cons_self,
    hheights _ (List.mem_cons_of_mem _ List.mem_cons_self)⟩

/-! ## The page -/

theorem onError_board (view : LiveView D) (error : StreamError) :
    ∃ status, (view.onError error).board = { view.board with status } := by
  rcases view.onError_cases error with ⟨-, heq⟩ | ⟨-, status, heq⟩
  · exact ⟨_, by rw [heq]⟩
  · exact ⟨status, by rw [heq]⟩

/-- A page to which these blocks have come. -/
def Board.Received (board : Board) (blocks : List ObservedBlock) : Prop :=
  ∃ flushed, blocks = flushed ++ board.pendingBlocks ∧ board.Shows flushed

theorem Board.Received.status {board : Board} {blocks : List ObservedBlock} (h : board.Received blocks)
    (status : Status) : ({ board with status } : Board).Received blocks := by
  obtain ⟨flushed, hblocks, hshows⟩ := h
  exact ⟨flushed, hblocks, hshows.newest, hshows.transactions, hshows.blocks, hshows.window⟩

theorem Board.Received.queue {board : Board} {blocks : List ObservedBlock} (h : board.Received blocks)
    (nextBlocks : List ObservedBlock) :
    (nextBlocks.foldl (fun board block => queueObservedBlocks board [block]) board).Received
      (blocks ++ nextBlocks) := by
  obtain ⟨flushed, hblocks, hshows⟩ := h
  rw [foldl_queueObservedBlocks, queueObservedBlocks_pending]
  exact ⟨flushed, by simp [hblocks], hshows.newest, hshows.transactions, hshows.blocks, hshows.window⟩

theorem flush_pendingBlocks (board : Board) : (flush board).pendingBlocks = [] := by
  unfold flush
  split
  · assumption
  · rfl

theorem Board.Received.flush {board : Board} {blocks : List ObservedBlock} (h : board.Received blocks) :
    (flush board).Received blocks := by
  obtain ⟨flushed, hblocks, hshows⟩ := h
  refine ⟨blocks, by simp [flush_pendingBlocks], ?_⟩
  rw [hblocks]
  exact hshows.flush

theorem received_trace {view view' : LiveView D} {events : List (LiveEvent D)}
    (hrun : Trace (LiveStep digestBytes) view events view') {blocks : List ObservedBlock}
    (h : view.board.Received blocks) : view'.board.Received (blocks ++ yielded events) := by
  induction hrun generalizing blocks with
  | nil view => simpa [yielded] using h
  | @cons view mid view' event events head tail ih =>
    cases head with
    | frame arrivedAt alive streaming there =>
      have hnext := ih (h.queue _)
      rwa [List.append_assoc] at hnext
    | fail error alive streaming =>
      obtain ⟨status, hboard⟩ := onError_board view error
      exact ih (hboard ▸ h.status status)
    | publish batch above => exact ih h
    | subscribe start alive noStream within => exact ih (h.status .connecting)
    | finish alive streaming => exact ih h
    | flush due => exact ih h.flush

/-- A timer runs exactly while blocks wait. -/
def Board.Timed (board : Board) : Prop := board.flushDue = !board.pendingBlocks.isEmpty

theorem timed_step {view view' : LiveView D} {event : LiveEvent D} (h : view.board.Timed)
    (hstep : LiveStep digestBytes view event view') : view'.board.Timed := by
  cases hstep with
  | @frame index batch arrivedAt alive streaming there =>
    show (List.foldl _ view.board _).Timed
    rw [foldl_queueObservedBlocks, queueObservedBlocks_pending]
    unfold Board.Timed at h ⊢
    cases hpending : view.board.pendingBlocks with
    | nil => simp [h, hpending]
    | cons block blocks => simp [h, hpending]
  | fail error alive streaming =>
    obtain ⟨status, hboard⟩ := onError_board view error
    unfold Board.Timed at h ⊢
    rw [hboard]
    exact h
  | flush due =>
    unfold Board.Timed
    rw [flush_pendingBlocks]
    unfold Explorer.flush
    split
    · rfl
    · rfl
  | publish batch above => exact h
  | subscribe start alive noStream within => exact h
  | finish alive streaming => exact h

theorem timed_trace {view : LiveView D} {events : List (LiveEvent D)}
    (hrun : Trace (LiveStep digestBytes) .new events view) : view.board.Timed :=
  hrun.invariant (I := fun view => view.board.Timed) (fun _ _ _ => timed_step) rfl

theorem yielded_length_le {view : LiveView D} {events : List (LiveEvent D)}
    (hrun : Trace (LiveStep digestBytes) .new events view) : (yielded events).length ≤ (deliveredRows events).length := by
  have hlength := (decoded_perm digestBytes events).length_eq
  rw [List.length_map, List.length_map] at hlength
  exact hlength ▸ (yielded_sublist hrun).length_le

theorem countable_yielded {view : LiveView D} {events : List (LiveEvent D)}
    (hrun : Trace (LiveStep digestBytes) .new events view)
    (htransactions : ((deliveredRows events).map (·.txCount.toNat)).sum ≤ Double.exactBound) :
    Countable (yielded events) := by
  have hperm := (decoded_perm digestBytes events).map fun facts => facts.2.2
  rw [List.map_map, List.map_map] at hperm
  change ((decoded digestBytes events).flatten.map ObservedBlock.txCount).Perm _ at hperm
  -- no count is rounded
  have hcounts : (deliveredRows events).map ((fun facts => facts.2.2) ∘ rowFacts digestBytes) =
      ((deliveredRows events).map (·.txCount.toNat)).map ((↑) : ℕ → ℤ) := by
    rw [List.map_map]
    refine List.map_congr_left fun row hrow => ?_
    have hle := List.single_le_sum (fun _ _ => Nat.zero_le _) _ (List.mem_map_of_mem (f := (·.txCount.toNat)) hrow)
    exact Double.round_of_le (Int.natCast_nonneg _) (by exact_mod_cast hle.trans htransactions)
  rw [hcounts] at hperm
  have hsublist := (yielded_sublist hrun).map ObservedBlock.txCount
  have hnonneg : ∀ count ∈ (decoded digestBytes events).flatten.map ObservedBlock.txCount, 0 ≤ count := by
    intro count hcount
    obtain ⟨n, -, rfl⟩ := List.mem_map.1 (hperm.subset hcount)
    exact Int.natCast_nonneg n
  refine ⟨?_, ?_⟩
  · intro block hblock
    exact hnonneg _ (hsublist.subset (List.mem_map_of_mem hblock))
  · refine (hsublist.sum_le_sum hnonneg).trans ?_
    rw [hperm.sum_eq, ← Nat.cast_list_sum]
    exact_mod_cast htransactions

/-- Few enough heights are told apart for good. -/
theorem nodup_of_spaced {heights : List Int} {n : ℕ} (h : Recent.Spaced n heights) (hcard : heights.toFinset.card ≤ n) :
    heights.Nodup := by
  rw [List.nodup_iff_sublist]
  intro height hsublist
  obtain ⟨early, late, rfl, hearly, hlate⟩ := List.cons_sublist_iff.1 hsublist
  obtain ⟨before, between, rfl⟩ := List.append_of_mem hearly
  obtain ⟨between', after, rfl⟩ := List.append_of_mem (List.singleton_sublist.1 hlate)
  have hle : n ≤ ((between ++ between').toFinset.erase height).card := by
    have hspaced := h before height (between ++ between') after (by simp)
    exact_mod_cast hspaced
  have hmem : height ∈ ((before ++ height :: between) ++ (between' ++ height :: after)).toFinset := by simp
  have hsubset : (between ++ between').toFinset.erase height ⊆
      ((before ++ height :: between) ++ (between' ++ height :: after)).toFinset.erase height := by
    apply Finset.erase_subset_erase
    intro x hx
    simp only [List.mem_toFinset, List.mem_append, List.mem_cons] at hx ⊢
    tauto
  have hlt := Finset.card_erase_lt_of_mem hmem
  have := Finset.card_le_card hsubset
  omega

/-- The page shows the newest 180 of the blocks flushed so far, as the last row of each, and has counted those
blocks, and their transactions, as long as a double counts the rows that came, or theirs; the blocks that wait have a
timer. As long as no more than 4096 heights have come, no block is counted twice. -/
theorem page_counts_blocks_once {view : LiveView D} {events : List (LiveEvent D)}
    (hrun : Trace (LiveStep digestBytes) .new events view) :
    ∃ flushed, yielded events = flushed ++ view.board.pendingBlocks ∧
      (view.board.flushDue = true ↔ view.board.pendingBlocks ≠ []) ∧
      ShowsNewest flushed view.board.blocks ∧
      ((deliveredRows events).length ≤ Double.exactBound → view.board.totalBlocksObserved = flushed.length) ∧
      (((deliveredRows events).map (·.txCount.toNat)).sum ≤ Double.exactBound →
        view.board.totalTxObserved = (flushed.map ObservedBlock.txCount).sum) ∧
      (((deliveredRows events).map (·.height)).toFinset.card ≤ 4096 →
        ((yielded events).map ObservedBlock.height).Nodup) := by
  have hnew : (LiveView.new : LiveView D).board.Received [] := ⟨[], rfl, Board.new_shows⟩
  obtain ⟨flushed, hyielded, hshows⟩ := received_trace hrun hnew
  rw [List.nil_append] at hyielded
  refine ⟨flushed, hyielded, ?_, hshows.newest, ?_, ?_, ?_⟩
  · rw [timed_trace hrun]
    simp
  · intro hrows
    have hlength := yielded_length_le hrun
    rw [hyielded, List.length_append] at hlength
    exact hshows.blocks (by omega)
  · intro htransactions
    have hall := countable_yielded hrun htransactions
    rw [hyielded] at hall
    exact hshows.transactions hall.left
  · intro hcard
    refine nodup_of_spaced (yielded_heights hrun).2 (le_trans ?_ hcard)
    have hsubset : ((yielded events).map ObservedBlock.height).toFinset ⊆
        ((deliveredRows events).map (·.height)).toFinset.image fun height => (height.toNat : Int) := by
      intro height hheight
      obtain ⟨block, hblock, rfl⟩ := List.mem_map.1 (List.mem_toFinset.1 hheight)
      obtain ⟨row, hrow, heq⟩ := yielded_facts hrun hblock
      rw [Finset.mem_image]
      exact ⟨row.height, List.mem_toFinset.2 (List.mem_map_of_mem hrow), (congrArg Prod.fst heq).symm⟩
    exact (Finset.card_le_card hsubset).trans Finset.card_image_le

theorem page_counts_blocks_once_sample : ∃ first second view,
    Trace (LiveStep fun _ => []) .new (liveRun first second) view ∧
      ((yielded (liveRun first second)).map ObservedBlock.height).Nodup ∧
      ∃ flushed, ShowsNewest flushed view.board.blocks ∧ view.board.totalBlocksObserved = flushed.length ∧
        view.board.totalTxObserved = (flushed.map ObservedBlock.txCount).sum := by
  obtain ⟨first, second, view, hrun⟩ := liveRun_trace
  have htransactions : (([liveBatch 5 1 2, liveBatch 7 2 3].flatMap MetaBatch.rows).map (·.txCount.toNat)).sum ≤
      Double.exactBound := by decide +kernel
  have hrows : ([liveBatch 5 1 2, liveBatch 7 2 3].flatMap MetaBatch.rows).length ≤ Double.exactBound := by
    decide +kernel
  have hheights : (([liveBatch 5 1 2, liveBatch 7 2 3].flatMap MetaBatch.rows).map (·.height)).toFinset.card ≤
      4096 := by
    decide +kernel
  obtain ⟨flushed, -, -, hnewest, hblocks, hcounted, hnodup⟩ := page_counts_blocks_once hrun
  exact ⟨first, second, view, hrun, hnodup hheights, flushed, hnewest, hblocks hrows, hcounted htransactions⟩

/-! ## The end of the feed -/

def LiveEvent.isFlush : LiveEvent D → Bool
  | .flushed => true
  | _ => false

def LiveEvent.isPublish : LiveEvent D → Bool
  | .published _ => true
  | _ => false

/-- The retries after an event. -/
def countRetries (retries : Nat) : LiveEvent D → Nat
  | .framed _ _ _ => 0
  | .failed error => retriesAfter retries error
  | _ => retries

/-- Errors of the race for a batch since the last frame. -/
def transientFailures (events : List (LiveEvent D)) : Nat := events.foldl countRetries 0

/-- What still happens once the subscription has ended: batches are published, and the timer fires if it was
running. -/
theorem thrown_trace {view view' : LiveView D} {events : List (LiveEvent D)}
    (hrun : Trace (LiveStep digestBytes) view events view') (htimed : view.board.Timed) {error : StreamError}
    (hthrown : view.thrown = some error) :
    view'.thrown = some error ∧ (∀ event ∈ events, event.isFlush ∨ event.isPublish) ∧
      (events.filter LiveEvent.isFlush).length ≤ (if view.board.flushDue then 1 else 0) ∧
      view'.board.status = if events.any LiveEvent.isFlush then .live else view.board.status := by
  induction hrun with
  | nil view => exact ⟨hthrown, List.forall_mem_nil _, Nat.zero_le _, rfl⟩
  | @cons view mid view' event events head tail ih =>
    have htimed' := timed_step htimed head
    cases head with
    | publish batch above =>
      obtain ⟨hend, hevents, hflush, hstatus⟩ := ih htimed' hthrown
      exact ⟨hend, List.forall_mem_cons.2 ⟨.inr rfl, hevents⟩, hflush, hstatus⟩
    | flush due =>
      obtain ⟨hend, hevents, hflush, hstatus⟩ := ih htimed' hthrown
      have hpending : view.board.pendingBlocks ≠ [] := by
        rw [htimed] at due
        simpa using due
      obtain ⟨first, rest, hcons⟩ := List.exists_cons_of_ne_nil hpending
      have hboard : (Explorer.flush view.board).flushDue = false ∧ (Explorer.flush view.board).status = .live := by
        unfold Explorer.flush
        rw [hcons]
        exact ⟨rfl, rfl⟩
      refine ⟨hend, List.forall_mem_cons.2 ⟨.inl rfl, hevents⟩, ?_, ?_⟩
      · rw [hboard.1] at hflush
        rw [due, List.filter_cons_of_pos rfl, List.length_cons]
        exact Nat.succ_le_succ hflush
      · rw [hstatus, hboard.2]
        simp [LiveEvent.isFlush]
    | subscribe start alive noStream within => simp [hthrown] at alive
    | frame arrivedAt alive streaming there => simp [hthrown] at alive
    | finish alive streaming => simp [hthrown] at alive
    | fail error alive streaming => simp [hthrown] at alive

/-- As long as the subscription has not ended, every error so far could be retried. -/
theorem alive_trace {view view' : LiveView D} {events : List (LiveEvent D)}
    (hrun : Trace (LiveStep digestBytes) view events view') (halive : view'.thrown = none) :
    view.thrown = none ∧
      view'.subscription.transientRetries = events.foldl countRetries view.subscription.transientRetries := by
  induction hrun with
  | nil view => exact ⟨halive, rfl⟩
  | @cons view mid view' event events head tail ih =>
    obtain ⟨hmid, hretries⟩ := ih halive
    cases head with
    | publish batch above => exact ⟨hmid, hretries⟩
    | flush due => exact ⟨hmid, hretries⟩
    | subscribe start alive noStream within => exact ⟨alive, hretries⟩
    | frame arrivedAt alive streaming there => exact ⟨alive, hretries⟩
    | finish alive streaming => exact ⟨alive, hretries⟩
    | fail error alive streaming =>
      refine ⟨alive, ?_⟩
      rcases view.onError_cases error with ⟨-, heq⟩ | ⟨-, status, heq⟩
      · rw [heq] at hmid
        cases hmid
      · rw [hretries, heq]
        rfl

/-- A subscription ends at a fatal error. -/
theorem exists_fatal {view view' : LiveView D} {events : List (LiveEvent D)}
    (hrun : Trace (LiveStep digestBytes) view events view') (htimed : view.board.Timed) (halive : view.thrown = none)
    {error : StreamError} (hthrown : view'.thrown = some error) :
    ∃ pre post, events = pre ++ .failed error :: post ∧
      Fatal (pre.foldl countRetries view.subscription.transientRetries) error := by
  induction hrun with
  | nil view => simp [halive] at hthrown
  | @cons view mid view' event events head tail ih =>
    have htimed' := timed_step htimed head
    by_cases hmid : mid.thrown = none
    · -- the subscription goes on after this event, which counts for it as it does in `countRetries`
      obtain ⟨pre, post, rfl, hfatal⟩ := ih htimed' hmid hthrown
      have hone := (alive_trace (.cons head (.nil mid)) hmid).2
      exact ⟨event :: pre, post, rfl, by rwa [hone] at hfatal⟩
    · cases head with
      | fail error' alive streaming =>
        rcases view.onError_cases error' with ⟨hfatal, heq⟩ | ⟨-, status, heq⟩
        · obtain ⟨hend, -⟩ := thrown_trace tail htimed' (by rw [heq])
          obtain rfl := Option.some.inj (hend.symm.trans hthrown)
          exact ⟨[], events, rfl, hfatal⟩
        · exact absurd (by rw [heq]; exact alive) hmid
      | publish batch above => exact absurd halive hmid
      | flush due => exact absurd halive hmid
      | subscribe start alive noStream within => exact absurd halive hmid
      | frame arrivedAt alive streaming there => exact absurd halive hmid
      | finish alive streaming => exact absurd halive hmid

/-- A feed that has ended with an error, and what came after: batches were published, and the timer fired at most
once. The page shows the error until the timer fires, and live from then on. -/
structure Ended (view : LiveView D) (error : StreamError) (later : List (LiveEvent D)) : Prop where
  thrown : view.thrown = some error
  events : ∀ event ∈ later, event.isFlush ∨ event.isPublish
  flushes : (later.filter LiveEvent.isFlush).length ≤ 1
  status : view.board.status = if later.any LiveEvent.isFlush then .live else .error (errorMessage error)

theorem ended_of_fatal {view : LiveView D} {pre post : List (LiveEvent D)} {error : StreamError}
    (hrun : Trace (LiveStep digestBytes) .new (pre ++ .failed error :: post) view)
    (hfatal : Fatal (transientFailures pre) error) : Ended view error post := by
  obtain ⟨mid, hpre, hrest⟩ := hrun.split
  cases hrest with
  | cons head tail =>
    have htimed := timed_step (timed_trace hpre) head
    cases head with
    | fail _ alive streaming =>
      have hretries : mid.subscription.transientRetries = transientFailures pre := (alive_trace hpre alive).2
      obtain ⟨-, heq⟩ := (mid.onError_cases error).resolve_right fun h => h.1 (hretries ▸ hfatal)
      obtain ⟨hthrown, hevents, hflushes, hstatus⟩ := thrown_trace tail htimed (by rw [heq])
      refine ⟨hthrown, hevents, hflushes.trans ?_, ?_⟩
      · split
        · exact le_rfl
        · exact Nat.zero_le 1
      · rw [hstatus, heq]

/-- The feed ends exactly at an error that is neither one of the network nor one of the race for a batch with fewer
than ten others since the last frame. The page then shows the error, but blocks that still wait set it back to
live, for good. -/
theorem feed_ends_at_fatal_error {view : LiveView D} {events : List (LiveEvent D)}
    (hrun : Trace (LiveStep digestBytes) .new events view) :
    (view.thrown = none ↔
      ∀ pre error post, events = pre ++ .failed error :: post → ¬Fatal (transientFailures pre) error) ∧
    ∀ pre error post, events = pre ++ .failed error :: post → Fatal (transientFailures pre) error →
      Ended view error post := by
  have hfails : ∀ pre error post, events = pre ++ .failed error :: post → Fatal (transientFailures pre) error →
      Ended view error post := by
    rintro pre error post rfl hfatal
    exact ended_of_fatal hrun hfatal
  refine ⟨⟨?_, ?_⟩, hfails⟩
  · intro halive pre error post heq hfatal
    rw [(hfails pre error post heq hfatal).thrown] at halive
    cases halive
  · intro hnone
    by_contra hsome
    obtain ⟨error, hthrown⟩ := Option.ne_none_iff_exists'.1 hsome
    obtain ⟨pre, post, heq, hfatal⟩ := exists_fatal hrun rfl rfl hthrown
    exact hnone pre error post heq hfatal

theorem feed_ends_at_fatal_error_sample : ∃ first second view,
    Trace (LiveStep fun _ => []) .new (liveRun first second) view ∧ view.thrown = some (.connect .internal []) ∧
      view.board.status = .live := by
  obtain ⟨first, second, view, hrun⟩ := liveRun_trace
  have hfatal : Fatal (transientFailures ((liveRun first second).take 7)) (.connect .internal []) :=
    ⟨rfl, fun h => by cases h⟩
  have hended := (feed_ends_at_fatal_error hrun).2 ((liveRun first second).take 7) _ [.flushed] rfl hfatal
  exact ⟨first, second, view, hrun, hended.thrown, hended.status⟩

end Constantinople.Explorer
