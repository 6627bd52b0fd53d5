/-
Following live blocks, as in the explorer's `blockSequence.ts`. A reconnect can deliver a block again, so the
cursor remembers the heights it has let through, up to a bound, and passes on only the others. The heights are
remembered under their decimal texts, in a set and in a queue; `Recent` says what such a memory knows of the
heights passed on.
-/
import Constantinople.Lib.Recent
import Mathlib

namespace Constantinople.Explorer

/-! ## The explorer's functions -/

class HeightedBlock (T : Type) where
  height : T → Int

export HeightedBlock (height)

structure BlockSequenceCursor where
  latestHeight : Option Int
  seenHeights : Finset String
  seenHeightOrder : List String
  maxSeenHeights : ℕ∞
deriving DecidableEq

/-- A `number`. -/
inductive Number
  | nan
  | negInfinity
  | finite (value : ℚ)
  | infinity
deriving DecidableEq

def defaultMaxSeenHeights : Number := .finite 4096

/-- `Math.max(1, Math.floor(maxSeenHeights))` as a bound on lengths: none is greater than `Infinity` or `NaN`.
An argument left out is `none`. -/
def seenCapacity (maxSeenHeights : Option Number) : ℕ∞ :=
  match maxSeenHeights.getD defaultMaxSeenHeights with
  | .nan => ⊤
  | .negInfinity => 1
  | .finite value => (max 1 ⌊value⌋).toNat
  | .infinity => ⊤

def createBlockSequenceCursor (maxSeenHeights : Option Number) : BlockSequenceCursor where
  latestHeight := none
  seenHeights := ∅
  seenHeightOrder := []
  maxSeenHeights := seenCapacity maxSeenHeights

def heightKey (height : Int) : String := toString height

def hasSeen (cursor : BlockSequenceCursor) (height : Int) : Bool := heightKey height ∈ cursor.seenHeights

/-- The loop of `rememberHeight`. -/
def forgetStale (maxSeenHeights : ℕ∞) : Finset String → List String → Finset String × List String
  | seenHeights, [] => (seenHeights, [])
  | seenHeights, stale :: seenHeightOrder =>
    if maxSeenHeights < (stale :: seenHeightOrder).length then
      forgetStale maxSeenHeights (seenHeights.erase stale) seenHeightOrder
    else (seenHeights, stale :: seenHeightOrder)

def rememberHeight (cursor : BlockSequenceCursor) (height : Int) : BlockSequenceCursor :=
  let key := heightKey height
  let kept := forgetStale cursor.maxSeenHeights (insert key cursor.seenHeights) (cursor.seenHeightOrder ++ [key])
  { cursor with seenHeights := kept.1, seenHeightOrder := kept.2 }

variable {T : Type} [HeightedBlock T]

def addIfNew (cursor : BlockSequenceCursor) (blocks : List T) (block : T) : BlockSequenceCursor × List T :=
  if hasSeen cursor (height block) then (cursor, blocks)
  else (rememberHeight cursor (height block), blocks ++ [block])

/-- `cursor.latestHeight === null || height > cursor.latestHeight` sets the latest height. -/
def raiseLatest (cursor : BlockSequenceCursor) (height : Int) : BlockSequenceCursor :=
  if cursor.latestHeight.all (· < height) then { cursor with latestHeight := some height } else cursor

/-- The body of the loop of `collectLiveBlocks`, on the cursor and the blocks collected so far. -/
def collectLiveBlock (state : BlockSequenceCursor × List T) (block : T) : BlockSequenceCursor × List T :=
  if hasSeen state.1 (height block) then state
  else addIfNew (raiseLatest state.1 (height block)) state.2 block

def collectLiveBlocks (cursor : BlockSequenceCursor) (blocks : List T) : BlockSequenceCursor × List T :=
  blocks.foldl collectLiveBlock (cursor, [])

/-- The calls `subscribeBlocks` makes on one cursor, a call a frame, with all the blocks it yields. -/
def collectCalls (cursor : BlockSequenceCursor) (calls : List (List T)) : BlockSequenceCursor × List T :=
  calls.foldl (fun state blocks =>
    let collected := collectLiveBlocks state.1 blocks
    (collected.1, state.2 ++ collected.2)) (cursor, [])

/-! ## Capacities and keys -/

theorem one_le_seenCapacity (maxSeenHeights : Option Number) : 1 ≤ seenCapacity maxSeenHeights := by
  unfold seenCapacity
  split
  · exact le_top
  · exact le_rfl
  · rename_i value _
    have hpos : 1 ≤ (max 1 ⌊value⌋).toNat := by omega
    exact_mod_cast hpos
  · exact le_top

/-- Every capacity from one on is the capacity for some argument. -/
theorem exists_seenCapacity_eq {m : ℕ∞} (hm : 1 ≤ m) : ∃ size : Number, seenCapacity (some size) = m := by
  cases m with
  | top => exact ⟨.infinity, rfl⟩
  | coe n =>
    have hn : 1 ≤ n := by exact_mod_cast hm
    refine ⟨.finite n, ?_⟩
    show (((max 1 ⌊(n : ℚ)⌋).toNat : ℕ) : ℕ∞) = n
    rw [Int.floor_natCast]
    congr 1
    omega

theorem heightKey_injective : Function.Injective heightKey := fun _ _ h => Int.repr_injective h

/-! ## One block -/

/-- What holds of a cursor that has let blocks of these heights through. -/
structure Follows (cursor : BlockSequenceCursor) (emitted : List Int) : Prop where
  tracks : Recent.Tracks cursor.maxSeenHeights cursor.seenHeights cursor.seenHeightOrder (emitted.map heightKey)
  bounded : cursor.seenHeightOrder.length ≤ cursor.maxSeenHeights
  spaced : Recent.Spaced cursor.maxSeenHeights (emitted.map heightKey)
  latest : cursor.latestHeight = emitted.max?

theorem createBlockSequenceCursor_follows (maxSeenHeights : Option Number) :
    Follows (createBlockSequenceCursor maxSeenHeights) [] :=
  ⟨.empty _, by simp [createBlockSequenceCursor], .nil _, rfl⟩

theorem forgetStale_tracks {m : ℕ∞} {order log : List String} : ∀ {seen : Finset String},
    Recent.Tracks m seen order log →
    Recent.Tracks m (forgetStale m seen order).1 (forgetStale m seen order).2 log ∧
      ((forgetStale m seen order).2.length : ℕ∞) ≤ m := by
  induction order with
  | nil =>
    rintro seen h
    exact ⟨h, by simp [forgetStale]⟩
  | cons stale order ih =>
    rintro seen h
    rw [forgetStale]
    split
    · rename_i hover
      exact ih (h.shift hover)
    · rename_i hfits
      exact ⟨h, not_lt.1 hfits⟩

theorem hasSeen_eq_false {cursor : BlockSequenceCursor} {h : Int} :
    hasSeen cursor h = false ↔ heightKey h ∉ cursor.seenHeights := by
  simp [hasSeen]

theorem Follows.mem_of_hasSeen {cursor : BlockSequenceCursor} {emitted : List Int} (h : Follows cursor emitted)
    {height : Int} (hseen : hasSeen cursor height = true) : height ∈ emitted := by
  have hmem : heightKey height ∈ cursor.seenHeights := by simpa [hasSeen] using hseen
  have hlog := h.tracks.suffix.subset (h.tracks.mem_seen.1 hmem)
  exact (List.mem_map_of_injective heightKey_injective).1 hlog

theorem max?_concat (heights : List Int) (h : Int) :
    (heights ++ [h]).max? = if heights.max?.all (· < h) then some h else heights.max? := by
  cases heights with
  | nil => rfl
  | cons first rest =>
    rw [List.cons_append, List.max?_cons', List.max?_cons', List.foldl_append, List.foldl_cons, List.foldl_nil,
      max_def_lt, Option.all_some]
    simp only [decide_eq_true_eq]
    split <;> rfl

/-- Setting the latest height leaves the memory as it is. -/
theorem raiseLatest_eq (cursor : BlockSequenceCursor) (h : Int) :
    raiseLatest cursor h = { cursor with
      latestHeight := if cursor.latestHeight.all (· < h) then some h else cursor.latestHeight } := by
  unfold raiseLatest
  split <;> rfl

/-- What one block does: nothing when its height is remembered, and otherwise it is collected. -/
theorem collectLiveBlock_cases (state : BlockSequenceCursor × List T) (block : T) :
    (hasSeen state.1 (height block) = true ∧ collectLiveBlock state block = state) ∨
    (hasSeen state.1 (height block) = false ∧ collectLiveBlock state block =
      (rememberHeight (raiseLatest state.1 (height block)) (height block), state.2 ++ [block])) := by
  unfold collectLiveBlock
  cases hseen : hasSeen state.1 (height block) with
  | true => exact .inl ⟨rfl, rfl⟩
  | false =>
    refine .inr ⟨rfl, ?_⟩
    -- the second check sees the same memory
    have hagain : hasSeen (raiseLatest state.1 (height block)) (height block) = false := by
      rw [raiseLatest_eq]
      exact hseen
    rw [addIfNew, hagain]
    rfl

theorem Follows.remember {cursor : BlockSequenceCursor} {emitted : List Int} (h : Follows cursor emitted) {height : Int}
    (hseen : hasSeen cursor height = false) :
    Follows (rememberHeight (raiseLatest cursor height) height) (emitted ++ [height]) := by
  rw [hasSeen_eq_false] at hseen
  obtain ⟨htracks, hbounded⟩ := forgetStale_tracks (h.tracks.push hseen)
  rw [raiseLatest_eq]
  refine ⟨?_, hbounded, ?_, ?_⟩
  · rw [List.map_append]
    exact htracks
  · rw [List.map_append]
    exact h.spaced.push h.tracks hseen
  · rw [max?_concat, ← h.latest]
    rfl

/-- A block is collected or its height was. -/
theorem collectLiveBlock_follows {state : BlockSequenceCursor × List T} (h : Follows state.1 (state.2.map height))
    (block : T) :
    Follows (collectLiveBlock state block).1 ((collectLiveBlock state block).2.map height) ∧
    height block ∈ (collectLiveBlock state block).2.map height ∧ state.2 <+: (collectLiveBlock state block).2 ∧
    (collectLiveBlock state block).1.maxSeenHeights = state.1.maxSeenHeights := by
  rcases collectLiveBlock_cases state block with ⟨hseen, heq⟩ | ⟨hseen, heq⟩
  · rw [heq]
    exact ⟨h, h.mem_of_hasSeen hseen, List.prefix_rfl, rfl⟩
  · rw [heq]
    refine ⟨?_, by simp, List.prefix_append _ _, ?_⟩
    · rw [List.map_append]
      exact h.remember hseen
    · rw [raiseLatest_eq]
      rfl

/-! ## Whole runs -/

theorem collectLiveBlocks_concat (cursor : BlockSequenceCursor) (blocks : List T) (block : T) :
    collectLiveBlocks cursor (blocks ++ [block]) = collectLiveBlock (collectLiveBlocks cursor blocks) block := by
  rw [collectLiveBlocks, List.foldl_append]
  rfl

/-- A loop that starts with blocks collected adds to them what it collects from none. -/
theorem foldl_collectLiveBlock (cursor : BlockSequenceCursor) (next blocks : List T) :
    blocks.foldl collectLiveBlock (cursor, next) =
      ((collectLiveBlocks cursor blocks).1, next ++ (collectLiveBlocks cursor blocks).2) := by
  induction blocks using List.reverseRecOn with
  | nil => simp [collectLiveBlocks]
  | append_singleton blocks block ih =>
    rw [List.foldl_append, ih, collectLiveBlocks_concat, List.foldl_cons, List.foldl_nil]
    -- the blocks collected so far do not decide what happens to this one
    unfold collectLiveBlock addIfNew
    split
    · rfl
    · split
      · rfl
      · simp

/-- How the blocks are spread over the calls does not matter. -/
theorem collectCalls_eq (cursor : BlockSequenceCursor) (calls : List (List T)) :
    collectCalls cursor calls = collectLiveBlocks cursor calls.flatten := by
  induction calls using List.reverseRecOn with
  | nil => rfl
  | append_singleton calls blocks ih =>
    rw [List.flatten_append, List.flatten_singleton, collectLiveBlocks, List.foldl_append, ← collectLiveBlocks,
      ← ih, foldl_collectLiveBlock, collectCalls, List.foldl_append]
    rfl

theorem collectLiveBlocks_follows (maxSeenHeights : Option Number) (blocks : List T) :
    Follows (collectLiveBlocks (createBlockSequenceCursor maxSeenHeights) blocks).1
      ((collectLiveBlocks (createBlockSequenceCursor maxSeenHeights) blocks).2.map height) ∧
    (∀ block ∈ blocks,
      height block ∈ (collectLiveBlocks (createBlockSequenceCursor maxSeenHeights) blocks).2.map height) ∧
    (collectLiveBlocks (createBlockSequenceCursor maxSeenHeights) blocks).1.maxSeenHeights =
      seenCapacity maxSeenHeights := by
  induction blocks using List.reverseRecOn with
  | nil => exact ⟨createBlockSequenceCursor_follows maxSeenHeights, List.forall_mem_nil _, rfl⟩
  | append_singleton blocks block ih =>
    obtain ⟨hfollows, hmem, hcapacity⟩ := ih
    rw [collectLiveBlocks_concat]
    obtain ⟨hfollows', hblock, hkept, hcapacity'⟩ := collectLiveBlock_follows hfollows block
    refine ⟨hfollows', ?_, hcapacity'.trans hcapacity⟩
    rintro b hb
    rcases List.mem_append.1 hb with hb | hb
    · exact (hkept.map height).subset (hmem b hb)
    · rwa [List.mem_singleton.1 hb]

/-- After any calls on a new cursor, the set and the queue hold the same heights, each once and at most as many
as the capacity, namely the last ones emitted. Every height of the input is emitted, two emissions of one height
have as many others between them as the capacity, and the latest height is the maximum emitted. -/
theorem collectCalls_window {maxSeenHeights : Option Number} {calls : List (List T)} {cursor : BlockSequenceCursor}
    {emitted : List T} (hrun : collectCalls (createBlockSequenceCursor maxSeenHeights) calls = (cursor, emitted)) :
    1 ≤ seenCapacity maxSeenHeights ∧ cursor.maxSeenHeights = seenCapacity maxSeenHeights ∧
    cursor.seenHeights = cursor.seenHeightOrder.toFinset ∧ cursor.seenHeightOrder.Nodup ∧
    cursor.seenHeightOrder.length ≤ seenCapacity maxSeenHeights ∧
    cursor.seenHeightOrder <:+ (emitted.map height).map heightKey ∧
    (∀ blocks ∈ calls, ∀ block ∈ blocks, height block ∈ emitted.map height) ∧
    Recent.Spaced (seenCapacity maxSeenHeights) (emitted.map height) ∧
    cursor.latestHeight = (emitted.map height).max? := by
  obtain ⟨hfollows, hmem, hcapacity⟩ := collectLiveBlocks_follows maxSeenHeights calls.flatten
  rw [← collectCalls_eq, hrun] at hfollows hmem hcapacity
  have htracks := hfollows.tracks
  refine ⟨one_le_seenCapacity maxSeenHeights, hcapacity, htracks.seen_eq, htracks.nodup, ?_, htracks.suffix, ?_, ?_,
    hfollows.latest⟩
  · rw [← hcapacity]
    exact hfollows.bounded
  · rintro blocks hblocks block hblock
    exact hmem block (List.mem_flatten_of_mem hblocks hblock)
  · rw [← hcapacity]
    exact hfollows.spaced.of_map heightKey_injective

/-- A block that is only its height. -/
instance heightedInt : HeightedBlock Int := ⟨id⟩

def sampleCalls : List (List Int) := [[1, 2, 3, 4], [4, 1]]

/-- With room for three heights, the first of four is emitted again and the last is not. -/
theorem collectCalls_window_sample :
    ∃ cursor, collectCalls (createBlockSequenceCursor (some (.finite 3))) sampleCalls = (cursor, [1, 2, 3, 4, 1]) ∧
      cursor.seenHeightOrder = ["3", "4", "1"] ∧ cursor.latestHeight = some 4 ∧
      Recent.Spaced 3 ([1, 2, 3, 4, 1] : List Int) := by
  have hemitted : (collectCalls (createBlockSequenceCursor (some (.finite 3))) sampleCalls).2 = [1, 2, 3, 4, 1] := by
    decide +kernel
  have hcapacity : seenCapacity (some (.finite 3)) = 3 := by decide +kernel
  have hrun : collectCalls (createBlockSequenceCursor (some (.finite 3))) sampleCalls = (_, [1, 2, 3, 4, 1]) :=
    Prod.ext_iff.2 ⟨rfl, hemitted⟩
  obtain ⟨-, -, -, -, -, -, -, hspaced, hlatest⟩ := collectCalls_window hrun
  rw [hcapacity] at hspaced
  exact ⟨_, hrun, by decide +kernel, hlatest, hspaced⟩

end Constantinople.Explorer
