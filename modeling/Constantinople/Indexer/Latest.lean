/-
The `account_meta` table over runs of the pipeline. Commits that are in flight together may reach the
Store in any order, and a row of an older block that lands last stays. If no two commits in flight
update a common account, the table ends with each account's last update.
-/
import Constantinople.Indexer.Committer
import Constantinople.Consensus.Lifecycle

namespace Constantinople

open Run

variable {C D : Type}

/-! ## What an upload writes -/

/-- The `account_meta` rows of an upload's state delta, with their primary keys. -/
def uploadWrites (upload : QueuedFinalizedUpload C D) : List (AccountKey × AccountMetaRow) :=
  (accountRows upload.stateDelta upload.stateStart).map fun row => (row.account, row)

/-- The account of an encoding, as its codec reads it. -/
def decodeAccount (value : FixedBytes accountSize) : Account :=
  match Account.read value.1 with
  | .ok (account, _) => account
  | .error _ => default

theorem u64_drop {bytes : Bytes} (start : Nat) (h : start + 8 ≤ bytes.length) :
    Reader.u64 (bytes.drop start) = .ok (readU64 bytes start, bytes.drop (start + 8)) := by
  have htake : Reader.take 8 (bytes.drop start) = .ok ((bytes.drop start).take 8, bytes.drop (start + 8)) := by
    rw [Reader.take, if_neg (by rw [List.length_drop]; omega), List.drop_drop]
  have hbe : Reader.be 8 (bytes.drop start) = .ok (ofBE ((bytes.drop start).take 8), bytes.drop (start + 8)) :=
    Reader.bind_eq htake
  exact Reader.bind_eq hbe

/-- The words that a row takes from an encoding are those of its account. -/
theorem decodeAccount_eq (value : FixedBytes accountSize) :
    decodeAccount value = ⟨readU64 value.1 0, readU64 value.1 8, readU64 value.1 16⟩ := by
  obtain ⟨bytes, hbytes⟩ := value
  have hlength : bytes.length = 24 := hbytes
  have hnonce : Nonce.read (bytes.drop 8) = .ok (⟨readU64 bytes 8, readU64 bytes 16⟩, bytes.drop 24) :=
    (Reader.bind_eq (u64_drop 8 (by omega))).trans (Reader.bind_eq (u64_drop 16 (by omega)))
  have hread : Account.read bytes = .ok (⟨readU64 bytes 0, readU64 bytes 8, readU64 bytes 16⟩, bytes.drop 24) :=
    (Reader.bind_eq (u64_drop 0 (by omega))).trans (Reader.bind_eq hnonce)
  simp only [decodeAccount, hread]

/-- The account and the location of each update of a delta. -/
def updates (upload : QueuedFinalizedUpload C D) : List (AccountKey × Account × UInt64) :=
  upload.stateDelta.zipIdx.filterMap fun entry =>
    match entry.1 with
    | .update key value => some (key, decodeAccount value, upload.stateStart + UInt64.ofNat entry.2)
    | _ => none

/-- An account's last update among the deltas of the uploads, in order. -/
def lastUpdate (uploads : List (QueuedFinalizedUpload C D)) (key : AccountKey) : Option (Account × UInt64) :=
  LastWrite.last (uploads.flatMap updates) key

/-- The `account_meta` row of an update. -/
def latestRow (key : AccountKey) (update : Account × UInt64) : AccountMetaRow :=
  ⟨key, update.1.balance, update.1.nonce.base, update.1.nonce.bitmap, update.2⟩

theorem uploadWrites_eq (upload : QueuedFinalizedUpload C D) :
    uploadWrites upload = (updates upload).map fun u => (u.1, latestRow u.1 u.2) := by
  unfold uploadWrites updates accountRows
  rw [List.map_filterMap, List.map_filterMap]
  congr 1
  funext entry
  obtain ⟨op, i⟩ := entry
  cases op with
  | update key value => simp only [accountRow, latestRow, decodeAccount_eq, Option.map_some]
  | delete => rfl
  | commitFloor => rfl

theorem last_uploadWrites (uploads : List (QueuedFinalizedUpload C D)) (key : AccountKey) :
    LastWrite.last (uploads.flatMap uploadWrites) key = (lastUpdate uploads key).map (latestRow key) := by
  have hmap : uploads.flatMap uploadWrites = (uploads.flatMap updates).map fun u => (u.1, latestRow u.1 u.2) := by
    rw [List.map_flatMap]
    exact List.flatMap_congr fun upload _ => uploadWrites_eq upload
  rw [hmap, LastWrite.last_map latestRow]
  rfl

theorem accountWrites_append (rows rows' : List (SqlRow D)) :
    accountWrites (rows ++ rows') = accountWrites rows ++ accountWrites rows' := List.filterMap_append

theorem accountWrites_accountMeta (rows : List AccountMetaRow) :
    accountWrites (rows.map (SqlRow.accountMeta (D := D))) = rows.map fun row => (row.account, row) := by
  unfold accountWrites
  rw [List.filterMap_map]
  exact congrFun (List.filterMap_eq_map (f := fun row : AccountMetaRow => (row.account, row))) rows

theorem accountWrites_transactionRows (height appendStart : UInt64) (i : Nat) (tx : IndexedTransaction D) (index : UInt32) :
    accountWrites (transactionRows height appendStart i tx index) = [] := by
  unfold transactionRows
  split
  · rfl
  · rfl

theorem accountWrites_transactionsRows {height appendStart : UInt64} :
    ∀ {txs : List (IndexedTransaction D)} {i : Nat} {rows : List (SqlRow D)},
      transactionsRows height appendStart i txs = .ok rows → accountWrites rows = []
  | [], _, _, h => by cases h; rfl
  | tx :: txs, i, rows, h => by
    rw [transactionsRows] at h
    split at h
    · cases h
    split at h
    · cases h
    · rename_i hrest
      cases h
      rw [accountWrites_append, accountWrites_transactionRows, accountWrites_transactionsRows hrest]
      rfl

/-- The rows of a block write no account. -/
theorem accountWrites_blockRows {E : Env D} {block : SealedBlock C D} {now : Int} {rows : IndexedBlockRows D}
    (h : encodeIndexedBlockRowsAt E block now = .ok rows) : accountWrites rows.sql = [] := by
  unfold encodeIndexedBlockRowsAt at h
  simp only at h
  split at h
  · cases h
  split at h
  · cases h
  unfold blockRowsFrom at h
  simp only at h
  split at h
  · cases h
  · rename_i rows hrows
    cases h
    exact (accountWrites_transactionsRows hrows : accountWrites rows = [])

/-- Preparing keeps the completion and derives exactly the account rows of the delta. -/
theorem prepareQmdbUpload_ok {E : Env D} {pending : PendingQueuedFinalizedUpload C D} {prepared : PreparedQmdbUpload D}
    (h : prepareQmdbUpload E pending = .ok (.ok prepared)) :
    accountWrites prepared.sqlRows = uploadWrites pending.upload ∧ prepared.completion = pending.completion := by
  unfold prepareQmdbUpload at h
  split at h
  · cases h
  · cases h
  rename_i expanded hexp
  cases h
  refine ⟨?_, rfl⟩
  unfold expandQueuedFinalizedUpload at hexp
  split at hexp
  · cases hexp
  rename_i rows hrows
  split at hexp
  · cases hexp
  · cases hexp
  cases hexp
  rw [accountWrites_append, accountWrites_blockRows hrows, accountWrites_accountMeta]
  rfl

/-! ## Runs of the pipeline -/

theorem eraseIdx_split {α : Type} : ∀ {l : List α} {i : Nat} {a : α}, l[i]? = some a →
    ∃ pre post, l = pre ++ a :: post ∧ l.eraseIdx i = pre ++ post
  | [], _, _, h => by cases h
  | b :: l, 0, a, h => by cases h; exact ⟨[], l, rfl, rfl⟩
  | b :: l, i + 1, a, h => by
    obtain ⟨pre, post, hl, herase⟩ := eraseIdx_split (l := l) h
    exact ⟨b :: pre, post, by rw [hl]; rfl, by rw [List.eraseIdx_cons_succ, herase]; rfl⟩

theorem map_perm_eraseIdx {α β : Type} (f : α → β) {l : List α} {i : Nat} {a : α} (h : l[i]? = some a) :
    (l.map f).Perm (f a :: (l.eraseIdx i).map f) := by
  obtain ⟨hi, rfl⟩ := List.getElem?_eq_some_iff.1 h
  exact (List.getElem_cons_eraseIdx_perm hi).symm.map f

/-- A commit is spawned only beside commits of other accounts. -/
def Separate (s : Pipeline C D) : Event C D → Prop
  | .spawn => ∀ upload ∈ s.prepared.head?, ∀ other ∈ s.inFlight, ∀ row ∈ accountWrites upload.sqlRows,
      ∀ row' ∈ accountWrites other.sqlRows, row.1 ≠ row'.1
  | _ => True

instance (s : Pipeline C D) : (event : Event C D) → Decidable (Separate s event)
  | .spawn => inferInstanceAs (Decidable (∀ upload ∈ s.prepared.head?, ∀ other ∈ s.inFlight,
      ∀ row ∈ accountWrites upload.sqlRows, ∀ row' ∈ accountWrites other.sqlRows, row.1 ≠ row'.1))
  | .enqueue _ | .prepare | .attempt _ | .land _ | .join _ | .complete _ _ => instDecidableTrue

namespace Pipeline

/-- The completions of all accepted uploads, wherever they are. -/
def completions (s : Pipeline C D) : List Nat :=
  s.preparing.map PendingQueuedFinalizedUpload.completion ++ s.prepared.map PreparedQmdbUpload.completion ++
    s.inFlight.map PreparedQmdbUpload.completion ++ s.landed.map PreparedQmdbUpload.completion ++
    s.pending.map PendingUploadCompletion.completion ++ s.fired

/-- What holds of every reachable pipeline: each accepted upload is in one place, and the table is
consistent with the commits issued, those of the accepted uploads that left the two channels. -/
structure Sound (s : Pipeline C D) : Prop where
  completions : s.completions.Perm (List.range s.accepted.length)
  table : ∃ issued, LastWrite.Consistent issued (s.inFlight.map fun upload => accountWrites upload.sqlRows)
      s.accountMeta ∧
    s.accepted.flatMap uploadWrites = issued ++ (s.prepared.flatMap fun upload => accountWrites upload.sqlRows) ++
      s.preparing.flatMap fun pending => uploadWrites pending.upload

theorem start_sound : (start : Pipeline C D).Sound :=
  ⟨.nil, [], .start, rfl⟩

section Steps

variable {E : Env D} {maxInFlight : Nat} {s s' : Pipeline C D}

theorem enqueue_sound (hs : s.Sound) {upload : QueuedFinalizedUpload C D}
    (h : s.step E maxInFlight (.enqueue upload) = some s') : s'.Sound := by
  simp only [step] at h
  split at h
  · cases h
  · cases h; exact hs
  · cases h; exact hs
  · cases h
    obtain ⟨issued, hcons, hacc⟩ := hs.table
    refine ⟨List.perm_iff_count.2 fun i => ?_, issued, hcons, ?_⟩
    · have hcount := hs.completions.count_eq i
      simp only [completions, List.count_append, List.map_append, List.map_singleton, List.length_append,
        List.length_singleton, List.range_succ] at hcount ⊢
      omega
    · simp only [List.flatMap_append, List.flatMap_singleton, hacc, List.append_assoc]

theorem prepare_sound (hs : s.Sound) (h : s.step E maxInFlight .prepare = some s') : s'.Sound := by
  simp only [step] at h
  split at h
  · cases h
  rename_i upload preparing hpreparing
  split at h
  · rename_i prepared hprepared
    cases h
    obtain ⟨hrows, hid⟩ := prepareQmdbUpload_ok hprepared
    obtain ⟨issued, hcons, hacc⟩ := hs.table
    refine ⟨List.perm_iff_count.2 fun i => ?_, issued, hcons, ?_⟩
    · have hcount := hs.completions.count_eq i
      simp only [completions, hpreparing, List.count_append, List.map_append, List.map_cons, List.map_nil,
        List.count_cons, List.count_nil, hid] at hcount ⊢
      omega
    · rw [hacc, hpreparing]
      simp only [List.flatMap_append, List.flatMap_cons, List.flatMap_nil, List.append_nil, hrows, List.append_assoc]
  · cases h

theorem spawn_sound (hs : s.Sound) (hsep : Separate s .spawn) (h : s.step E maxInFlight .spawn = some s') : s'.Sound := by
  simp only [step] at h
  split at h
  · cases h
  rename_i upload prepared hprepared
  split at h
  · cases h
    obtain ⟨issued, hcons, hacc⟩ := hs.table
    refine ⟨List.perm_iff_count.2 fun i => ?_, issued ++ accountWrites upload.sqlRows, ?_, ?_⟩
    · have hcount := hs.completions.count_eq i
      simp only [completions, hprepared, List.count_append, List.map_append, List.map_cons, List.map_nil,
        List.count_cons, List.count_nil] at hcount ⊢
      omega
    · rw [List.map_append]
      refine hcons.issue fun b' hb' row hrow row' hrow' => ?_
      obtain ⟨other, hother, rfl⟩ := List.mem_map.1 hb'
      exact hsep upload (by rw [hprepared]; rfl) other hother row hrow row' hrow'
    · rw [hacc, hprepared]
      simp only [List.flatMap_cons, List.append_assoc]
  · cases h

theorem attempt_sound (hs : s.Sound) {i : Nat} (h : s.step E maxInFlight (.attempt i) = some s') : s'.Sound := by
  simp only [step] at h
  split at h
  · cases h
  rename_i upload hupload
  cases h
  obtain ⟨issued, hcons, hacc⟩ := hs.table
  exact ⟨hs.completions, issued, hcons.apply (List.mem_map_of_mem (List.mem_of_getElem? hupload)), hacc⟩

theorem land_sound (hs : s.Sound) {i : Nat} (h : s.step E maxInFlight (.land i) = some s') : s'.Sound := by
  simp only [step] at h
  split at h
  · cases h
  rename_i upload hupload
  cases h
  obtain ⟨pre, post, hsplit, herase⟩ := eraseIdx_split hupload
  obtain ⟨issued, hcons, hacc⟩ := hs.table
  refine ⟨List.perm_iff_count.2 fun i => ?_, issued, ?_, hacc⟩
  · have hcount := hs.completions.count_eq i
    have hmoved := (map_perm_eraseIdx PreparedQmdbUpload.completion hupload).count_eq i
    simp only [completions, List.count_append, List.map_append, List.map_cons, List.map_nil, List.count_cons,
      List.count_nil] at hcount hmoved ⊢
    omega
  · simp only [hsplit, List.map_append, List.map_cons] at hcons
    simp only [herase, List.map_append]
    exact hcons.land

theorem join_sound (hs : s.Sound) {i : Nat} (h : s.step E maxInFlight (.join i) = some s') : s'.Sound := by
  simp only [step] at h
  split at h
  · cases h
  rename_i upload hupload
  cases h
  refine ⟨List.perm_iff_count.2 fun i => ?_, hs.table⟩
  have hcount := hs.completions.count_eq i
  have hmoved := (map_perm_eraseIdx PreparedQmdbUpload.completion hupload).count_eq i
  simp only [completions, List.count_append, List.map_append, List.map_cons, List.map_nil, List.count_cons,
    List.count_nil] at hcount hmoved ⊢
  omega

theorem complete_sound (hs : s.Sound) {state transactions : Option UInt64}
    (h : s.step E maxInFlight (.complete state transactions) = some s') : s'.Sound := by
  simp only [step, completePublishedUploads, List.partition_eq_filter_filter, Option.some.injEq] at h
  subst h
  refine ⟨List.perm_iff_count.2 fun i => ?_, hs.table⟩
  have hcount := hs.completions.count_eq i
  -- the ready and the retained uploads are a rearrangement of the pending ones
  have hparts := ((List.filter_append_perm (fun upload : PendingUploadCompletion =>
    state.any (upload.stateLatest ≤ ·) && transactions.any (upload.transactionLatest ≤ ·)) s.pending).map
    PendingUploadCompletion.completion).count_eq i
  simp only [completions, List.count_append, List.map_append, Function.comp_def] at hcount hparts ⊢
  omega

/-- One event. -/
theorem step_sound {event : Event C D} (hs : s.Sound) (hsep : Separate s event)
    (h : s.step E maxInFlight event = some s') : s'.Sound := by
  cases event with
  | enqueue upload => exact enqueue_sound hs h
  | prepare => exact prepare_sound hs h
  | spawn => exact spawn_sound hs hsep h
  | attempt i => exact attempt_sound hs h
  | land i => exact land_sound hs h
  | join i => exact join_sound hs h
  | complete state transactions => exact complete_sound hs h

end Steps

/-- Once every completion has fired, nothing is left in the channels or in flight. -/
theorem Sound.drained {s : Pipeline C D} (hs : s.Sound) (hall : ∀ i < s.accepted.length, i ∈ s.fired) :
    s.preparing = [] ∧ s.prepared = [] ∧ s.inFlight = [] := by
  have hnodup : s.completions.Nodup := hs.completions.nodup_iff.2 List.nodup_range
  have hfired : ∀ i ∈ s.completions, i ∈ s.fired := fun i hi => hall i (List.mem_range.1 (hs.completions.mem_iff.1 hi))
  simp only [Pipeline.completions, List.append_assoc] at hnodup hfired
  -- a completion that fired is nowhere else, so whatever is elsewhere would have to be there twice
  have hdisjoint : ∀ i, i ∈ s.preparing.map PendingQueuedFinalizedUpload.completion ∨
      i ∈ s.prepared.map PreparedQmdbUpload.completion ∨ i ∈ s.inFlight.map PreparedQmdbUpload.completion → False := by
    intro i hi
    have hmem : i ∈ s.fired := hfired i (by simp only [List.mem_append]; tauto)
    simp only [List.nodup_append, List.mem_append] at hnodup
    rcases hi with hi | hi | hi
    · exact hnodup.2.2 i hi i (by tauto) rfl
    · exact hnodup.2.1.2.2 i hi i (by tauto) rfl
    · exact hnodup.2.1.2.1.2.2 i hi i (by tauto) rfl
  refine ⟨?_, ?_, ?_⟩
  · exact List.eq_nil_iff_forall_not_mem.2 fun a ha => hdisjoint _ (.inl (List.mem_map_of_mem ha))
  · exact List.eq_nil_iff_forall_not_mem.2 fun a ha => hdisjoint _ (.inr (.inl (List.mem_map_of_mem ha)))
  · exact List.eq_nil_iff_forall_not_mem.2 fun a ha => hdisjoint _ (.inr (.inr (List.mem_map_of_mem ha)))

end Pipeline

/-- In every run that spawns each commit beside commits of other accounts only: once the completions of
all accepted uploads have fired, the row of every account holds its last update: balance, nonce and the
location of the operation. -/
theorem account_meta_latest (E : Env D) (maxInFlight : Nat) {events : List (Event C D)} {s : Pipeline C D}
    (h : Trace (fun s event s' => Separate s event ∧ s.step E maxInFlight event = some s') .start events s)
    (hall : ∀ i < s.accepted.length, i ∈ s.fired) (key : AccountKey) :
    s.accountMeta key = (lastUpdate s.accepted key).map (latestRow key) := by
  have hs : s.Sound :=
    Trace.invariant (I := Pipeline.Sound) (fun s event s' hs hstep => Pipeline.step_sound hs hstep.1 hstep.2)
      Pipeline.start_sound h
  obtain ⟨hpreparing, hprepared, hinFlight⟩ := hs.drained hall
  obtain ⟨issued, hcons, hacc⟩ := hs.table
  rw [hpreparing, hprepared] at hacc
  rw [hinFlight] at hcons
  rw [← last_uploadWrites, hacc]
  simpa using hcons.done key

/-! ## Two blocks that update one account -/

/-- The upload of `sampleChild`, which leaves account 1 with balance 95. -/
def firstUpload : QueuedFinalizedUpload Unit Nat :=
  ⟨sampleChild, 0, 0, 0,
    [.commitFloor none 0, .update (.filled 1) (encodeAccount ⟨95, ⟨1, 0⟩⟩), .commitFloor none 0]⟩

/-- The upload of a next block, which leaves account 1 with balance 90. -/
def secondUpload : QueuedFinalizedUpload Unit Nat :=
  ⟨(Block.new ⟨(), 0, 2, 2, 0, ⟨2, 5, by decide⟩, 0, ⟨1, 5, by decide⟩⟩
      [sampleTransaction 1 2 5 1 sampleValue_ne_zero]).sealWith countingApplication.env countingCodecs, 0, 3, 3,
    [.update (.filled 1) (encodeAccount ⟨90, ⟨2, 0⟩⟩), .commitFloor none 2]⟩

set_option maxRecDepth 20000 in
/-- The same two uploads, the second spawned after the first has landed. -/
theorem account_meta_latest_sequential : ∃ s : Pipeline Unit Nat, s.accepted.length = 2 ∧
    s.accountMeta (.filled 1) = (lastUpdate s.accepted (.filled 1)).map (latestRow (.filled 1)) := by
  have hrun : (run (fun s event => if Separate s event then Pipeline.step countingApplication.env 2 s event else none) .start
      [.enqueue firstUpload, .prepare, .spawn, .enqueue secondUpload, .prepare, .land 0, .spawn, .land 0, .join 1, .join 0,
        .complete (some 4) (some 4)]).map (fun s => (s.accepted.length, s.fired)) = some (2, [1, 0]) := rfl
  obtain ⟨s, hs, hfacts⟩ := Option.map_eq_some_iff.1 hrun
  simp only [Prod.mk.injEq] at hfacts
  have htrace : Trace (fun s event s' => Separate s event ∧ s.step countingApplication.env 2 event = some s') .start
      _ s := (trace_of_run hs).imp fun s event s' h => by
    split at h
    · rename_i hsep; exact ⟨hsep, h⟩
    · cases h
  exact ⟨s, hfacts.1, account_meta_latest _ 2 htrace (by rw [hfacts.1, hfacts.2]; decide) _⟩

set_option maxRecDepth 20000 in
/-- Two commits in flight, of which the older lands last: its row stays. -/
theorem stale_account_row : ∃ (events : List (Event Unit Nat)) (s : Pipeline Unit Nat),
    Trace (fun s event s' => s.step countingApplication.env 2 event = some s') .start events s ∧
      (∀ i < s.accepted.length, i ∈ s.fired) ∧
        s.accountMeta (.filled 1) ≠ (lastUpdate s.accepted (.filled 1)).map (latestRow (.filled 1)) := by
  have hrun : (run (fun s event => Pipeline.step countingApplication.env 2 s event) .start
      [.enqueue firstUpload, .enqueue secondUpload, .prepare, .prepare, .spawn, .spawn, .land 1, .land 0, .join 0, .join 0,
        .complete (some 4) (some 4)]).map
      (fun s => (s.accepted.length, s.fired, s.accountMeta (.filled 1), lastUpdate s.accepted (.filled 1))) =
      some (2, [1, 0], some ⟨.filled 1, 95, 1, 0, 1⟩, some (⟨90, 2, 0⟩, 3)) := rfl
  obtain ⟨s, hs, hfacts⟩ := Option.map_eq_some_iff.1 hrun
  simp only [Prod.mk.injEq] at hfacts
  obtain ⟨hlen, hfired, hrow, hlast⟩ := hfacts
  refine ⟨_, s, trace_of_run hs, ?_, ?_⟩
  · rw [hlen, hfired]; decide
  · rw [hrow, hlast]; decide

end Constantinople
