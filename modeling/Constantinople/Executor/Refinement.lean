/-
The executor refines the ledger. An overlay represents a ledger when its writes, read over the base
ledger, give that ledger; a loaded state is a view of the base ledger. On such states the overlay
path, the fast path and the proposal loop compute ledger runs, and their changesets are the final
ledger on the touched accounts.
-/
import Constantinople.Executor.Ledger

namespace Constantinople

open Word Run

variable {D : Type}

/-! ## The overlay step -/

/-- A transfer that is not applied leaves the overlay as it was. -/
theorem applyTransfer_false (o : Overlay) (t : PreparedTransfer D) (h : (applyTransfer o t).1 = false) :
    (applyTransfer o t).2 = o := by
  have hcases : applyTransfer o t = (false, o) ∨ (applyTransfer o t).1 = true := by
    unfold applyTransfer
    repeat' split
    all_goals first | exact .inl rfl | exact .inr rfl
  rcases hcases with hf | ht
  · rw [hf]
  · rw [h] at ht; cases ht

theorem applyTransfer_eq (o : Overlay) (t : PreparedTransfer D) :
    applyTransfer o t = match applyStep o t with
      | some o' => (true, o')
      | none => (false, o) := by
  unfold applyStep
  rcases h : applyTransfer o t with ⟨_ | _, o'⟩
  · have := applyTransfer_false o t (by rw [h])
    rw [h] at this
    simp only at this ⊢
    rw [this]
  · rfl

/-- Everything an applied transfer did. -/
theorem applyStep_eq_some {o o' : Overlay} {t : PreparedTransfer D} :
    applyStep o t = some o' ↔ ∃ sender nonce, o.get t.sender = some sender ∧ ¬ sender.balance < t.value ∧
      nextNonceState sender.nonce.base sender.nonce.bitmap t.nonce = some nonce ∧
      ((t.sender = t.recipient ∧ o' = o.set t.sender ⟨sender.balance, nonce⟩) ∨
       (t.sender ≠ t.recipient ∧ ∃ recipient balance, o.get t.recipient = some recipient ∧
        checkedAdd recipient.balance t.value = some balance ∧
        o' = (o.set t.sender ⟨sender.balance - t.value, nonce⟩).set t.recipient ⟨balance, recipient.nonce⟩)) := by
  unfold applyStep applyTransfer
  rcases o.get t.sender with _ | sender
  · simp
  by_cases hb : sender.balance < t.value
  · simp [hb]
  have hle := UInt64.not_lt.1 hb
  rcases hn : nextNonceState sender.nonce.base sender.nonce.bitmap t.nonce with _ | nonce
  · simp [hb, hn, Nonce.consume]
  by_cases hself : t.sender = t.recipient
  · simp [hb, hle, hn, Nonce.consume, hself, eq_comm]
  rcases o.get t.recipient with _ | recipient
  · simp [hb, hn, Nonce.consume, hself]
  rcases hadd : checkedAdd recipient.balance t.value with _ | balance
  · simp [hb, hn, Nonce.consume, hself, hadd]
  · simp [hb, hle, hn, Nonce.consume, hself, hadd, eq_comm]

/-! ## What an overlay represents -/

/-- A loaded state shows accounts of the ledger, possibly not all of them. -/
def State.ViewOf (state : State) (L : Ledger) : Prop := ∀ k a, state.get k = some a → a = L k

/-- The overlay's writes over the ledger it was loaded from. -/
structure Overlay.Represents (o : Overlay) (base L : Ledger) : Prop where
  view : State.ViewOf o.base base
  writes : ∀ k, L k = (o.writes.get k).getD (base k)

namespace Overlay.Represents

variable {o o' : Overlay} {base L L' : Ledger} {t : PreparedTransfer D}

theorem new {state : State} (h : State.ViewOf state base) : (Overlay.new state).Represents base base :=
  ⟨h, fun k => by simp [Overlay.new]⟩

theorem get (h : o.Represents base L) {k : AccountKey} {a : Account} (hk : o.get k = some a) : a = L k := by
  rw [h.writes k]
  unfold Overlay.get at hk
  rcases hw : o.writes.get k with _ | w
  · rw [hw, Option.none_or] at hk; exact h.view k a hk
  · rw [hw] at hk; simpa using hk.symm

theorem set (h : o.Represents base L) (k : AccountKey) (a : Account) :
    (o.set k a).Represents base (Function.update L k a) := by
  constructor
  · exact h.view
  · intro k'
    unfold Overlay.set
    simp only [Assoc.get_insert]
    by_cases hk : k' = k
    · subst hk; simp
    · rw [Function.update_of_ne hk, if_neg hk]; exact h.writes k'

/-- An applied transfer is a step of the represented ledger. -/
theorem applyStep_sound (h : o.Represents base L) (ho : applyStep o t = some o') :
    ∃ L', L.step t = some L' ∧ o'.Represents base L' := by
  obtain ⟨sender, nonce, hs, hb, hn, hcase⟩ := applyStep_eq_some.1 ho
  obtain rfl := h.get hs
  rcases hcase with ⟨hself, rfl⟩ | ⟨hne, recipient, balance, hr, hadd, rfl⟩
  · exact ⟨_, Ledger.step_eq_some.2 ⟨hb, nonce, hn, .inl ⟨hself, rfl⟩⟩, h.set _ _⟩
  · obtain rfl := h.get hr
    exact ⟨_, Ledger.step_eq_some.2 ⟨hb, nonce, hn, .inr ⟨hne, balance, hadd, rfl⟩⟩, (h.set _ _).set _ _⟩

/-- A step of the represented ledger is applied, if both accounts are loaded. -/
theorem applyStep_complete (h : o.Represents base L) (hs : ∃ a, o.get t.sender = some a)
    (hr : ∃ a, o.get t.recipient = some a) (hL : L.step t = some L') : ∃ o', applyStep o t = some o' := by
  obtain ⟨sender, hs⟩ := hs
  obtain ⟨recipient, hr⟩ := hr
  obtain rfl := h.get hs
  obtain rfl := h.get hr
  obtain ⟨hb, nonce, hn, hcase⟩ := Ledger.step_eq_some.1 hL
  rcases hcase with ⟨hself, -⟩ | ⟨hne, balance, hadd, -⟩
  · exact ⟨_, applyStep_eq_some.2 ⟨_, nonce, hs, hb, hn, .inl ⟨hself, rfl⟩⟩⟩
  · exact ⟨_, applyStep_eq_some.2 ⟨_, nonce, hs, hb, hn, .inr ⟨hne, _, balance, hr, hadd, rfl⟩⟩⟩

end Overlay.Represents

/-- Every account the transfers use is in the state. -/
def State.Loads (state : State) (ts : List (PreparedTransfer D)) : Prop :=
  ∀ k ∈ accountKeys ts, ∃ a, state.get k = some a

theorem Overlay.get_of_base {o : Overlay} {k : AccountKey} (h : ∃ a, o.base.get k = some a) :
    ∃ a, o.get k = some a := by
  obtain ⟨a, ha⟩ := h
  unfold Overlay.get
  rcases o.writes.get k with _ | w
  · exact ⟨a, by simpa using ha⟩
  · exact ⟨w, by simp⟩

theorem applyStep_base {o o' : Overlay} {t : PreparedTransfer D} (h : applyStep o t = some o') : o'.base = o.base := by
  obtain ⟨_, _, -, -, -, ⟨-, rfl⟩ | ⟨-, _, _, -, -, rfl⟩⟩ := applyStep_eq_some.1 h <;> rfl

theorem mem_accountKeys {ts : List (PreparedTransfer D)} {k : AccountKey} :
    k ∈ accountKeys ts ↔ ∃ t ∈ ts, k = t.sender ∨ k = t.recipient := by
  simp [accountKeys]

/-- On loaded transfers, overlays and the ledgers they represent step together. -/
theorem applyStep_simulates {state : State} (base : Ledger) {ts : List (PreparedTransfer D)} (hl : state.Loads ts) :
    Simulates (fun o L => o.base = state ∧ Overlay.Represents o base L) applyStep Ledger.step ts := by
  rintro o L t ht ⟨rfl, hrep⟩
  have hs := Overlay.get_of_base (hl t.sender (mem_accountKeys.2 ⟨t, ht, .inl rfl⟩))
  have hr := Overlay.get_of_base (hl t.recipient (mem_accountKeys.2 ⟨t, ht, .inr rfl⟩))
  rcases ho : applyStep o t with _ | o'
  · rcases hL : L.step t with _ | L'
    · exact .none
    · obtain ⟨o', ho'⟩ := hrep.applyStep_complete hs hr hL
      rw [ho] at ho'; cases ho'
  · obtain ⟨L', hL, hrep'⟩ := hrep.applyStep_sound ho
    rw [hL]
    exact .some ⟨applyStep_base ho, hrep'⟩

/-- Runs of applied transfers are ledger runs, loaded or not. -/
theorem run_applyStep_sound {base : Ledger} :
    ∀ {ts : List (PreparedTransfer D)} {o o' : Overlay} {L : Ledger}, o.Represents base L →
      run applyStep o ts = some o' → ∃ L', run Ledger.step L ts = some L' ∧ o'.Represents base L'
  | [], _, _, L, hrep, h => by cases h; exact ⟨L, rfl, hrep⟩
  | t :: ts, _, _, L, hrep, h => by
    obtain ⟨m, hm, h⟩ := run_cons.1 h
    obtain ⟨M, hM, hrep⟩ := hrep.applyStep_sound hm
    obtain ⟨L', hL', hrep'⟩ := run_applyStep_sound hrep h
    exact ⟨L', run_cons.2 ⟨M, hM, hL'⟩, hrep'⟩

/-! ## Changesets -/

theorem contains_set (o : Overlay) (k : AccountKey) (a : Account) (k' : AccountKey) :
    (∃ b, (o.set k a).writes.get k' = some b) ↔ k' = k ∨ ∃ b, o.writes.get k' = some b := by
  unfold Overlay.set
  simp only [Assoc.get_insert]
  by_cases h : k' = k <;> simp [h]

/-- The written accounts are those of the applied transfers. -/
theorem writes_run {ts : List (PreparedTransfer D)} :
    ∀ {o o' : Overlay}, run applyStep o ts = some o' → ∀ k,
      ((∃ a, o'.writes.get k = some a) ↔ (∃ a, o.writes.get k = some a) ∨ k ∈ accountKeys ts) := by
  induction ts with
  | nil => intro o o' h k; cases h; simp [accountKeys]
  | cons t ts ih =>
    intro o o' h k
    obtain ⟨m, hm, h⟩ := run_cons.1 h
    have hstep : (∃ a, m.writes.get k = some a) ↔
        (∃ a, o.writes.get k = some a) ∨ k = t.sender ∨ k = t.recipient := by
      obtain ⟨_, _, -, -, -, ⟨hself, rfl⟩ | ⟨-, _, _, -, -, rfl⟩⟩ := applyStep_eq_some.1 hm
      · rw [contains_set, ← hself, or_self, or_comm]
      · rw [contains_set, contains_set]; tauto
    rw [ih h k, hstep, or_assoc]
    simp [accountKeys, or_assoc]

theorem intoChangeset_eq {o : Overlay} {base L : Ledger} (hrep : o.Represents base L) {keys : List AccountKey}
    (hkeys : ∀ k, (∃ a, o.writes.get k = some a) ↔ k ∈ keys) : o.intoChangeset = L.changeset keys := by
  refine Ledger.eq_changeset o.writes.pairwise_sorted fun p => ?_
  rw [Overlay.intoChangeset, Assoc.mem_sorted, ← hkeys, hrep.writes p.1]
  constructor
  · intro h; exact ⟨⟨_, h⟩, by simp [h]⟩
  · rintro ⟨⟨a, ha⟩, h⟩; rw [h, ha]; rfl

theorem intoChangeset_run {state : State} {base L : Ledger} {ts : List (PreparedTransfer D)} {o : Overlay}
    (hrep : o.Represents base L) (h : run applyStep (.new state) ts = some o) :
    o.intoChangeset = L.changeset (accountKeys ts) :=
  intoChangeset_eq hrep fun k => by rw [writes_run h k]; simp [Overlay.new]

/-! ## The overlay path -/

/-- A changeset returned by `execute` is the final ledger on the touched accounts. -/
theorem execute_sound {state : State} {base : Ledger} (hview : State.ViewOf state base)
    {ts : List (PreparedTransfer D)} {cs : Changeset} (h : execute state ts = some cs) :
    ∃ L', run Ledger.step base ts = some L' ∧ cs = L'.changeset (accountKeys ts) := by
  obtain ⟨o, ho, rfl⟩ := Option.map_eq_some_iff.1 h
  obtain ⟨L', hL', hrep⟩ := run_applyStep_sound (.new hview) ho
  exact ⟨L', hL', intoChangeset_run hrep ho⟩

theorem execute_eq {state : State} {base : Ledger} {ts : List (PreparedTransfer D)}
    (hview : State.ViewOf state base) (hl : state.Loads ts) :
    execute state ts = (run Ledger.step base ts).map fun L => L.changeset (accountKeys ts) := by
  unfold execute
  have hsim := (applyStep_simulates base hl).run ⟨rfl, .new hview⟩
  rcases rel_cases hsim with ⟨ho, hL⟩ | ⟨o, L, ho, hL, -, hrep⟩
  · rw [ho, hL]; rfl
  · rw [ho, hL]; exact congrArg some (intoChangeset_run hrep ho)

/-! ## The fast path -/

theorem uniqueStep_eq (cs : Changeset) (L : Ledger) (t : PreparedTransfer D) (hne : t.sender ≠ t.recipient) :
    uniqueStep cs (t, L t.sender, L t.recipient) =
      (L.step t).map fun M => cs ++ [(t.sender, M t.sender), (t.recipient, M t.recipient)] := by
  unfold uniqueStep Ledger.step Nonce.consume
  by_cases hb : (L t.sender).balance < t.value
  · simp [hb]
  rcases hn : nextNonceState (L t.sender).nonce.base (L t.sender).nonce.bitmap t.nonce with _ | nonce
  · simp [hb, hn]
  rcases hadd : checkedAdd (L t.recipient).balance t.value with _ | balance
  · simp [hb, hn, hadd, hne]
  · simp [hb, hn, hadd, hne]

/-- With all keys distinct, reading every account up front is reading it when its transfer comes. -/
theorem run_uniqueStep : ∀ (ts : List (PreparedTransfer D)) (L : Ledger) (cs : Changeset), (accountKeys ts).Nodup →
    run uniqueStep cs (ts.zip (chunksExact2 ((accountKeys ts).map L))) =
      (run Ledger.step L ts).map fun L' => cs ++ (accountKeys ts).map fun k => (k, L' k)
  | [], L, cs, _ => by simp [run, accountKeys]
  | t :: ts, L, cs, hnd => by
    have hkeys : accountKeys (t :: ts) = t.sender :: t.recipient :: accountKeys ts := rfl
    rw [hkeys] at hnd
    obtain ⟨hs, hnd⟩ := List.nodup_cons.1 hnd
    obtain ⟨hr, hnd⟩ := List.nodup_cons.1 hnd
    obtain ⟨hne, hs⟩ := not_or.1 (mt List.mem_cons.2 hs)
    rw [hkeys, List.map_cons, List.map_cons, chunksExact2, List.zip_cons_cons, run, run, uniqueStep_eq cs L t hne]
    rcases hM : L.step t with _ | M
    · rfl
    -- the accounts of the remaining transfers are still those of `L`
    have hmap : (accountKeys ts).map L = (accountKeys ts).map M := by
      refine List.map_congr_left fun k hk => (Ledger.step_other hM ?_ ?_).symm
      · rintro rfl; exact hs hk
      · rintro rfl; exact hr hk
    rw [hmap]
    simp only [Option.map_some]
    rw [run_uniqueStep ts M _ hnd]
    rcases hL' : run Ledger.step M ts with _ | L'
    · rfl
    · simp [Ledger.run_other hL' hs, Ledger.run_other hL' hr]

theorem length_accountKeys (ts : List (PreparedTransfer D)) : (accountKeys ts).length = ts.length * 2 := by
  simp [accountKeys]

/-- On distinct accounts the fast path computes what the overlay path computes. -/
theorem executeUnique_eq {ts : List (PreparedTransfer D)} (L : Ledger) (hnd : (accountKeys ts).Nodup) :
    executeUnique ts ((accountKeys ts).map L) =
      (run Ledger.step L ts).map fun L' => L'.changeset (accountKeys ts) := by
  unfold executeUnique
  rw [if_neg (by simp [length_accountKeys]), run_uniqueStep ts L [] hnd, Option.map_map]
  refine congrArg (Option.map · _) (funext fun L' => ?_)
  simp [Ledger.changeset, hnd.dedup]

/-! ## Loaded states -/

section Loading

variable (db : StateDb)

theorem get_loadAccounts (keys : List AccountKey) (k : AccountKey) :
    (loadAccounts db keys).get k = if k ∈ keys then some (db.account k) else none := by
  unfold loadAccounts
  split
  · rename_i h; simp [List.isEmpty_iff.1 h]
  · exact Assoc.get_ofPairs_map keys db.account k

theorem loadAccounts_viewOf (keys : List AccountKey) : State.ViewOf (loadAccounts db keys) db.account := by
  intro k a h
  rw [get_loadAccounts] at h
  split at h
  · exact (Option.some.inj h).symm
  · cases h

theorem loadAccounts_loads {keys : List AccountKey} {ts : List (PreparedTransfer D)}
    (h : ∀ k ∈ accountKeys ts, k ∈ keys) : (loadAccounts db keys).Loads ts :=
  fun k hk => ⟨db.account k, by rw [get_loadAccounts, if_pos (h k hk)]⟩

theorem loadState_eq (ts : List (PreparedTransfer D)) : loadState db ts = loadAccounts db (accountKeys ts).dedup := by
  unfold loadState
  split
  · rename_i h; rw [List.isEmpty_iff.1 h]; rfl
  · rfl

theorem loadState_viewOf (ts : List (PreparedTransfer D)) : State.ViewOf (loadState db ts) db.account := by
  rw [loadState_eq]; exact loadAccounts_viewOf db _

theorem loadState_loads (ts : List (PreparedTransfer D)) : (loadState db ts).Loads ts := by
  rw [loadState_eq]; exact loadAccounts_loads db fun k hk => List.mem_dedup.2 hk

theorem nodup_of_length_dedup {keys : List AccountKey} (h : keys.dedup.length = keys.length) : keys.Nodup := by
  rw [← (List.dedup_sublist keys).eq_of_length h]; exact List.nodup_dedup _

/-- Block execution over the database: the ledger run, whichever way the accounts are loaded. -/
theorem executeLoaded_eq (ts : List (PreparedTransfer D)) :
    executeLoaded (loadExecutionState db ts) ts =
      (run Ledger.step db.account ts).map fun L => L.changeset (accountKeys ts) := by
  unfold loadExecutionState
  split
  · rename_i h
    rw [List.isEmpty_iff.1 h]; rfl
  by_cases hu : (accountKeys ts).dedup.length = (accountKeys ts).length
  · simp only [if_pos hu]
    exact executeUnique_eq db.account (nodup_of_length_dedup hu)
  · simp only [if_neg hu]
    exact execute_eq (loadAccounts_viewOf db _) (loadAccounts_loads db fun k hk => List.mem_dedup.2 hk)

/-- The accounts are loaded by position exactly when no key repeats. -/
theorem loadExecutionState_cases (ts : List (PreparedTransfer D)) :
    ((accountKeys ts).Nodup ∧ loadExecutionState db ts = .unique ((accountKeys ts).map db.account)) ∨
    (¬ (accountKeys ts).Nodup ∧ loadExecutionState db ts = .shared (loadAccounts db (accountKeys ts).dedup)) := by
  unfold loadExecutionState
  split
  · rename_i h
    rw [List.isEmpty_iff.1 h]
    exact .inl ⟨List.nodup_nil, rfl⟩
  by_cases hu : (accountKeys ts).dedup.length = (accountKeys ts).length
  · exact .inl ⟨nodup_of_length_dedup hu, if_pos hu⟩
  · refine .inr ⟨fun hnd => hu ?_, if_neg hu⟩
    rw [hnd.dedup]

/-- Block execution succeeds exactly when the transfers succeed one by one on the accounts of the
database, and returns the touched accounts as they are then, in key order. -/
theorem executeLoaded_exact (ts : List (PreparedTransfer D)) :
    ((∃ accounts, loadExecutionState db ts = .unique accounts) ↔ (accountKeys ts).Nodup) ∧
    ((∃ state, loadExecutionState db ts = .shared state) ↔ ¬ (accountKeys ts).Nodup) ∧
    ((∃ changes, executeLoaded (loadExecutionState db ts) ts = some changes) ↔
      ∃ L, run Ledger.step db.account ts = some L) ∧
    ∀ changes, executeLoaded (loadExecutionState db ts) ts = some changes →
      ∃ L, run Ledger.step db.account ts = some L ∧
        changes.Pairwise (fun a b => a.1 < b.1) ∧
        (∀ k, k ∈ changes.map Prod.fst ↔ ∃ t ∈ ts, k = t.sender ∨ k = t.recipient) ∧
        ∀ p ∈ changes, p.2 = L p.1 := by
  refine ⟨?_, ?_, ?_, fun changes h => ?_⟩
  · rcases loadExecutionState_cases db ts with ⟨hnd, h⟩ | ⟨hnd, h⟩ <;> simp [h, hnd]
  · rcases loadExecutionState_cases db ts with ⟨hnd, h⟩ | ⟨hnd, h⟩ <;> simp [h, hnd]
  · rw [executeLoaded_eq]
    rcases run Ledger.step db.account ts with _ | L <;> simp
  · rw [executeLoaded_eq] at h
    obtain ⟨L, hL, rfl⟩ := Option.map_eq_some_iff.1 h
    refine ⟨L, hL, L.pairwise_changeset _, fun k => ?_, fun p hp => (Ledger.mem_changeset.1 hp).2⟩
    rw [← mem_accountKeys, List.mem_map]
    constructor
    · rintro ⟨p, hp, rfl⟩
      exact (Ledger.mem_changeset.1 hp).1
    · intro hk
      exact ⟨(k, L k), Ledger.mem_changeset.2 ⟨hk, rfl⟩, rfl⟩

end Loading

/-! ## The proposal loop -/

/-- The step of a candidate. -/
def candidateStep {σ : Type} (step : σ → PreparedTransfer D → Option σ) (s : σ) (c : PreparedTransaction D) :
    Option σ := step s c.transfer

theorem foldl_next (loop : ProposeLoop D) (cands : List (PreparedTransaction D)) :
    cands.foldl ProposeLoop.next loop =
      { overlay := final (candidateStep applyStep) loop.overlay cands
        valid := loop.valid ++ (greedy (candidateStep applyStep) loop.overlay cands).map PreparedTransaction.transaction
        transfers :=
          loop.transfers ++ (greedy (candidateStep applyStep) loop.overlay cands).map PreparedTransaction.transfer
        invalid := loop.invalid ++
          (skipped (candidateStep applyStep) loop.overlay cands).map PreparedTransaction.transaction } := by
  induction cands generalizing loop with
  | nil => simp [final, greedy, skipped]
  | cons c cands ih =>
    rw [List.foldl_cons, ih, ProposeLoop.next, applyTransfer_eq, final, greedy, skipped]
    rcases h : applyStep loop.overlay c.transfer with _ | o <;> simp [candidateStep, h]

theorem run_candidateStep {σ : Type} (step : σ → PreparedTransfer D → Option σ) :
    ∀ (s : σ) (cs : List (PreparedTransaction D)),
      run (candidateStep step) s cs = run step s (cs.map PreparedTransaction.transfer)
  | _, [] => rfl
  | s, c :: cs => by
    rw [List.map_cons, run, run]
    rcases h : step s c.transfer with _ | s'
    · simp only [candidateStep, h]
    · simp only [candidateStep, h]; exact run_candidateStep step s' cs

/-- What a proposal over a loaded state is: the greedy selection of the ledger. -/
structure ProposalOutput.Selects (out : ProposalOutput D) (L : Ledger) (input : ProposalInput D) : Prop where
  valid : out.valid = (greedy (candidateStep Ledger.step) L input.candidates).map PreparedTransaction.transaction
  transfers : out.transfers = (greedy (candidateStep Ledger.step) L input.candidates).map PreparedTransaction.transfer
  invalid : out.invalid =
    input.invalid ++ (skipped (candidateStep Ledger.step) L input.candidates).map PreparedTransaction.transaction
  run : run Ledger.step L out.transfers = some (final (candidateStep Ledger.step) L input.candidates)
  changeset : out.changeset =
    (final (candidateStep Ledger.step) L input.candidates).changeset (accountKeys out.transfers)

theorem proposePrepared_selects {state : State} {L : Ledger} {input : ProposalInput D}
    (hview : State.ViewOf state L) (hl : state.Loads (input.candidates.map PreparedTransaction.transfer)) :
    (proposePrepared state input).Selects L input := by
  have hsim : Simulates (fun o M => o.base = state ∧ Overlay.Represents o L M) (candidateStep applyStep)
      (candidateStep Ledger.step) input.candidates := fun o M c hc hr =>
    applyStep_simulates L hl o M c.transfer (List.mem_map_of_mem hc) hr
  obtain ⟨hg, hsk, -, hrep⟩ := hsim.greedy ⟨rfl, .new hview⟩
  have hrun := run_greedy (candidateStep applyStep) (.new state) input.candidates
  have hrunL := run_greedy (candidateStep Ledger.step) L input.candidates
  rw [run_candidateStep] at hrun hrunL
  unfold proposePrepared
  simp only [foldl_next, List.nil_append]
  refine ⟨by simp only [hg], by simp only [hg], by simp only [hsk], by simp only [hg]; exact hrunL, ?_⟩
  simp only
  exact intoChangeset_run hrep hrun

end Constantinople
