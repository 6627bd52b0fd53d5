/-
What the explorer's account proofs are worth. The state database is a log: applying a batch appends an update for
each account that the batch writes, and moves up updates from below its floor. So every update in the log is an account
as some block left it. A proof that verifies against the root of a state shows an update of the log with that root,
hence an account that the chain had at or below the target.
-/
import Constantinople.Consensus.Authorization
import Constantinople.Explorer.LightClient

namespace Constantinople

open Run

/-! ## The log of the state database -/

/-- The operations that applying a batch appends to the log of the state database. -/
abbrev StateJournal := List StateOperation → StateBatch → List StateOperation

/-- An update that is appended is a write of the batch, or one of the log that is moved up. -/
def StateJournal.Records (journal : StateJournal) : Prop :=
  ∀ log batch key value, .update key value ∈ journal log batch →
    .update key value ∈ log ∨ ∃ account, (key, some account) ∈ batch.writes ∧ value = encodeAccount account

/-- A verified block, with the log of the state database before and after it. -/
def LoggedStep {C D : Type} [DecidableEq D] (A : Application D) (journal : StateJournal)
    (s : ChainState C D × List StateOperation) (child : SealedBlock C D) (s' : ChainState C D × List StateOperation) :
    Prop :=
  ∃ (rng : Nat) (floor : UInt64) (dbs : MerkleizedDatabases D),
    child.inner.Held A.env ∧ child.inner.header.height = s.1.block.inner.header.height + 1 ∧
    A.verifyChild rng child s.1.block ⟨s.1.state, []⟩ ⟨s.1.log, [], floor⟩ = .ok (some dbs) ∧
    s' = (⟨child, dbs.1.batch.get, s.1.log ++ dbs.2.batch.ops⟩, s.2 ++ journal s.2 dbs.1.batch)

theorem StateBatch.applyChangeset_base (cs : Changeset) :
    ∀ batch : StateBatch, (batch.applyChangeset cs).base = batch.base := by
  induction cs with
  | nil => intro batch; rfl
  | cons entry cs ih =>
    intro batch
    exact ih (batch.write entry.1 (some entry.2))

theorem StateBatch.applyChangeset_writes (cs : Changeset) :
    ∀ batch : StateBatch, (batch.applyChangeset cs).writes = batch.writes ++ cs.map fun entry => (entry.1, some entry.2) := by
  induction cs with
  | nil => intro batch; simp [StateBatch.applyChangeset]
  | cons entry cs ih =>
    intro batch
    change ((batch.write entry.1 (some entry.2)).applyChangeset cs).writes = _
    rw [ih]
    simp [StateBatch.write]

section Logged

variable {C D : Type} [DecidableEq D] {A : Application D} {journal : StateJournal} {child : SealedBlock C D}

theorem LoggedStep.verified {s s' : ChainState C D × List StateOperation} (h : LoggedStep A journal s child s') :
    VerifiedStep A s.1 child s'.1 := by
  obtain ⟨rng, floor, dbs, hheld, hheight, hverified, rfl⟩ := h
  exact ⟨rng, floor, dbs, hheld, hheight, hverified, rfl⟩

/-- Every chain of verified blocks has its logs. -/
theorem exists_logged (journal : StateJournal) {s s' : ChainState C D} {blocks : List (SealedBlock C D)}
    (h : Trace (VerifiedStep A) s blocks s') (log : List StateOperation) :
    ∃ log', Trace (LoggedStep A journal) (s, log) blocks (s', log') := by
  induction h generalizing log with
  | nil s => exact ⟨log, .nil _⟩
  | cons head tail ih =>
    obtain ⟨rng, floor, dbs, hheld, hheight, hverified, rfl⟩ := head
    obtain ⟨log', hlog'⟩ := ih (log ++ journal log dbs.1.batch)
    exact ⟨log', .cons ⟨rng, floor, dbs, hheld, hheight, hverified, rfl⟩ hlog'⟩

theorem verified_of_logged {s s' : ChainState C D × List StateOperation} {blocks : List (SealedBlock C D)}
    (h : Trace (LoggedStep A journal) s blocks s') : Trace (VerifiedStep A) s.1 blocks s'.1 := by
  induction h with
  | nil s => exact .nil _
  | cons head tail ih => exact .cons head.verified ih

/-- What verification has computed for the state: the root and the end in the header are those of a batch on the
state under the block, and what the batch writes is the state that the block leaves. -/
theorem LoggedStep.batch {s s' : ChainState C D × List StateOperation} (h : LoggedStep A journal s child s') :
    ∃ batch bounds, batch.base = s.1.state ∧
      A.qmdb.merkleizeState batch = .ok (child.inner.header.stateRoot, bounds) ∧
      bounds.totalSize = child.inner.header.stateRange.stop ∧ s'.2 = s.2 ++ journal s.2 batch ∧
      ∀ key account, (key, some account) ∈ batch.writes → s'.1.state key = some account := by
  obtain ⟨rng, floor, dbs, -, -, hverified, rfl⟩ := h
  obtain ⟨ts, changeset, ex, hacc, rfl⟩ := verifyChild_accepted hverified
  obtain ⟨_, -, hdb, hrange, -⟩ := finalizeChild_ok hacc.finalized
  obtain ⟨hbatch, -⟩ := finalizeExecution_transactions hdb
  have hroot := finalizeExecution_state hdb
  have hmatch := hacc.committed
  simp only [commitmentsMatch, Bool.and_eq_true, decide_eq_true_eq] at hmatch
  have hexecuted := hacc.executed
  rw [executeLoaded_eq] at hexecuted
  obtain ⟨ledger, -, rfl⟩ := Option.map_eq_some_iff.1 hexecuted
  refine ⟨_, ex.state.bounds, StateBatch.applyChangeset_base _ _, ?_, ?_, congrArg (s.2 ++ journal s.2 ·) hbatch, ?_⟩
  · rw [hroot, ← hmatch.1]
  · rw [← hmatch.2.1]
    exact (rangeFromBounds_ok hrange).2.symm
  · -- the keys of a changeset are distinct, so each of its entries is the last one for its key
    intro key account hwrite
    rw [StateBatch.applyChangeset_writes, List.nil_append, List.mem_map] at hwrite
    obtain ⟨entry, hentry, heq⟩ := hwrite
    obtain ⟨rfl, haccount⟩ := Prod.mk.inj heq
    simp only [BlockExecution.intoMerkleized]
    rw [show ex.state.batch = _ from hbatch, StateBatch.get_applyChangeset, ← haccount]
    exact applyChangeset_mem (Ledger.pairwise_changeset _ _) hentry

theorem block_mem_of_trace {s s' : ChainState C D} {blocks : List (SealedBlock C D)} (hfloor : A.qmdb.ReportsFloor)
    (h : Trace (VerifiedStep A) s blocks s') : s'.block ∈ s.block :: blocks := by
  induction h with
  | nil s => exact List.mem_singleton_self _
  | cons head tail ih =>
    obtain ⟨hblock, -⟩ := head.facts hfloor
    rw [hblock] at ih
    exact List.mem_cons_of_mem _ ih

end Logged

namespace Explorer

/-! ## Accounts of a chain -/

section Accounts

variable {A : Application Digest} {codecs : HeaderCodecs Context Digest}

/-- The account at the height. -/
def FinalizedChain.Holds (chain : FinalizedChain A codecs) (height : Nat) (key : AccountKey) (account : Account) : Prop :=
  ∃ s, chain.Reaches height s ∧ s.state key = some account

/-- A proof that verifies against the root of a batch on a state shows an update of the log with the batch applied. -/
def UpdatesProved (Q : Qmdb Digest) (journal : StateJournal) (client : QmdbOperationLogClient) (state : StateDb)
    (log : List StateOperation) : Prop :=
  ∀ batch root bounds, batch.base = state → Q.merkleizeState batch = .ok (root, bounds) →
    ∀ location key valueSize value size,
      client.getFixedUnorderedUpdate (bounds.totalSize.toNat - 1) location root.1 key valueSize = .ok (value, size) →
      ∃ (key' : AccountKey) (value' : FixedBytes accountSize), key'.bytes = key ∧ value'.1 = value ∧
        .update key' value' ∈ log ++ journal log batch

/-- What the explorer relies on for accounts, besides `Trusted`. -/
structure AccountsTrusted (services : Services) (chain : FinalizedChain A codecs) (journal : StateJournal)
    (genesisLog : List StateOperation) : Prop where
  records : journal.Records
  /-- The log starts with accounts of the genesis state. -/
  genesis : ∀ key value, .update key value ∈ genesisLog →
    ∃ account, chain.state key = some account ∧ value = encodeAccount account
  updates : ∀ url before after s log, chain.blocks = before ++ after →
    Trace (LoggedStep A journal) (chain.start, genesisLog) before (s, log) →
    UpdatesProved A.qmdb journal (services.operationLog url) s.state log

variable {chain : FinalizedChain A codecs} {services : Services} {journal : StateJournal}
  {genesisLog : List StateOperation}

/-- Every update in the log after a block is an account that the chain had at or below the block. -/
theorem AccountsTrusted.holds_of_log (haccounts : AccountsTrusted services chain journal genesisLog)
    (hfloor : A.qmdb.ReportsFloor) (hops : A.qmdb.AddsOps) {before after : List (SealedBlock Context Digest)}
    {s : ChainState Context Digest} {log : List StateOperation} (hblocks : chain.blocks = before ++ after)
    (htrace : Trace (LoggedStep A journal) (chain.start, genesisLog) before (s, log)) {key : AccountKey}
    {value : FixedBytes accountSize} (hmem : .update key value ∈ log) :
    ∃ height ≤ s.block.inner.header.height.toNat, ∃ account, chain.Holds height key account ∧
      value = encodeAccount account := by
  induction before using List.reverseRecOn generalizing after s log with
  | nil =>
    cases htrace
    obtain ⟨account, hstate, hvalue⟩ := haccounts.genesis key value hmem
    exact ⟨_, le_rfl, account, ⟨chain.start, ⟨[], after, hblocks, .nil _, rfl⟩, hstate⟩, hvalue⟩
  | append_singleton before child ih =>
    obtain ⟨⟨parent, parentLog⟩, hparent, hlast⟩ := htrace.split
    cases hlast with
    | cons hstep hnil =>
      cases hnil
      have hblocks' : chain.blocks = before ++ child :: after := by simpa using hblocks
      have hverified := verified_of_logged hparent
      -- an update of the log before the block is one of a lower height
      have hbelow : .update key value ∈ parentLog → ∃ height ≤ s.block.inner.header.height.toNat, ∃ account,
          chain.Holds height key account ∧ value = encodeAccount account := by
        intro hmem
        obtain ⟨height, hheight, hholds⟩ := ih hblocks' hparent hmem
        have hheights := chain.heights hfloor hops
        rw [hblocks', ← List.cons_append] at hheights
        have hlt := (List.pairwise_append.1 hheights).2.2 _ (block_mem_of_trace hfloor hverified) child (List.mem_cons_self ..)
        rw [(hstep.verified.facts hfloor).1]
        exact ⟨height, hheight.trans hlt.le, hholds⟩
      obtain ⟨batch, bounds, -, -, -, hlog, hwrites⟩ := hstep.batch
      simp only at hlog hwrites
      rw [hlog] at hmem
      rcases List.mem_append.1 hmem with hmem | hmem
      · exact hbelow hmem
      rcases haccounts.records _ _ _ _ hmem with hmem | ⟨account, hwrite, hvalue⟩
      · exact hbelow hmem
      · have hreaches := FinalizedChain.reaches_step hfloor hblocks' hverified hstep.verified
        rw [(hstep.verified.facts hfloor).1]
        exact ⟨_, le_rfl, account, ⟨s, hreaches, hwrites key account hwrite⟩, hvalue⟩

/-- The explorer reads an account value as the node writes it. -/
theorem decodeAccountValue_write (account : Account) :
    decodeAccountValue account.write =
      .ok (account.balance.toNat, account.nonce.base.toNat, account.nonce.bitmap.toNat) := by
  have hlen : account.write.length = accountValueBytes := account.length_write
  have h : Cursor account.write 0 (toBE 8 account.balance.toNat ++ (toBE 8 account.nonce.base.toNat ++
      (toBE 8 account.nonce.bitmap.toNat ++ []))) := by
    refine ⟨Nat.zero_le _, ?_⟩
    simp [Account.write, Nonce.write]
  unfold decodeAccountValue
  rw [if_neg (not_not.2 hlen)]
  refine bind_eq_ok_iff.2 ⟨_, readU64Be_at h, ?_⟩
  replace h := h.advance (length_toBE 8 _)
  refine bind_eq_ok_iff.2 ⟨_, readU64Be_at h, ?_⟩
  replace h := h.advance (length_toBE 8 _)
  exact bind_eq_ok_iff.2 ⟨_, readU64Be_at h, rfl⟩

end Accounts

/-- A log that takes every write of a batch and moves nothing. -/
def lightJournal : StateJournal := fun _ batch =>
  batch.writes.filterMap (fun write => write.2.map fun account => .update write.1 (encodeAccount account)) ++
    [.commitFloor none 0]

theorem lightJournal_records : lightJournal.Records := by
  intro log batch key value hmem
  right
  simp only [lightJournal, List.mem_append, List.mem_singleton, reduceCtorEq, or_false, List.mem_filterMap,
    Option.map_eq_some_iff] at hmem
  obtain ⟨⟨key', _⟩, hwrite, account, rfl, hop⟩ := hmem
  obtain ⟨rfl, rfl⟩ := StateOperation.update.inj hop
  exact ⟨account, hwrite, rfl⟩

theorem lightServices_accounts (chain : FinalizedChain lightApplication wireCodecs) :
    AccountsTrusted (lightServices lightLog) chain lightJournal [.commitFloor none 0] where
  records := lightJournal_records
  genesis _ _ hmem := by simp at hmem
  updates _ _ _ _ log _ _ batch root bounds _ hroot location key valueSize value size h := by
    simp only [lightServices, lightLog] at h
    split at h
    · rename_i hpoint
      obtain ⟨-, -, hpoint, hkey⟩ := hpoint
      cases h
      cases hroot
      split at hpoint
      · rename_i hwrite
        refine ⟨.filled 1, encodeAccount lightAccount, hkey.symm, rfl, List.mem_append_right _ ?_⟩
        exact List.mem_append_left _ (List.mem_filterMap.2 ⟨_, hwrite, rfl⟩)
      · exact absurd hpoint (by decide)
    · cases h

end Explorer

end Constantinople
