/-
The transaction history over a chain. Each block's range ends where the history ends after it and
starts where its parent's operations started; every chain from genesis keeps these ranges in step
with the operations of the history itself.
-/
import Constantinople.Consensus.Lifecycle

namespace Constantinople

open Run

variable {C D : Type}

/-- A keyless batch adds its appends and one commit. -/
def Qmdb.AddsOps (Q : Qmdb D) : Prop :=
  ∀ (batch : TransactionBatch D) (root : D) (bounds : Bounds), Q.merkleizeTransactions batch = .ok (root, bounds) →
    bounds.totalSize.toNat = batch.base.length + batch.appends.length + 1

/-! ## Chains of ranges -/

/-- The tip of a chain and the operations of the transaction history up to it. -/
structure Tip (C D : Type) where
  block : Block C D
  log : List (HistoryOp D)

/-- `child` extends the tip: its range is the one `finalize_child` computes on the parent for a batch
that continues the history with one append per transaction of the body. -/
def HistoryStep (Q : Qmdb D) (s : Tip C D) (child : Block C D) (s' : Tip C D) : Prop :=
  ∃ (stateBatch : StateBatch) (transactionBatch : TransactionBatch D) (message : String) (execution : BlockExecution D),
    transactionBatch.base = s.log ∧ transactionBatch.appends.length = child.body.length ∧
    finalizeChild Q stateBatch transactionBatch s.block child.body.length message = .ok execution ∧
    child.header.transactionsRange = execution.transactionsRange ∧
    s' = ⟨child, s.log ++ execution.transactions.batch.ops⟩

/-- The range of a tip in natural numbers, and what it has to do with the history. -/
structure Tip.InStep (s : Tip C D) : Prop where
  log : s.log.length = s.block.header.transactionsRange.stop.toNat
  own : s.block.header.transactionsRange.start.toNat + s.block.body.length + 1 ≤
    s.block.header.transactionsRange.stop.toNat

/-- How the range of a block follows from its parent's. -/
structure RangeLink (parent child : Block C D) : Prop where
  stop : child.header.transactionsRange.stop.toNat =
    parent.header.transactionsRange.stop.toNat + child.body.length + 1
  start : child.header.transactionsRange.start.toNat + parent.body.length + 1 =
    parent.header.transactionsRange.stop.toNat
  nonempty : child.header.transactionsRange.start.toNat < child.header.transactionsRange.stop.toNat
  mono : parent.header.transactionsRange.start.toNat ≤ child.header.transactionsRange.start.toNat
  location : ∀ i < child.body.length,
    child.header.transactionsRange.start.toNat ≤
        child.header.transactionsRange.stop.toNat - child.body.length - 1 + i ∧
      child.header.transactionsRange.stop.toNat - child.body.length - 1 + i <
        child.header.transactionsRange.stop.toNat

theorem parentTransactionsInactivityFloor_ok {parent : Block C D} {floor : UInt64}
    (h : parentTransactionsInactivityFloor parent = .ok floor) :
    floor.toNat + parent.body.length + 1 = parent.header.transactionsRange.stop.toNat := by
  unfold parentTransactionsInactivityFloor at h
  split at h
  · cases h
  rename_i hlen
  split at h
  · cases h
  rename_i hsub
  cases h
  obtain ⟨stop, hstop, hfloor⟩ := Option.bind_eq_some_iff.1 hsub
  have h1 := Word.checkedSub_eq_some.1 hstop
  have h2 := Word.checkedSub_eq_some.1 hfloor
  rw [Word.toNat_ofNat (by omega)] at h1
  simp only [UInt64.toNat_one] at h2
  omega

theorem Tip.InStep.floor_ok {s : Tip C D} (h : s.InStep) :
    ∃ floor, parentTransactionsInactivityFloor s.block = .ok floor := by
  have hown := h.own
  have hstop := s.block.header.transactionsRange.stop.toNat_lt
  have hlen : (UInt64.ofNat s.block.body.length).toNat = s.block.body.length := Word.toNat_ofNat (by omega)
  obtain ⟨mid, hmid, hmidNat⟩ := Word.checkedSub_of_le (a := s.block.header.transactionsRange.stop)
    (b := UInt64.ofNat s.block.body.length) (by omega)
  obtain ⟨floor, hfloor, -⟩ := Word.checkedSub_of_le (a := mid) (b := 1) (by simp only [UInt64.toNat_one]; omega)
  unfold parentTransactionsInactivityFloor
  rw [if_neg (by omega), hmid, Option.bind_some, hfloor]
  exact ⟨floor, rfl⟩

section Steps

variable {Q : Qmdb D} (hfloor : Q.ReportsFloor) (hops : Q.AddsOps)

include hfloor hops

/-- One block: its range follows from its parent's, and stays in step with the history. -/
theorem HistoryStep.link {s s' : Tip C D} {child : Block C D} (hs : s.InStep) (h : HistoryStep Q s child s') :
    s'.block = child ∧ RangeLink s.block child ∧ s'.InStep := by
  obtain ⟨sb, tb, msg, ex, hbase, happ, hfin, hrange, rfl⟩ := h
  obtain ⟨floor, hpf, hdb, -, htr, -⟩ := finalizeChild_ok hfin
  obtain ⟨-, hbatch, hm⟩ := finalizeExecution_transactions hdb
  simp only at hbatch hm
  obtain ⟨hstart, hstop⟩ := rangeFromBounds_ok htr
  rw [hfloor _ _ _ hm] at hstart
  have hstopNat := hops _ _ _ hm
  rw [← hstop] at hstopNat
  have hpfNat := parentTransactionsInactivityFloor_ok hpf
  have hstart : ex.transactionsRange.start.toNat = floor.toNat := congrArg UInt64.toNat hstart
  have hlog := hs.log
  have hown := hs.own
  have hstopNat : ex.transactionsRange.stop.toNat = s.block.header.transactionsRange.stop.toNat + child.body.length + 1 := by
    rw [hstopNat, ← hlog, ← hbase, ← happ]; rfl
  rw [← hrange] at hstart hstopNat
  refine ⟨rfl, ⟨hstopNat, by omega, by omega, by omega, fun i hi => by omega⟩, ⟨?_, ?_⟩⟩
  · rw [hbatch]
    simp only [TransactionBatch.ops, TransactionBatch.withInactivityFloor, List.length_append, List.length_map,
      List.length_singleton]
    omega
  · simp only; omega

/-- Along a chain every block is linked to the one before it, and every tip is in step. -/
theorem chain_links {s s' : Tip C D} {blocks : List (Block C D)} (hs : s.InStep)
    (h : Trace (HistoryStep Q) s blocks s') :
    (s.block :: blocks).IsChain RangeLink ∧ (∀ b ∈ s.block :: blocks, ∃ t : Tip C D, t.block = b ∧ t.InStep) ∧
      (∀ b ∈ blocks, ∃ parent, RangeLink parent b ∧ 0 < parent.header.transactionsRange.stop.toNat) := by
  induction h with
  | nil s => exact ⟨.singleton _, fun b hb => ⟨s, (List.mem_singleton.1 hb).symm, hs⟩, fun b hb => by cases hb⟩
  | @cons s m s' child blocks head tail ih =>
    obtain ⟨hm, hlink, hstep⟩ := head.link hfloor hops hs
    obtain ⟨hchain, hall, hparent⟩ := ih hstep
    rw [hm] at hchain hall
    refine ⟨.cons_cons hlink hchain, fun b hb => ?_, fun b hb => ?_⟩
    · rcases List.mem_cons.1 hb with rfl | hb
      · exact ⟨s, rfl, hs⟩
      · exact hall b hb
    · rcases List.mem_cons.1 hb with rfl | hb
      · have := hs.own
        exact ⟨s.block, hlink, by omega⟩
      · exact hparent b hb

end Steps

/-! ## Genesis -/

/-- The genesis block over a history of `leafCount` operations is in step with it. -/
theorem genesis_inStep {E : Env D} {codecs : HeaderCodecs C D} {context : C} {empty : D} {timestamp : UInt64}
    {stateRoot : D} {stateRange : NonEmptyRange} {transactionsRoot : D} {leafCount : UInt64} {genesis : SealedBlock C D}
    (h : genesisBlockWithParent E codecs context empty timestamp stateRoot stateRange transactionsRoot leafCount =
      .ok genesis) {log : List (HistoryOp D)} (hlog : log.length = leafCount.toNat) :
    (⟨genesis.inner, log⟩ : Tip C D).InStep ∧ genesis.inner.header.transactionsRange.start = 0 ∧
      genesis.inner.header.transactionsRange.stop = leafCount ∧ genesis.inner.body = [] ∧
      genesis.inner.header.height = 0 := by
  unfold genesisBlockWithParent at h
  split at h
  · cases h
  rename_i range hrange
  cases h
  obtain ⟨hstart, hstop⟩ := NonEmptyRange.new_eq_some hrange
  have hlt := UInt64.lt_iff_toNat_lt.1 range.nonempty
  rw [hstart, hstop] at hlt
  refine ⟨⟨?_, ?_⟩, hstart, hstop, rfl, rfl⟩
  · rw [hlog]; exact (congrArg UInt64.toNat hstop).symm
  · simp only [Block.sealWith, Block.new, List.map_nil, List.length_nil, hstart, hstop]
    simp only [UInt64.toNat_zero] at hlt ⊢
    omega

end Constantinople
