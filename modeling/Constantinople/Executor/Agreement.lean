/-
Proposer and verifier compute the same block. The proposer loads the accounts of all candidates and
filters them through the overlay; the verifier loads only what survived and executes without
skipping. Both are ledger runs of the kept transfers, so they agree on the changeset and digests.
-/
import Constantinople.Executor.Safety

namespace Constantinople

open Run

variable {D : Type}

/-! ## Preparation -/

/-- The candidate of a transaction whose sender gives an account key. -/
def prepareCandidate (sha256 : Sha256) (transaction : SignedTransaction D) : Option (PreparedTransaction D) :=
  (prepareTransfer sha256 transaction).map fun transfer => ⟨transaction, transfer⟩

theorem prepareProposal_eq (sha256 : Sha256) (transactions : List (SignedTransaction D)) :
    prepareProposal sha256 transactions =
      ⟨transactions.filterMap (prepareCandidate sha256),
        transactions.filter fun t => (prepareTransfer sha256 t).isNone⟩ := by
  have key : ∀ (ts : List (SignedTransaction D)) (input : ProposalInput D),
      ts.foldl (ProposalInput.add sha256) input =
        ⟨input.candidates ++ ts.filterMap (prepareCandidate sha256),
          input.invalid ++ ts.filter fun t => (prepareTransfer sha256 t).isNone⟩ := by
    intro ts
    induction ts with
    | nil => intro input; simp
    | cons t ts ih =>
      intro input
      rw [List.foldl_cons, ih, List.filterMap_cons, List.filter_cons, prepareCandidate, ProposalInput.add]
      rcases prepareTransfer sha256 t with _ | transfer <;> simp
  simpa [prepareProposal] using key transactions ⟨[], []⟩

theorem prepareCandidate_some {sha256 : Sha256} {t : SignedTransaction D} {c : PreparedTransaction D}
    (h : prepareCandidate sha256 t = some c) : c.transaction = t ∧ prepareTransfer sha256 t = some c.transfer := by
  obtain ⟨transfer, ht, rfl⟩ := Option.map_eq_some_iff.1 h
  exact ⟨rfl, ht⟩

theorem prepareTransfer_candidate {sha256 : Sha256} {transactions : List (SignedTransaction D)}
    {c : PreparedTransaction D} (hc : c ∈ (prepareProposal sha256 transactions).candidates) :
    prepareTransfer sha256 c.transaction = some c.transfer := by
  rw [prepareProposal_eq] at hc
  obtain ⟨t, -, ht⟩ := List.mem_filterMap.1 hc
  obtain ⟨rfl, hp⟩ := prepareCandidate_some ht
  exact hp

/-! ## Selection -/

/-- One transaction on the ledger: prepared, then applied. -/
def transactionStep (sha256 : Sha256) (L : Ledger) (transaction : SignedTransaction D) : Option Ledger :=
  match prepareTransfer sha256 transaction with
  | none => none
  | some transfer => L.step transfer

/-- Selecting among the prepared candidates is selecting among the transactions. -/
theorem greedy_candidates (sha256 : Sha256) : ∀ (ts : List (SignedTransaction D)) (L : Ledger),
    (greedy (candidateStep Ledger.step) L (ts.filterMap (prepareCandidate sha256))).map PreparedTransaction.transaction =
      greedy (transactionStep sha256) L ts
  | [], _ => rfl
  | t :: ts, L => by
    rw [List.filterMap_cons, prepareCandidate, greedy, transactionStep]
    rcases prepareTransfer sha256 t with _ | transfer
    · exact greedy_candidates sha256 ts L
    · simp only [Option.map_some, greedy, candidateStep]
      rcases L.step transfer with _ | L'
      · exact greedy_candidates sha256 ts L
      · rw [List.map_cons, greedy_candidates sha256 ts L']

theorem map_transaction_candidates (sha256 : Sha256) : ∀ ts : List (SignedTransaction D),
    (ts.filterMap (prepareCandidate sha256)).map PreparedTransaction.transaction =
      ts.filter fun t => !(prepareTransfer sha256 t).isNone
  | [] => rfl
  | t :: ts => by
    rw [List.filterMap_cons, prepareCandidate, List.filter_cons]
    rcases prepareTransfer sha256 t with _ | transfer
    · simpa using map_transaction_candidates sha256 ts
    · simpa using map_transaction_candidates sha256 ts

/-- The verifier, given only the proposed body, computes the proposer's changeset and digests; the
body is the greedy in-order selection, and nothing is lost between body and rejects. -/
theorem proposer_verifier_agree (sha256 : Sha256) (db : StateDb) (transactions : List (SignedTransaction D)) :
    let input := prepareProposal sha256 transactions
    let output := proposePrepared (loadState db (input.candidates.map PreparedTransaction.transfer)) input
    (∃ transfers, output.valid.mapM (prepareTransfer sha256) = some transfers ∧
      executeLoaded (loadExecutionState db transfers) transfers = some output.changeset ∧
      transferDigests transfers = transferDigests output.transfers) ∧
    output.valid = greedy (transactionStep sha256) db.account transactions ∧
    (output.valid ++ output.invalid).Perm transactions := by
  intro input output
  have hsel : output.Selects db.account input :=
    proposePrepared_selects (loadState_viewOf db _) (loadState_loads db _)
  refine ⟨⟨output.transfers, ?_, ?_, rfl⟩, ?_, ?_⟩
  · rw [mapM_eq_some_iff, hsel.valid, hsel.transfers, List.map_map, List.map_map]
    exact List.map_congr_left fun c hc => prepareTransfer_candidate ((greedy_sublist ..).subset hc)
  · rw [executeLoaded_eq, hsel.run, hsel.changeset]; rfl
  · rw [hsel.valid, show input = prepareProposal sha256 transactions from rfl, prepareProposal_eq]
    exact greedy_candidates sha256 transactions db.account
  · -- kept and skipped rearrange the candidates, and those with the unprepared ones the input
    have hperm := (greedy_append_skipped_perm (candidateStep Ledger.step) db.account input.candidates).map
      PreparedTransaction.transaction
    have hinvalid : input.invalid = transactions.filter fun t => (prepareTransfer sha256 t).isNone := by
      show (prepareProposal sha256 transactions).invalid = _
      rw [prepareProposal_eq]
    have hcands : input.candidates.map PreparedTransaction.transaction =
        transactions.filter fun t => !(prepareTransfer sha256 t).isNone := by
      show (prepareProposal sha256 transactions).candidates.map _ = _
      rw [prepareProposal_eq, map_transaction_candidates]
    rw [List.map_append, hcands] at hperm
    rw [hsel.valid, hsel.invalid, hinvalid]
    refine (List.perm_append_comm.append_left _).trans ?_
    rw [← List.append_assoc]
    refine (hperm.append_right _).trans ?_
    exact List.perm_append_comm.trans (List.filter_append_perm (fun t => (prepareTransfer sha256 t).isNone) transactions)

end Constantinople
