/-
Transfer execution, as in `crates/application/src/executor.rs`: the overlay over a loaded state, the
proposal-side filter, the block-side executor, and the fast path for bodies whose accounts are all
distinct. The early-exit loops of the source are runs of their partial step functions.
-/
import Constantinople.Lib.Assoc
import Constantinople.Lib.Run
import Constantinople.Primitives.Signed

namespace Constantinople

open Word

variable {D : Type}

/-- Fully loaded account state for one execution batch. -/
abbrev State := Assoc AccountKey Account

/-- Deterministic account writes produced by execution. -/
abbrev Changeset := List (AccountKey × Account)

/-- Transfer data used by the executor. -/
structure PreparedTransfer (D : Type) where
  sender : AccountKey
  recipient : AccountKey
  value : UInt64
  nonce : UInt64
  digest : D
deriving DecidableEq

/-- Transaction paired with its prepared execution data. -/
structure PreparedTransaction (D : Type) where
  transaction : SignedTransaction D
  transfer : PreparedTransfer D

/-- Proposal-side transaction preparation. -/
structure ProposalInput (D : Type) where
  candidates : List (PreparedTransaction D)
  invalid : List (SignedTransaction D)

/-- The result of proposal-side filtering and execution. -/
structure ProposalOutput (D : Type) where
  valid : List (SignedTransaction D)
  invalid : List (SignedTransaction D)
  changeset : Changeset
  transfers : List (PreparedTransfer D)

/-! ## Preparing transactions -/

def accountKeyFromSender (sha256 : Sha256) (sender : LazyPublicKey) : Option AccountKey :=
  AccountKey.fromPublicKeyBytes sha256 sender.write

/-- Prepares one transaction for account execution. -/
def prepareTransfer (sha256 : Sha256) (transaction : SignedTransaction D) : Option (PreparedTransfer D) :=
  let transfer := transaction.value
  match accountKeyFromSender sha256 transfer.sender with
  | none => none
  | some sender => some ⟨sender, transfer.toKey, transfer.value, transfer.nonce, transaction.messageDigest⟩

/-- One iteration of `prepare_proposal`. -/
def ProposalInput.add (sha256 : Sha256) (input : ProposalInput D) (transaction : SignedTransaction D) :
    ProposalInput D :=
  match prepareTransfer sha256 transaction with
  | none => { input with invalid := input.invalid ++ [transaction] }
  | some transfer => { input with candidates := input.candidates ++ [⟨transaction, transfer⟩] }

/-- Prepares transactions for proposal-side execution. -/
def prepareProposal (sha256 : Sha256) (transactions : List (SignedTransaction D)) : ProposalInput D :=
  transactions.foldl (ProposalInput.add sha256) ⟨[], []⟩

/-! ## The overlay -/

/-- Writes over a loaded state. -/
structure Overlay where
  base : State
  writes : Assoc AccountKey Account

namespace Overlay

def new (base : State) : Overlay := ⟨base, Assoc.empty⟩

def get (self : Overlay) (accountKey : AccountKey) : Option Account :=
  (self.writes.get accountKey).or (self.base.get accountKey)

def set (self : Overlay) (accountKey : AccountKey) (account : Account) : Overlay :=
  { self with writes := self.writes.insert accountKey account }

def intoChangeset (self : Overlay) : Changeset := self.writes.sorted

end Overlay

/-- Applies one transfer; `false` leaves the overlay as it was. -/
def applyTransfer (state : Overlay) (transfer : PreparedTransfer D) : Bool × Overlay :=
  match state.get transfer.sender with
  | none => (false, state)
  | some sender =>
    if sender.balance < transfer.value then (false, state)
    else
      match sender.nonce.consume transfer.nonce with
      | (false, _) => (false, state)
      | (true, nonce) =>
        let sender := { sender with nonce }
        if transfer.sender = transfer.recipient then (true, state.set transfer.sender sender)
        else
          match state.get transfer.recipient with
          | none => (false, state)
          | some recipient =>
            match checkedAdd recipient.balance transfer.value with
            | none => (false, state)
            | some recipientBalance =>
              let sender := { sender with balance := sender.balance - transfer.value }
              let recipient := { recipient with balance := recipientBalance }
              (true, (state.set transfer.sender sender).set transfer.recipient recipient)

/-- `applyTransfer` as a partial step. -/
def applyStep (state : Overlay) (transfer : PreparedTransfer D) : Option Overlay :=
  match applyTransfer state transfer with
  | (true, state) => some state
  | (false, _) => none

/-! ## Proposal and block execution -/

/-- The variables of the `propose_prepared` loop. -/
structure ProposeLoop (D : Type) where
  overlay : Overlay
  valid : List (SignedTransaction D)
  transfers : List (PreparedTransfer D)
  invalid : List (SignedTransaction D)

def ProposeLoop.next (loop : ProposeLoop D) (candidate : PreparedTransaction D) : ProposeLoop D :=
  match applyTransfer loop.overlay candidate.transfer with
  | (true, overlay) =>
    { loop with overlay, transfers := loop.transfers ++ [candidate.transfer],
                valid := loop.valid ++ [candidate.transaction] }
  | (false, overlay) => { loop with overlay, invalid := loop.invalid ++ [candidate.transaction] }

/-- Executes proposal candidates and filters statically invalid transfers. -/
def proposePrepared (state : State) (input : ProposalInput D) : ProposalOutput D :=
  let loop := input.candidates.foldl ProposeLoop.next ⟨.new state, [], [], input.invalid⟩
  ⟨loop.valid, loop.invalid, loop.overlay.intoChangeset, loop.transfers⟩

/-- Prepares and executes proposal transactions. -/
def propose (sha256 : Sha256) (state : State) (transactions : List (SignedTransaction D)) : ProposalOutput D :=
  proposePrepared state (prepareProposal sha256 transactions)

/-- Executes already prepared transfers. -/
def execute (state : State) (transfers : List (PreparedTransfer D)) : Option Changeset :=
  (Run.run applyStep (.new state) transfers).map Overlay.intoChangeset

/-! ## The fast path -/

/-- `accounts.chunks_exact(2)`. -/
def chunksExact2 : List Account → List (Account × Account)
  | sender :: recipient :: rest => (sender, recipient) :: chunksExact2 rest
  | _ => []

/-- One iteration of the fast path: the sender's and the recipient's new accounts are pushed. -/
def uniqueStep (changeset : Changeset) : PreparedTransfer D × Account × Account → Option Changeset
  | (transfer, sender, recipient) =>
    if sender.balance < transfer.value then none
    else
      match sender.nonce.consume transfer.nonce with
      | (false, _) => none
      | (true, nonce) =>
        match checkedAdd recipient.balance transfer.value with
        | none => none
        | some recipientBalance =>
          some (changeset ++ [(transfer.sender, ⟨sender.balance - transfer.value, nonce⟩),
            (transfer.recipient, { recipient with balance := recipientBalance })])

/-- `sort_unstable_by` on the account keys. -/
def sortByKey (changeset : Changeset) : Changeset := changeset.insertionSort fun l r => l.1 ≤ r.1

/-- Executes transfers whose accounts, a sender and a recipient each, were loaded in order. -/
def executeUnique (transfers : List (PreparedTransfer D)) (accounts : List Account) : Option Changeset :=
  if accounts.length ≠ transfers.length * 2 then none
  else (Run.run uniqueStep [] (transfers.zip (chunksExact2 accounts))).map sortByKey

/-! ## Loading accounts -/

/-- The state database as execution reads it. -/
abbrev StateDb := AccountKey → Option Account

/-- An account of the database; an absent one reads as the default account. -/
def StateDb.account (db : StateDb) (key : AccountKey) : Account := (db key).getD default

def loadAccounts (db : StateDb) (accountKeys : List AccountKey) : State :=
  if accountKeys.isEmpty then Assoc.empty
  else Assoc.ofPairs (accountKeys.map fun key => (key, db.account key))

/-- The sender and recipient of every transfer, in order. -/
def accountKeys (transfers : List (PreparedTransfer D)) : List AccountKey :=
  transfers.flatMap fun transfer => [transfer.sender, transfer.recipient]

def loadState (db : StateDb) (transfers : List (PreparedTransfer D)) : State :=
  if transfers.isEmpty then Assoc.empty else loadAccounts db (accountKeys transfers).dedup

inductive LoadedState
  | unique (accounts : List Account)
  | shared (state : State)

/-- Accounts in transfer order if no key repeats, a state map otherwise. -/
def loadExecutionState (db : StateDb) (transfers : List (PreparedTransfer D)) : LoadedState :=
  if transfers.isEmpty then .unique []
  else
    let keys := accountKeys transfers
    let unique := keys.dedup
    if unique.length = keys.length then .unique (keys.map db.account)
    else .shared (loadAccounts db unique)

def executeLoaded : LoadedState → List (PreparedTransfer D) → Option Changeset
  | .unique accounts, transfers => executeUnique transfers accounts
  | .shared state, transfers => execute state transfers

/-- `apply_changeset`: every entry of the changeset is written to the state batch. -/
def applyChangeset (db : StateDb) (changeset : Changeset) : StateDb :=
  changeset.foldl (fun db entry => Function.update db entry.1 (some entry.2)) db

def transferDigests (transfers : List (PreparedTransfer D)) : List D :=
  transfers.map fun transfer => transfer.digest

end Constantinople
