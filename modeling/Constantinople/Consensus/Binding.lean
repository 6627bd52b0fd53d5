/-
The header binds the body. A block's digest covers its header only; the transactions root in it fixes
the digests verification recomputed from the body, each digest fixes the encoding it is the hash of,
and the encoding fixes the fields. Two accepted bodies under one header differ in signatures at most.
-/
import Constantinople.Consensus.Authorization

namespace Constantinople

variable {C D : Type}

/-! ## Encodings -/

/-- The same transfer: sender bytes, recipient, value and nonce. -/
structure Transaction.Agrees (a b : Transaction) : Prop where
  sender : a.sender.write = b.sender.write
  toKey : a.toKey = b.toKey
  value : a.value = b.value
  nonce : a.nonce = b.nonce

theorem toBE_toNat_inj {a b : UInt64} (h : toBE 8 a.toNat = toBE 8 b.toNat) : a = b := by
  have hread := congrArg ofBE h
  have ha : a.toNat < 256 ^ 8 := a.toNat_lt
  have hb : b.toNat < 256 ^ 8 := b.toNat_lt
  rw [ofBE_toBE, ofBE_toBE, Nat.mod_eq_of_lt ha, Nat.mod_eq_of_lt hb] at hread
  exact UInt64.toNat_inj.1 hread

/-- The fields have fixed widths, so equal encodings agree field by field. -/
theorem Transaction.agrees_of_write {a b : Transaction} (h : a.write = b.write) : a.Agrees b := by
  simp only [write] at h
  obtain ⟨h, hnonce⟩ := List.append_inj' h (by simp)
  obtain ⟨h, hvalue⟩ := List.append_inj' h (by simp)
  obtain ⟨hsender, hto⟩ := List.append_inj h (by rw [a.sender.length_write, b.sender.length_write])
  exact ⟨hsender, AccountKey.ext_bytes hto, toBE_toNat_inj hvalue, toBE_toNat_inj hnonce⟩

/-! ## Roots -/

/-- The root of the transaction history determines the digests appended to what is already there. -/
def Qmdb.RootBindsAppends (Q : Qmdb D) : Prop :=
  ∀ (batch batch' : TransactionBatch D) (root : D) (bounds bounds' : Bounds), batch.base = batch'.base →
    Q.merkleizeTransactions batch = .ok (root, bounds) → Q.merkleizeTransactions batch' = .ok (root, bounds') →
    batch.appends = batch'.appends

section Accepted

variable [DecidableEq D] {A : Application D} {rng : Nat} {block parent : SealedBlock C D} {sb : StateBatch}
  {tb : TransactionBatch D} {transfers : List (PreparedTransfer D)} {changeset : Changeset}
  {execution : BlockExecution D}

/-- The transactions root of an accepted block is the root of the history with its body's digests appended. -/
theorem Accepted.root (h : Accepted A rng block parent sb tb transfers changeset execution) :
    ∃ floor bounds, A.qmdb.merkleizeTransactions ⟨tb.base, tb.appends ++ bodyDigests A.env block.inner.body, floor⟩ =
      .ok (block.inner.header.transactionsRoot, bounds) := by
  obtain ⟨floor, -, hdb, -⟩ := finalizeChild_ok h.finalized
  obtain ⟨-, -, hm⟩ := finalizeExecution_transactions hdb
  have hmatch := h.committed
  simp only [commitmentsMatch, Bool.and_eq_true, decide_eq_true_eq] at hmatch
  rw [applyTransactionDigests_eq, transferDigests_eq (mapM_eq_some_iff.1 h.prepared)] at hm
  exact ⟨floor, execution.transactions.bounds, hmatch.2.2.1 ▸ hm⟩

/-- Every transaction of an accepted block decodes. -/
theorem Accepted.decodes (h : Accepted A rng block parent sb tb transfers changeset execution) :
    ∀ t ∈ block.inner.body, ∃ tx, t.get A.env = some tx := by
  intro t ht
  obtain ⟨transfer, -, htransfer⟩ := List.mem_map.1
    (mapM_eq_some_iff.1 h.prepared ▸ List.mem_map_of_mem ht :
      (t.get A.env).bind (prepareTransfer A.env.crypto.sha256) ∈ transfers.map some)
  obtain ⟨tx, htx, -⟩ := Option.bind_eq_some_iff.1 htransfer.symm
  exact ⟨tx, htx⟩

end Accepted

/-! ## Bodies -/

/-- The encoding of the transaction a lazy one decodes to, without its signature. -/
def LazySignedTransaction.content (E : Env D) (t : LazySignedTransaction D) : Option Bytes :=
  (t.get E).map fun tx => tx.value.write

/-- The digests of a body that decodes are the hashes of its contents. -/
theorem bodyDigests_eq_content {E : Env D} : ∀ {body : List (LazySignedTransaction D)},
    (∀ t ∈ body, ∃ pending, t = .deferred pending) → (∀ t ∈ body, ∃ tx, t.get E = some tx) →
    (bodyDigests E body).map some = (body.map (LazySignedTransaction.content E)).map (Option.map E.hasher.hash)
  | [], _, _ => rfl
  | t :: body, hdef, hdec => by
    obtain ⟨pending, rfl⟩ := hdef t (List.mem_cons_self ..)
    obtain ⟨tx, htx⟩ := hdec _ (List.mem_cons_self ..)
    have ih := bodyDigests_eq_content (fun u hu => hdef u (List.mem_cons_of_mem _ hu))
      fun u hu => hdec u (List.mem_cons_of_mem _ hu)
    unfold bodyDigests at ih ⊢
    simp only [List.filterMap_cons, LazySignedTransaction.content, htx, Option.map_some, List.map_cons] at ih ⊢
    rw [ih, messageDigest_of_deferred htx]

/-- The header binds the body: two accepted blocks with one header have bodies of one length whose
transactions agree position by position. -/
theorem header_binds_body [DecidableEq D] (A : Application D) (hhash : Function.Injective A.env.hasher.hash)
    (hroot : A.qmdb.RootBindsAppends) (codecs : HeaderCodecs C D) (maxTransactions rng₁ rng₂ : Nat)
    (wire₁ wire₂ rest₁ rest₂ : Bytes) (block₁ block₂ : Block C D) (parent : SealedBlock C D) (sb : StateBatch)
    (tb : TransactionBatch D) (dbs₁ dbs₂ : MerkleizedDatabases D)
    (hread₁ : Block.read A.env codecs maxTransactions wire₁ = .ok (block₁, rest₁))
    (hread₂ : Block.read A.env codecs maxTransactions wire₂ = .ok (block₂, rest₂))
    (h₁ : A.verifyChild rng₁ (block₁.sealWith A.env codecs) parent sb tb = .ok (some dbs₁))
    (h₂ : A.verifyChild rng₂ (block₂.sealWith A.env codecs) parent sb tb = .ok (some dbs₂))
    (hheader : block₁.header = block₂.header) :
    block₁.body.length = block₂.body.length ∧
    List.Forall₂ (fun t₁ t₂ => ∃ tx₁ tx₂, t₁.get A.env = some tx₁ ∧ t₂.get A.env = some tx₂ ∧
      tx₁.value.Agrees tx₂.value) block₁.body block₂.body := by
  obtain ⟨transfers₁, changeset₁, execution₁, hacc₁, -⟩ := verifyChild_accepted h₁
  obtain ⟨transfers₂, changeset₂, execution₂, hacc₂, -⟩ := verifyChild_accepted h₂
  -- one root, so one digest sequence
  have hdigests : bodyDigests A.env block₁.body = bodyDigests A.env block₂.body := by
    obtain ⟨floor₁, bounds₁, hm₁⟩ := hacc₁.root
    obtain ⟨floor₂, bounds₂, hm₂⟩ := hacc₂.root
    have hsame : (block₂.sealWith A.env codecs).inner.header.transactionsRoot =
        (block₁.sealWith A.env codecs).inner.header.transactionsRoot := by
      show block₂.header.transactionsRoot = block₁.header.transactionsRoot
      rw [hheader]
    rw [hsame] at hm₂
    exact List.append_cancel_left (hroot ⟨_, _, _⟩ ⟨_, _, _⟩ _ _ _ rfl hm₁ hm₂)
  have hdeferred : ∀ {wire rest : Bytes} {block : Block C D},
      Block.read A.env codecs maxTransactions wire = .ok (block, rest) →
      ∀ t ∈ block.body, ∃ pending, t = .deferred pending := by
    intro wire rest block hread t ht
    obtain ⟨pending, hp, -⟩ := Block.read_deferred hread t ht
    exact ⟨pending, hp⟩
  -- the hash is injective, so one content sequence
  have hcontent : block₁.body.map (LazySignedTransaction.content A.env) =
      block₂.body.map (LazySignedTransaction.content A.env) := by
    refine List.map_injective_iff.2 (Option.map_injective hhash) ?_
    rw [← bodyDigests_eq_content (hdeferred hread₁) hacc₁.decodes,
      ← bodyDigests_eq_content (hdeferred hread₂) hacc₂.decodes, hdigests]
  refine ⟨by simpa using congrArg List.length hcontent, ?_⟩
  have hpairs : List.Forall₂ (fun t₁ t₂ => (∃ tx, t₁.get A.env = some tx) ∧
      LazySignedTransaction.content A.env t₁ = LazySignedTransaction.content A.env t₂) block₁.body block₂.body := by
    have hmap := (congrFun₂ List.forall₂_eq_eq_eq _ _).mpr hcontent
    exact (List.forall₂_and_left _ _).2 ⟨hacc₁.decodes, List.forall₂_map_right_iff.1 (List.forall₂_map_left_iff.1 hmap)⟩
  refine hpairs.imp fun t₁ t₂ ht => ?_
  obtain ⟨⟨tx₁, htx₁⟩, hsame⟩ := ht
  simp only [LazySignedTransaction.content, htx₁, Option.map_some] at hsame
  obtain ⟨tx₂, htx₂, hw⟩ := Option.map_eq_some_iff.1 hsame.symm
  exact ⟨tx₁, tx₂, htx₁, htx₂, Transaction.agrees_of_write hw.symm⟩

/-! ## A small instance -/

/-- A byte string with a mark before every byte and one at the end. -/
def marked : Bytes → Bytes
  | [] => [0]
  | b :: bs => 1 :: b :: marked bs

theorem marked_append_inj : ∀ {a b x y : Bytes}, marked a ++ x = marked b ++ y → a = b ∧ x = y
  | [], [], _, _, h => ⟨rfl, (List.cons.inj h).2⟩
  | [], _ :: _, _, _, h => by cases (List.cons.inj h).1
  | _ :: _, [], _, _, h => by cases (List.cons.inj h).1
  | a :: as, b :: bs, x, y, h => by
    obtain ⟨hbyte, hrest⟩ := List.cons.inj (List.cons.inj h).2
    obtain ⟨hbytes, hx⟩ := marked_append_inj hrest
    exact ⟨by rw [hbyte, hbytes], hx⟩

theorem flatMap_marked_inj : ∀ {as bs : List Bytes}, as.flatMap marked = bs.flatMap marked → as = bs
  | [], [], _ => rfl
  | [], b :: _, h => by cases b <;> cases h
  | a :: _, [], h => by cases a <;> cases h
  | a :: as, b :: bs, h => by
    simp only [List.flatMap_cons] at h
    obtain ⟨hhead, htail⟩ := marked_append_inj h
    rw [hhead, flatMap_marked_inj htail]

/-- An application whose digests are the bytes hashed and whose roots spell out what was appended. -/
def spellingApplication : Application Bytes where
  env := { crypto := permissiveCrypto, hasher := ⟨id, id⟩, usize := countingApplication.env.usize }
  qmdb :=
    { merkleizeState := fun batch => .ok ([], ⟨0, UInt64.ofNat (batch.writes.length + 1)⟩)
      merkleizeTransactions := fun batch => .ok (batch.appends.flatMap marked,
        ⟨batch.inactivityFloor, UInt64.ofNat (batch.base.length + batch.appends.length + 1)⟩) }
  signatureStrategy := .sequential
  hashStrategy := .sequential
  transactionNamespace := []

theorem spellingApplication_rootBindsAppends : spellingApplication.qmdb.RootBindsAppends := by
  rintro batch batch' root bounds bounds' - h h'
  cases h
  exact flatMap_marked_inj (congrArg Prod.fst (Except.ok.inj h')).symm

/-- Digests with a length byte before them. -/
def spellingCodecs : HeaderCodecs Unit Bytes :=
  ⟨⟨fun _ => [], pure ()⟩, ⟨fun d => UInt8.ofNat d.length :: d, do let n ← Reader.u8; Reader.take n.toNat⟩⟩

/-- The transaction of value 5 between two keys, with the signature of repeated bytes. -/
def spellingTransaction (byte : UInt8) : SignedTransaction Bytes :=
  ⟨(⟨.value (.ed25519 ⟨List.replicate 32 1, rfl⟩), .filled 2, 5, sampleValue_ne_zero, 0⟩ : Transaction).sealWith
    spellingApplication.env.hasher, .ed25519 ⟨List.replicate 64 byte, rfl⟩⟩

theorem genesisRange_nonempty : (0 : UInt64) < 1 := by decide

theorem childRange_nonempty : (0 : UInt64) < 3 := by decide

def spellingGenesis : SealedBlock Unit Bytes :=
  ⟨Block.new ⟨(), [], 0, 0, [], ⟨0, 1, genesisRange_nonempty⟩, [], ⟨0, 1, genesisRange_nonempty⟩⟩ [], []⟩

/-- A child of the genesis block with that one transaction. -/
def spellingChild (byte : UInt8) : Block Unit Bytes :=
  Block.new ⟨(), [], 1, 1, [], ⟨0, 3, childRange_nonempty⟩, marked (spellingTransaction 0).messageDigest,
    ⟨0, 3, childRange_nonempty⟩⟩ [spellingTransaction byte]

set_option maxRecDepth 20000 in
theorem header_binds_body_sample :
    ∃ block₁ block₂ dbs₁ dbs₂,
      Block.read spellingApplication.env spellingCodecs 10
        ((spellingChild 0).write spellingApplication.env spellingCodecs) = .ok (block₁, []) ∧
      Block.read spellingApplication.env spellingCodecs 10
        ((spellingChild 9).write spellingApplication.env spellingCodecs) = .ok (block₂, []) ∧
      spellingApplication.verifyChild 0 (block₁.sealWith spellingApplication.env spellingCodecs) spellingGenesis
        ⟨fun _ => none, []⟩ ⟨[.commit none 0], [], 0⟩ = .ok (some dbs₁) ∧
      spellingApplication.verifyChild 0 (block₂.sealWith spellingApplication.env spellingCodecs) spellingGenesis
        ⟨fun _ => none, []⟩ ⟨[.commit none 0], [], 0⟩ = .ok (some dbs₂) ∧
      block₁.body.length = block₂.body.length := by
  refine ⟨_, _, _, _, rfl, rfl, rfl, rfl, ?_⟩
  exact (header_binds_body spellingApplication Function.injective_id spellingApplication_rootBindsAppends spellingCodecs
    10 0 0 ((spellingChild 0).write spellingApplication.env spellingCodecs)
    ((spellingChild 9).write spellingApplication.env spellingCodecs) [] [] _ _ spellingGenesis ⟨fun _ => none, []⟩
    ⟨[.commit none 0], [], 0⟩ _ _ rfl rfl rfl rfl rfl).1

end Constantinople
