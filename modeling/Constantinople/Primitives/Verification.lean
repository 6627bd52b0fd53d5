/-
Verifying signatures together and on their own. The verifier sorts the signatures of a batch into two
groups, one per scheme, checks the ed25519 group as a whole and folds over the WebAuthn assertions. A
batch passes exactly if every transaction decodes with its sender and its signature verifies on its own,
whatever the strategies do with the work.
-/
import Constantinople.Primitives.Signed

namespace Constantinople

variable {D : Type}

/-! ## Valid signatures -/

def TransactionPublicKey.scheme : TransactionPublicKey → UInt8
  | .ed25519 _ => ed25519Scheme
  | .secp256r1 _ => secp256r1Scheme

def TransactionSignature.scheme : TransactionSignature → UInt8
  | .ed25519 _ => ed25519Scheme
  | .secp256r1 .. => secp256r1Scheme

/-- A signature of the key's scheme that verifies on its own. -/
def signatureValid (c : Crypto) (domain message : Bytes) : TransactionPublicKey → TransactionSignature → Bool
  | .ed25519 key, .ed25519 signature => c.ed25519Verify ⟨domain, message, key, signature⟩
  | .secp256r1 key, .secp256r1 signature authenticatorData clientDataJson _ _ =>
    verifyWebauthnAssertion c key message signature authenticatorData clientDataJson
  | _, _ => false

theorem scheme_eq_of_valid {c : Crypto} {domain message : Bytes} {key : TransactionPublicKey}
    {signature : TransactionSignature} (h : signatureValid c domain message key signature = true) :
    key.scheme = signature.scheme := by
  cases key <;> cases signature
  · rfl
  · simp [signatureValid] at h
  · simp [signatureValid] at h
  · rfl

/-- Batch verification accepts only valid members. -/
def Crypto.BatchSound (c : Crypto) : Prop :=
  ∀ rng items, c.ed25519BatchVerify rng items = true → ∀ item ∈ items, c.ed25519Verify item = true

/-! ## The batch verifier -/

/-- The verifier holds the signature in the group of its scheme. -/
def Queued (v : TransactionBatchVerifier) (domain message : Bytes) : TransactionPublicKey → TransactionSignature → Prop
  | .ed25519 key, .ed25519 signature => ⟨domain, message, key, signature⟩ ∈ v.ed25519
  | .secp256r1 key, .secp256r1 signature authenticatorData clientDataJson _ _ =>
    ⟨message, key, signature, authenticatorData, clientDataJson⟩ ∈ v.secp256r1
  | _, _ => False

/-- Nothing queued is dropped. -/
def Extends (v v' : TransactionBatchVerifier) : Prop :=
  (∀ item ∈ v.ed25519, item ∈ v'.ed25519) ∧ ∀ item ∈ v.secp256r1, item ∈ v'.secp256r1

theorem Queued.mono {v v' : TransactionBatchVerifier} (h : Extends v v') {domain message : Bytes}
    {key : TransactionPublicKey} {signature : TransactionSignature} (hq : Queued v domain message key signature) :
    Queued v' domain message key signature := by
  cases key <;> cases signature
  · exact h.1 _ hq
  · exact hq
  · exact hq
  · exact h.2 _ hq

theorem add_queued {c : Crypto} {v v' : TransactionBatchVerifier} {domain message : Bytes}
    {key : TransactionPublicKey} {signature : TransactionSignature}
    (h : v.add c domain message key signature = (true, v')) :
    Extends v v' ∧ Queued v' domain message key signature := by
  cases key <;> cases signature
  · simp only [TransactionBatchVerifier.add] at h
    split at h
    · cases h
      exact ⟨⟨fun item hi => List.mem_append_left _ hi, fun item hi => hi⟩, by simp [Queued]⟩
    · cases h
  · cases h
  · cases h
  · cases h
    exact ⟨⟨fun item hi => hi, fun item hi => List.mem_append_left _ hi⟩, by simp [Queued]⟩

/-- After the queueing loop every transaction decoded, and its signature is queued under its own key. -/
theorem addAll_queued {E : Env D} {domain : Bytes} :
    ∀ {ts : List (LazySignedTransaction D)} {v v' : TransactionBatchVerifier}, addAll E domain v ts = some v' →
      Extends v v' ∧ ∀ t ∈ ts, ∃ tx key, t.get E = some tx ∧ tx.value.sender.get E.crypto = some key ∧
        Queued v' domain (E.hasher.bytes tx.messageDigest) key tx.signature
  | [], v, v', h => by
    cases h
    exact ⟨⟨fun _ hi => hi, fun _ hi => hi⟩, fun t ht => by cases ht⟩
  | t :: ts, v, v', h => by
    unfold addAll at h
    split at h
    · cases h
    rename_i tx htx
    split at h
    · cases h
    rename_i key hkey
    split at h
    · cases h
    rename_i m hm
    obtain ⟨hext, hq⟩ := add_queued hm
    obtain ⟨hext', hrest⟩ := addAll_queued h
    refine ⟨⟨fun i hi => hext'.1 i (hext.1 i hi), fun i hi => hext'.2 i (hext.2 i hi)⟩, fun u hu => ?_⟩
    rcases List.mem_cons.1 hu with rfl | hu
    · exact ⟨tx, key, htx, hkey, hq.mono hext'⟩
    · exact hrest u hu

theorem verify_valid {c : Crypto} (hc : c.BatchSound) {v : TransactionBatchVerifier} {rng : Nat} {strategy : Strategy}
    (h : v.verify c rng strategy = true) {domain message : Bytes} {key : TransactionPublicKey}
    {signature : TransactionSignature} (hq : Queued v domain message key signature) :
    signatureValid c domain message key signature = true := by
  unfold TransactionBatchVerifier.verify at h
  split at h
  · cases h
  rename_i hed
  rw [Bool.not_eq_true', Bool.not_eq_false] at hed
  cases key <;> cases signature
  · exact hc rng _ hed _ hq
  · cases hq
  · cases hq
  · unfold verifySecp256r1 at h
    split at h
    · rename_i hnil; rw [Queued, List.isEmpty_iff.1 hnil] at hq; cases hq
    · rw [Strategy.fold_and, List.all_eq_true] at h
      exact h _ hq

/-- Of a verified batch every transaction decodes, with a key of its own that it is signed by. -/
theorem verifyTransactionBatch_valid {E : Env D} (hc : E.crypto.BatchSound) {strategy : Strategy} {domain : Bytes}
    {rng : Nat} {ts : List (LazySignedTransaction D)} (h : verifyTransactionBatch E strategy domain rng ts = true) :
    ∀ t ∈ ts, ∃ tx key, t.get E = some tx ∧ tx.value.sender.get E.crypto = some key ∧
      signatureValid E.crypto domain (E.hasher.bytes tx.messageDigest) key tx.signature = true := by
  unfold verifyTransactionBatch at h
  split at h
  · cases h
  rename_i v hv
  intro t ht
  obtain ⟨tx, key, htx, hkey, hq⟩ := (addAll_queued hv).2 t ht
  exact ⟨tx, key, htx, hkey, verify_valid hc h hq⟩

/-! ## Authentic transactions -/

/-- Batch verification takes valid members and accepts a batch of them. -/
structure Crypto.BatchComplete (c : Crypto) : Prop where
  add : ∀ item, c.ed25519Verify item = true → c.ed25519BatchAdd item = true
  verify : ∀ rng items, (∀ item ∈ items, c.ed25519Verify item = true) → c.ed25519BatchVerify rng items = true

/-- Every queued signature is valid. -/
structure TransactionBatchVerifier.AllValid (c : Crypto) (v : TransactionBatchVerifier) : Prop where
  ed25519 : ∀ item ∈ v.ed25519, c.ed25519Verify item = true
  secp256r1 : ∀ item ∈ v.secp256r1, verifyWebauthnAssertion c item.publicKey item.message item.signature
    item.authenticatorData item.clientDataJson = true

/-- The sender key of a transaction decodes and its signature over the digest is valid. -/
def SignedTransaction.Authentic (E : Env D) (domain : Bytes) (t : SignedTransaction D) : Prop :=
  ∃ key, t.value.sender.get E.crypto = some key ∧
    signatureValid E.crypto domain (E.hasher.bytes t.messageDigest) key t.signature = true

theorem add_of_valid {c : Crypto} (hc : c.BatchComplete) {v : TransactionBatchVerifier} (hv : v.AllValid c)
    {domain message : Bytes} {key : TransactionPublicKey} {signature : TransactionSignature}
    (h : signatureValid c domain message key signature = true) :
    ∃ v', v.add c domain message key signature = (true, v') ∧ v'.AllValid c := by
  cases key <;> cases signature
  · refine ⟨_, if_pos (hc.add _ h), ?_, hv.secp256r1⟩
    intro item hi
    rcases List.mem_append.1 hi with hi | hi
    · exact hv.ed25519 item hi
    · rw [List.mem_singleton.1 hi]; exact h
  · cases h
  · cases h
  · refine ⟨_, rfl, hv.ed25519, ?_⟩
    intro item hi
    rcases List.mem_append.1 hi with hi | hi
    · exact hv.secp256r1 item hi
    · rw [List.mem_singleton.1 hi]; exact h

/-- The queueing loop takes a body of authentic transactions to its end. -/
theorem addAll_of_authentic {E : Env D} (hc : E.crypto.BatchComplete) {domain : Bytes} :
    ∀ {ts : List (LazySignedTransaction D)} {v : TransactionBatchVerifier}, v.AllValid E.crypto →
      (∀ t ∈ ts, ∃ tx, t.get E = some tx ∧ tx.Authentic E domain) →
      ∃ v', addAll E domain v ts = some v' ∧ v'.AllValid E.crypto
  | [], v, hv, _ => ⟨v, rfl, hv⟩
  | t :: ts, v, hv, h => by
    obtain ⟨tx, htx, key, hkey, hvalid⟩ := h t (List.mem_cons_self ..)
    obtain ⟨m, hm, hmv⟩ := add_of_valid hc hv hvalid
    obtain ⟨v', hv', hall⟩ := addAll_of_authentic hc hmv fun u hu => h u (List.mem_cons_of_mem t hu)
    exact ⟨v', by simp only [addAll, htx, hkey, hm, hv'], hall⟩

theorem TransactionBatchVerifier.AllValid.verify {c : Crypto} (hc : c.BatchComplete) {v : TransactionBatchVerifier}
    (hv : v.AllValid c) (rng : Nat) (strategy : Strategy) : v.verify c rng strategy = true := by
  unfold TransactionBatchVerifier.verify verifySecp256r1
  rw [hc.verify rng _ hv.ed25519]
  simp only [Bool.not_true, Bool.false_eq_true, if_false]
  split
  · rfl
  · rw [Strategy.fold_and, List.all_eq_true]
    exact hv.secp256r1

theorem verifyTransactionBatch_of_authentic {E : Env D} (hc : E.crypto.BatchComplete) {domain : Bytes}
    (strategy : Strategy) (rng : Nat) {ts : List (LazySignedTransaction D)}
    (h : ∀ t ∈ ts, ∃ tx, t.get E = some tx ∧ tx.Authentic E domain) :
    verifyTransactionBatch E strategy domain rng ts = true := by
  have hempty : TransactionBatchVerifier.new.AllValid E.crypto := ⟨by rintro _ ⟨⟩, by rintro _ ⟨⟩⟩
  obtain ⟨v, hv, hall⟩ := addAll_of_authentic hc hempty h
  simp only [verifyTransactionBatch, hv]
  exact hall.verify hc rng strategy

theorem preloadTransactionChunks_of_authentic {E : Env D} {domain : Bytes} (strategy : Strategy)
    {ts : List (LazySignedTransaction D)} (h : ∀ t ∈ ts, ∃ tx, t.get E = some tx ∧ tx.Authentic E domain) :
    preloadTransactionChunks E strategy ts = some ts := by
  have hall : ts.all (signatureInputsDecode E) = true := by
    rw [List.all_eq_true]
    intro t ht
    obtain ⟨tx, htx, key, hkey, -⟩ := h t ht
    simp [signatureInputsDecode, htx, hkey]
  unfold preloadTransactionChunks
  rw [Strategy.fold_and, hall]
  split
  · rename_i hnil; rw [List.isEmpty_iff.1 hnil]
  split
  · rfl
  · rfl

/-! ## Verdicts -/

/-- `transaction` decodes as `tx`, whose sender decodes to a key of the signature's scheme, for which the
signature alone verifies over the digest. -/
def LazySignedTransaction.VerifiesAs (E : Env D) (domain : Bytes) (transaction : LazySignedTransaction D)
    (tx : SignedTransaction D) : Prop :=
  transaction.get E = some tx ∧ ∃ key, tx.value.sender.get E.crypto = some key ∧ key.scheme = tx.signature.scheme ∧
    signatureValid E.crypto domain (E.hasher.bytes tx.messageDigest) key tx.signature = true

theorem LazySignedTransaction.verifiesAs_iff {E : Env D} {domain : Bytes} {transaction : LazySignedTransaction D}
    {tx : SignedTransaction D} :
    transaction.VerifiesAs E domain tx ↔ transaction.get E = some tx ∧ tx.Authentic E domain := by
  constructor
  · rintro ⟨htx, key, hkey, -, hvalid⟩
    exact ⟨htx, key, hkey, hvalid⟩
  · rintro ⟨htx, key, hkey, hvalid⟩
    exact ⟨htx, key, hkey, scheme_eq_of_valid hvalid, hvalid⟩

/-- A list verifies member by member exactly if its transactions, decoded in order, are authentic. -/
theorem forall₂_verifiesAs {E : Env D} {domain : Bytes} {ts : List (LazySignedTransaction D)}
    {txs : List (SignedTransaction D)} :
    List.Forall₂ (LazySignedTransaction.VerifiesAs E domain) ts txs ↔
      ts.map (LazySignedTransaction.get E) = txs.map some ∧ ∀ tx ∈ txs, tx.Authentic E domain := by
  induction ts generalizing txs with
  | nil =>
    cases txs with
    | nil => simp
    | cons tx txs => simp
  | cons t ts ih =>
    cases txs with
    | nil => simp
    | cons tx txs =>
      rw [List.forall₂_cons, ih, LazySignedTransaction.verifiesAs_iff, List.forall_mem_cons, List.map_cons,
        List.map_cons, List.cons_eq_cons]
      tauto

/-- Members of a list that decodes to authentic transactions decode to authentic transactions. -/
theorem exists_authentic {E : Env D} {domain : Bytes} {ts : List (LazySignedTransaction D)}
    {txs : List (SignedTransaction D)} (hget : ts.map (LazySignedTransaction.get E) = txs.map some)
    (h : ∀ tx ∈ txs, tx.Authentic E domain) : ∀ t ∈ ts, ∃ tx, t.get E = some tx ∧ tx.Authentic E domain := by
  intro t ht
  have hmem : t.get E ∈ txs.map some := hget ▸ List.mem_map_of_mem ht
  obtain ⟨tx, htx, heq⟩ := List.mem_map.1 hmem
  exact ⟨tx, heq.symm, h tx htx⟩

theorem verifyTransactionBatch_iff {E : Env D} (hsound : E.crypto.BatchSound) (hcomplete : E.crypto.BatchComplete)
    (strategy : Strategy) {domain : Bytes} (rng : Nat) {ts : List (LazySignedTransaction D)} :
    verifyTransactionBatch E strategy domain rng ts = true ↔
      ∀ t ∈ ts, ∃ tx, t.get E = some tx ∧ tx.Authentic E domain := by
  constructor
  · intro h t ht
    obtain ⟨tx, key, htx, hkey, hvalid⟩ := verifyTransactionBatch_valid hsound h t ht
    exact ⟨tx, htx, key, hkey, hvalid⟩
  · exact verifyTransactionBatch_of_authentic hcomplete strategy rng

/-- The preload and the final decoding add nothing to the batch check. -/
theorem verifyTransactionChunks_eq_some {E : Env D} (hsound : E.crypto.BatchSound) (hcomplete : E.crypto.BatchComplete)
    (signatureStrategy hashStrategy : Strategy) {domain : Bytes} (rng : Nat) {ts : List (LazySignedTransaction D)}
    {txs : List (SignedTransaction D)} :
    verifyTransactionChunks E signatureStrategy hashStrategy domain rng ts = some txs ↔
      ts.map (LazySignedTransaction.get E) = txs.map some ∧ ∀ tx ∈ txs, tx.Authentic E domain := by
  constructor
  · intro h
    obtain ⟨hget, hbatch⟩ := verifyTransactionChunks_some h
    refine ⟨hget, fun tx htx => ?_⟩
    have hmem : some tx ∈ ts.map (LazySignedTransaction.get E) := hget ▸ List.mem_map_of_mem htx
    obtain ⟨t, ht, heq⟩ := List.mem_map.1 hmem
    rcases hbatch with rfl | hbatch
    · cases ht
    · obtain ⟨tx', htx', hauthentic⟩ := (verifyTransactionBatch_iff hsound hcomplete signatureStrategy rng).1 hbatch t ht
      rw [heq] at htx'
      cases htx'
      exact hauthentic
  · rintro ⟨hget, hauthentic⟩
    have hall := exists_authentic hget hauthentic
    unfold verifyTransactionChunks
    split
    · rename_i hnil
      rw [List.isEmpty_iff.1 hnil, List.map_nil] at hget
      rw [List.map_eq_nil_iff.1 hget.symm]
    · simp only [preloadTransactionChunks_of_authentic hashStrategy hall,
        verifyTransactionBatch_of_authentic hcomplete signatureStrategy rng hall, Bool.not_true, Bool.false_eq_true,
        if_false]
      exact mapM_eq_some_iff.2 hget

/-- Verifying a list of transactions together returns the decoded list, in order, exactly if each of them
verifies on its own; the batch check alone, with any strategy and any randomness, gives the same verdict. -/
theorem verifyTransactionChunks_iff {E : Env D} (hsound : E.crypto.BatchSound) (hcomplete : E.crypto.BatchComplete)
    (signatureStrategy hashStrategy : Strategy) (domain : Bytes) (rng : Nat) (ts : List (LazySignedTransaction D)) :
    (∀ txs, verifyTransactionChunks E signatureStrategy hashStrategy domain rng ts = some txs ↔
      List.Forall₂ (LazySignedTransaction.VerifiesAs E domain) ts txs) ∧
    ∀ (strategy : Strategy) (rng' : Nat), verifyTransactionBatch E strategy domain rng' ts =
      (verifyTransactionChunks E signatureStrategy hashStrategy domain rng ts).isSome := by
  have hiff : ∀ txs, verifyTransactionChunks E signatureStrategy hashStrategy domain rng ts = some txs ↔
      List.Forall₂ (LazySignedTransaction.VerifiesAs E domain) ts txs :=
    fun txs => (verifyTransactionChunks_eq_some hsound hcomplete _ _ rng).trans forall₂_verifiesAs.symm
  refine ⟨hiff, fun strategy rng' => ?_⟩
  rw [Bool.eq_iff_iff, verifyTransactionBatch_iff hsound hcomplete, Option.isSome_iff_exists]
  constructor
  · intro h
    obtain ⟨txs, htxs, -⟩ := exists_forall₂ h
    refine ⟨txs, (hiff txs).2 (htxs.imp fun t tx htx => ?_)⟩
    exact LazySignedTransaction.verifiesAs_iff.2 htx
  · rintro ⟨txs, htxs⟩
    obtain ⟨hget, hauthentic⟩ := forall₂_verifiesAs.1 ((hiff txs).1 htxs)
    exact exists_authentic hget hauthentic

/-! ## A small instance -/

/-- The signature of zeros is the valid one. -/
def zerosCrypto : Crypto :=
  { permissiveCrypto with
    ed25519Verify := fun item => item.signature.1.all (· = 0)
    ed25519BatchVerify := fun _ items => items.all fun item => item.signature.1.all (· = 0) }

theorem zerosCrypto_batchSound : zerosCrypto.BatchSound := fun _ _ h => List.all_eq_true.1 h

theorem zerosCrypto_batchComplete : zerosCrypto.BatchComplete := ⟨fun _ _ => rfl, fun _ _ h => List.all_eq_true.2 h⟩

def zerosEnv : Env Nat := ⟨zerosCrypto, ⟨List.length, fun n => [UInt8.ofNat n]⟩, ⟨toBE 8, Reader.be 8⟩⟩

/-- Two workers, the first one with a single item. -/
def pairing : Strategy where
  parallelismHint := 2
  split l := .join (.part (l.take 1)) (.part (l.drop 1))
  items_split _ := List.take_append_drop ..

theorem filledValue_ne_zero : (1 : UInt64) ≠ 0 := by decide

/-- A transaction signed with 64 bytes of one value. -/
def filledTransaction (byte : UInt8) : SignedTransaction Nat :=
  ⟨(⟨.value (.ed25519 ⟨List.replicate 32 1, List.length_replicate⟩), .filled 2, 1, filledValue_ne_zero, 0⟩ :
    Transaction).sealWith zerosEnv.hasher, .ed25519 ⟨List.replicate 64 byte, List.length_replicate⟩⟩

set_option maxRecDepth 20000 in
/-- Of three transactions one has an invalid signature. -/
theorem verifyTransactionChunks_iff_sample :
    let good : LazySignedTransaction Nat := .new (filledTransaction 0)
    let bad : LazySignedTransaction Nat := .new (filledTransaction 1)
    verifyTransactionChunks zerosEnv pairing pairing [] 0 [good, good] =
      some [filledTransaction 0, filledTransaction 0] ∧
    verifyTransactionChunks zerosEnv pairing pairing [] 0 [good, bad, good] = none ∧
    verifyTransactionBatch zerosEnv .sequential [] 0 [good, bad, good] = false := by
  intro good bad
  have hgood : good.VerifiesAs zerosEnv [] (filledTransaction 0) := ⟨rfl, _, rfl, rfl, rfl⟩
  have hnone : verifyTransactionChunks zerosEnv pairing pairing [] 0 [good, bad, good] = none := rfl
  refine ⟨?_, hnone, ?_⟩
  · exact ((verifyTransactionChunks_iff zerosCrypto_batchSound zerosCrypto_batchComplete pairing pairing [] 0 _).1 _).2
      (.cons hgood (.cons hgood .nil))
  · rw [(verifyTransactionChunks_iff zerosCrypto_batchSound zerosCrypto_batchComplete pairing pairing [] 0 _).2, hnone]
    rfl

end Constantinople
