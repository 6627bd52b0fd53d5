/-
Transactions, sealed values and signed transactions, as in `crates/primitives/src/transaction.rs`
and `sealed.rs`. The hasher is a parameter; reading a sealed value computes its seal, so a decoded
transaction always carries the hash of its own encoding.
-/
import Constantinople.Primitives.Auth

namespace Constantinople

/-! ## Hashers and sealed values -/

/-- A hash function with its digests, and the bytes of a digest. -/
structure Hasher (D : Type) where
  hash : Bytes → D
  bytes : D → Bytes

/-- A value with its cached digest. -/
structure Sealed (T D : Type) where
  inner : T
  sealDigest : D
deriving DecidableEq

/-! ## Transactions -/

/-- `Lazy<TransactionPublicKey>`: a parsed key, or 34 bytes not parsed yet. -/
inductive LazyPublicKey
  | value (key : TransactionPublicKey)
  | deferred (bytes : FixedBytes transactionPublicKeySize)
deriving DecidableEq

namespace LazyPublicKey

/-- The key, if the deferred bytes parse. -/
def get (c : Crypto) : LazyPublicKey → Option TransactionPublicKey
  | value key => some key
  | deferred bytes => (TransactionPublicKey.parse c bytes).toOption

def write : LazyPublicKey → Bytes
  | value key => key.write
  | deferred bytes => bytes.1

def read : Reader LazyPublicKey := do
  let bytes ← Reader.fixed transactionPublicKeySize
  return deferred bytes

theorem length_write (k : LazyPublicKey) : k.write.length = transactionPublicKeySize := by
  cases k with
  | value key => exact key.length_encoded
  | deferred bytes => exact bytes.2

end LazyPublicKey

/-- A transfer of a non-zero value. -/
structure Transaction where
  sender : LazyPublicKey
  toKey : AccountKey
  value : UInt64
  nonZero : value ≠ 0
  nonce : UInt64
deriving DecidableEq

namespace Transaction

/-- A new transaction between two decoded keys. -/
def new (sha256 : Sha256) (sender recipient : TransactionPublicKey) (value : {v : UInt64 // v ≠ 0}) (nonce : UInt64) : Transaction :=
  ⟨.value sender, .fromPublicKey sha256 recipient, value.1, value.2, nonce⟩

/-- `Transaction::SIZE`. -/
def size : Nat := transactionPublicKeySize + accountKeySize + 8 + 8

def write (t : Transaction) : Bytes :=
  t.sender.write ++ t.toKey.write ++ toBE 8 t.value.toNat ++ toBE 8 t.nonce.toNat

def read : Reader Transaction := do
  let sender ← LazyPublicKey.read
  let toKey ← AccountKey.read
  let value ← Reader.u64
  if h : value = 0 then Reader.fail (.invalid "Transaction" "value must be non-zero")
  else
    let nonce ← Reader.u64
    return ⟨sender, toKey, value, h, nonce⟩

def hashSlow {D : Type} (H : Hasher D) (t : Transaction) : D := H.hash t.write

def sealWith {D : Type} (H : Hasher D) (t : Transaction) : Sealed Transaction D := ⟨t, t.hashSlow H⟩

theorem length_write (t : Transaction) : t.write.length = size := by
  simp [write, size, AccountKey.write, LazyPublicKey.length_write, t.toKey.size, length_toBE, Nat.add_assoc]

theorem take_sender (t : Transaction) : t.write.take transactionPublicKeySize = t.sender.write := by
  simp only [write, List.append_assoc]
  exact List.take_left' t.sender.length_write

theorem drop_recipient (t : Transaction) :
    (t.write.drop transactionPublicKeySize).take accountKeySize = t.toKey.bytes := by
  simp only [write, List.append_assoc]
  rw [List.drop_left' t.sender.length_write]
  exact List.take_left' t.toKey.size

/-- The value's bytes follow the sender and the recipient. -/
theorem drop_value (t : Transaction) :
    (t.write.drop (transactionPublicKeySize + accountKeySize)).take 8 = toBE 8 t.value.toNat := by
  have hlen : (t.sender.write ++ t.toKey.write).length = transactionPublicKeySize + accountKeySize := by
    rw [List.length_append, t.sender.length_write, AccountKey.write, t.toKey.size]
  rw [write, List.append_assoc, List.drop_left' hlen, List.take_left' (length_toBE 8 _)]

theorem drop_nonce (t : Transaction) :
    (t.write.drop (transactionPublicKeySize + accountKeySize + 8)).take 8 = toBE 8 t.nonce.toNat := by
  have hlen : (t.sender.write ++ t.toKey.write ++ toBE 8 t.value.toNat).length =
      transactionPublicKeySize + accountKeySize + 8 := by
    rw [List.length_append, List.length_append, t.sender.length_write, AccountKey.write, t.toKey.size, length_toBE]
  rw [write, List.drop_left' hlen]
  exact List.take_of_length_le (length_toBE 8 _).le

/-- Reading a transaction consumes exactly its encoding. -/
theorem read_inverts : Reader.Inverts read write := by
  intro bs t rest h
  obtain ⟨sender, bs₁, hs, h⟩ := Reader.bind_ok h
  obtain ⟨toKey, bs₂, ht, h⟩ := Reader.bind_ok h
  obtain ⟨value, bs₃, hv, h⟩ := Reader.bind_ok h
  split at h
  · cases h
  obtain ⟨nonce, bs₄, hn, h⟩ := Reader.bind_ok h
  obtain ⟨rfl, rfl⟩ := Reader.pure_ok h
  obtain ⟨sb, _, hsb, h⟩ := Reader.bind_ok hs
  obtain ⟨rfl, rfl⟩ := Reader.pure_ok h
  obtain ⟨tb, _, htb, h⟩ := Reader.bind_ok ht
  obtain ⟨rfl, rfl⟩ := Reader.pure_ok h
  rw [Reader.fixed_ok hsb, Reader.fixed_ok htb, Reader.u64_inverts _ _ _ hv, Reader.u64_inverts _ _ _ hn]
  simp [write, LazyPublicKey.write, AccountKey.write]

end Transaction

/-! ## Signed transactions -/

/-- A sealed transaction with its signature. -/
structure SignedTransaction (D : Type) where
  inner : Sealed Transaction D
  signature : TransactionSignature
deriving DecidableEq

namespace SignedTransaction

variable {D : Type}

def value (t : SignedTransaction D) : Transaction := t.inner.inner

def messageDigest (t : SignedTransaction D) : D := t.inner.sealDigest

/-- `Transaction::seal_and_sign`; `sign` is the signer, on a namespace and a message. -/
def sealAndSign (H : Hasher D) (sign : Bytes → Bytes → TransactionSignature) (domain : Bytes) (t : Transaction) :
    SignedTransaction D :=
  let inner := t.sealWith H
  ⟨inner, sign domain (H.bytes inner.sealDigest)⟩

def write (t : SignedTransaction D) : Bytes := t.value.write ++ t.signature.write

def encodeSize (t : SignedTransaction D) : Nat := Transaction.size + t.signature.encodeSize

def read (c : Crypto) (H : Hasher D) : Reader (SignedTransaction D) := do
  let inner ← Transaction.read
  let signature ← TransactionSignature.read c
  return ⟨inner.sealWith H, signature⟩

/-- A decoded transaction's digest is the hash of the first bytes it was decoded from. -/
theorem read_ok {c : Crypto} {H : Hasher D} {bs rest : Bytes} {t : SignedTransaction D}
    (h : read c H bs = .ok (t, rest)) :
    t.messageDigest = H.hash (bs.take Transaction.size) ∧ t.value.write = bs.take Transaction.size := by
  obtain ⟨tx, mid, htx, h⟩ := Reader.bind_ok h
  obtain ⟨sig, mid', -, h⟩ := Reader.bind_ok h
  obtain ⟨rfl, rfl⟩ := Reader.pure_ok h
  have hbs := Transaction.read_inverts _ _ _ htx
  have htake : bs.take Transaction.size = tx.write := by rw [hbs, List.take_left' tx.length_write]
  exact ⟨by rw [htake]; rfl, htake.symm⟩

end SignedTransaction

end Constantinople
