/-
The account model: account keys, the nonce state (a base and a bitmap of used nonces ahead of it)
and accounts, as in `crates/primitives/src/account.rs`. The two third-party functions a key rests
on, the ed25519 and secp256r1 curve checks, are not consulted here: a key is derived from raw
bytes. `sha256` is the one hash an account key uses and is a parameter.
-/
import Constantinople.Lib.Codec
import Constantinople.Lib.Word

namespace Constantinople

open Word

/-! ## Account keys -/

/-- The SHA-256 hash, with its 32-byte digests. -/
abbrev Sha256 := Bytes → FixedBytes 32

def ed25519Scheme : UInt8 := 0

def secp256r1Scheme : UInt8 := 1

/-- `TransactionPublicKey::SIZE`: a scheme byte and the 33 bytes of the longer key. -/
def transactionPublicKeySize : Nat := 1 + 33

/-- `AccountKey::SIZE`. -/
def accountKeySize : Nat := 32

/-- Fixed-width account identifier. Its bytes are raw: decoding one validates no curve point. -/
structure AccountKey where
  bytes : Bytes
  size : bytes.length = accountKeySize

namespace AccountKey

theorem ext_bytes {a b : AccountKey} (h : a.bytes = b.bytes) : a = b := by
  cases a; cases b; cases h; rfl

/-- The bytes as numbers: account keys are ordered like byte strings, lexicographically. -/
def order (k : AccountKey) : List Nat := k.bytes.map UInt8.toNat

theorem order_injective : Function.Injective order := by
  intro a b h
  exact ext_bytes (List.map_injective_iff.2 (fun _ _ h => UInt8.toNat_inj.1 h) h)

instance : LinearOrder AccountKey := LinearOrder.lift' order order_injective

/-- The account key of encoded public-key bytes: the key bytes of an ed25519 key, the hash of the
whole encoding of a secp256r1 key. Neither the curve point nor the padding is looked at. -/
def fromPublicKeyBytes (sha256 : Sha256) (bytes : Bytes) : Option AccountKey :=
  if h : bytes.length = transactionPublicKeySize then
    let scheme := bytes.headI
    if scheme = ed25519Scheme then
      some ⟨(bytes.drop 1).take accountKeySize, by
        simp [transactionPublicKeySize] at h; simp [accountKeySize]; omega⟩
    else if scheme = secp256r1Scheme then
      some ⟨(sha256 bytes).1, (sha256 bytes).2⟩
    else none
  else none

/-- The key all of whose bytes are `byte`. -/
def filled (byte : UInt8) : AccountKey := ⟨List.replicate accountKeySize byte, List.length_replicate⟩

def write (k : AccountKey) : Bytes := k.bytes

def read : Reader AccountKey := do
  let bytes ← Reader.fixed accountKeySize
  return ⟨bytes.1, bytes.2⟩

end AccountKey

/-! ## Nonces -/

/-- Number of future nonce uses tracked on each account. -/
def nonceBitmapCapacity : Nat := 64

/-- Account nonce state: the next unconsumed nonce, and the used nonces ahead of it. Bit 0 of
`bitmap` records `base + 1`, bit 63 records `base + 64`. -/
structure Nonce where
  base : UInt64
  bitmap : UInt64
deriving DecidableEq, Repr

/-- The bit of the run-ahead bitmap `i` places above bit 0. -/
def nonceBit (i : Nat) : UInt64 := 1 <<< UInt64.ofNat i

/-- The `while` loop of `consume_current_nonce`: the first `advance` whose bit is clear. -/
def advanceLoop (bitmap : UInt64) : (fuel advance : Nat) → Nat
  | 0, advance => advance
  | fuel + 1, advance =>
    if advance ≤ nonceBitmapCapacity then
      if bitmap &&& nonceBit (advance - 1) = 0 then advance
      else advanceLoop bitmap fuel (advance + 1)
    else advance

def consumeCurrentNonce (base bitmap : UInt64) : Option Nonce :=
  let advance := advanceLoop bitmap nonceBitmapCapacity 1
  match checkedAdd base (UInt64.ofNat advance) with
  | none => none
  | some nonce =>
    let bitmap := if nonceBitmapCapacity ≤ advance then 0 else bitmap >>> UInt64.ofNat advance
    some ⟨nonce, bitmap⟩

def nextNonceState (base bitmap nonce : UInt64) : Option Nonce :=
  match checkedAdd nonce 1 with
  | none => none
  | some nextUsedNonce =>
    if nonce < base then none
    else
      let delta := (nonce - base).toNat
      if delta = 0 then consumeCurrentNonce base bitmap
      else if nonceBitmapCapacity < delta then some ⟨nextUsedNonce, 0⟩
      else
        let bit := nonceBit (delta - 1)
        if bitmap &&& bit ≠ 0 then none else some ⟨base, bitmap ||| bit⟩

/-- Records a transaction nonce if it has not already been consumed. -/
def Nonce.consume (self : Nonce) (nonce : UInt64) : Bool × Nonce :=
  match nextNonceState self.base self.bitmap nonce with
  | none => (false, self)
  | some next => (true, next)

instance : Inhabited Nonce := ⟨⟨0, 0⟩⟩

/-! ## Accounts -/

/-- Default starting balance for accounts that have not been written yet. -/
def defaultAccountBalance : UInt64 := 100

structure Account where
  balance : UInt64
  nonce : Nonce
deriving DecidableEq, Repr

/-- `Account::default()`: what an absent account reads as. -/
instance : Inhabited Account := ⟨⟨defaultAccountBalance, default⟩⟩

/-- `Account::SIZE`: the balance and the two nonce words. -/
def accountSize : Nat := 8 + (8 + 8)

def Nonce.write (n : Nonce) : Bytes := toBE 8 n.base.toNat ++ toBE 8 n.bitmap.toNat

def Nonce.read : Reader Nonce := do
  let base ← Reader.u64
  let bitmap ← Reader.u64
  return ⟨base, bitmap⟩

def Account.write (a : Account) : Bytes := toBE 8 a.balance.toNat ++ a.nonce.write

def Account.read : Reader Account := do
  let balance ← Reader.u64
  let nonce ← Nonce.read
  return ⟨balance, nonce⟩

theorem Account.length_write (a : Account) : a.write.length = accountSize := by
  simp [Account.write, Nonce.write, length_toBE, accountSize]

end Constantinople
