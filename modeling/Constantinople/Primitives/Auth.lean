/-
Transaction public keys and signatures, as in `crates/primitives/src/auth.rs`: their encodings, the
batch verifier with its two scheme groups, and the WebAuthn assertion check. A parsed key or
signature is its bytes; which bytes parse, and which signatures are valid, are parameters.
-/
import Constantinople.Primitives.Account
import Constantinople.Lib.Strategy

namespace Constantinople

/-! ## Third-party cryptography -/

/-- One queued ed25519 signature. -/
structure Ed25519Item where
  domain : Bytes
  message : Bytes
  publicKey : FixedBytes 32
  signature : FixedBytes 64

/-- The third-party functions transaction authentication rests on. The `..Error` functions give the
error a key or signature read ends with, if any; `json` gives the string members of a JSON text. -/
structure Crypto where
  sha256 : Sha256
  ed25519PublicKeyError : FixedBytes 32 → Option CodecError
  secp256r1PublicKeyError : FixedBytes 33 → Option CodecError
  ed25519SignatureError : FixedBytes 64 → Option CodecError
  secp256r1SignatureError : FixedBytes 64 → Option CodecError
  /-- Verification of a single ed25519 signature. -/
  ed25519Verify : Ed25519Item → Bool
  /-- Whether `ed25519::Batch::add` takes an item. -/
  ed25519BatchAdd : Ed25519Item → Bool
  /-- `ed25519::Batch::verify`, with the randomness it draws. -/
  ed25519BatchVerify : Nat → List Ed25519Item → Bool
  json : Bytes → Option (String → Option String)
  p256VerifyingKeyOk : FixedBytes 33 → Bool
  p256SignatureOk : FixedBytes 64 → Bool
  p256Verify : FixedBytes 33 → Bytes → FixedBytes 64 → Bool

/-- Cryptography that parses and accepts everything, with constant digests. -/
def permissiveCrypto : Crypto where
  sha256 := fun _ => ⟨List.replicate 32 0, rfl⟩
  ed25519PublicKeyError := fun _ => none
  secp256r1PublicKeyError := fun _ => none
  ed25519SignatureError := fun _ => none
  secp256r1SignatureError := fun _ => none
  ed25519Verify := fun _ => true
  ed25519BatchAdd := fun _ => true
  ed25519BatchVerify := fun _ _ => true
  json := fun _ => none
  p256VerifyingKeyOk := fun _ => true
  p256SignatureOk := fun _ => true
  p256Verify := fun _ _ _ => true

/-- The read of a key or signature of `n` bytes that ends with `error` on bytes that do not parse. -/
def readParsed {n : Nat} (error : FixedBytes n → Option CodecError) : Reader (FixedBytes n) := do
  let raw ← Reader.fixed n
  match error raw with
  | some e => Reader.fail e
  | none => return raw

/-! ## Public keys -/

/-- A transaction account public key. -/
inductive TransactionPublicKey
  | ed25519 (key : FixedBytes 32)
  | secp256r1 (key : FixedBytes 33)
deriving DecidableEq

namespace TransactionPublicKey

/-- The fixed transaction encoding: the scheme byte, the key, and for ed25519 one byte of padding. -/
def encoded : TransactionPublicKey → Bytes
  | ed25519 key => ed25519Scheme :: key.1 ++ [0]
  | secp256r1 key => secp256r1Scheme :: key.1

theorem length_encoded (k : TransactionPublicKey) : k.encoded.length = transactionPublicKeySize := by
  rcases k with ⟨key, hk⟩ | ⟨key, hk⟩ <;> simp [encoded, transactionPublicKeySize, hk]

def write (k : TransactionPublicKey) : Bytes := k.encoded

/-- Parses the 34 encoded bytes. -/
def parse (c : Crypto) (bytes : FixedBytes transactionPublicKeySize) : Except CodecError TransactionPublicKey :=
  if bytes.1.headI = ed25519Scheme then
    if (bytes.1.drop (1 + 32)).any (· ≠ 0) then .error (.invalid "TransactionPublicKey" "non-zero padding")
    else
      let key := bytes.slice 1 32 (by decide)
      match c.ed25519PublicKeyError key with
      | some e => .error e
      | none => .ok (ed25519 key)
  else if bytes.1.headI = secp256r1Scheme then
    let key := bytes.slice 1 33 (by decide)
    match c.secp256r1PublicKeyError key with
    | some e => .error e
    | none => .ok (secp256r1 key)
  else .error (.invalid "TransactionPublicKey" "unknown scheme")

end TransactionPublicKey

/-- The bytes of a decoded key derive an account key, so the `expect` on them does not panic. -/
theorem AccountKey.fromPublicKeyBytes_encoded (sha256 : Sha256) (k : TransactionPublicKey) :
    (AccountKey.fromPublicKeyBytes sha256 k.encoded).isSome = true := by
  unfold AccountKey.fromPublicKeyBytes
  rw [dif_pos k.length_encoded]
  cases k with
  | ed25519 key => rfl
  | secp256r1 key => rfl

def AccountKey.fromPublicKey (sha256 : Sha256) (publicKey : TransactionPublicKey) : AccountKey :=
  (AccountKey.fromPublicKeyBytes sha256 publicKey.encoded).get (AccountKey.fromPublicKeyBytes_encoded sha256 publicKey)

/-! ## Signatures -/

def signatureBytes : Nat := 64

def webauthnAuthenticatorDataBytes : Nat := 256

def webauthnClientDataJsonBytes : Nat := 512

def webauthnUserVerifiedFlag : UInt8 := 0x04

/-- A transaction signature. A WebAuthn assertion carries the bounds its constructors check. -/
inductive TransactionSignature
  | ed25519 (signature : FixedBytes 64)
  | secp256r1 (signature : FixedBytes 64) (authenticatorData clientDataJson : Bytes)
    (authenticatorDataSize : authenticatorData.length ≤ webauthnAuthenticatorDataBytes)
    (clientDataJsonSize : clientDataJson.length ≤ webauthnClientDataJsonBytes)
deriving DecidableEq

namespace TransactionSignature

/-- `TransactionSignature::MIN_SIZE`. -/
def minSize : Nat := 1 + signatureBytes

/-- `TransactionSignature::MAX_SIZE`. -/
def maxSize : Nat :=
  1 + signatureBytes + 2 + webauthnAuthenticatorDataBytes + 2 + webauthnClientDataJsonBytes

/-- The transaction encoding of a signature. -/
def encoded : TransactionSignature → Bytes
  | ed25519 signature => ed25519Scheme :: signature.1
  | secp256r1 signature authenticatorData clientDataJson _ _ =>
    secp256r1Scheme :: signature.1 ++ toBE 2 authenticatorData.length ++ authenticatorData ++
      toBE 2 clientDataJson.length ++ clientDataJson

def write (s : TransactionSignature) : Bytes := s.encoded

def encodeSize (s : TransactionSignature) : Nat := s.encoded.length

/-- Reads a length-prefixed WebAuthn field of at most `bound` bytes; `after` bytes have to follow it. -/
def readBounded (bound after : Nat) (reason : String) : Reader { b : Bytes // b.length ≤ bound } := do
  let len ← Reader.u16
  if h : len.toNat ≤ bound then
    let remaining ← Reader.remaining
    if remaining < len.toNat + after then Reader.fail .endOfBuffer
    else
      let data ← Reader.fixed len.toNat
      return ⟨data.1, data.2.le.trans h⟩
  else Reader.fail (.invalid "TransactionSignature" reason)

def read (c : Crypto) : Reader TransactionSignature := do
  let remaining ← Reader.remaining
  if remaining < 1 + signatureBytes then Reader.fail .endOfBuffer
  else
    let scheme ← Reader.u8
    if scheme = ed25519Scheme then
      let signature ← readParsed c.ed25519SignatureError
      return ed25519 signature
    else if scheme = secp256r1Scheme then
      let signature ← readParsed c.secp256r1SignatureError
      let authenticatorData ← readBounded webauthnAuthenticatorDataBytes 2 "authenticator data too large"
      let clientDataJson ← readBounded webauthnClientDataJsonBytes 0 "client data JSON too large"
      return secp256r1 signature authenticatorData.1 clientDataJson.1 authenticatorData.2 clientDataJson.2
    else Reader.fail (.invalid "TransactionSignature" "unknown scheme")

end TransactionSignature

/-! ## WebAuthn assertions -/

def base64Alphabet : List Char :=
  "ABCDEFGHIJKLMNOPQRSTUVWXYZabcdefghijklmnopqrstuvwxyz0123456789-_".toList

/-- The characters of one chunk of one to three bytes. -/
def base64Chunk (chunk : Bytes) : List Char :=
  let first := chunk.getD 0 0
  let second := chunk.getD 1 0
  let third := chunk.getD 2 0
  let char (i : UInt8) := base64Alphabet.getD i.toNat 'A'
  [char (first >>> 2), char (((first &&& 0x03) <<< 4) ||| (second >>> 4))] ++
    (if 1 < chunk.length then [char (((second &&& 0x0f) <<< 2) ||| (third >>> 6))] else []) ++
    (if 2 < chunk.length then [char (third &&& 0x3f)] else [])

def base64UrlNoPad : Bytes → List Char
  | [] => []
  | [a] => base64Chunk [a]
  | [a, b] => base64Chunk [a, b]
  | a :: b :: c :: rest => base64Chunk [a, b, c] ++ base64UrlNoPad rest

def verifyRawSecp256r1 (c : Crypto) (key : FixedBytes 33) (payload : Bytes) (signature : FixedBytes 64) : Bool :=
  c.p256VerifyingKeyOk key && (c.p256SignatureOk signature && c.p256Verify key payload signature)

def verifyWebauthnAssertion (c : Crypto) (key : FixedBytes 33) (challenge : Bytes) (signature : FixedBytes 64)
    (authenticatorData clientDataJson : Bytes) : Bool :=
  if authenticatorData.length < 37 then false
  else if authenticatorData.getD 32 0 &&& webauthnUserVerifiedFlag = 0 then false
  else
    match c.json clientDataJson with
    | none => false
    | some clientData =>
      if clientData "type" ≠ some "webauthn.get" then false
      else if clientData "challenge" ≠ some (String.ofList (base64UrlNoPad challenge)) then false
      else verifyRawSecp256r1 c key (authenticatorData ++ (c.sha256 clientDataJson).1) signature

/-! ## Batch verification -/

structure Secp256r1Item where
  message : Bytes
  publicKey : FixedBytes 33
  signature : FixedBytes 64
  authenticatorData : Bytes
  clientDataJson : Bytes

def verifySecp256r1 (c : Crypto) (strategy : Strategy) (items : List Secp256r1Item) : Bool :=
  if items.isEmpty then true
  else
    strategy.fold items true
      (fun valid item => valid && verifyWebauthnAssertion c item.publicKey item.message item.signature
        item.authenticatorData item.clientDataJson)
      (fun left right => left && right)

/-- Verifies mixed transaction signatures with separate scheme groups. -/
structure TransactionBatchVerifier where
  ed25519 : List Ed25519Item
  secp256r1 : List Secp256r1Item

namespace TransactionBatchVerifier

def new : TransactionBatchVerifier := ⟨[], []⟩

/-- Adds a signature to the group of its scheme; a key and a signature of different schemes are refused. -/
def add (c : Crypto) (self : TransactionBatchVerifier) (domain message : Bytes) :
    TransactionPublicKey → TransactionSignature → Bool × TransactionBatchVerifier
  | .ed25519 key, .ed25519 signature =>
    let item : Ed25519Item := ⟨domain, message, key, signature⟩
    if c.ed25519BatchAdd item then (true, { self with ed25519 := self.ed25519 ++ [item] }) else (false, self)
  | .secp256r1 key, .secp256r1 signature authenticatorData clientDataJson _ _ =>
    (true, { self with
      secp256r1 := self.secp256r1 ++ [⟨message, key, signature, authenticatorData, clientDataJson⟩] })
  | _, _ => (false, self)

def verify (c : Crypto) (self : TransactionBatchVerifier) (rng : Nat) (strategy : Strategy) : Bool :=
  if !c.ed25519BatchVerify rng self.ed25519 then false else verifySecp256r1 c strategy self.secp256r1

end TransactionBatchVerifier

end Constantinople
