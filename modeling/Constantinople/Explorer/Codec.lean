/-
The explorer's transaction codec, as in `explorer/src/codec.ts` and `encodeTransactionSignature` of
`explorer/src/wallet.ts`, against the node's: a draft with its signature is encoded to the bytes the node
writes for the transaction. A function that can throw returns an exception; a promise is the value it
resolves to. SHA-256 is a parameter.
-/
import Constantinople.Lib.Varint
import Constantinople.Primitives.Wire

namespace Constantinople.Explorer

open Constantinople

/-- What a function throws: an error with a message, or the runtime's own. -/
inductive Thrown
  | error (message : String)
  | typeError
deriving DecidableEq, Repr

/-- A loop in which no element throws. -/
theorem mapM_of_forall₂ {α β γ : Type} {f : α → Except Thrown γ} {g : β → γ} {as : List α} {bs : List β}
    (h : List.Forall₂ (fun a b => f a = .ok (g b)) as bs) : as.mapM f = .ok (bs.map g) := by
  induction h with
  | nil => rfl
  | cons hab _ ih =>
    rw [List.mapM_cons, hab, ih]
    rfl

/-! ## Byte arrays -/

/-- `Uint8Array.prototype.set`, within bounds. -/
def setAt (out : Bytes) (offset : Nat) (bytes : Bytes) : Bytes :=
  out.take offset ++ bytes ++ out.drop (offset + bytes.length)

def bytesConcat (chunks : List Bytes) : Bytes :=
  let len := chunks.foldl (fun total chunk => total + chunk.length) 0
  let (out, _) := chunks.foldl (fun (out, offset) chunk => (setAt out offset chunk, offset + chunk.length))
    (List.replicate len 0, 0)
  out

def assertByteLength (bytes : Bytes) (expected : Nat) (label : String) : Except Thrown Unit :=
  if bytes.length ≠ expected then .error (.error (label ++ " must be " ++ toString expected ++ " bytes")) else .ok ()

/-- A byte in two lower-case hexadecimal digits. -/
def byteHex (byte : UInt8) : String :=
  let digits := String.ofList (Nat.toDigits 16 byte.toNat)
  if digits.length < 2 then "0" ++ digits else digits

def toHex (bytes : Bytes) : String := String.join (bytes.map byteHex)

/-! ## Hexadecimal text -/

/-- The value of a hexadecimal digit, in either case. -/
def hexDigit (c : Char) : Option Nat :=
  if '0' ≤ c ∧ c ≤ '9' then some (c.toNat - '0'.toNat)
  else if 'a' ≤ c ∧ c ≤ 'f' then some (c.toNat - 'a'.toNat + 10)
  else if 'A' ≤ c ∧ c ≤ 'F' then some (c.toNat - 'A'.toNat + 10)
  else none

/-- `Number.parseInt(text, 16)` of a slice without sign and marker: the digits up to the first other character. -/
def parseHexInt (text : List Char) : Nat :=
  ((text.map hexDigit).takeWhile Option.isSome).foldl (fun value digit => value * 16 + digit.getD 0) 0

/-- The loop of `fromHex`, over slices of two characters. -/
def fromHex : List Char → Bytes
  | a :: b :: rest => UInt8.ofNat (parseHexInt [a, b]) :: fromHex rest
  | _ => []

/-- White space and line terminators, as `String.prototype.trim` removes them. -/
def isSpace (c : Char) : Bool :=
  c.toNat ∈ [0x09, 0x0a, 0x0b, 0x0c, 0x0d, 0x20, 0xa0, 0x1680, 0x2028, 0x2029, 0x202f, 0x205f, 0x3000, 0xfeff] ∨
    (0x2000 ≤ c.toNat ∧ c.toNat ≤ 0x200a)

def trim (text : List Char) : List Char := ((text.dropWhile isSpace).reverse.dropWhile isSpace).reverse

/-- `replace(/^0x/i, '')`. -/
def dropHexMarker : List Char → List Char
  | '0' :: 'x' :: rest => rest
  | '0' :: 'X' :: rest => rest
  | text => text

def isLowerHex (c : Char) : Bool := ('0' ≤ c ∧ c ≤ '9') ∨ ('a' ≤ c ∧ c ≤ 'f')

/-! ## Numbers -/

/-- `MAX_U64`, of the codec. -/
def codecMaxU64 : Int := (1 <<< 64 : Nat) - 1

def encodeU64 (value : Int) : Except Thrown Bytes :=
  if value < 0 ∨ codecMaxU64 < value then .error (.error "u64 value out of range")
  else .ok (toBE 8 value.toNat)

/-- The loop of `encodeUsize`, with its last push. -/
def encodeUsizeLoop (next : Nat) : Bytes :=
  if 0x80 ≤ next then UInt8.ofNat ((next &&& 0x7f) ||| 0x80) :: encodeUsizeLoop (next / 0x80)
  else [UInt8.ofNat next]
termination_by next

def encodeUsize (value : Nat) : Except Thrown Bytes :=
  if 0xffffffff < value then .error (.error "usize value out of range") else .ok (encodeUsizeLoop value)

/-! ## Transactions -/

def publicKeyBytes : Nat := 34

def accountKeyBytes : Nat := 32

structure TransactionDraft where
  senderPublicKey : Bytes
  toAccountKey : Bytes
  value : Int
  nonce : Int

structure EncodedTransaction where
  digestHex : String
  bytes : Bytes
deriving DecidableEq, Repr

def encodeTransactionBody (draft : TransactionDraft) : Except Thrown Bytes := do
  assertByteLength draft.senderPublicKey publicKeyBytes "sender public key"
  assertByteLength draft.toAccountKey accountKeyBytes "recipient account key"
  let value ← encodeU64 draft.value
  let nonce ← encodeU64 draft.nonce
  return bytesConcat [draft.senderPublicKey, draft.toAccountKey, value, nonce]

def encodeSignedTransaction (sha256 : Sha256) (draft : TransactionDraft) (sign : Bytes → Except Thrown Bytes) :
    Except Thrown EncodedTransaction := do
  if draft.value = 0 then .error (.error "value must be greater than zero")
  else
    let body ← encodeTransactionBody draft
    let digest := (sha256 body).1
    let signature ← sign digest
    return ⟨toHex digest, bytesConcat [body, signature]⟩

def encodeTransactionBatch (transactions : List Bytes) : Except Thrown Bytes := do
  let len ← encodeUsize transactions.length
  return bytesConcat (len :: transactions)

def accountKeyFromPublicKey (sha256 : Sha256) (publicKey : Bytes) : Except Thrown Bytes := do
  assertByteLength publicKey publicKeyBytes "public key"
  if publicKey[0]? = some ed25519Scheme then return (publicKey.drop 1).take accountKeyBytes
  else return (sha256 publicKey).1

/-! ## Signatures -/

def rawSignatureBytes : Nat := 64

def authenticatorDataBytes : Nat := 256

def clientDataJsonBytes : Nat := 512

def writeU16Be (bytes : Bytes) (offset value : Nat) : Bytes := setAt bytes offset (toBE 2 value)

def encodeTransactionSignature (rawSignature authenticatorData clientDataJSON : Bytes) : Except Thrown Bytes := do
  assertByteLength rawSignature rawSignatureBytes "P-256 signature"
  if authenticatorDataBytes < authenticatorData.length then
    .error (.error "passkey authenticator data is too large")
  else if clientDataJsonBytes < clientDataJSON.length then
    .error (.error "passkey client data JSON is too large")
  else
    let out := List.replicate (1 + rawSignatureBytes + 2 + authenticatorData.length + 2 + clientDataJSON.length) 0
    let out := setAt out 0 [secp256r1Scheme]
    let out := setAt out 1 rawSignature
    let out := writeU16Be out (1 + rawSignatureBytes) authenticatorData.length
    let clientDataLengthOffset := 1 + rawSignatureBytes + 2 + authenticatorData.length
    let out := setAt out (1 + rawSignatureBytes + 2) authenticatorData
    let out := writeU16Be out clientDataLengthOffset clientDataJSON.length
    return setAt out (clientDataLengthOffset + 2) clientDataJSON

/-! ## What they write -/

/-- Setting bytes replaces as many, in place. -/
theorem setAt_replace {before old bytes after : Bytes} {offset : Nat} (hoffset : offset = before.length)
    (hold : old.length = bytes.length) :
    setAt (before ++ (old ++ after)) offset bytes = before ++ (bytes ++ after) := by
  subst hoffset
  rw [setAt, List.take_left, ← hold, ← List.length_append, ← List.append_assoc before old, List.drop_left,
    List.append_assoc]

/-- Setting the next bytes of an array filled from the front. -/
theorem setAt_fill {done bytes : Bytes} {offset room : Nat} (hoffset : offset = done.length)
    (hroom : bytes.length ≤ room) :
    setAt (done ++ List.replicate room 0) offset bytes =
      (done ++ bytes) ++ List.replicate (room - bytes.length) 0 := by
  obtain ⟨rest, rfl⟩ := Nat.exists_eq_add_of_le hroom
  rw [List.replicate_add, setAt_replace hoffset List.length_replicate, Nat.add_sub_cancel_left, List.append_assoc]

theorem foldl_total (chunks : List Bytes) (total : Nat) :
    chunks.foldl (fun total chunk => total + chunk.length) total = total + chunks.flatten.length := by
  induction chunks generalizing total with
  | nil => rfl
  | cons chunk chunks ih =>
    rw [List.foldl_cons, ih, List.flatten_cons, List.length_append, Nat.add_assoc]

/-- The loop of `bytesConcat`, with room for at least the chunks to come. -/
theorem foldl_setAt (chunks : List Bytes) (done : Bytes) (room : Nat) (hroom : chunks.flatten.length ≤ room) :
    (chunks.foldl (fun (out, offset) chunk => (setAt out offset chunk, offset + chunk.length))
      (done ++ List.replicate room 0, done.length)).1 =
      done ++ chunks.flatten ++ List.replicate (room - chunks.flatten.length) 0 := by
  induction chunks generalizing done room with
  | nil => simp
  | cons chunk chunks ih =>
    rw [List.flatten_cons, List.length_append] at hroom
    rw [List.foldl_cons]
    simp only
    rw [setAt_fill rfl (by omega), ← List.length_append, ih (done ++ chunk) _ (by omega), List.flatten_cons,
      List.length_append, List.append_assoc done, Nat.sub_sub]

theorem bytesConcat_eq (chunks : List Bytes) : bytesConcat chunks = chunks.flatten := by
  have hfill := foldl_setAt chunks [] (0 + chunks.flatten.length) (by omega)
  unfold bytesConcat
  simp only [foldl_total]
  simpa using hfill

theorem encodeUsizeLoop_eq {w : Nat} : ∀ {n : Nat}, n < 128 ^ (w + 1) → encodeUsizeLoop n = Varint.write w n := by
  induction w with
  | zero =>
    intro n hn
    have hlt : n < 128 := by simpa using hn
    rw [encodeUsizeLoop, if_neg (by omega), Varint.write]
  | succ w ih =>
    intro n hn
    rw [encodeUsizeLoop, Varint.write]
    by_cases hlt : n < 128
    · rw [if_neg (by omega), if_pos hlt]
    · have hbyte : (n &&& 0x7f) ||| 0x80 = n % 128 + 128 := by
        have hmod : n % 128 < 2 ^ 7 := Nat.mod_lt n (by norm_num)
        have hor := Nat.two_pow_add_eq_or_of_lt hmod 1
        rw [Nat.and_two_pow_sub_one_eq_mod n 7, Nat.or_comm]
        simp only [Nat.reducePow, Nat.mul_one] at hor ⊢
        omega
      rw [if_pos (by omega), if_neg hlt, hbyte, ih (Varint.div_lt hn)]

theorem encodeUsize_eq {n : Nat} (h : n < 2 ^ 32) : encodeUsize n = .ok (Varint.write 4 n) := by
  unfold encodeUsize
  rw [if_neg (by omega), encodeUsizeLoop_eq (w := 4) (by omega)]

theorem encodeU64_eq (n : UInt64) : encodeU64 n.toNat = .ok (toBE 8 n.toNat) := by
  have hn := n.toNat_lt
  unfold encodeU64 codecMaxU64
  rw [if_neg (by simp; omega), Int.toNat_natCast]

/-- A passkey signature is the node's encoding of it. -/
theorem encodeTransactionSignature_eq (signature : FixedBytes 64) (authenticatorData clientDataJson : Bytes)
    (ha : authenticatorData.length ≤ webauthnAuthenticatorDataBytes)
    (hc : clientDataJson.length ≤ webauthnClientDataJsonBytes) :
    encodeTransactionSignature signature.1 authenticatorData clientDataJson =
      .ok (TransactionSignature.secp256r1 signature authenticatorData clientDataJson ha hc).write := by
  have hassert : assertByteLength signature.1 rawSignatureBytes "P-256 signature" = .ok () :=
    if_neg (not_not.2 signature.2)
  have hauth : ¬authenticatorDataBytes < authenticatorData.length := Nat.not_lt.2 ha
  have hclient : ¬clientDataJsonBytes < clientDataJson.length := Nat.not_lt.2 hc
  unfold encodeTransactionSignature
  rw [hassert]
  show (if _ then _ else _) = _
  rw [if_neg hauth, if_neg hclient]
  have hraw := signature.2
  simp only [writeU16Be, rawSignatureBytes]
  rw [← List.nil_append (List.replicate _ (0 : UInt8)), setAt_fill, setAt_fill, setAt_fill, setAt_fill, setAt_fill,
    setAt_fill]
  · have hfull : 1 + 64 + 2 + authenticatorData.length + 2 + clientDataJson.length - [secp256r1Scheme].length -
        signature.1.length - (toBE 2 authenticatorData.length).length - authenticatorData.length -
        (toBE 2 clientDataJson.length).length - clientDataJson.length = 0 := by
      simp only [List.length_cons, List.length_nil, length_toBE, hraw]
      omega
    rw [hfull, List.replicate_zero, List.append_nil, List.nil_append]
    rfl
  -- each write starts where the one before it ended, and there is room for it
  all_goals
    simp only [List.length_append, List.length_nil, List.length_cons, length_toBE, hraw] <;> omega

/-! ## Reading hexadecimal text -/

/-- The two digits of a byte. -/
def hexPair (byte : UInt8) : List Char := [Nat.digitChar (byte.toNat / 16), Nat.digitChar (byte.toNat % 16)]

theorem toList_byteHex (byte : UInt8) : (byteHex byte).toList = hexPair byte := by
  have hlt := byte.toNat_lt
  unfold byteHex hexPair
  simp only [String.length_ofList]
  -- a byte below 16 has one digit, and a zero is put before it
  by_cases hsmall : byte.toNat < 16
  · rw [Nat.toDigits_of_lt_base hsmall, Nat.div_eq_of_lt hsmall, Nat.mod_eq_of_lt hsmall, if_pos (by simp)]
    simp
  · rw [Nat.toDigits_of_base_le (by omega) (by omega), Nat.toDigits_of_lt_base (by omega), if_neg (by simp),
      String.toList_ofList]
    rfl

theorem toList_toHex (bytes : Bytes) : (toHex bytes).toList = bytes.flatMap hexPair := by
  rw [toHex, String.toList_join]
  simp [List.flatMap, List.map_map, Function.comp_def, toList_byteHex]

/-- What a written digit is to the functions that read one. -/
theorem digitChar_hex : ∀ n < 16, hexDigit (Nat.digitChar n) = some n ∧ isLowerHex (Nat.digitChar n) = true ∧
    (Nat.digitChar n).toLower = Nat.digitChar n ∧ isSpace (Nat.digitChar n) = false ∧ Nat.digitChar n ≠ 'x' ∧
    Nat.digitChar n ≠ 'X' := by decide

theorem exists_digit {byte : UInt8} {c : Char} (h : c ∈ hexPair byte) : ∃ n < 16, c = Nat.digitChar n := by
  have hlt := byte.toNat_lt
  simp only [hexPair, List.mem_cons, List.not_mem_nil, or_false] at h
  rcases h with rfl | rfl
  · exact ⟨_, by omega, rfl⟩
  · exact ⟨_, by omega, rfl⟩

theorem fromHex_pairs (bytes : Bytes) : fromHex (bytes.flatMap hexPair) = bytes := by
  induction bytes with
  | nil => rfl
  | cons byte bytes ih =>
    have hlt := byte.toNat_lt
    obtain ⟨hhigh, -⟩ := digitChar_hex (byte.toNat / 16) (by omega)
    obtain ⟨hlow, -⟩ := digitChar_hex (byte.toNat % 16) (by omega)
    have hvalue : parseHexInt (hexPair byte) = byte.toNat := by
      simp only [parseHexInt, hexPair, List.map_cons, List.map_nil, hhigh, hlow]
      simp
      omega
    rw [List.flatMap_cons]
    change UInt8.ofNat (parseHexInt (hexPair byte)) :: fromHex (bytes.flatMap hexPair) = _
    rw [hvalue, ih, UInt8.ofNat_toNat]

theorem trim_eq_self {text : List Char} (h : ∀ c ∈ text, isSpace c = false) : trim text = text := by
  have hdrop : ∀ {text : List Char}, (∀ c ∈ text, isSpace c = false) → text.dropWhile isSpace = text := by
    intro text h
    cases text with
    | nil => rfl
    | cons c text => rw [List.dropWhile_cons, h c (List.mem_cons_self ..)]; rfl
  rw [trim, hdrop h, hdrop (by simpa using h), List.reverse_reverse]

theorem dropHexMarker_eq_self {text : List Char} (h : ∀ c ∈ text, c ≠ 'x' ∧ c ≠ 'X') : dropHexMarker text = text := by
  unfold dropHexMarker
  split
  · exact absurd rfl (h 'x' (by simp)).1
  · exact absurd rfl (h 'X' (by simp)).2
  · rfl

/-! ## Agreement with the node -/

/-- Accounts of senders with a known scheme have the same keys in the explorer and on the node. -/
theorem accountKeyFromPublicKey_eq (sha256 : Sha256) {publicKey : Bytes} (hlen : publicKey.length = publicKeyBytes)
    (hscheme : publicKey[0]? = some ed25519Scheme ∨ publicKey[0]? = some secp256r1Scheme) :
    ∃ key, AccountKey.fromPublicKeyBytes sha256 publicKey = some key ∧
      accountKeyFromPublicKey sha256 publicKey = .ok key.bytes := by
  have hassert : assertByteLength publicKey publicKeyBytes "public key" = .ok () := if_neg (not_not.2 hlen)
  have hsize : publicKey.length = transactionPublicKeySize := hlen
  obtain ⟨scheme, rest, rfl⟩ := List.exists_cons_of_length_eq_add_one hlen
  unfold AccountKey.fromPublicKeyBytes accountKeyFromPublicKey
  rw [hassert, dif_pos hsize]
  rcases hscheme with h | h
  · obtain rfl : scheme = ed25519Scheme := Option.some.inj h
    exact ⟨_, rfl, rfl⟩
  · obtain rfl : scheme = secp256r1Scheme := Option.some.inj h
    exact ⟨_, rfl, rfl⟩

/-- A draft and the assertion that signs it. -/
structure SignedDraft where
  draft : TransactionDraft
  rawSignature : Bytes
  authenticatorData : Bytes
  clientDataJSON : Bytes

def SignedDraft.encode (sha256 : Sha256) (s : SignedDraft) : Except Thrown EncodedTransaction :=
  encodeSignedTransaction sha256 s.draft fun _ =>
    encodeTransactionSignature s.rawSignature s.authenticatorData s.clientDataJSON

/-- Keys, numbers and the assertion have the sizes the formats allow. -/
structure SignedDraft.WellFormed (s : SignedDraft) : Prop where
  sender : s.draft.senderPublicKey.length = publicKeyBytes
  recipient : s.draft.toAccountKey.length = accountKeyBytes
  value : 0 < s.draft.value ∧ s.draft.value < 2 ^ 64
  nonce : 0 ≤ s.draft.nonce ∧ s.draft.nonce < 2 ^ 64
  rawSignature : s.rawSignature.length = rawSignatureBytes
  authenticatorData : s.authenticatorData.length ≤ authenticatorDataBytes
  clientDataJSON : s.clientDataJSON.length ≤ clientDataJsonBytes

/-- The node's hasher of transactions. -/
def sha256Hasher (sha256 : Sha256) : Hasher (FixedBytes 32) := ⟨sha256, Subtype.val⟩

/-- The transaction of the node with the fields of the draft, the assertion as its signature, and its own
digest. -/
structure SignedDraft.Denotes (sha256 : Sha256) (s : SignedDraft) (t : SignedTransaction (FixedBytes 32)) : Prop where
  sender : ∃ h, t.value.sender = .deferred ⟨s.draft.senderPublicKey, h⟩
  recipient : t.value.toKey.bytes = s.draft.toAccountKey
  value : (t.value.value.toNat : Int) = s.draft.value
  nonce : (t.value.nonce.toNat : Int) = s.draft.nonce
  signature : ∃ h ha hc, t.signature = .secp256r1 ⟨s.rawSignature, h⟩ s.authenticatorData s.clientDataJSON ha hc
  sealed : t.inner = t.value.sealWith (sha256Hasher sha256)

theorem SignedDraft.WellFormed.exists_denotes {s : SignedDraft} (h : s.WellFormed) (sha256 : Sha256) :
    ∃ t, s.Denotes sha256 t := by
  have hvalue : ((UInt64.ofNat s.draft.value.toNat).toNat : Int) = s.draft.value := by
    have hbounds := h.value
    rw [UInt64.toNat_ofNat_of_lt' (by simp only [UInt64.size]; omega)]
    omega
  have hnonce : ((UInt64.ofNat s.draft.nonce.toNat).toNat : Int) = s.draft.nonce := by
    have hbounds := h.nonce
    rw [UInt64.toNat_ofNat_of_lt' (by simp only [UInt64.size]; omega)]
    omega
  have hzero : UInt64.ofNat s.draft.value.toNat ≠ 0 := by
    intro hz
    rw [hz, UInt64.toNat_zero] at hvalue
    exact h.value.1.ne hvalue
  let tx : Transaction := ⟨.deferred ⟨s.draft.senderPublicKey, h.sender⟩, ⟨s.draft.toAccountKey, h.recipient⟩,
    .ofNat s.draft.value.toNat, hzero, .ofNat s.draft.nonce.toNat⟩
  refine ⟨⟨tx.sealWith (sha256Hasher sha256), .secp256r1 ⟨s.rawSignature, h.rawSignature⟩ s.authenticatorData
    s.clientDataJSON h.authenticatorData h.clientDataJSON⟩, ?_⟩
  exact ⟨⟨h.sender, rfl⟩, rfl, hvalue, hnonce, ⟨h.rawSignature, h.authenticatorData, h.clientDataJSON, rfl⟩, rfl⟩

section Denotes

variable {sha256 : Sha256} {s : SignedDraft} {t : SignedTransaction (FixedBytes 32)}

theorem SignedDraft.Denotes.encodeTransactionBody (h : s.Denotes sha256 t) :
    encodeTransactionBody s.draft = .ok t.value.write := by
  obtain ⟨hsender, hraw⟩ := h.sender
  have hrecipient : s.draft.toAccountKey.length = accountKeyBytes := by
    rw [← h.recipient]
    exact t.value.toKey.size
  have hassertSender : assertByteLength s.draft.senderPublicKey publicKeyBytes "sender public key" = .ok () :=
    if_neg (not_not.2 hsender)
  have hassertRecipient : assertByteLength s.draft.toAccountKey accountKeyBytes "recipient account key" = .ok () :=
    if_neg (not_not.2 hrecipient)
  unfold Explorer.encodeTransactionBody
  rw [hassertSender, hassertRecipient, ← h.value, ← h.nonce, encodeU64_eq, encodeU64_eq]
  show Except.ok (bytesConcat _) = _
  rw [bytesConcat_eq, Transaction.write, hraw, ← h.recipient]
  simp [LazyPublicKey.write, AccountKey.write]

/-- The explorer writes what the node writes for the transaction, and shows its digest. -/
theorem SignedDraft.Denotes.encode (h : s.Denotes sha256 t) :
    s.encode sha256 = .ok ⟨toHex t.messageDigest.1, t.write⟩ := by
  have hvalue : s.draft.value ≠ 0 := by
    rw [← h.value]
    intro hz
    exact t.value.nonZero (UInt64.toNat_inj.1 (Int.ofNat.inj hz))
  have hsignature : encodeTransactionSignature s.rawSignature s.authenticatorData s.clientDataJSON =
      .ok t.signature.write := by
    obtain ⟨hraw, ha, hc, hsig⟩ := h.signature
    rw [hsig]
    exact encodeTransactionSignature_eq ⟨s.rawSignature, hraw⟩ _ _ ha hc
  have hdigest : t.messageDigest = sha256 t.value.write := by
    rw [SignedTransaction.messageDigest, h.sealed]
    rfl
  unfold SignedDraft.encode encodeSignedTransaction
  rw [if_neg hvalue, h.encodeTransactionBody, hsignature, hdigest]
  show Except.ok (EncodedTransaction.mk _ (bytesConcat _)) = _
  rw [bytesConcat_eq]
  simp [SignedTransaction.write]

end Denotes

end Constantinople.Explorer
