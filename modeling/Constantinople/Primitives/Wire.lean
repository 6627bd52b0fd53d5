/-
The wire format of blocks: what the decoder accepts is written back byte for byte, and a block of
decoded transactions is read back as it was written. The codecs of lengths, contexts and digests are
parameters with a round-trip law; transaction, signature and range codecs are proved to have one.
-/
import Constantinople.Primitives.Block

namespace Constantinople

variable {C D : Type}

/-! ## Signatures -/

theorem readParsed_ok {n : Nat} {error : FixedBytes n → Option CodecError} {bs rest : Bytes} {b : FixedBytes n}
    (h : readParsed error bs = .ok (b, rest)) : bs = b.1 ++ rest ∧ error b = none := by
  obtain ⟨raw, mid, hraw, h⟩ := Reader.bind_ok h
  rcases he : error raw with _ | e
  · simp only [he] at h
    obtain ⟨rfl, rfl⟩ := Reader.pure_ok h
    exact ⟨Reader.fixed_ok hraw, he⟩
  · simp only [he] at h
    cases h

theorem readParsed_append {n : Nat} {error : FixedBytes n → Option CodecError} {b : FixedBytes n} (h : error b = none)
    (rest : Bytes) : readParsed error (b.1 ++ rest) = .ok (b, rest) := by
  unfold readParsed
  rw [Reader.bind_eq (Reader.fixed_append b rest), h]
  rfl

namespace TransactionSignature

theorem readBounded_ok {bound after : Nat} {reason : String} {bs rest : Bytes} {data : { b : Bytes // b.length ≤ bound }}
    (h : readBounded bound after reason bs = .ok (data, rest)) :
    bs = toBE 2 data.1.length ++ data.1 ++ rest := by
  obtain ⟨len, mid, hlen, h⟩ := Reader.bind_ok h
  split at h
  · obtain ⟨remaining, mid', hrem, h⟩ := Reader.bind_ok h
    cases hrem
    split at h
    · cases h
    obtain ⟨bytes, mid'', hbytes, h⟩ := Reader.bind_ok h
    obtain ⟨rfl, rfl⟩ := Reader.pure_ok h
    rw [Reader.u16_inverts _ _ _ hlen, Reader.fixed_ok hbytes, bytes.2, List.append_assoc]
  · cases h

/-- Reading a signature consumes exactly its encoding. -/
theorem read_inverts (c : Crypto) : Reader.Inverts (read c) write := by
  intro bs s rest h
  obtain ⟨remaining, _, hrem, h⟩ := Reader.bind_ok h
  cases hrem
  split at h
  · cases h
  obtain ⟨scheme, mid, hscheme, h⟩ := Reader.bind_ok h
  have hbs := Reader.u8_inverts _ _ _ hscheme
  split at h
  · rename_i hed
    obtain ⟨signature, _, hsig, h⟩ := Reader.bind_ok h
    obtain ⟨rfl, rfl⟩ := Reader.pure_ok h
    rw [hbs, (readParsed_ok hsig).1, hed]
    rfl
  split at h
  · rename_i hsecp
    obtain ⟨signature, _, hsig, h⟩ := Reader.bind_ok h
    obtain ⟨authenticatorData, _, hauth, h⟩ := Reader.bind_ok h
    obtain ⟨clientDataJson, _, hclient, h⟩ := Reader.bind_ok h
    obtain ⟨rfl, rfl⟩ := Reader.pure_ok h
    rw [hbs, (readParsed_ok hsig).1, readBounded_ok hauth, readBounded_ok hclient, hsecp]
    simp only [write, encoded, List.append_assoc, List.cons_append]
    rfl
  · cases h

theorem readBounded_append {bound after : Nat} {reason : String} {data : Bytes} (hdata : data.length ≤ bound)
    (hbound : bound < 2 ^ 16) {rest : Bytes} (hrest : after ≤ rest.length) :
    readBounded bound after reason (toBE 2 data.length ++ data ++ rest) = .ok (⟨data, hdata⟩, rest) := by
  have hlen : (UInt16.ofNat data.length).toNat = data.length := by
    rw [UInt16.toNat_ofNat']
    omega
  have hread := Reader.u16_reads (UInt16.ofNat data.length) (data ++ rest)
  simp only [hlen] at hread
  unfold readBounded
  rw [List.append_assoc, Reader.bind_eq hread, dif_pos (by omega)]
  show Reader.andThen Reader.remaining _ _ = _
  simp only [Reader.andThen, Reader.remaining]
  rw [if_neg (by rw [hlen, List.length_append]; omega)]
  have hfixed := Reader.fixed_append (⟨data, hlen.symm⟩ : FixedBytes (UInt16.ofNat data.length).toNat) rest
  rw [Reader.bind_eq hfixed]
  rfl

/-- The signature bytes parse. -/
def Parses (c : Crypto) : TransactionSignature → Prop
  | ed25519 signature => c.ed25519SignatureError signature = none
  | secp256r1 signature .. => c.secp256r1SignatureError signature = none

theorem parses_of_read {c : Crypto} {bs rest : Bytes} {s : TransactionSignature} (h : read c bs = .ok (s, rest)) :
    s.Parses c := by
  obtain ⟨remaining, _, hrem, h⟩ := Reader.bind_ok h
  cases hrem
  split at h
  · cases h
  obtain ⟨scheme, mid, hscheme, h⟩ := Reader.bind_ok h
  split at h
  · obtain ⟨signature, _, hsig, h⟩ := Reader.bind_ok h
    obtain ⟨rfl, rfl⟩ := Reader.pure_ok h
    exact (readParsed_ok hsig).2
  split at h
  · obtain ⟨signature, _, hsig, h⟩ := Reader.bind_ok h
    obtain ⟨authenticatorData, _, hauth, h⟩ := Reader.bind_ok h
    obtain ⟨clientDataJson, _, hclient, h⟩ := Reader.bind_ok h
    obtain ⟨rfl, rfl⟩ := Reader.pure_ok h
    exact (readParsed_ok hsig).2
  · cases h

/-- A signature whose bytes parse is read back from its encoding, whatever follows. -/
theorem read_write {c : Crypto} {s : TransactionSignature} (hs : s.Parses c) (rest : Bytes) :
    read c (s.write ++ rest) = .ok (s, rest) := by
  have hremaining : ∀ {bs : Bytes} {f : Nat → Reader TransactionSignature},
      (Reader.remaining >>= f) bs = f bs.length bs := fun {bs f} => Reader.bind_eq rfl
  cases s with
  | ed25519 signature =>
    show read c (ed25519Scheme :: (signature.1 ++ rest)) = _
    unfold read
    rw [hremaining, if_neg (by simp [signatureBytes, signature.2]), Reader.bind_eq (Reader.u8_cons _ _), if_pos rfl,
      Reader.bind_eq (readParsed_append hs rest)]
    rfl
  | secp256r1 signature authenticatorData clientDataJson ha hc =>
    have hwrite : (secp256r1 signature authenticatorData clientDataJson ha hc).write ++ rest =
        secp256r1Scheme :: (signature.1 ++ (toBE 2 authenticatorData.length ++ authenticatorData ++
          (toBE 2 clientDataJson.length ++ clientDataJson ++ rest))) := by
      simp only [write, encoded, List.append_assoc, List.cons_append]
    rw [hwrite]
    unfold read
    rw [hremaining, if_neg (by simp [signatureBytes, signature.2]), Reader.bind_eq (Reader.u8_cons _ _),
      if_neg (by decide), if_pos rfl, Reader.bind_eq (readParsed_append hs _),
      Reader.bind_eq (readBounded_append ha (by decide) (by simp)),
      Reader.bind_eq (readBounded_append hc (by decide) (Nat.zero_le _))]
    rfl

theorem encodeSize_bounds (s : TransactionSignature) : minSize ≤ s.encodeSize ∧ s.encodeSize ≤ maxSize := by
  cases s with
  | ed25519 signature =>
    simp only [encodeSize, encoded, minSize, maxSize, signatureBytes, List.length_cons, signature.2]
    omega
  | secp256r1 signature authenticatorData clientDataJson ha hc =>
    simp only [encodeSize, encoded, minSize, maxSize, signatureBytes, List.length_append, List.length_cons,
      length_toBE, signature.2]
    omega

end TransactionSignature

/-! ## Signed transactions -/

theorem AccountKey.read_append (key : AccountKey) (rest : Bytes) : read (key.bytes ++ rest) = .ok (key, rest) := by
  unfold read
  rw [Reader.bind_eq (Reader.fixed_append ⟨key.bytes, key.size⟩ rest)]
  rfl

/-- A transaction whose sender is not parsed is read back from its encoding, whatever follows. -/
theorem Transaction.read_write {t : Transaction} {raw : FixedBytes transactionPublicKeySize}
    (hs : t.sender = .deferred raw) (rest : Bytes) : read (t.write ++ rest) = .ok (t, rest) := by
  obtain ⟨sender, toKey, value, hzero, nonce⟩ := t
  obtain rfl : sender = .deferred raw := hs
  have hsender : ∀ bs, LazyPublicKey.read (raw.1 ++ bs) = .ok (.deferred raw, bs) := by
    intro bs
    unfold LazyPublicKey.read
    rw [Reader.bind_eq (Reader.fixed_append raw bs)]
    rfl
  simp only [write, LazyPublicKey.write, AccountKey.write, List.append_assoc]
  unfold read
  rw [Reader.bind_eq (hsender _), Reader.bind_eq (toKey.read_append _), Reader.bind_eq (Reader.u64_reads value _), dif_neg hzero,
    Reader.bind_eq (Reader.u64_reads nonce _)]
  rfl

theorem Transaction.read_sender {bs rest : Bytes} {t : Transaction} (h : read bs = .ok (t, rest)) :
    ∃ raw, t.sender = .deferred raw := by
  obtain ⟨sender, _, hs, h⟩ := Reader.bind_ok h
  obtain ⟨toKey, _, -, h⟩ := Reader.bind_ok h
  obtain ⟨value, _, -, h⟩ := Reader.bind_ok h
  split at h
  · cases h
  obtain ⟨nonce, _, -, h⟩ := Reader.bind_ok h
  obtain ⟨rfl, -⟩ := Reader.pure_ok h
  obtain ⟨raw, _, -, h⟩ := Reader.bind_ok hs
  obtain ⟨rfl, -⟩ := Reader.pure_ok h
  exact ⟨raw, rfl⟩

/-- The form a transaction has once it was written and read: its sender not parsed. -/
def Transaction.onWire (t : Transaction) : Transaction :=
  { t with sender := .deferred ⟨t.sender.write, t.sender.length_write⟩ }

namespace SignedTransaction

theorem length_write (t : SignedTransaction D) : t.write.length = t.encodeSize := by
  rw [write, List.length_append, Transaction.length_write]
  rfl

theorem read_inverts (c : Crypto) (H : Hasher D) : Reader.Inverts (read c H) write := by
  intro bs t rest h
  obtain ⟨tx, mid, htx, h⟩ := Reader.bind_ok h
  obtain ⟨signature, mid', hsig, h⟩ := Reader.bind_ok h
  obtain ⟨rfl, rfl⟩ := Reader.pure_ok h
  rw [Transaction.read_inverts _ _ _ htx, TransactionSignature.read_inverts c _ _ _ hsig, ← List.append_assoc]
  rfl

/-- A sealed transaction whose sender is not parsed and whose signature bytes parse is read back. -/
theorem read_write {c : Crypto} {H : Hasher D} {t : SignedTransaction D} {raw : FixedBytes transactionPublicKeySize}
    (hs : t.value.sender = .deferred raw) (hseal : t.inner = t.value.sealWith H) (hp : t.signature.Parses c)
    (rest : Bytes) : read c H (t.write ++ rest) = .ok (t, rest) := by
  unfold read
  rw [write, List.append_assoc, Reader.bind_eq (Transaction.read_write hs _),
    Reader.bind_eq (TransactionSignature.read_write hp rest), ← hseal]
  rfl

/-- A transaction some byte string decodes to. -/
def Decodable (E : Env D) (t : SignedTransaction D) : Prop :=
  ∃ bs, Reader.decode (read E.crypto E.hasher) bs = .ok t

/-- A transaction read from the middle of a byte string decodes on its own. -/
theorem decodable_of_read {E : Env D} {bs rest : Bytes} {t : SignedTransaction D}
    (h : read E.crypto E.hasher bs = .ok (t, rest)) : t.Decodable E := by
  obtain ⟨tx, _, htx, h⟩ := Reader.bind_ok h
  obtain ⟨signature, _, hsig, h⟩ := Reader.bind_ok h
  obtain ⟨rfl, -⟩ := Reader.pure_ok h
  obtain ⟨raw, hraw⟩ := Transaction.read_sender htx
  have hread := read_write (t := ⟨tx.sealWith E.hasher, signature⟩) hraw rfl (TransactionSignature.parses_of_read hsig) []
  exact ⟨_, Reader.decode_ok.2 hread⟩

/-- The form a signed transaction has once it was written and read. -/
def onWire (H : Hasher D) (t : SignedTransaction D) : SignedTransaction D := ⟨t.value.onWire.sealWith H, t.signature⟩

/-- Equality of signed transactions as the source compares them: lazily parsed keys by what they parse to. -/
structure Same (c : Crypto) (a b : SignedTransaction D) : Prop where
  sender : a.value.sender.get c = b.value.sender.get c
  toKey : a.value.toKey = b.value.toKey
  value : a.value.value = b.value.value
  nonce : a.value.nonce = b.value.nonce
  digest : a.messageDigest = b.messageDigest
  signature : a.signature = b.signature

/-- What a decoded or newly signed transaction satisfies: its seal is computed from it, and its key, if it
is parsed, and its signature are ones that parse. -/
structure Formed (E : Env D) (t : SignedTransaction D) : Prop where
  sealed : t.inner = t.value.sealWith E.hasher
  sender : ∀ key, t.value.sender = .value key →
    TransactionPublicKey.parse E.crypto ⟨key.encoded, key.length_encoded⟩ = .ok key
  signature : t.signature.Parses E.crypto

theorem Formed.messageDigest_eq {E : Env D} {t : SignedTransaction D} (h : t.Formed E) :
    t.messageDigest = t.value.hashSlow E.hasher := by
  rw [messageDigest, h.sealed]
  rfl

theorem Formed.decode_write {E : Env D} {t : SignedTransaction D} (h : t.Formed E) :
    Reader.decode (read E.crypto E.hasher) t.write = .ok (t.onWire E.hasher) := by
  have hread := read_write (t := t.onWire E.hasher) (H := E.hasher) rfl rfl h.signature []
  rw [List.append_nil] at hread
  exact Reader.decode_ok.2 hread

/-- Writing and reading a signed transaction changes nothing but how its sender is held. -/
theorem Formed.same_onWire {E : Env D} {t : SignedTransaction D} (h : t.Formed E) :
    Same E.crypto t (t.onWire E.hasher) := by
  refine ⟨?_, rfl, rfl, rfl, h.messageDigest_eq, rfl⟩
  show _ = LazyPublicKey.get E.crypto (.deferred ⟨t.value.sender.write, t.value.sender.length_write⟩)
  rcases hsender : t.value.sender with key | bytes
  · have hparse := h.sender key hsender
    simp only [LazyPublicKey.get, LazyPublicKey.write]
    exact (congrArg Except.toOption hparse).symm
  · rfl

/-- A transaction that was decoded is in the form it has on the wire. -/
theorem Decodable.formed {E : Env D} {t : SignedTransaction D} (h : t.Decodable E) :
    t.Formed E ∧ t.onWire E.hasher = t := by
  obtain ⟨bs, hbs⟩ := h
  obtain ⟨tx, _, htx, h⟩ := Reader.bind_ok (Reader.decode_ok.1 hbs)
  obtain ⟨signature, _, hsig, h⟩ := Reader.bind_ok h
  obtain ⟨rfl, -⟩ := Reader.pure_ok h
  obtain ⟨raw, hraw⟩ := Transaction.read_sender htx
  constructor
  · refine ⟨rfl, fun key hkey => ?_, TransactionSignature.parses_of_read hsig⟩
    rw [show tx.sender = .value key from hkey] at hraw
    cases hraw
  · obtain ⟨sender, toKey, value, hzero, nonce⟩ := tx
    obtain rfl : sender = .deferred raw := hraw
    rfl

/-- The encoding of a transaction that was decoded decodes to it. -/
theorem Decodable.decode_write {E : Env D} {t : SignedTransaction D} (h : t.Decodable E) :
    Reader.decode (read E.crypto E.hasher) t.write = .ok t := by
  obtain ⟨bs, hbs⟩ := h
  have hwrite := read_inverts _ _ _ _ _ (Reader.decode_ok.1 hbs)
  rw [List.append_nil] at hwrite
  rw [← hwrite]
  exact hbs

end SignedTransaction

namespace LazySignedTransaction

/-- The form a transaction has once it was written and read: its bytes, not decoded. -/
def onWire (t : LazySignedTransaction D) : LazySignedTransaction D := .deferred t.encodedSignedTransaction

theorem get_onWire {E : Env D} {t : SignedTransaction D} (h : t.Decodable E) : (onWire (.new t)).get E = some t := by
  show (Reader.decode _ t.write).toOption = _
  rw [h.decode_write]
  rfl

theorem write_onWire (E : Env D) (t : LazySignedTransaction D) : t.onWire.write E = t.write E := by
  cases t with
  | new value =>
    show E.usize.write value.write.length ++ value.write = _
    rw [value.length_write]
    rfl
  | deferred pending => rfl

theorem length_write {E : Env D} {usizeSize : Nat → Nat} (hsize : ∀ n, (E.usize.write n).length = usizeSize n)
    (t : LazySignedTransaction D) : (t.write E).length = t.encodeSize usizeSize := by
  cases t with
  | new value => rw [write, List.length_append, hsize, value.length_write]; rfl
  | deferred pending => rw [write, List.length_append, hsize]; rfl

/-- The encoding has a length a lazy transaction may have. -/
def Fits (t : LazySignedTransaction D) : Prop :=
  Transaction.size + TransactionSignature.minSize ≤ t.encodedSignedTransaction.length ∧
    t.encodedSignedTransaction.length ≤ maxEncodedSize

/-- What a lazy transaction satisfies that was made from a transaction or read from the wire. -/
def Formed (E : Env D) : LazySignedTransaction D → Prop
  | new value => value.Formed E
  | deferred pending => Fits (.deferred pending : LazySignedTransaction D)

/-- The bounds of the lazy reader leave room for every signature. -/
theorem fits_new (t : SignedTransaction D) : Fits (.new t) := by
  have hbounds := t.signature.encodeSize_bounds
  show _ ≤ t.write.length ∧ t.write.length ≤ _
  rw [t.length_write, SignedTransaction.encodeSize, maxEncodedSize]
  omega

theorem Formed.fits {E : Env D} {t : LazySignedTransaction D} (h : t.Formed E) : t.Fits := by
  cases t with
  | new value => exact fits_new value
  | deferred pending => exact h

/-- The encoding of a transaction that decodes decodes to the same transaction, however it was held. -/
theorem Formed.decode_encoded {E : Env D} {t : LazySignedTransaction D} {signed : SignedTransaction D} (h : t.Formed E)
    (hget : t.get E = some signed) :
    Reader.decode (SignedTransaction.read E.crypto E.hasher) t.encodedSignedTransaction = .ok (signed.onWire E.hasher) ∧
      SignedTransaction.Same E.crypto signed (signed.onWire E.hasher) := by
  cases t with
  | new value =>
    cases hget
    exact ⟨SignedTransaction.Formed.decode_write h, SignedTransaction.Formed.same_onWire h⟩
  | deferred pending =>
    have hdecode : Reader.decode (SignedTransaction.read E.crypto E.hasher) pending = .ok signed := by
      rcases hd : Reader.decode (SignedTransaction.read E.crypto E.hasher) pending with e | u
      · simp only [get, hd] at hget; cases hget
      · simp only [get, hd] at hget; cases hget; rfl
    obtain ⟨hformed, honWire⟩ := SignedTransaction.Decodable.formed ⟨pending, hdecode⟩
    constructor
    · rw [honWire]; exact hdecode
    · exact hformed.same_onWire

end LazySignedTransaction

/-! ## Library codecs -/

/-- `usize` as the codec of lengths: the prefixes are 32-bit numbers. -/
abbrev Env.UsizeRoundTrips (E : Env D) : Prop := E.usize.RoundTrips fun n => n < 2 ^ 32

/-- The length of a transaction is one of them. -/
theorem maxEncodedSize_lt {n : Nat} (h : n ≤ LazySignedTransaction.maxEncodedSize) : n < 2 ^ 32 :=
  h.trans_lt (by decide)

/-- A prefix says no more than the default configuration allows. -/
theorem le_defaultMaxTransactions {n : Nat} (h : n < 2 ^ 32) : n ≤ Block.defaultMaxTransactions := by
  unfold Block.defaultMaxTransactions
  omega

structure HeaderCodecs.RoundTrips (codecs : HeaderCodecs C D) : Prop where
  context : codecs.context.RoundTrips fun _ => True
  digest : codecs.digest.RoundTrips fun _ => True

/-- The sizes are the numbers of bytes written. -/
structure EncodeSizes.Exact (sizes : EncodeSizes C) (E : Env D) (codecs : HeaderCodecs C D) : Prop where
  usize : ∀ n, (E.usize.write n).length = sizes.usize n
  context : ∀ context, (codecs.context.write context).length = sizes.context context
  digest : ∀ digest, (codecs.digest.write digest).length = sizes.digest

namespace LazySignedTransaction

variable {E : Env D} {P : Nat → Prop}

theorem read_inverts (hu : E.usize.RoundTrips P) : Reader.Inverts (read E) (write E) := by
  intro bs t rest h
  obtain ⟨len, mid, hlen, h⟩ := Reader.bind_ok h
  split at h
  · cases h
  split at h
  · cases h
  obtain ⟨pending, mid', hp, h⟩ := Reader.bind_ok h
  obtain ⟨rfl, rfl⟩ := Reader.pure_ok h
  obtain ⟨rfl, rfl⟩ := Reader.take_ok hp
  rw [hu.inverts _ _ _ hlen, write, List.append_assoc]

theorem read_write (hu : E.usize.RoundTrips P) (hsize : ∀ n ≤ maxEncodedSize, P n) {t : LazySignedTransaction D}
    (ht : t.Fits) (rest : Bytes) : read E (t.write E ++ rest) = .ok (t.onWire, rest) := by
  obtain ⟨hmin, hmax⟩ := ht
  rw [← write_onWire]
  show read E (E.usize.write _ ++ t.encodedSignedTransaction ++ rest) = _
  unfold read
  rw [List.append_assoc, Reader.bind_eq (hu.reads _ (hsize _ hmax) _), if_neg (by omega), if_neg (by omega),
    Reader.bind_eq (Reader.take_append rest rfl)]
  rfl

end LazySignedTransaction

/-! ## Headers -/

namespace NonEmptyRange

theorem read_inverts : Reader.Inverts read write := by
  intro bs r rest h
  obtain ⟨start, _, hstart, h⟩ := Reader.bind_ok h
  obtain ⟨stop, _, hstop, h⟩ := Reader.bind_ok h
  split at h
  · obtain ⟨rfl, rfl⟩ := Reader.pure_ok h
    rw [Reader.u64_inverts _ _ _ hstart, Reader.u64_inverts _ _ _ hstop, write, List.append_assoc]
  · cases h

theorem read_reads : Reader.Reads read write := by
  intro r rest
  unfold read
  rw [write, List.append_assoc, Reader.bind_eq (Reader.u64_reads r.start _), Reader.bind_eq (Reader.u64_reads r.stop _),
    dif_pos r.nonempty]
  rfl

end NonEmptyRange

namespace Header

variable {codecs : HeaderCodecs C D}

theorem read_inverts (hc : codecs.RoundTrips) : Reader.Inverts (read codecs) (write codecs) := by
  intro bs header rest h
  obtain ⟨context, _, hcontext, h⟩ := Reader.bind_ok h
  obtain ⟨parent, _, hparent, h⟩ := Reader.bind_ok h
  obtain ⟨height, _, hheight, h⟩ := Reader.bind_ok h
  obtain ⟨timestamp, _, htimestamp, h⟩ := Reader.bind_ok h
  obtain ⟨stateRoot, _, hstateRoot, h⟩ := Reader.bind_ok h
  obtain ⟨stateRange, _, hstateRange, h⟩ := Reader.bind_ok h
  obtain ⟨transactionsRoot, _, htransactionsRoot, h⟩ := Reader.bind_ok h
  obtain ⟨transactionsRange, _, htransactionsRange, h⟩ := Reader.bind_ok h
  obtain ⟨rfl, rfl⟩ := Reader.pure_ok h
  rw [hc.context.inverts _ _ _ hcontext, hc.digest.inverts _ _ _ hparent, Reader.u64_inverts _ _ _ hheight,
    Reader.u64_inverts _ _ _ htimestamp, hc.digest.inverts _ _ _ hstateRoot,
    NonEmptyRange.read_inverts _ _ _ hstateRange, hc.digest.inverts _ _ _ htransactionsRoot,
    NonEmptyRange.read_inverts _ _ _ htransactionsRange]
  simp only [write, List.append_assoc]

theorem read_reads (hc : codecs.RoundTrips) : Reader.Reads (read codecs) (write codecs) := by
  intro header rest
  unfold read
  simp only [write, List.append_assoc]
  rw [Reader.bind_eq (hc.context.reads _ trivial _), Reader.bind_eq (hc.digest.reads _ trivial _),
    Reader.bind_eq (Reader.u64_reads header.height _), Reader.bind_eq (Reader.u64_reads header.timestamp _),
    Reader.bind_eq (hc.digest.reads _ trivial _), Reader.bind_eq (NonEmptyRange.read_reads header.stateRange _),
    Reader.bind_eq (hc.digest.reads _ trivial _), Reader.bind_eq (NonEmptyRange.read_reads header.transactionsRange _)]
  rfl

theorem length_write {E : Env D} {sizes : EncodeSizes C} (hs : sizes.Exact E codecs) (header : Header C D) :
    (header.write codecs).length = header.encodeSize sizes := by
  simp only [write, NonEmptyRange.write, List.length_append, length_toBE, hs.context, hs.digest, encodeSize]

end Header

/-! ## Blocks -/

namespace Block

variable {E : Env D} {codecs : HeaderCodecs C D} {P : Nat → Prop}

/-- The form a block has once it was written and read. -/
def onWire (b : Block C D) : Block C D := ⟨b.header, b.body.map LazySignedTransaction.onWire⟩

theorem write_onWire (b : Block C D) : b.onWire.write E codecs = b.write E codecs := by
  simp only [write, onWire, List.length_map, List.flatMap_map, LazySignedTransaction.write_onWire]

theorem read_inverts (hc : codecs.RoundTrips) (hu : E.usize.RoundTrips P) (maxTransactions : Nat) :
    Reader.Inverts (read E codecs maxTransactions) (write E codecs) := by
  intro bs b rest h
  obtain ⟨header, _, hheader, h⟩ := Reader.bind_ok h
  obtain ⟨len, _, hlen, h⟩ := Reader.bind_ok h
  split at h
  · cases h
  obtain ⟨body, _, hbody, h⟩ := Reader.bind_ok h
  obtain ⟨rfl, rfl⟩ := Reader.pure_ok h
  rw [Header.read_inverts hc _ _ _ hheader, hu.inverts _ _ _ hlen, ← Reader.replicate_length hbody,
    Reader.replicate_inverts (LazySignedTransaction.read_inverts hu) hbody]
  simp only [write, List.append_assoc]

/-- A block whose transactions fit is read back, with its transactions deferred. -/
theorem read_write (hc : codecs.RoundTrips) (hu : E.usize.RoundTrips P)
    (hsize : ∀ n ≤ LazySignedTransaction.maxEncodedSize, P n) {maxTransactions : Nat} {b : Block C D}
    (hlen : b.body.length ≤ maxTransactions) (hmax : P b.body.length) (hfits : ∀ t ∈ b.body, t.Fits) (rest : Bytes) :
    read E codecs maxTransactions (b.write E codecs ++ rest) = .ok (b.onWire, rest) := by
  unfold read
  simp only [write, List.append_assoc]
  rw [Reader.bind_eq (Header.read_reads hc b.header _), Reader.bind_eq (hu.reads _ hmax _), if_neg (by omega),
    Reader.bind_eq (Reader.replicate_reads fun t ht rest => LazySignedTransaction.read_write hu hsize (hfits t ht) rest)]
  rfl

theorem length_write {sizes : EncodeSizes C} (hs : sizes.Exact E codecs) (b : Block C D) :
    (b.write E codecs).length = b.encodeSize sizes := by
  simp only [write, List.length_append, List.length_flatMap, Header.length_write hs, hs.usize,
    LazySignedTransaction.length_write hs.usize, encodeSize, Nat.add_assoc]

/-- Reading back the re-encoding of a block that was read gives the block. -/
theorem read_write_of_read (hc : codecs.RoundTrips) (hu : E.usize.RoundTrips P)
    (hsize : ∀ n ≤ LazySignedTransaction.maxEncodedSize, P n) {maxTransactions : Nat} {bs rest : Bytes}
    {b : Block C D} (h : read E codecs maxTransactions bs = .ok (b, rest)) :
    read E codecs maxTransactions (b.write E codecs) = .ok (b, []) := by
  have hdeferred := read_deferred h
  obtain ⟨hlen, hmax⟩ : b.body.length ≤ maxTransactions ∧ P b.body.length := by
    obtain ⟨header, _, -, h⟩ := Reader.bind_ok h
    obtain ⟨len, _, hlen, h⟩ := Reader.bind_ok h
    split at h
    · cases h
    obtain ⟨body, _, hbody, h⟩ := Reader.bind_ok h
    obtain ⟨rfl, -⟩ := Reader.pure_ok h
    have hcount := Reader.replicate_length hbody
    exact ⟨by dsimp only; omega, hcount ▸ hu.valid _ _ _ hlen⟩
  have hsame : b.onWire = b := by
    have hbody : b.body.map LazySignedTransaction.onWire = b.body :=
      (List.map_congr_left fun t ht => by obtain ⟨pending, rfl, -⟩ := hdeferred t ht; rfl).trans (List.map_id _)
    rw [onWire, hbody]
  have hread := read_write hc hu hsize hlen hmax (fun t ht => by obtain ⟨pending, rfl, hp⟩ := hdeferred t ht; exact hp) []
  rwa [List.append_nil, hsame] at hread

end Block

/-- A block of decoded transactions is written, read and written again without change, and its encoded
size is the number of bytes; what the decoder accepts, it writes back, with the seal it computed. -/
theorem block_round_trip (E : Env D) (codecs : HeaderCodecs C D) (sizes : EncodeSizes C) (hc : codecs.RoundTrips)
    (hu : E.UsizeRoundTrips) (hs : sizes.Exact E codecs) :
    (∀ (header : Header C D) (txs : List (SignedTransaction D)), txs.length < 2 ^ 32 →
      (∀ t ∈ txs, t.Decodable E) →
      ∃ block, Block.read E codecs Block.defaultMaxTransactions ((Block.new header txs).write E codecs) =
          .ok (block, []) ∧
        block.header = header ∧ block.body.map (LazySignedTransaction.get E) = txs.map some ∧
        block.write E codecs = (Block.new header txs).write E codecs ∧
        block.encodeSize sizes = (block.write E codecs).length ∧
        (Block.new header txs).encodeSize sizes = (block.write E codecs).length) ∧
    (∀ (maxTransactions : Nat) (bs rest : Bytes) (block : SealedBlock C D),
      SealedBlock.read E codecs maxTransactions bs = .ok (block, rest) →
      bs = block.inner.write E codecs ++ rest ∧
        SealedBlock.read E codecs maxTransactions (block.inner.write E codecs) = .ok (block, []) ∧
        block.sealDigest = E.hasher.hash (bs.take (block.inner.header.encodeSize sizes))) := by
  constructor
  · intro header txs hlen hdec
    have hlen' : (Block.new header txs).body.length < 2 ^ 32 := by simpa [Block.new] using hlen
    have hfits : ∀ t ∈ (Block.new header txs).body, t.Fits := by
      intro t ht
      obtain ⟨tx, -, rfl⟩ := List.mem_map.1 ht
      exact LazySignedTransaction.fits_new tx
    have hread := Block.read_write hc hu (fun _ => maxEncodedSize_lt) (le_defaultMaxTransactions hlen') hlen' hfits []
    rw [List.append_nil] at hread
    have hwrite : (Block.new header txs).onWire.write E codecs = (Block.new header txs).write E codecs :=
      Block.write_onWire _
    refine ⟨_, hread, rfl, ?_, hwrite, (Block.length_write hs _).symm, ?_⟩
    · simp only [Block.onWire, Block.new, List.map_map]
      exact List.map_congr_left fun t ht => LazySignedTransaction.get_onWire (hdec t ht)
    · rw [hwrite, Block.length_write hs]
  · intro maxTransactions bs rest block h
    obtain ⟨inner, mid, hinner, h⟩ := Reader.bind_ok h
    obtain ⟨rfl, rfl⟩ := Reader.pure_ok h
    have hbs : bs = inner.write E codecs ++ mid := Block.read_inverts hc hu maxTransactions _ _ _ hinner
    refine ⟨hbs, ?_, ?_⟩
    · show SealedBlock.read E codecs maxTransactions (inner.write E codecs) = _
      rw [SealedBlock.read, Reader.bind_eq (Block.read_write_of_read hc hu (fun _ => maxEncodedSize_lt) hinner)]
      rfl
    · show E.hasher.hash (inner.header.write codecs) = E.hasher.hash (bs.take (inner.header.encodeSize sizes))
      rw [hbs, Block.write, List.append_assoc, List.append_assoc, List.take_left' (Header.length_write hs inner.header)]

/-! ## A small instance -/

/-- Four bytes for every length and eight for every digest; digests are byte counts. -/
def wordEnv : Env UInt64 where
  crypto := permissiveCrypto
  hasher := ⟨fun bytes => UInt64.ofNat bytes.length, fun digest => toBE 8 digest.toNat⟩
  usize := ⟨toBE 4, Reader.be 4⟩

def wordCodecs : HeaderCodecs Unit UInt64 :=
  ⟨⟨fun _ => [], pure ()⟩, ⟨fun digest => toBE 8 digest.toNat, Reader.u64⟩⟩

theorem wordEnv_usize : wordEnv.UsizeRoundTrips where
  reads n hn rest := Reader.be_toBE rest (by omega)
  inverts bs n rest h := (Reader.be_ok h).2
  valid bs n rest h := (Reader.be_ok h).1.trans_eq (by norm_num)

theorem wordCodecs_roundTrips : wordCodecs.RoundTrips where
  context :=
    { reads := fun _ _ _ => rfl
      inverts := fun _ _ _ h => (Reader.pure_ok h).2
      valid := fun _ _ _ _ => trivial }
  digest :=
    { reads := fun digest _ rest => Reader.u64_reads digest rest
      inverts := Reader.u64_inverts
      valid := fun _ _ _ _ => trivial }

/-- A transfer of value 5 from an undecoded sender, with the given signature. -/
def wordTransaction (signature : TransactionSignature) : SignedTransaction UInt64 :=
  ⟨(⟨.deferred ⟨List.replicate 34 0, rfl⟩, .filled 2, 5, by decide, 0⟩ : Transaction).sealWith wordEnv.hasher, signature⟩

theorem wordRange_nonempty : (0 : UInt64) < 1 := by decide

theorem length_zeroSignature : (List.replicate 64 (0 : UInt8)).length = 64 := rfl

def wordHeader : Header Unit UInt64 := ⟨(), 0, 1, 1, 0, ⟨0, 1, wordRange_nonempty⟩, 0, ⟨0, 1, wordRange_nonempty⟩⟩

def ed25519Sample : TransactionSignature := .ed25519 ⟨List.replicate 64 0, length_zeroSignature⟩

def secp256r1Sample : TransactionSignature :=
  .secp256r1 ⟨List.replicate 64 0, length_zeroSignature⟩ [7] [8, 9] (by decide) (by decide)

set_option maxRecDepth 20000 in
theorem block_round_trip_sample :
    ∃ block, Block.read wordEnv wordCodecs Block.defaultMaxTransactions
        ((Block.new wordHeader [wordTransaction ed25519Sample, wordTransaction secp256r1Sample]).write wordEnv
          wordCodecs) = .ok (block, []) ∧
      block.body.map (LazySignedTransaction.get wordEnv) =
        [some (wordTransaction ed25519Sample), some (wordTransaction secp256r1Sample)] ∧
      block.encodeSize ⟨fun _ => 4, fun _ => 0, 8⟩ = (block.write wordEnv wordCodecs).length := by
  have hsizes : EncodeSizes.Exact ⟨fun _ => 4, fun _ => 0, 8⟩ wordEnv wordCodecs :=
    ⟨fun n => length_toBE 4 n, fun _ => rfl, fun digest => length_toBE 8 digest.toNat⟩
  obtain ⟨block, hread, -, hget, -, hsize, -⟩ :=
    (block_round_trip wordEnv wordCodecs ⟨fun _ => 4, fun _ => 0, 8⟩ wordCodecs_roundTrips wordEnv_usize hsizes).1
      wordHeader [wordTransaction ed25519Sample, wordTransaction secp256r1Sample] (by decide) fun t ht => by
        rcases List.mem_pair.1 ht with rfl | rfl
        · exact ⟨(wordTransaction ed25519Sample).write, rfl⟩
        · exact ⟨(wordTransaction secp256r1Sample).write, rfl⟩
  exact ⟨block, hread, hget, hsize⟩

end Constantinople
