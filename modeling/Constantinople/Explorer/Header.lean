/-
The explorer's parser of block headers, as in `explorer/src/qmdb.ts`, against the node's encoder: wherever
an encoded header stands in a byte string, the parser returns its fields and the offset where it ends.
Bigints and offsets are natural numbers, as none is ever negative. A header starts with the consensus
context, whose layout is the library's and a hypothesis here.
-/
import Constantinople.Explorer.Codec

namespace Constantinople.Explorer

open Constantinople

/-! ## The parser -/

def digestBytes : Nat := 32

def commitmentBytes : Nat := 3 * digestBytes + 4

def ed25519PublicKeyBytes : Nat := 32

def skip (bytes : Bytes) (offset length : Nat) : Except Thrown Nat :=
  let next := offset + length
  if bytes.length < next then .error (.error "finalized block header is truncated") else .ok next

def readBytes (bytes : Bytes) (offset length : Nat) : Except Thrown Bytes := do
  let _ ← skip bytes offset length
  return (bytes.drop offset).take length

/-- The loop of `readU64Be`. Past the end there is no byte, and `BigInt(undefined)` throws. -/
def readU64BeLoop (bytes : Bytes) : (remaining offset value : Nat) → Except Thrown Nat
  | 0, _, value => .ok value
  | remaining + 1, offset, value =>
    match bytes[offset]? with
    | none => .error .typeError
    | some byte => readU64BeLoop bytes remaining (offset + 1) (value <<< 8 ||| byte.toNat)

def readU64Be (bytes : Bytes) (offset : Nat) : Except Thrown Nat := readU64BeLoop bytes 8 offset 0

/-- The loop of `readVarint`, with `remaining` bytes allowed. -/
def readVarintLoop (bytes : Bytes) : (remaining offset value shift : Nat) → Except Thrown (Nat × Nat)
  | 0, _, _, _ => .error (.error "finalized block header varint is too long")
  | remaining + 1, offset, value, shift =>
    match bytes[offset]? with
    | none => .error (.error "finalized block header is truncated")
    | some byte =>
      let value := value ||| (byte.toNat &&& 0x7f) <<< shift
      if byte.toNat &&& 0x80 = 0 then .ok (value, offset + 1)
      else readVarintLoop bytes remaining (offset + 1) value (shift + 7)

/-- The value and the offset behind it. -/
def readVarint (bytes : Bytes) (offset : Nat) : Except Thrown (Nat × Nat) := readVarintLoop bytes 10 offset 0 0

structure DecodedBlockHeader where
  height : Nat
  stateRoot : Bytes
  stateStart : Nat
  stateTip : Nat
  transactionsRoot : Bytes
  transactionsStart : Nat
  transactionsTip : Nat
  endOffset : Nat
deriving DecidableEq, Repr

def decodeBlockHeader (bytes : Bytes) (offset : Nat) : Except Thrown DecodedBlockHeader := do
  let (_, offset) ← readVarint bytes offset -- context.round.epoch
  let (_, offset) ← readVarint bytes offset -- context.round.view
  let offset ← skip bytes offset ed25519PublicKeyBytes -- context.leader
  let (_, offset) ← readVarint bytes offset -- context.parent.view
  let offset ← skip bytes offset commitmentBytes -- context.parent.digest
  let offset ← skip bytes offset digestBytes -- header.parent
  let height ← readU64Be bytes offset
  let offset ← skip bytes offset 8
  let offset ← skip bytes offset 8 -- header.timestamp
  let stateRoot ← readBytes bytes offset digestBytes
  let offset ← skip bytes offset digestBytes
  let stateStart ← readU64Be bytes offset
  let offset ← skip bytes offset 8
  let stateTip ← readU64Be bytes offset
  let offset ← skip bytes offset 8
  let transactionsRoot ← readBytes bytes offset digestBytes
  let offset ← skip bytes offset digestBytes
  let transactionsStart ← readU64Be bytes offset
  let offset ← skip bytes offset 8
  let transactionsTip ← readU64Be bytes offset
  let offset ← skip bytes offset 8
  if stateTip ≤ stateStart ∨ transactionsTip ≤ transactionsStart then
    .error (.error "finalized block contains an empty QMDB range")
  else
    return ⟨height, stateRoot, stateStart, stateTip, transactionsRoot, transactionsStart, transactionsTip, offset⟩

/-! ## Reading what was written -/

section Cursor

variable {bytes rest : Bytes} {offset : Nat}

theorem skip_at {x : Bytes} {n : Nat} (h : Cursor bytes offset (x ++ rest)) (hx : x.length = n) :
    skip bytes offset n = .ok (offset + n) := by
  have hlen := h.length
  rw [List.length_append] at hlen
  exact if_neg (by omega)

theorem readBytes_at {x : Bytes} {n : Nat} (h : Cursor bytes offset (x ++ rest)) (hx : x.length = n) :
    readBytes bytes offset n = .ok x := by
  unfold readBytes
  rw [skip_at h hx]
  show Except.ok _ = _
  rw [h.take hx]

theorem readU64BeLoop_at {x : Bytes} {value : Nat} (h : Cursor bytes offset (x ++ rest)) :
    readU64BeLoop bytes x.length offset value = .ok (x.foldl (fun acc b => acc * 256 + b.toNat) value) := by
  induction x generalizing offset value with
  | nil => rfl
  | cons b x ih =>
    have hb : b.toNat < 2 ^ 8 := b.toNat_lt
    have hstep : value <<< 8 ||| b.toNat = value * 256 + b.toNat := by
      rw [← Nat.shiftLeft_add_eq_or_of_lt hb, Nat.shiftLeft_eq]
    rw [List.length_cons, readU64BeLoop, h.head]
    simp only [hstep]
    rw [ih h.tail, List.foldl_cons]

theorem readU64Be_at {n : UInt64} (h : Cursor bytes offset (toBE 8 n.toNat ++ rest)) :
    readU64Be bytes offset = .ok n.toNat := by
  have hread : readU64BeLoop bytes _ offset 0 = .ok (ofBE (toBE 8 n.toNat)) := readU64BeLoop_at h
  have hn := n.toNat_lt
  rwa [length_toBE, ofBE_toBE, Nat.mod_eq_of_lt (by omega)] at hread

theorem and_high_of_lt {n : Nat} (h : n < 128) : n &&& 0x80 = 0 := by
  have hbit : n.testBit 7 = false := Nat.testBit_lt_two_pow (by omega)
  have hand := Nat.and_two_pow n 7
  rw [hbit] at hand
  simpa using hand

theorem and_high_add {n : Nat} (h : n < 128) : (n + 128) &&& 0x80 ≠ 0 := by
  have hbit : (2 ^ 7 + n).testBit 7 = true := by
    rw [Nat.testBit_two_pow_add_eq, Nat.testBit_lt_two_pow (by omega)]
    rfl
  have hand := Nat.and_two_pow (2 ^ 7 + n) 7
  rw [hbit, Nat.add_comm] at hand
  simp only [Nat.reducePow] at hand
  rw [hand]
  decide

theorem or_shiftLeft {value shift : Nat} (h : value < 2 ^ shift) (b : Nat) :
    value ||| b <<< shift = value + b * 2 ^ shift := by
  rw [Nat.or_comm, ← Nat.shiftLeft_add_eq_or_of_lt h, Nat.shiftLeft_eq, Nat.add_comm]

theorem readVarintLoop_last {n remaining value shift : Nat} (hn : n < 128) (hvalue : value < 2 ^ shift)
    (h : Cursor bytes offset (UInt8.ofNat n :: rest)) :
    readVarintLoop bytes (remaining + 1) offset value shift = .ok (value + n * 2 ^ shift, offset + 1) := by
  have hlow : n &&& 0x7f = n := by
    rw [Nat.and_two_pow_sub_one_eq_mod n 7]
    omega
  rw [readVarintLoop, h.head]
  simp only [Varint.toNat_byte (show n < 256 by omega), if_pos (and_high_of_lt hn), hlow, or_shiftLeft hvalue]

/-- The loop adds the number, shifted, to what it has read. -/
theorem readVarintLoop_at {w : Nat} : ∀ {n remaining offset value shift : Nat}, n < 128 ^ (w + 1) → w < remaining →
    value < 2 ^ shift → Cursor bytes offset (Varint.write w n ++ rest) →
    readVarintLoop bytes remaining offset value shift =
      .ok (value + n * 2 ^ shift, offset + (Varint.write w n).length) := by
  induction w with
  | zero =>
    intro n remaining offset value shift hn hw hvalue h
    obtain ⟨remaining, rfl⟩ := Nat.exists_eq_add_of_lt hw
    rw [Nat.zero_add]
    exact readVarintLoop_last (by simpa using hn) hvalue h
  | succ w ih =>
    intro n remaining offset value shift hn hw hvalue h
    obtain ⟨remaining, rfl⟩ : ∃ k, remaining = k + 1 := ⟨remaining - 1, by omega⟩
    rw [Varint.write] at h ⊢
    split at h
    · rename_i hlt
      rw [if_pos hlt]
      exact readVarintLoop_last hlt hvalue h
    · rename_i hge
      rw [if_neg hge]
      have hlow : (n % 128 + 128) &&& 0x7f = n % 128 := by
        rw [Nat.and_two_pow_sub_one_eq_mod _ 7]
        omega
      have hmore : value + n % 128 * 2 ^ shift < 2 ^ (shift + 7) := by
        have hmod : n % 128 < 128 := Nat.mod_lt n (by norm_num)
        rw [pow_add]
        nlinarith
      rw [readVarintLoop, h.head]
      simp only [Varint.toNat_byte (show n % 128 + 128 < 256 by omega), hlow, or_shiftLeft hvalue]
      rw [if_neg (and_high_add (Nat.mod_lt n (by norm_num))), ih (Varint.div_lt hn) (by omega) hmore h.tail]
      -- the low bits and the shifted high bits make up the number
      have hsum : n % 128 * 2 ^ shift + n / 128 * 2 ^ (shift + 7) = n * 2 ^ shift := by
        calc n % 128 * 2 ^ shift + n / 128 * 2 ^ (shift + 7)
            = (n % 128 + 128 * (n / 128)) * 2 ^ shift := by ring
          _ = n * 2 ^ shift := by rw [Nat.mod_add_div]
      rw [Nat.add_assoc value, hsum, List.length_cons, Nat.add_assoc offset, Nat.add_comm 1]

theorem readVarint_at {n : UInt64} (h : Cursor bytes offset (Varint.write 9 n.toNat ++ rest)) :
    readVarint bytes offset = .ok (n.toNat, offset + (Varint.write 9 n.toNat).length) := by
  have hn := n.toNat_lt
  have hread : readVarintLoop bytes 10 offset 0 0 = .ok (0 + n.toNat * 2 ^ 0, _) :=
    readVarintLoop_at (by omega) (by norm_num) (by norm_num) h
  rwa [Nat.zero_add, pow_zero, Nat.mul_one] at hread

end Cursor

/-! ## Headers -/

/-- A consensus context. -/
structure Context where
  epoch : UInt64
  view : UInt64
  leader : FixedBytes ed25519PublicKeyBytes
  parentView : UInt64
  parentCommitment : FixedBytes commitmentBytes
deriving DecidableEq

/-- A context as the library writes it. -/
def Context.layout (c : Context) : Bytes :=
  Varint.write 9 c.epoch.toNat ++ Varint.write 9 c.view.toNat ++ c.leader.1 ++ Varint.write 9 c.parentView.toNat ++
    c.parentCommitment.1

abbrev Digest := FixedBytes digestBytes

/-- How the library writes what is in a header. -/
structure LaidOut (codecs : HeaderCodecs Context Digest) : Prop where
  context : ∀ context, codecs.context.write context = context.layout
  digest : ∀ digest, codecs.digest.write digest = digest.1

/-- What the explorer keeps of a header that ends at `endOffset`. -/
def DecodedBlockHeader.ofHeader (header : Header Context Digest) (endOffset : Nat) : DecodedBlockHeader where
  height := header.height.toNat
  stateRoot := header.stateRoot.1
  stateStart := header.stateRange.start.toNat
  stateTip := header.stateRange.stop.toNat
  transactionsRoot := header.transactionsRoot.1
  transactionsStart := header.transactionsRange.start.toNat
  transactionsTip := header.transactionsRange.stop.toNat
  endOffset := endOffset

/-- An encoded header is parsed wherever it stands: the parser does not throw, returns the fields of the
header, and ends where the header ends. -/
theorem decodeBlockHeader_write {E : Env Digest} {codecs : HeaderCodecs Context Digest} {sizes : EncodeSizes Context}
    (hcodecs : LaidOut codecs) (hsizes : sizes.Exact E codecs) (header : Header Context Digest)
    (before after : Bytes) :
    decodeBlockHeader (before ++ header.write codecs ++ after) before.length =
      .ok (.ofHeader header (before.length + header.encodeSize sizes)) := by
  have c := Cursor.start before (header.write codecs ++ after)
  rw [← Header.length_write hsizes, List.append_assoc]
  generalize before ++ (header.write codecs ++ after) = bytes at c ⊢
  simp only [Header.write, NonEmptyRange.write, hcodecs.context, hcodecs.digest, Context.layout,
    List.append_assoc] at c ⊢
  -- one cursor for each field
  have c1 := c.advance rfl
  have c2 := c1.advance rfl
  have c3 := c2.advance header.context.leader.2
  have c4 := c3.advance rfl
  have c5 := c4.advance header.context.parentCommitment.2
  have c6 := c5.advance header.parent.2
  have c7 := c6.advance (length_toBE 8 _)
  have c8 := c7.advance (length_toBE 8 _)
  have c9 := c8.advance header.stateRoot.2
  have c10 := c9.advance (length_toBE 8 _)
  have c11 := c10.advance (length_toBE 8 _)
  have c12 := c11.advance header.transactionsRoot.2
  have c13 := c12.advance (length_toBE 8 _)
  have hstate := UInt64.lt_iff_toNat_lt.1 header.stateRange.nonempty
  have htransactions := UInt64.lt_iff_toNat_lt.1 header.transactionsRange.nonempty
  unfold decodeBlockHeader
  simp only [readVarint_at c, readVarint_at c1, skip_at c2 header.context.leader.2, readVarint_at c3,
    skip_at c4 header.context.parentCommitment.2, skip_at c5 header.parent.2, readU64Be_at c6,
    skip_at c6 (length_toBE 8 _), skip_at c7 (length_toBE 8 _), readBytes_at c8 header.stateRoot.2,
    skip_at c8 header.stateRoot.2, readU64Be_at c9, skip_at c9 (length_toBE 8 _), readU64Be_at c10,
    skip_at c10 (length_toBE 8 _), readBytes_at c11 header.transactionsRoot.2,
    skip_at c11 header.transactionsRoot.2, readU64Be_at c12, skip_at c12 (length_toBE 8 _), readU64Be_at c13,
    skip_at c13 (length_toBE 8 _), bind, Except.bind]
  rw [if_neg (by omega)]
  unfold DecodedBlockHeader.ofHeader
  apply congrArg Except.ok
  apply congrArg (DecodedBlockHeader.mk _ _ _ _ _ _ _)
  simp only [List.length_append, length_toBE, header.context.leader.2, header.context.parentCommitment.2,
    header.parent.2, header.stateRoot.2, header.transactionsRoot.2]
  omega

def Context.read : Reader Context := do
  let epoch ← Varint.read 9
  let view ← Varint.read 9
  let leader ← Reader.fixed ed25519PublicKeyBytes
  let parentView ← Varint.read 9
  let parentCommitment ← Reader.fixed commitmentBytes
  return ⟨.ofNat epoch, .ofNat view, leader, .ofNat parentView, parentCommitment⟩

def wireCodecs : HeaderCodecs Context Digest := ⟨⟨Context.layout, Context.read⟩, ⟨Subtype.val, Reader.fixed digestBytes⟩⟩

def zeroDigestEnv : Env Digest := ⟨permissiveCrypto, ⟨fun _ => filledBytes _ 0, Subtype.val⟩, ⟨toBE 8, Reader.be 8⟩⟩

/-- Varints of one, two and ten bytes. -/
def varintHeader : Header Context Digest where
  context := ⟨3, 300, filledBytes _ 1, 18446744073709551615, filledBytes _ 2⟩
  parent := filledBytes _ 3
  height := 7
  timestamp := 8
  stateRoot := filledBytes _ 4
  stateRange := ⟨0, 1, wordRange_nonempty⟩
  transactionsRoot := filledBytes _ 5
  transactionsRange := ⟨0, 1, wordRange_nonempty⟩

set_option maxRecDepth 20000 in
theorem decodeBlockHeader_write_sample :
    LaidOut wireCodecs ∧
      decodeBlockHeader ([9, 9] ++ varintHeader.write wireCodecs ++ [9]) 2 =
        .ok ⟨7, List.replicate 32 4, 0, 1, List.replicate 32 5, 0, 1, 2 + 289⟩ := by
  have hcodecs : LaidOut wireCodecs := ⟨fun _ => rfl, fun _ => rfl⟩
  have hsizes : EncodeSizes.Exact ⟨fun _ => 8, fun context => context.layout.length, digestBytes⟩ zeroDigestEnv
      wireCodecs := ⟨fun n => length_toBE 8 n, fun _ => rfl, fun digest => digest.2⟩
  exact ⟨hcodecs, decodeBlockHeader_write hcodecs hsizes varintHeader [9, 9] [9]⟩

end Constantinople.Explorer
