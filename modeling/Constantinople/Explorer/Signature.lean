/-
The explorer's conversion of passkey signatures, as in `explorer/src/wallet.ts`: the DER form of a signature is
parsed to the 64 bytes of its two integers, and the second one is replaced by the smaller of itself and its
negative modulo the group order. The parser accepts more than DER: it does not look at the length of the
sequence, and takes any octets as the content of an integer. Bigints are integers, and arrays lists of bytes.
-/
import Constantinople.Explorer.Header
import Constantinople.Lib.Der

namespace Constantinople.Explorer

open Constantinople

/-! ## The conversion -/

def p256Order : Nat := 0xffffffff00000000ffffffffffffffffbce6faada7179e84f3b9cac2fc632551

/-- An integer without its leading zeros, and the offset after it; `none` is `NaN`. -/
structure DerInteger where
  value : Bytes
  nextOffset : Option Nat

def readDerInteger (signature : Bytes) : Option Nat → Except Thrown DerInteger
  | none => .error (.error "passkey returned a malformed ECDSA integer")
  | some offset =>
    if signature[offset]? ≠ some 0x02 then .error (.error "passkey returned a malformed ECDSA integer")
    else
      match signature[offset + 1]? with
      -- an undefined length makes the end `NaN`, which is not larger than the length and an empty slice
      | none => .ok ⟨[], none⟩
      | some length =>
        let start := offset + 2
        let stop := start + length.toNat
        if signature.length < stop then .error (.error "passkey returned a truncated ECDSA integer")
        else
          let value := ((signature.take stop).drop start).dropWhile (· = 0)
          if 32 < value.length then .error (.error "passkey returned an oversized ECDSA integer")
          else .ok ⟨value, some stop⟩

/-- The part of `parseDerSignature` before the first integer: the offset where it starts. -/
def derOffset (signature : Bytes) : Except Thrown Nat :=
  if signature.length < 8 ∨ signature[0]? ≠ some 0x30 then
    .error (.error "passkey returned a malformed ECDSA signature")
  else
    let length := (signature.getD 1 0).toNat
    if length &&& 0x80 ≠ 0 then
      if length &&& 0x7f ≠ 1 then .error (.error "passkey returned an unsupported ECDSA signature length") else .ok 3
    else .ok 2

def parseDerSignature (signature : Bytes) : Except Thrown Bytes := do
  let offset ← derOffset signature
  let r ← readDerInteger signature (some offset)
  let s ← readDerInteger signature r.nextOffset
  if s.nextOffset ≠ some signature.length then
    .error (.error "passkey returned a trailing ECDSA signature payload")
  else
    let raw := List.replicate rawSignatureBytes 0
    let raw := setAt raw (32 - r.value.length) r.value
    return setAt raw (64 - s.value.length) s.value

def readBigEndian (bytes : Bytes) : Nat := bytes.foldl (fun value byte => value <<< 8 ||| byte.toNat) 0

/-- The loop of `writeBigEndian` over the bytes below `i`, from the last one on. -/
def writeBigEndianLoop (offset : Nat) : Nat → Bytes → Int → Bytes
  | 0, bytes, _ => bytes
  | i + 1, bytes, value =>
    writeBigEndianLoop offset i (bytes.set (offset + i) (UInt8.ofNat (value % 256).toNat)) (value / 256)

def writeBigEndian (bytes : Bytes) (offset : Nat) (value : Int) : Bytes := writeBigEndianLoop offset 32 bytes value

def normalizeP256Signature (signature : Bytes) : Bytes :=
  let s := readBigEndian (signature.drop 32)
  let halfOrder := p256Order / 2
  if s ≤ halfOrder then signature else writeBigEndian signature 32 ((p256Order : Int) - s)

/-! ## Integers -/

/-- A field as the parser reads it: one octet of length, whatever its high bit is. -/
def integerField (content : Bytes) : Bytes := 0x02 :: UInt8.ofNat content.length :: content

/-- What an integer that is read consists of. -/
structure ReadsInteger (signature : Bytes) (offset : Nat) (integer : DerInteger) (content : Bytes) : Prop where
  short : content.length < 256
  fits : ofBE content < 256 ^ 32
  found : ∃ before after, before.length = offset ∧ signature = before ++ (integerField content ++ after)
  value : integer.value = content.dropWhile (· = 0)
  nextOffset : integer.nextOffset = some (offset + 2 + content.length)

theorem readDerInteger_field (before content after : Bytes) (hshort : content.length < 256)
    (hfits : ofBE content < 256 ^ 32) :
    readDerInteger (before ++ (integerField content ++ after)) (some before.length) =
      .ok ⟨content.dropWhile (· = 0), some (before.length + 2 + content.length)⟩ := by
  have htag : (before ++ (integerField content ++ after))[before.length]? = some 0x02 := by simp [integerField]
  have hlength : (before ++ (integerField content ++ after))[before.length + 1]? = some (UInt8.ofNat content.length) := by
    simp [integerField]
  have hoctet : (UInt8.ofNat content.length).toNat = content.length := by
    rw [UInt8.toNat_ofNat']
    omega
  have hsplit : before ++ (integerField content ++ after) =
      (before ++ [0x02, UInt8.ofNat content.length] ++ content) ++ after := by simp [integerField]
  have hslice : ((before ++ (integerField content ++ after)).take (before.length + 2 + content.length)).drop
      (before.length + 2) = content := by
    rw [hsplit, List.take_left' (by simp; omega), List.drop_left' (by simp)]
  unfold readDerInteger
  simp only [htag, hlength, hoctet, hslice, ne_eq, not_true_eq_false, if_false]
  rw [if_neg (by simp [integerField]; omega), if_neg (Nat.not_lt.2 (length_dropWhile_le_iff.2 hfits))]

theorem readDerInteger_ok {signature : Bytes} {offset : Nat} {integer : DerInteger}
    (h : readDerInteger signature (some offset) = .ok integer) (hnext : integer.nextOffset ≠ none) :
    ∃ content, ReadsInteger signature offset integer content := by
  unfold readDerInteger at h
  simp only at h
  split at h
  · cases h
  rename_i htag
  split at h
  · cases h
    exact absurd rfl hnext
  rename_i length hlength
  split at h
  · cases h
  rename_i hroom
  split at h
  · cases h
  rename_i hsize
  cases h
  obtain ⟨hoffset, htag⟩ := List.getElem?_eq_some_iff.1 (not_not.1 htag)
  obtain ⟨hoffset', hlength⟩ := List.getElem?_eq_some_iff.1 hlength
  have hcontent : ((signature.take (offset + 2 + length.toNat)).drop (offset + 2)).length = length.toNat := by
    rw [List.length_drop, List.length_take]
    omega
  have hfield : signature.drop offset = 0x02 :: length :: signature.drop (offset + 2) := by
    rw [List.drop_eq_getElem_cons hoffset, htag, List.drop_eq_getElem_cons hoffset', hlength]
  have hrest : signature.drop (offset + 2) = (signature.take (offset + 2 + length.toNat)).drop (offset + 2) ++
      signature.drop (offset + 2 + length.toNat) := by
    have hsplit := List.take_append_drop length.toNat (signature.drop (offset + 2))
    rw [List.drop_drop] at hsplit
    rw [List.drop_take, Nat.add_sub_cancel_left, hsplit]
  refine ⟨(signature.take (offset + 2 + length.toNat)).drop (offset + 2), ?_, ?_, ?_, rfl, ?_⟩
  · rw [hcontent]
    exact length.toNat_lt
  · exact length_dropWhile_le_iff.1 (Nat.not_lt.1 hsize)
  · refine ⟨signature.take offset, signature.drop (offset + 2 + length.toNat), by simp; omega, ?_⟩
    rw [integerField, hcontent, UInt8.ofNat_toNat, List.cons_append, List.cons_append, ← hrest, ← hfield,
      List.take_append_drop]
  · rw [hcontent]

/-! ## Signatures -/

/-- The octets before the integers: the tag of a sequence, and a length of one octet, or one that is announced by
another octet. The length itself is not looked at. -/
inductive DerHeader : Bytes → Prop
  | short (length : UInt8) (h : length.toNat < 128) : DerHeader [0x30, length]
  | long (length : UInt8) : DerHeader [0x30, 0x81, length]

theorem and_high_eq_zero_iff {n : Nat} (h : n < 256) : n &&& 0x80 = 0 ↔ n < 128 := by
  constructor
  · intro hand
    by_contra hlarge
    obtain ⟨m, rfl⟩ := Nat.exists_eq_add_of_le' (Nat.not_lt.1 hlarge)
    exact and_high_add (by omega) hand
  · exact and_high_of_lt

theorem derOffset_ok {signature : Bytes} {offset : Nat} :
    derOffset signature = .ok offset ↔
      8 ≤ signature.length ∧ ∃ header rest, DerHeader header ∧ signature = header ++ rest ∧ offset = header.length := by
  unfold derOffset
  constructor
  · intro h
    split at h
    · cases h
    rename_i hstart
    obtain ⟨hlength, htag⟩ := not_or.1 hstart
    -- a tag and two more octets
    obtain ⟨tag, length, next, rest, rfl⟩ : ∃ tag length next rest, signature = tag :: length :: next :: rest := by
      rcases signature with _ | ⟨tag, _ | ⟨length, _ | ⟨next, rest⟩⟩⟩
      · simp at hlength
      · simp at hlength
      · simp at hlength
      · exact ⟨tag, length, next, rest, rfl⟩
    obtain rfl : tag = 0x30 := Option.some.inj (not_not.1 htag)
    refine ⟨Nat.not_lt.1 hlength, ?_⟩
    simp only [List.getD_cons_succ, List.getD_cons_zero] at h
    split at h
    · rename_i hhigh
      split at h
      · cases h
      · rename_i hone
        cases h
        have hlarge := mt (and_high_eq_zero_iff length.toNat_lt).2 hhigh
        have hlow : length.toNat % 2 ^ 7 = 1 := (Nat.and_two_pow_sub_one_eq_mod _ 7).symm.trans (not_not.1 hone)
        obtain rfl : length = 0x81 := by
          rw [← UInt8.toNat_inj]
          have hbyte := length.toNat_lt
          show length.toNat = 129
          omega
        exact ⟨[0x30, 0x81, next], rest, .long next, rfl, rfl⟩
    · rename_i hlow
      cases h
      have hshort := (and_high_eq_zero_iff length.toNat_lt).1 (not_not.1 hlow)
      exact ⟨[0x30, length], next :: rest, .short length hshort, rfl, rfl⟩
  · rintro ⟨hlength, header, rest, hheader, rfl, rfl⟩
    cases hheader with
    | short length h =>
      rw [if_neg fun hstart => hstart.elim (Nat.not_lt.2 hlength) fun htag => htag rfl]
      exact if_neg (not_not.2 (and_high_of_lt h))
    | long length =>
      rw [if_neg fun hstart => hstart.elim (Nat.not_lt.2 hlength) fun htag => htag rfl]
      have hmarked : ([0x30, 0x81, length] ++ rest).getD 1 0 = 0x81 := rfl
      rw [hmarked]
      rfl

/-- The two integers filled up to 32 bytes each. -/
theorem setAt_halves {r s : Bytes} (hr : r.length ≤ 32) (hs : s.length ≤ 32) :
    setAt (setAt (List.replicate rawSignatureBytes 0) (32 - r.length) r) (64 - s.length) s =
      toBE 32 (ofBE r) ++ toBE 32 (ofBE s) := by
  have hraw : List.replicate rawSignatureBytes (0 : UInt8) = List.replicate (32 - r.length) 0 ++
      (List.replicate r.length 0 ++ (List.replicate (32 - s.length) 0 ++ List.replicate s.length 0)) := by
    simp only [← List.replicate_add, rawSignatureBytes]
    congr 1
    omega
  have hfirst : setAt (List.replicate rawSignatureBytes 0) (32 - r.length) r =
      (List.replicate (32 - r.length) 0 ++ r ++ List.replicate (32 - s.length) 0) ++ (List.replicate s.length 0 ++ []) := by
    rw [hraw, setAt_replace List.length_replicate.symm List.length_replicate]
    simp
  rw [hfirst, setAt_replace (by simp; omega) List.length_replicate, ← zeros_append_eq_toBE hr, ← zeros_append_eq_toBE hs]
  simp

theorem length_integerField (content : Bytes) : (integerField content).length = 2 + content.length := by
  simp only [integerField, List.length_cons]
  omega

/-- The parser returns on a header and two integer fields of at most 256 bits that end with the input. -/
theorem parseDerSignature_ok {signature raw : Bytes} :
    parseDerSignature signature = .ok raw ↔ 8 ≤ signature.length ∧ ∃ header r s : Bytes, DerHeader header ∧
      r.length < 256 ∧ s.length < 256 ∧ signature = header ++ integerField r ++ integerField s ∧
      ofBE r < 256 ^ 32 ∧ ofBE s < 256 ^ 32 ∧ raw = toBE 32 (ofBE r) ++ toBE 32 (ofBE s) := by
  unfold parseDerSignature
  constructor
  · intro h
    rcases hoffset : derOffset signature with _ | offset
    · rw [hoffset] at h
      cases h
    rw [hoffset] at h
    obtain ⟨hlength, header, rest, hheader, hsignature, rfl⟩ := derOffset_ok.1 hoffset
    simp only [bind, Except.bind] at h
    rcases hr : readDerInteger signature (some header.length) with _ | r
    · simp only [hr] at h
      cases h
    simp only [hr] at h
    rcases hs : readDerInteger signature r.nextOffset with _ | s
    · simp only [hs] at h
      cases h
    simp only [hs] at h
    split at h
    · cases h
    rename_i hend
    rw [not_not] at hend
    cases h
    -- after a missing length the second integer cannot be read
    have hnext : r.nextOffset ≠ none := by
      intro hnan
      rw [hnan] at hs
      cases hs
    obtain ⟨first, hfirst⟩ := readDerInteger_ok hr hnext
    rw [hfirst.nextOffset] at hs
    obtain ⟨second, hsecond⟩ := readDerInteger_ok hs (by rw [hend]; exact Option.some_ne_none _)
    obtain ⟨before, after, hbefore, hfound⟩ := hfirst.found
    obtain ⟨before', after', hbefore', hfound'⟩ := hsecond.found
    obtain rfl : before = header := (List.append_inj (hfound.symm.trans hsignature) hbefore).1
    obtain rfl : before' = before ++ integerField first := by
      refine (List.append_inj (hfound'.symm.trans (hfound.trans (List.append_assoc ..).symm)) ?_).1
      rw [hbefore', List.length_append, length_integerField, Nat.add_assoc]
    obtain rfl : after' = [] := by
      have hstop := Option.some.inj (hsecond.nextOffset.symm.trans hend)
      have htotal := congrArg List.length hfound'
      simp only [List.length_append, length_integerField] at htotal
      exact List.length_eq_zero_iff.1 (by omega)
    rw [List.append_nil] at hfound'
    refine ⟨hlength, before, first, second, hheader, hfirst.short, hsecond.short, hfound', hfirst.fits, hsecond.fits, ?_⟩
    rw [hfirst.value, hsecond.value, setAt_halves (length_dropWhile_le_iff.2 hfirst.fits)
      (length_dropWhile_le_iff.2 hsecond.fits), ofBE_dropWhile, ofBE_dropWhile]
  · rintro ⟨hlength, header, r, s, hheader, hr, hs, rfl, hrfits, hsfits, hraw⟩
    have hoffset := derOffset_ok.2 ⟨hlength, header, integerField r ++ integerField s, hheader, List.append_assoc .., rfl⟩
    have hfirst := readDerInteger_field header r (integerField s) hr hrfits
    have hsecond := readDerInteger_field (header ++ integerField r) s [] hs hsfits
    rw [← List.append_assoc] at hfirst
    rw [List.append_nil, List.length_append, length_integerField, ← Nat.add_assoc] at hsecond
    simp only [bind, Except.bind, hoffset, hfirst, hsecond]
    rw [if_neg]
    · rw [hraw, setAt_halves (length_dropWhile_le_iff.2 hrfits) (length_dropWhile_le_iff.2 hsfits), ofBE_dropWhile,
        ofBE_dropWhile]
      rfl
    · simp only [List.length_append, length_integerField, Nat.add_assoc, not_not]

/-- The DER form of two integers of at most 256 bits is parsed. -/
theorem parseDerSignature_sequence {r s : Nat} (hr : r < 256 ^ 32) (hs : s < 256 ^ 32) :
    parseDerSignature (Der.sequence [Der.integer r, Der.integer s]) = .ok (toBE 32 r ++ toBE 32 s) := by
  have hwidth : ∀ n < 256 ^ 32, (Der.content n).length ≤ 33 := by
    intro n hn
    rw [Der.length_content, Der.width_le_iff (by decide), Nat.pow_succ]
    omega
  have hfield : ∀ n < 256 ^ 32, Der.integer n = integerField (Der.content n) := by
    intro n hn
    exact Der.field_of_lt (by have := hwidth n hn; omega)
  have hpositive : ∀ n, 1 ≤ (Der.content n).length := by
    intro n
    rw [Der.length_content]
    exact Nat.le_add_left ..
  have hrwidth := hwidth r hr
  have hswidth := hwidth s hs
  have hfields : [Der.integer r, Der.integer s].flatten = integerField (Der.content r) ++ integerField (Der.content s) := by
    simp [hfield r hr, hfield s hs]
  have hlength : [Der.integer r, Der.integer s].flatten.length = 4 + (Der.content r).length + (Der.content s).length := by
    rw [hfields, List.length_append, length_integerField, length_integerField]
    omega
  have hsequence : Der.sequence [Der.integer r, Der.integer s] =
      [0x30, UInt8.ofNat [Der.integer r, Der.integer s].flatten.length] ++ integerField (Der.content r) ++
        integerField (Der.content s) := by
    rw [List.append_assoc, ← hfields]
    exact Der.field_of_lt (by omega)
  refine parseDerSignature_ok.2 ⟨?_, _, Der.content r, Der.content s, .short _ ?_, by omega, by omega, hsequence, ?_⟩
  · have hrpositive := hpositive r
    have hspositive := hpositive s
    simp only [hsequence, List.length_append, length_integerField, List.length_cons, List.length_nil]
    omega
  · rw [UInt8.toNat_ofNat']
    omega
  · simp only [Der.ofBE_content]
    exact ⟨hr, hs, trivial⟩

/-! ## Normalization -/

theorem readBigEndian_eq (bytes : Bytes) : readBigEndian bytes = ofBE bytes := by
  unfold readBigEndian ofBE
  congr 1
  funext value byte
  rw [← Nat.shiftLeft_add_eq_or_of_lt byte.toNat_lt, Nat.shiftLeft_eq]

/-- The bytes below the offset that is reached are still to be written. -/
theorem writeBigEndianLoop_eq (before head tail : Bytes) (value : Int) :
    writeBigEndianLoop before.length head.length (before ++ (head ++ tail)) value =
      before ++ (intToBE head.length value ++ tail) := by
  induction head using List.reverseRecOn generalizing tail value with
  | nil => rfl
  | append_singleton head b ih =>
    have hset : (before ++ (head ++ [b] ++ tail)).set (before.length + head.length) (UInt8.ofNat (value % 256).toNat) =
        before ++ (head ++ (UInt8.ofNat (value % 256).toNat :: tail)) := by
      simp
    rw [List.length_append, List.length_singleton, writeBigEndianLoop, hset, ih, intToBE_succ]
    simp

/-- What becomes of the second integer. -/
def lowHalf (s : Bytes) : Bytes :=
  if ofBE s ≤ p256Order / 2 then s else intToBE 32 ((p256Order : Int) - ofBE s)

theorem length_lowHalf {s : Bytes} (hs : s.length = 32) : (lowHalf s).length = 32 := by
  unfold lowHalf
  split
  · exact hs
  · exact length_intToBE 32 _

theorem normalizeP256Signature_halves {r s : Bytes} (hr : r.length = 32) (hs : s.length = 32) :
    normalizeP256Signature (r ++ s) = r ++ lowHalf s := by
  unfold normalizeP256Signature lowHalf
  simp only [List.drop_left' hr, readBigEndian_eq]
  split
  · rfl
  · have hwrite := writeBigEndianLoop_eq r s [] ((p256Order : Int) - ofBE s)
    rw [hr, hs, List.append_nil, List.append_nil] at hwrite
    exact hwrite

/-- Up to the order a large integer is negated; beyond it the negative number wraps. -/
theorem ofBE_lowHalf (s : Bytes) (hs : s.length = 32) :
    ofBE (lowHalf s) = if ofBE s ≤ p256Order / 2 then ofBE s
      else if ofBE s ≤ p256Order then p256Order - ofBE s else 256 ^ 32 + p256Order - ofBE s := by
  have hbound := ofBE_lt s
  rw [hs] at hbound
  unfold lowHalf
  split
  · rfl
  · have hwritten := ofBE_intToBE 32 ((p256Order : Int) - ofBE s)
    unfold p256Order at *
    split
    · omega
    · omega

theorem lowHalf_idempotent_iff {s : Bytes} (hs : s.length = 32) :
    lowHalf (lowHalf s) = lowHalf s ↔ ofBE s ≤ p256Order := by
  have hlow := length_lowHalf hs
  have hbound := ofBE_lt s
  rw [hs] at hbound
  rw [← ofBE_inj ((length_lowHalf hlow).trans hlow.symm), ofBE_lowHalf _ hlow, ofBE_lowHalf s hs]
  -- the order is odd, so beyond it no number is its own negative
  unfold p256Order at *
  split_ifs <;> omega

theorem normalizeP256Signature_idempotent_iff {raw : Bytes} (h : raw.length = 64) :
    normalizeP256Signature (normalizeP256Signature raw) = normalizeP256Signature raw ↔ ofBE (raw.drop 32) ≤ p256Order := by
  have hleft : (raw.take 32).length = 32 := by
    rw [List.length_take]
    omega
  have hright : (raw.drop 32).length = 32 := by
    rw [List.length_drop]
    omega
  have hhalves := normalizeP256Signature_halves hleft hright
  rw [List.take_append_drop] at hhalves
  rw [hhalves, normalizeP256Signature_halves hleft (length_lowHalf hright), List.append_cancel_left_eq,
    lowHalf_idempotent_iff hright]

theorem lowHalf_toBE {s : Nat} (hs : s < p256Order) : lowHalf (toBE 32 s) = toBE 32 (min s (p256Order - s)) := by
  have hbound : p256Order < 256 ^ 32 := by decide
  have hlow := length_lowHalf (length_toBE 32 s)
  rw [← ofBE_inj (hlow.trans (length_toBE 32 _).symm), ofBE_lowHalf _ (length_toBE 32 s), ofBE_toBE, ofBE_toBE,
    Nat.mod_eq_of_lt (by omega), Nat.mod_eq_of_lt (by omega)]
  unfold p256Order at *
  split_ifs <;> omega

/-- The DER form of a signature is converted to its two integers, of which the second is made the smaller of the
two it can be. Normalizing again changes nothing exactly for a second integer up to the group order. Whatever the
parser returns are the values of two fields that end with the input. -/
theorem der_signature_converted :
    (∀ r < p256Order, ∀ s < p256Order,
      parseDerSignature (Der.sequence [Der.integer r, Der.integer s]) = .ok (toBE 32 r ++ toBE 32 s) ∧
      normalizeP256Signature (toBE 32 r ++ toBE 32 s) = toBE 32 r ++ toBE 32 (min s (p256Order - s))) ∧
    (∀ raw : Bytes, raw.length = 64 →
      (normalizeP256Signature (normalizeP256Signature raw) = normalizeP256Signature raw ↔
        ofBE (raw.drop 32) ≤ p256Order)) ∧
    ∀ signature raw, parseDerSignature signature = .ok raw → raw.length = 64 ∧ ∃ header r s : Bytes, DerHeader header ∧
      r.length < 256 ∧ s.length < 256 ∧ signature = header ++ integerField r ++ integerField s ∧
      ofBE (raw.take 32) = ofBE r ∧ ofBE (raw.drop 32) = ofBE s := by
  have hbound : p256Order < 256 ^ 32 := by decide
  refine ⟨?_, ?_, ?_⟩
  · intro r hr s hs
    constructor
    · exact parseDerSignature_sequence (hr.trans hbound) (hs.trans hbound)
    · rw [normalizeP256Signature_halves (length_toBE 32 r) (length_toBE 32 s), lowHalf_toBE hs]
  · intro raw hraw
    exact normalizeP256Signature_idempotent_iff hraw
  · intro signature raw hparsed
    obtain ⟨-, header, r, s, hheader, hr, hs, hsignature, hrfits, hsfits, hraw⟩ := parseDerSignature_ok.1 hparsed
    refine ⟨by rw [hraw, List.length_append, length_toBE, length_toBE], header, r, s, hheader, hr, hs, hsignature, ?_, ?_⟩
    · rw [hraw, List.take_left' (length_toBE 32 _), ofBE_toBE, Nat.mod_eq_of_lt hrfits]
    · rw [hraw, List.drop_left' (length_toBE 32 _), ofBE_toBE, Nat.mod_eq_of_lt hsfits]

/-- A large second integer. -/
theorem der_signature_converted_sample :
    parseDerSignature (Der.sequence [Der.integer 1, Der.integer (p256Order - 1)]) = .ok (toBE 32 1 ++ toBE 32 (p256Order - 1)) ∧
    normalizeP256Signature (toBE 32 1 ++ toBE 32 (p256Order - 1)) = toBE 32 1 ++ toBE 32 1 :=
  der_signature_converted.1 1 (by decide) (p256Order - 1) (by decide)

/-- Two fields that the parser reads, the first without content and the second with a superfluous zero. -/
def lenientSignature : Bytes := [0x30, 0x06, 0x02, 0x00, 0x02, 0x02, 0x00, 0x01]

/-- No number has the form of a field that ends with them. -/
theorem lenientSignature_ne (before : Bytes) (n : Nat) : lenientSignature ≠ before ++ Der.integer n := by
  intro h
  have hpositive : 1 ≤ (Der.content n).length := by
    rw [Der.length_content]
    exact Nat.le_add_left ..
  have hlength := congrArg List.length h
  have hshort : (Der.content n).length < 128 := by
    simp only [lenientSignature, Der.integer, Der.field, List.length_append, List.length_cons, List.length_nil] at hlength
    omega
  rw [show Der.integer n = integerField (Der.content n) from Der.field_of_lt hshort] at h hlength
  rw [List.length_append, length_integerField] at hlength
  have hdrop : lenientSignature.drop before.length = integerField (Der.content n) := by
    rw [h, List.drop_left]
  have hbefore : before.length ≤ 5 := by
    simp only [lenientSignature, List.length_cons, List.length_nil] at hlength
    omega
  -- the octet after the tag is the length
  generalize hcontent : Der.content n = content at *
  interval_cases before.length
  all_goals
    simp only [lenientSignature, integerField, List.drop_succ_cons, List.drop_zero, List.cons.injEq] at hdrop
  · exact absurd hdrop.1 (by decide)
  · exact absurd hdrop.1 (by decide)
  · obtain ⟨-, hoctet, rfl⟩ := hdrop
    exact absurd hoctet (by decide)
  · exact absurd hdrop.1 (by decide)
  · obtain ⟨-, -, rfl⟩ := hdrop
    have hn : n = 1 := by rw [← Der.ofBE_content n, hcontent]; decide
    rw [hn] at hcontent
    have hwidth := congrArg List.length hcontent
    rw [Der.length_content, Der.width, Nat.log_of_lt (by decide)] at hwidth
    cases hwidth
  · obtain ⟨-, hoctet, rfl⟩ := hdrop
    exact absurd hoctet (by decide)

/-- Beyond the group order normalizing twice gives another signature than normalizing once, and the parser accepts
fields that are not those of DER: no DER integer ends where they end. -/
theorem der_signature_lenient :
    (∃ signature raw, parseDerSignature signature = .ok raw ∧
      normalizeP256Signature (normalizeP256Signature raw) ≠ normalizeP256Signature raw) ∧
    parseDerSignature lenientSignature = .ok (toBE 32 0 ++ toBE 32 1) ∧
    ∀ before n, lenientSignature ≠ before ++ Der.integer n := by
  refine ⟨?_, ?_, lenientSignature_ne⟩
  · have hparsed := parseDerSignature_sequence (r := 1) (s := 256 ^ 32 - 1) (by decide) (by decide)
    refine ⟨_, _, hparsed, ?_⟩
    rw [Ne, normalizeP256Signature_idempotent_iff (by rw [List.length_append, length_toBE, length_toBE]),
      List.drop_left' (length_toBE 32 1), ofBE_toBE]
    decide
  · exact parseDerSignature_ok.2 ⟨by decide, [0x30, 0x06], [], [0x00, 0x01], .short 0x06 (by decide), by decide, by decide,
      rfl, by decide, by decide, rfl⟩

end Constantinople.Explorer
