/-
The distinguished encoding of natural numbers and of sequences of them. A field is a tag, a length and as many
content octets. The content of a number is its shortest big-endian form that leaves the sign bit clear, so it
starts with a zero octet exactly if the first bit of the number would stand there.
-/
import Constantinople.Lib.Codec
import Mathlib.Data.Nat.Log

namespace Der

/-- How many content octets a number takes. -/
def width (n : Nat) : Nat := Nat.log 256 (2 * n) + 1

/-- The content octets of a number. -/
def content (n : Nat) : Bytes := toBE (width n) n

/-- A definite length: one octet below 128, otherwise the number of octets that follow, marked by the high bit. -/
def lengthOctets (n : Nat) : Bytes :=
  if n < 128 then [UInt8.ofNat n] else UInt8.ofNat (128 + (Nat.log 256 n + 1)) :: toBE (Nat.log 256 n + 1) n

/-- A field: the tag, the length, the content. -/
def field (tag : UInt8) (octets : Bytes) : Bytes := tag :: (lengthOctets octets.length ++ octets)

def integerTag : UInt8 := 0x02

def sequenceTag : UInt8 := 0x30

def integer (n : Nat) : Bytes := field integerTag (content n)

def sequence (fields : List Bytes) : Bytes := field sequenceTag fields.flatten

/-- The width is the least one that has room for the number and a sign bit. -/
theorem width_le_iff {n w : Nat} (hw : w ≠ 0) : width n ≤ w ↔ 2 * n < 256 ^ w := by
  unfold width
  rw [Nat.add_one_le_iff]
  constructor
  · exact Nat.lt_pow_of_log_lt (by decide)
  · exact Nat.log_lt_of_lt_pow' hw

theorem length_content (n : Nat) : (content n).length = width n := length_toBE _ n

theorem ofBE_content (n : Nat) : ofBE (content n) = n := by
  have hroom : 2 * n < 256 ^ width n := (width_le_iff (Nat.succ_ne_zero _)).1 le_rfl
  rw [content, ofBE_toBE, Nat.mod_eq_of_lt (by omega)]

/-- A short field has one octet of length. -/
theorem field_of_lt {tag : UInt8} {octets : Bytes} (h : octets.length < 128) :
    field tag octets = tag :: UInt8.ofNat octets.length :: octets := by
  rw [field, lengthOctets, if_pos h]
  rfl

end Der
