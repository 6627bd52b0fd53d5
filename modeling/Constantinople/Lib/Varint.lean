/-
Varints: seven bits a byte, least significant first, with the high bit set on every byte but the last.
A width bounds the number of bytes: below `128 ^ (w + 1)`, `w` further bytes suffice, and what is written
is read back, whatever follows.
-/
import Constantinople.Lib.Codec

namespace Varint

/-- The varint of `n`, in at most `w + 1` bytes. -/
def write : (w n : Nat) → Bytes
  | 0, n => [UInt8.ofNat n]
  | w + 1, n => if n < 128 then [UInt8.ofNat n] else UInt8.ofNat (n % 128 + 128) :: write w (n / 128)

/-- Reads a varint of at most `w + 1` bytes. -/
def read : (w : Nat) → Reader Nat
  | 0 => do
    let byte ← Reader.u8
    if byte.toNat < 128 then return byte.toNat else Reader.fail (.invalidVarint 1)
  | w + 1 => do
    let byte ← Reader.u8
    if byte.toNat < 128 then return byte.toNat
    else
      let high ← read w
      return byte.toNat - 128 + 128 * high

/-- A last byte stands for itself, any other for its low seven bits. -/
theorem toNat_byte {n : Nat} (h : n < 256) : (UInt8.ofNat n).toNat = n := UInt8.toNat_ofNat_of_lt' h

theorem length_write : ∀ w n, 1 ≤ (write w n).length ∧ (write w n).length ≤ w + 1
  | 0, _ => by simp [write]
  | w + 1, n => by
    rw [write]
    split
    · simp
    · have hlen := length_write w (n / 128)
      simp only [List.length_cons]
      omega

theorem div_lt {w n : Nat} (h : n < 128 ^ (w + 2)) : n / 128 < 128 ^ (w + 1) := by
  rw [Nat.div_lt_iff_lt_mul (by norm_num), ← pow_succ]
  exact h

theorem read_write : ∀ {w n : Nat}, n < 128 ^ (w + 1) → ∀ rest, read w (write w n ++ rest) = .ok (n, rest)
  | 0, n, h, rest => by
    have hlt : n < 128 := by simpa using h
    rw [write, read, List.singleton_append, Reader.bind_eq (Reader.u8_cons _ _), toNat_byte (by omega), if_pos hlt]
    rfl
  | w + 1, n, h, rest => by
    rw [write, read]
    split
    · rename_i hlt
      rw [List.singleton_append, Reader.bind_eq (Reader.u8_cons _ _), toNat_byte (by omega), if_pos hlt]
      rfl
    · rw [List.cons_append, Reader.bind_eq (Reader.u8_cons _ _), toNat_byte (by omega), if_neg (by omega),
        Reader.bind_eq (read_write (div_lt h) rest)]
      show Except.ok _ = _
      congr 2
      omega

end Varint
