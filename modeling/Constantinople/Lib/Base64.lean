/-
Base64 with the URL-safe alphabet and without padding: groups of three bytes
are read as one number of 24 bits and written as four digits of 6 bits; a last group of one or two bytes
is filled up with zero bits to two or three digits. Decoding gives the bytes back, so the encoding is
injective.
-/
import Mathlib.Tactic

namespace Base64

/-! ## The alphabet -/

/-- The character of a digit. -/
def urlChar (i : Nat) : Char :=
  if i < 26 then Char.ofNat (65 + i)
  else if i < 52 then Char.ofNat (97 + (i - 26))
  else if i < 62 then Char.ofNat (48 + (i - 52))
  else if i = 62 then '-'
  else '_'

/-- The digit of a character. -/
def urlIndex (c : Char) : Option Nat :=
  if 65 ≤ c.toNat ∧ c.toNat ≤ 90 then some (c.toNat - 65)
  else if 97 ≤ c.toNat ∧ c.toNat ≤ 122 then some (c.toNat - 97 + 26)
  else if 48 ≤ c.toNat ∧ c.toNat ≤ 57 then some (c.toNat - 48 + 52)
  else if c = '-' then some 62
  else if c = '_' then some 63
  else none

theorem urlIndex_urlChar : ∀ i < 64, urlIndex (urlChar i) = some i := by decide

theorem mapM_urlIndex {digits : List Nat} (h : ∀ i ∈ digits, i < 64) :
    (digits.map urlChar).mapM urlIndex = some digits := by
  induction digits with
  | nil => rfl
  | cons i digits ih =>
    obtain ⟨hi, hrest⟩ := List.forall_mem_cons.1 h
    simp [List.mapM_cons, urlIndex_urlChar i hi, ih hrest]

/-! ## Digits -/

/-- The digits of a list of bytes. -/
def digits : List UInt8 → List Nat
  | [] => []
  | [a] =>
    let n := a.toNat * 2 ^ 4
    [n / 64, n % 64]
  | [a, b] =>
    let n := (a.toNat * 256 + b.toNat) * 2 ^ 2
    [n / 64 ^ 2, n / 64 % 64, n % 64]
  | a :: b :: c :: rest =>
    let n := (a.toNat * 256 + b.toNat) * 256 + c.toNat
    [n / 64 ^ 3, n / 64 ^ 2 % 64, n / 64 % 64, n % 64] ++ digits rest

/-- The bytes of a list of digits; the zero bits of a last short group are dropped, and no group has a
single digit. -/
def bytes : List Nat → Option (List UInt8)
  | [] => some []
  | [_] => none
  | [i, j] => some [UInt8.ofNat ((i * 64 + j) / 2 ^ 4)]
  | [i, j, k] =>
    let n := ((i * 64 + j) * 64 + k) / 2 ^ 2
    some [UInt8.ofNat (n / 256), UInt8.ofNat (n % 256)]
  | i :: j :: k :: l :: rest =>
    let n := ((i * 64 + j) * 64 + k) * 64 + l
    match bytes rest with
    | none => none
    | some rest => some (UInt8.ofNat (n / 256 ^ 2) :: UInt8.ofNat (n / 256 % 256) :: UInt8.ofNat (n % 256) :: rest)

theorem digits_lt (bs : List UInt8) : ∀ i ∈ digits bs, i < 64 := by
  induction bs using digits.induct with
  | case1 => simp [digits]
  | case2 a =>
    have := a.toNat_lt
    simp [digits]
    omega
  | case3 a b =>
    have := a.toNat_lt
    have := b.toNat_lt
    simp [digits]
    omega
  | case4 a b c rest ih =>
    have := a.toNat_lt
    have := b.toNat_lt
    have := c.toNat_lt
    simp only [digits, List.cons_append, List.nil_append, List.forall_mem_cons]
    refine ⟨by omega, by omega, by omega, by omega, ih⟩

/-- A byte is determined by its value. -/
theorem ofNat_eq {n : Nat} {a : UInt8} (h : n = a.toNat) : UInt8.ofNat n = a := by
  rw [h, UInt8.ofNat_toNat]

theorem bytes_digits (bs : List UInt8) : bytes (digits bs) = some bs := by
  induction bs using digits.induct with
  | case1 => rfl
  | case2 a =>
    simp only [digits, bytes]
    rw [ofNat_eq (a := a) (by omega)]
  | case3 a b =>
    have := b.toNat_lt
    simp only [digits, bytes]
    rw [ofNat_eq (a := a) (by omega), ofNat_eq (a := b) (by omega)]
  | case4 a b c rest ih =>
    have := b.toNat_lt
    have := c.toNat_lt
    simp only [digits, bytes, List.cons_append, List.nil_append, ih]
    rw [ofNat_eq (a := a) (by omega), ofNat_eq (a := b) (by omega), ofNat_eq (a := c) (by omega)]

/-! ## Texts -/

def encodeUrl (bs : List UInt8) : List Char := (digits bs).map urlChar

def decodeUrl (text : List Char) : Option (List UInt8) :=
  match text.mapM urlIndex with
  | none => none
  | some digits => bytes digits

theorem decodeUrl_encodeUrl (bs : List UInt8) : decodeUrl (encodeUrl bs) = some bs := by
  unfold decodeUrl encodeUrl
  rw [mapM_urlIndex (digits_lt bs)]
  exact bytes_digits bs

theorem encodeUrl_injective : Function.Injective encodeUrl := by
  intro bs bs' h
  apply Option.some_injective
  rw [← decodeUrl_encodeUrl bs, ← decodeUrl_encodeUrl bs', h]

end Base64
