/-
Percent-encoding of bytes: a byte that may stand for itself does, and every other one is a percent sign with two
digits. No two byte strings have one encoding, and the encoding has no character that may not stand for itself
beside percent signs and digits; so encodings joined by another character are told apart.
-/
import Mathlib.Tactic

namespace Percent

/-- A digit of a byte, in upper case. -/
def digit (n : ℕ) : Char := Char.ofNat (if n < 10 then 48 + n else 55 + n)

def escapeByte (keep : UInt8 → Bool) (b : UInt8) : List Char :=
  if keep b then [Char.ofNat b.toNat] else ['%', digit (b.toNat / 16), digit (b.toNat % 16)]

def escape (keep : UInt8 → Bool) (bytes : List UInt8) : List Char := bytes.flatMap (escapeByte keep)

theorem digit_inj : ∀ m < 16, ∀ n < 16, digit m = digit n → m = n := by decide

theorem toNat_char (b : UInt8) : (Char.ofNat b.toNat).toNat = b.toNat := by
  have hvalid : b.toNat.isValidChar := .inl (lt_trans b.toNat_lt (by decide))
  rw [Char.ofNat, dif_pos hvalid]
  rfl

theorem char_inj {b c : UInt8} (h : Char.ofNat b.toNat = Char.ofNat c.toNat) : b = c := by
  have hnat := congrArg Char.toNat h
  rw [toNat_char, toNat_char] at hnat
  exact UInt8.toNat_inj.1 hnat

section Escape

variable {keep : UInt8 → Bool} (hpercent : keep 37 = false)

include hpercent

theorem char_ne_percent {b : UInt8} (h : keep b = true) : Char.ofNat b.toNat ≠ '%' := by
  intro heq
  have hb : b = 37 := char_inj heq
  rw [hb, hpercent] at h
  cases h

theorem escapeByte_append_inj {b c : UInt8} {r s : List Char}
    (h : escapeByte keep b ++ r = escapeByte keep c ++ s) : b = c ∧ r = s := by
  unfold escapeByte at h
  split at h
  · rename_i hb
    split at h
    · obtain ⟨hchar, hrest⟩ := List.cons.inj h
      exact ⟨char_inj hchar, hrest⟩
    · exact absurd (List.cons.inj h).1 (char_ne_percent hpercent hb)
  · split at h
    · rename_i hc
      exact absurd (List.cons.inj h).1.symm (char_ne_percent hpercent hc)
    · obtain ⟨-, h⟩ := List.cons.inj h
      obtain ⟨hhigh, h⟩ := List.cons.inj h
      obtain ⟨hlow, hrest⟩ := List.cons.inj h
      have hb := b.toNat_lt
      have hc := c.toNat_lt
      have hhigh := digit_inj _ (by omega) _ (by omega) hhigh
      have hlow := digit_inj _ (by omega) _ (by omega) hlow
      exact ⟨UInt8.toNat_inj.1 (by omega), hrest⟩

theorem escape_injective : Function.Injective (escape keep) := by
  intro bytes
  induction bytes with
  | nil =>
    intro bytes' h
    cases bytes' with
    | nil => rfl
    | cons b bytes' =>
      simp only [escape, List.flatMap_nil, List.flatMap_cons, escapeByte] at h
      split at h <;> simp at h
  | cons b bytes ih =>
    intro bytes' h
    cases bytes' with
    | nil =>
      simp only [escape, List.flatMap_nil, List.flatMap_cons, escapeByte] at h
      split at h <;> simp at h
    | cons c bytes' =>
      obtain ⟨hbyte, hrest⟩ := escapeByte_append_inj hpercent h
      rw [hbyte, ih hrest]

end Escape

/-- A character that is neither kept nor part of an escape. -/
theorem not_mem_escape (keep : UInt8 → Bool) (sep : UInt8) (hkeep : keep sep = false)
    (hdigit : ∀ n < 16, digit n ≠ Char.ofNat sep.toNat) (hpercent : Char.ofNat sep.toNat ≠ '%') (bytes : List UInt8) :
    Char.ofNat sep.toNat ∉ escape keep bytes := by
  intro hmem
  obtain ⟨b, -, hb⟩ := List.mem_flatMap.1 hmem
  unfold escapeByte at hb
  split at hb
  · rename_i hkept
    rw [← char_inj (List.mem_singleton.1 hb), hkeep] at hkept
    cases hkept
  · have hlt := b.toNat_lt
    simp only [List.mem_cons, List.not_mem_nil, or_false] at hb
    rcases hb with hb | hb | hb
    · exact hpercent hb
    · exact hdigit _ (by omega) hb.symm
    · exact hdigit _ (by omega) hb.symm

/-- Texts without a separator can be read off their join. -/
theorem intercalate_inj {α : Type} [DecidableEq α] {sep : α} {texts texts' : List (List α)}
    (h : ∀ text ∈ texts, sep ∉ text) (h' : ∀ text ∈ texts', sep ∉ text) (hne : texts ≠ []) (hne' : texts' ≠ [])
    (heq : [sep].intercalate texts = [sep].intercalate texts') : texts = texts' := by
  rw [← List.splitOn_intercalate sep h hne, heq, List.splitOn_intercalate sep h' hne']

end Percent
