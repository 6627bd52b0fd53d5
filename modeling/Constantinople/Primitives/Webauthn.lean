/-
A WebAuthn assertion stands for one challenge. The client data of an assertion names its challenge as
base64 text, and the hand-written encoder of `crates/primitives/src/auth.rs` writes the URL-safe base64
of the library; the text decodes to the challenge, so no assertion is accepted for two of them.
-/
import Constantinople.Lib.Base64
import Constantinople.Primitives.Auth

namespace Constantinople

/-! ## The encoder -/

theorem base64Alphabet_getD : ∀ i < 64, base64Alphabet.getD i 'A' = Base64.urlChar i := by decide +kernel

/-- The second character: the low two bits of one byte and the high four of the next. -/
theorem toNat_second (a b : UInt8) :
    (((a &&& 0x03) <<< 4) ||| (b >>> 4)).toNat = a.toNat % 4 * 16 + b.toNat / 16 := by
  have hand : (a &&& 0x03).toNat = a.toNat % 4 := Nat.and_two_pow_sub_one_eq_mod a.toNat 2
  have hshift : (b >>> 4).toNat = b.toNat / 16 := UInt8.toNat_shiftRight_of_lt (by decide)
  have hb := b.toNat_lt
  rw [UInt8.toNat_shiftLeft_or (by decide), hand, hshift]
  · rfl
  · rw [hand, show (4 : UInt8).toNat = 4 from rfl]
    omega
  · rw [hshift, show (4 : UInt8).toNat = 4 from rfl]
    omega

/-- The third character: the low four bits of one byte and the high two of the next. -/
theorem toNat_third (b c : UInt8) :
    (((b &&& 0x0f) <<< 2) ||| (c >>> 6)).toNat = b.toNat % 16 * 4 + c.toNat / 64 := by
  have hand : (b &&& 0x0f).toNat = b.toNat % 16 := Nat.and_two_pow_sub_one_eq_mod b.toNat 4
  have hshift : (c >>> 6).toNat = c.toNat / 64 := UInt8.toNat_shiftRight_of_lt (by decide)
  have hc := c.toNat_lt
  rw [UInt8.toNat_shiftLeft_or (by decide), hand, hshift]
  · rfl
  · rw [hand, show (2 : UInt8).toNat = 2 from rfl]
    omega
  · rw [hshift, show (2 : UInt8).toNat = 2 from rfl]
    omega

theorem toNat_fourth (c : UInt8) : (c &&& 0x3f).toNat = c.toNat % 64 := Nat.and_two_pow_sub_one_eq_mod c.toNat 6

theorem toNat_first (a : UInt8) : (a >>> 2).toNat = a.toNat / 4 := UInt8.toNat_shiftRight_of_lt (by decide)

theorem alphabet_digit {i : UInt8} {m n : Nat} (h : i.toNat = m) (hm : m < 64) (hn : m = n) :
    base64Alphabet.getD i.toNat 'A' = Base64.urlChar n := by
  rw [h, ← hn]
  exact base64Alphabet_getD m hm

/-- A chunk of one to three bytes is written digit by digit. -/
theorem base64Chunk_eq {chunk : Bytes} (hne : chunk ≠ []) (hlen : chunk.length ≤ 3) :
    base64Chunk chunk = (Base64.digits chunk).map Base64.urlChar := by
  match chunk, hne, hlen with
  | [a], _, _ =>
    have ha := a.toNat_lt
    have h0 : (0 : UInt8).toNat = 0 := rfl
    apply congrArg₂ List.cons (alphabet_digit (toNat_first a) (by omega) (by omega))
    apply congrArg₂ List.cons (alphabet_digit (toNat_second a 0) (by omega) (by omega))
    rfl
  | [a, b], _, _ =>
    have ha := a.toNat_lt
    have hb := b.toNat_lt
    have h0 : (0 : UInt8).toNat = 0 := rfl
    apply congrArg₂ List.cons (alphabet_digit (toNat_first a) (by omega) (by omega))
    apply congrArg₂ List.cons (alphabet_digit (toNat_second a b) (by omega) (by omega))
    apply congrArg₂ List.cons (alphabet_digit (toNat_third b 0) (by omega) (by omega))
    rfl
  | [a, b, c], _, _ =>
    have ha := a.toNat_lt
    have hb := b.toNat_lt
    have hc := c.toNat_lt
    apply congrArg₂ List.cons (alphabet_digit (toNat_first a) (by omega) (by omega))
    apply congrArg₂ List.cons (alphabet_digit (toNat_second a b) (by omega) (by omega))
    apply congrArg₂ List.cons (alphabet_digit (toNat_third b c) (by omega) (by omega))
    apply congrArg₂ List.cons (alphabet_digit (toNat_fourth c) (by omega) (by omega))
    rfl

/-- The encoder writes URL-safe base64 without padding. -/
theorem base64UrlNoPad_eq (bytes : Bytes) : base64UrlNoPad bytes = Base64.encodeUrl bytes := by
  induction bytes using base64UrlNoPad.induct with
  | case1 => rfl
  | case2 a => exact base64Chunk_eq (List.cons_ne_nil _ _) (by simp)
  | case3 a b => exact base64Chunk_eq (List.cons_ne_nil _ _) (by simp)
  | case4 a b c rest ih =>
    rw [base64UrlNoPad, base64Chunk_eq (List.cons_ne_nil a [b, c]) (by simp), ih]
    unfold Base64.encodeUrl
    rw [← List.map_append]
    rfl

/-! ## Assertions -/

/-- What an accepted assertion says: its client data names the challenge. -/
theorem verifyWebauthnAssertion_challenge {c : Crypto} {key : FixedBytes 33} {challenge : Bytes}
    {signature : FixedBytes 64} {authenticatorData clientDataJson : Bytes}
    (h : verifyWebauthnAssertion c key challenge signature authenticatorData clientDataJson = true) :
    ∃ clientData, c.json clientDataJson = some clientData ∧
      clientData "challenge" = some (String.ofList (base64UrlNoPad challenge)) := by
  unfold verifyWebauthnAssertion at h
  split at h
  · cases h
  split at h
  · cases h
  split at h
  · cases h
  rename_i clientData hjson
  split at h
  · cases h
  split at h
  · cases h
  rename_i hchallenge
  exact ⟨clientData, hjson, not_not.1 hchallenge⟩

/-- No assertion is accepted for two challenges. The text it has to name for a challenge is the base64 text
of the challenge, which decodes to it. -/
theorem webauthn_challenge_unique (c : Crypto) (key : FixedBytes 33) (signature : FixedBytes 64)
    (authenticatorData clientDataJson m₁ m₂ : Bytes)
    (h₁ : verifyWebauthnAssertion c key m₁ signature authenticatorData clientDataJson = true)
    (h₂ : verifyWebauthnAssertion c key m₂ signature authenticatorData clientDataJson = true) :
    m₁ = m₂ ∧ ∃ clientData text, c.json clientDataJson = some clientData ∧
      clientData "challenge" = some (String.ofList text) ∧ text = Base64.encodeUrl m₁ ∧
      Base64.decodeUrl text = some m₁ := by
  obtain ⟨clientData, hjson, hchallenge₁⟩ := verifyWebauthnAssertion_challenge h₁
  obtain ⟨clientData', hjson', hchallenge₂⟩ := verifyWebauthnAssertion_challenge h₂
  rw [hjson] at hjson'
  cases hjson'
  rw [base64UrlNoPad_eq] at hchallenge₁ hchallenge₂
  constructor
  · rw [hchallenge₁] at hchallenge₂
    apply Base64.encodeUrl_injective
    exact String.ofList_injective (Option.some.inj hchallenge₂)
  · exact ⟨clientData, Base64.encodeUrl m₁, hjson, hchallenge₁, rfl, Base64.decodeUrl_encodeUrl m₁⟩

/-- The client data of an assertion for the challenge 1, 2, 3, 255. -/
def assertionJson : Bytes :=
  "\x7b\"type\":\"webauthn.get\",\"challenge\":\"AQID_w\"\x7d".toList.map fun c => UInt8.ofNat c.toNat

/-- A JSON reader that knows this text. -/
def assertionCrypto : Crypto :=
  { permissiveCrypto with
    json := fun text => if text = assertionJson then some fun
      | "type" => some "webauthn.get"
      | "challenge" => some "AQID_w"
      | _ => none
    else none }

set_option maxRecDepth 20000 in
theorem webauthn_challenge_unique_sample :
    let authenticatorData : Bytes := List.replicate 32 0 ++ [4, 0, 0, 0, 0]
    verifyWebauthnAssertion assertionCrypto ⟨List.replicate 33 2, rfl⟩ [1, 2, 3, 255] ⟨List.replicate 64 0, rfl⟩
      authenticatorData assertionJson = true ∧
    ∃ clientData text, assertionCrypto.json assertionJson = some clientData ∧
      clientData "challenge" = some (String.ofList text) ∧ Base64.decodeUrl text = some [1, 2, 3, 255] := by
  intro authenticatorData
  have h : verifyWebauthnAssertion assertionCrypto ⟨List.replicate 33 2, rfl⟩ [1, 2, 3, 255]
      ⟨List.replicate 64 0, rfl⟩ authenticatorData assertionJson = true := by decide +kernel
  obtain ⟨-, clientData, text, hjson, hchallenge, -, hdecode⟩ :=
    webauthn_challenge_unique assertionCrypto _ _ _ _ _ _ h h
  exact ⟨h, clientData, text, hjson, hchallenge, hdecode⟩

end Constantinople
