/-
Byte strings and readers over them. A reader consumes bytes from the front and fails with a codec
error; `decode` also refuses bytes left over. Fixed-width integers are big-endian. The laws are the
ones a wire format rests on: a reader that succeeds has consumed exactly the bytes its writer
writes for the value it returns (`Reader.Inverts`), and reading back what was written returns the
value and the rest (`Reader.Reads`). A reader that keeps an offset into the whole string instead
stands at a `Cursor`: the bytes that follow.
-/
import Mathlib.Tactic

/-- A byte string. -/
abbrev Bytes := List UInt8

/-- A byte string of fixed length. -/
abbrev FixedBytes (n : Nat) := { b : Bytes // b.length = n }

/-- `k` bytes from position `i` on. -/
def FixedBytes.slice {n : Nat} (b : FixedBytes n) (i k : Nat) (h : i + k ≤ n) : FixedBytes k :=
  ⟨(b.1.drop i).take k, by rw [List.length_take, List.length_drop, b.2]; omega⟩

/-- `n` times the same byte. -/
def filledBytes (n : Nat) (b : UInt8) : FixedBytes n := ⟨List.replicate n b, List.length_replicate⟩

/-! ## Bits of a byte -/

/-- Bits written above the free low bits of a byte. -/
theorem UInt8.toNat_shiftLeft_or {x y k : UInt8} (hk : k.toNat < 8) (hx : x.toNat * 2 ^ k.toNat < 256)
    (hy : y.toNat < 2 ^ k.toNat) : (x <<< k ||| y).toNat = x.toNat * 2 ^ k.toNat + y.toNat := by
  rw [UInt8.toNat_or, UInt8.toNat_shiftLeft, Nat.mod_eq_of_lt hk, Nat.shiftLeft_eq, Nat.mod_eq_of_lt hx,
    ← Nat.shiftLeft_eq, ← Nat.shiftLeft_add_eq_or_of_lt hy]

theorem UInt8.toNat_shiftRight_of_lt {x k : UInt8} (hk : k.toNat < 8) : (x >>> k).toNat = x.toNat / 2 ^ k.toNat := by
  rw [UInt8.toNat_shiftRight, Nat.mod_eq_of_lt hk, Nat.shiftRight_eq_div_pow]

/-! ## Big-endian integers -/

/-- The big-endian value of a byte string. -/
def ofBE (bs : Bytes) : Nat := bs.foldl (fun acc b => acc * 256 + b.toNat) 0

/-- The lowest `w` bytes of `n`, most significant first. -/
def toBE : Nat → Nat → Bytes
  | 0, _ => []
  | w + 1, n => toBE w (n / 256) ++ [UInt8.ofNat n]

/-- The lowest `w` bytes of an integer in two's complement. -/
def intToBE (w : Nat) (n : Int) : Bytes := toBE w (n % (256 ^ w : Nat)).toNat

theorem ofBE_append_singleton (bs : Bytes) (b : UInt8) : ofBE (bs ++ [b]) = ofBE bs * 256 + b.toNat := by
  simp [ofBE, List.foldl_append]

@[simp] theorem length_toBE : ∀ w n, (toBE w n).length = w
  | 0, _ => rfl
  | w + 1, n => by simp [toBE, length_toBE w]

theorem ofBE_toBE : ∀ w n, ofBE (toBE w n) = n % 256 ^ w
  | 0, n => by simp [toBE, ofBE, Nat.mod_one]
  | w + 1, n => by
    rw [toBE, ofBE_append_singleton, ofBE_toBE w, UInt8.toNat_ofNat', pow_succ' 256 w, Nat.mod_mul]
    omega

theorem ofBE_lt (bs : Bytes) : ofBE bs < 256 ^ bs.length := by
  induction bs using List.reverseRecOn with
  | nil => simp [ofBE]
  | append_singleton bs b ih =>
    rw [ofBE_append_singleton, List.length_append, List.length_singleton, Nat.pow_succ]
    have := b.toNat_lt; omega

theorem toBE_ofBE (bs : Bytes) : toBE bs.length (ofBE bs) = bs := by
  induction bs using List.reverseRecOn with
  | nil => rfl
  | append_singleton bs b ih =>
    have hb := b.toNat_lt
    rw [List.length_append, List.length_singleton, toBE, ofBE_append_singleton]
    rw [show (ofBE bs * 256 + b.toNat) / 256 = ofBE bs by omega, ih]
    congr 2
    rw [← UInt8.toNat_inj, UInt8.toNat_ofNat']; omega

theorem ofBE_inj {as bs : Bytes} (hlength : as.length = bs.length) : ofBE as = ofBE bs ↔ as = bs := by
  constructor
  · intro h
    rw [← toBE_ofBE as, h, hlength, toBE_ofBE]
  · exact congrArg ofBE

theorem ofBE_cons (b : UInt8) (bs : Bytes) : ofBE (b :: bs) = b.toNat * 256 ^ bs.length + ofBE bs := by
  induction bs using List.reverseRecOn with
  | nil => simp [ofBE]
  | append_singleton bs c ih =>
    rw [← List.cons_append, ofBE_append_singleton, ofBE_append_singleton, ih, List.length_append, List.length_singleton,
      Nat.pow_succ]
    ring

/-- Leading zero bytes do not change the number. -/
theorem ofBE_zeros (k : Nat) (bs : Bytes) : ofBE (List.replicate k 0 ++ bs) = ofBE bs := by
  induction k with
  | zero => rfl
  | succ k ih =>
    rw [List.replicate_succ, List.cons_append, ofBE_cons, ih]
    simp

theorem ofBE_dropWhile (bs : Bytes) : ofBE (bs.dropWhile (· = 0)) = ofBE bs := by
  induction bs with
  | nil => rfl
  | cons b bs ih =>
    rw [List.dropWhile_cons]
    split
    · rename_i hb
      rw [ih, ofBE_cons, of_decide_eq_true hb]
      simp
    · rfl

/-- Without leading zeros a number takes as many bytes as it has to. -/
theorem length_dropWhile_le_iff {bs : Bytes} {w : Nat} : (bs.dropWhile (· = 0)).length ≤ w ↔ ofBE bs < 256 ^ w := by
  induction bs with
  | nil => simp [ofBE]
  | cons b bs ih =>
    rw [List.dropWhile_cons]
    split
    · rename_i hb
      rw [ih, ofBE_cons, of_decide_eq_true hb]
      simp
    · rename_i hb
      constructor
      · intro h
        exact (ofBE_lt _).trans_le (Nat.pow_le_pow_right (by decide) h)
      · intro h
        have hpos : 0 < b.toNat := Nat.pos_of_ne_zero fun h0 => hb (decide_eq_true (UInt8.toNat_inj.1 h0))
        have hlead : 256 ^ bs.length < 256 ^ w := by
          rw [ofBE_cons] at h
          exact (Nat.le_mul_of_pos_left _ hpos).trans_lt ((Nat.le_add_right _ _).trans_lt h)
        exact (Nat.pow_lt_pow_iff_right (by decide)).1 hlead

/-- A number filled up with leading zeros. -/
theorem zeros_append_eq_toBE {w : Nat} {bs : Bytes} (h : bs.length ≤ w) :
    List.replicate (w - bs.length) 0 ++ bs = toBE w (ofBE bs) := by
  have hlength : (List.replicate (w - bs.length) 0 ++ bs).length = w := by
    rw [List.length_append, List.length_replicate]
    omega
  have hread := toBE_ofBE (List.replicate (w - bs.length) 0 ++ bs)
  rw [hlength, ofBE_zeros] at hread
  exact hread.symm

/-! ## Two's complement -/

theorem length_intToBE (w : Nat) (n : Int) : (intToBE w n).length = w := length_toBE w _

theorem ofBE_intToBE (w : Nat) (n : Int) : (ofBE (intToBE w n) : Int) = n % (256 ^ w : Nat) := by
  have hpos : (0 : Int) < (256 ^ w : Nat) := Int.natCast_pos.2 (Nat.pow_pos (by decide))
  have hnonneg := Int.emod_nonneg n hpos.ne'
  have hlt := Int.emod_lt_of_pos n hpos
  rw [intToBE, ofBE_toBE, Nat.mod_eq_of_lt (by omega), Int.toNat_of_nonneg hnonneg]

/-- The lowest byte is written last. -/
theorem intToBE_succ (w : Nat) (n : Int) : intToBE (w + 1) n = intToBE w (n / 256) ++ [UInt8.ofNat (n % 256).toNat] := by
  have hpos : (0 : Int) < (256 ^ w : Nat) := Int.natCast_pos.2 (Nat.pow_pos (by decide))
  have hhigh := Int.emod_nonneg (n / 256) hpos.ne'
  have hsplit : n % (256 ^ (w + 1) : Nat) = n / 256 % (256 ^ w : Nat) * 256 + n % 256 := by
    have hbound := Int.emod_lt_of_pos (n / 256) hpos
    have hdiv := Int.mul_ediv_add_emod (n / 256) (256 ^ w : Nat)
    have hlow := Int.mul_ediv_add_emod n 256
    rw [Nat.pow_succ, Nat.cast_mul]
    generalize ((256 ^ w : Nat) : Int) = m at hpos hhigh hbound hdiv
    refine ((Int.ediv_emod_unique (q := n / 256 / m) ?_).2 ⟨?_, ?_, ?_⟩).2
    · omega
    · push_cast
      linarith
    · omega
    · omega
  have hlow : (n % 256).toNat < 256 := by omega
  unfold intToBE
  rw [toBE, hsplit]
  congr 2
  · omega
  · rw [← UInt8.toNat_inj, UInt8.toNat_ofNat', UInt8.toNat_ofNat']
    omega

/-! ## Readers -/

/-- A failed read. -/
inductive CodecError where
  | endOfBuffer
  | extraData (remaining : Nat)
  | invalidLength (length : Nat)
  | invalid (name reason : String)
  | invalidVarint (bytes : Nat)
deriving DecidableEq, Repr

/-- A reader consumes bytes from the front of a buffer. -/
abbrev Reader (α : Type) := Bytes → Except CodecError (α × Bytes)

namespace Reader

variable {α β : Type}

/-- The reader that consumes nothing. -/
def ok (a : α) : Reader α := fun bs => .ok (a, bs)

def fail (e : CodecError) : Reader α := fun _ => .error e

/-- Read one value, then continue with it. -/
def andThen (r : Reader α) (f : α → Reader β) : Reader β := fun bs =>
  match r bs with
  | .ok (a, rest) => f a rest
  | .error e => .error e

instance : Monad Reader where
  pure := ok
  bind := andThen

/-- Read exactly `n` bytes. -/
def take (n : Nat) : Reader Bytes := fun bs =>
  if bs.length < n then .error .endOfBuffer else .ok (bs.take n, bs.drop n)

/-- Read exactly `n` bytes, with their number. -/
def fixed (n : Nat) : Reader (FixedBytes n) := fun bs =>
  if h : bs.length < n then .error .endOfBuffer
  else .ok (⟨bs.take n, by rw [List.length_take]; omega⟩, bs.drop n)

/-- The number of bytes left. -/
def remaining : Reader Nat := fun bs => .ok (bs.length, bs)

/-- Read a value and require that no byte is left. -/
def decode (r : Reader α) (bs : Bytes) : Except CodecError α :=
  match r bs with
  | .ok (a, []) => .ok a
  | .ok (_, rest) => .error (.extraData rest.length)
  | .error e => .error e

/-- A big-endian integer of `w` bytes. -/
def be (w : Nat) : Reader Nat := do let bs ← take w; return ofBE bs

def u8 : Reader UInt8 := do let n ← be 1; return UInt8.ofNat n

def u16 : Reader UInt16 := do let n ← be 2; return UInt16.ofNat n

def u64 : Reader UInt64 := do let n ← be 8; return UInt64.ofNat n

/-- Eight bytes in two's complement. -/
def i64 : Reader Int := do let n ← be 8; return Int.bmod n (2 ^ 64)

/-- Read `n` values. -/
def replicate (r : Reader α) : Nat → Reader (List α)
  | 0 => return []
  | n + 1 => do let a ← r; let as ← replicate r n; return a :: as

theorem pure_ok {a b : α} {bs rest : Bytes} (h : (pure a : Reader α) bs = .ok (b, rest)) : a = b ∧ bs = rest := by
  cases h; exact ⟨rfl, rfl⟩

theorem bind_ok {r : Reader α} {f : α → Reader β} {b : β} {bs rest : Bytes}
    (h : (r >>= f) bs = .ok (b, rest)) : ∃ a mid, r bs = .ok (a, mid) ∧ f a mid = .ok (b, rest) := by
  change andThen r f bs = _ at h
  unfold andThen at h
  split at h
  · rename_i a mid hr; exact ⟨a, mid, hr, h⟩
  · cases h

theorem bind_eq {r : Reader α} {f : α → Reader β} {a : α} {bs mid : Bytes} (h : r bs = .ok (a, mid)) :
    (r >>= f) bs = f a mid := by
  change andThen r f bs = _
  unfold andThen; rw [h]

theorem take_ok {n : Nat} {bs rest : Bytes} {b : Bytes} (h : take n bs = .ok (b, rest)) :
    b.length = n ∧ bs = b ++ rest := by
  unfold take at h
  split at h
  · cases h
  · cases h
    exact ⟨by simp; omega, (List.take_append_drop n bs).symm⟩

theorem take_append {n : Nat} {b : Bytes} (rest : Bytes) (h : b.length = n) :
    take n (b ++ rest) = .ok (b, rest) := by
  unfold take
  rw [if_neg (by simp; omega), List.take_left' h, List.drop_left' h]

theorem fixed_ok {n : Nat} {bs rest : Bytes} {b : FixedBytes n} (h : fixed n bs = .ok (b, rest)) :
    bs = b.1 ++ rest := by
  unfold fixed at h
  split at h
  · cases h
  · cases h
    exact (List.take_append_drop n bs).symm

theorem fixed_append {n : Nat} (b : FixedBytes n) (rest : Bytes) : fixed n (b.1 ++ rest) = .ok (b, rest) := by
  obtain ⟨b, hb⟩ := b
  unfold fixed
  rw [dif_neg (by simp; omega)]
  simp only [List.take_left' hb, List.drop_left' hb]

theorem decode_ok {r : Reader α} {bs : Bytes} {a : α} : decode r bs = .ok a ↔ r bs = .ok (a, []) := by
  unfold decode
  split
  · rename_i b h; rw [h]; simp
  · rename_i b rest hne h; rw [h]
    simp only [reduceCtorEq, Except.ok.injEq, Prod.mk.injEq, false_iff, not_and]
    exact fun _ => hne
  · rename_i e h; rw [h]; simp

/-- What every value a reader returns satisfies, all values of a sequence satisfy. -/
theorem replicate_mem {r : Reader α} {P : α → Prop} (hr : ∀ bs a rest, r bs = .ok (a, rest) → P a) :
    ∀ {n : Nat} {bs rest : Bytes} {as : List α}, replicate r n bs = .ok (as, rest) → ∀ a ∈ as, P a
  | 0, _, _, _, h, a, ha => by
    obtain ⟨rfl, -⟩ := pure_ok h
    cases ha
  | n + 1, _, _, _, h, a, ha => by
    obtain ⟨b, mid, hb, h⟩ := bind_ok h
    obtain ⟨bs', mid', hbs, h⟩ := bind_ok h
    obtain ⟨rfl, -⟩ := pure_ok h
    rcases List.mem_cons.1 ha with rfl | ha
    · exact hr _ _ _ hb
    · exact replicate_mem hr hbs a ha

theorem replicate_length {r : Reader α} : ∀ {n : Nat} {bs rest : Bytes} {as : List α},
    replicate r n bs = .ok (as, rest) → as.length = n
  | 0, _, _, _, h => by
    obtain ⟨rfl, -⟩ := pure_ok h
    rfl
  | n + 1, _, _, _, h => by
    obtain ⟨a, mid, -, h⟩ := bind_ok h
    obtain ⟨as', mid', has, h⟩ := bind_ok h
    obtain ⟨rfl, -⟩ := pure_ok h
    rw [List.length_cons, replicate_length has]

/-- A fixed codec of a library type: how it is written and how it is read back. -/
structure Codec (α : Type) where
  write : α → Bytes
  read : Reader α

/-! ## Laws -/

/-- A reader consumes exactly what `write` writes for the value it returns. -/
def Inverts (r : Reader α) (write : α → Bytes) : Prop :=
  ∀ bs a rest, r bs = .ok (a, rest) → bs = write a ++ rest

/-- Reading back a written value returns it with the rest. -/
def Reads (r : Reader α) (write : α → Bytes) : Prop :=
  ∀ a rest, r (write a ++ rest) = .ok (a, rest)

/-- A codec of the values `P`: it reads back what it writes for them, a read consumes only what is
written for its result, and reads nothing outside `P`. -/
structure Codec.RoundTrips (c : Codec α) (P : α → Prop) : Prop where
  reads : ∀ a, P a → ∀ rest, c.read (c.write a ++ rest) = .ok (a, rest)
  inverts : Inverts c.read c.write
  valid : ∀ bs a rest, c.read bs = .ok (a, rest) → P a

theorem replicate_inverts {r : Reader α} {write : α → Bytes} (hr : Inverts r write) :
    ∀ {n : Nat} {bs rest : Bytes} {as : List α}, replicate r n bs = .ok (as, rest) → bs = as.flatMap write ++ rest
  | 0, _, _, _, h => by
    obtain ⟨rfl, rfl⟩ := pure_ok h
    rfl
  | n + 1, _, _, _, h => by
    obtain ⟨a, mid, ha, h⟩ := bind_ok h
    obtain ⟨as', mid', has, h⟩ := bind_ok h
    obtain ⟨rfl, rfl⟩ := pure_ok h
    rw [hr _ _ _ ha, replicate_inverts hr has, List.flatMap_cons, List.append_assoc]

/-- Values each read back as `f` of them are read back in order. -/
theorem replicate_reads {γ : Type} {r : Reader β} {write : γ → Bytes} {f : γ → β} {rest : Bytes} :
    ∀ {as : List γ}, (∀ a ∈ as, ∀ rest, r (write a ++ rest) = .ok (f a, rest)) →
      replicate r as.length (as.flatMap write ++ rest) = .ok (as.map f, rest)
  | [], _ => rfl
  | a :: as, h => by
    rw [List.flatMap_cons, List.append_assoc, List.length_cons, replicate,
      bind_eq (h a (List.mem_cons_self ..) _),
      bind_eq (replicate_reads fun b hb => h b (List.mem_cons_of_mem a hb))]
    rfl

theorem be_ok {w n : Nat} {bs rest : Bytes} (h : be w bs = .ok (n, rest)) :
    n < 256 ^ w ∧ bs = toBE w n ++ rest := by
  obtain ⟨b, mid, hb, h⟩ := bind_ok h
  obtain ⟨rfl, rfl⟩ := pure_ok h
  obtain ⟨rfl, rfl⟩ := take_ok hb
  exact ⟨ofBE_lt b, by rw [toBE_ofBE]⟩

theorem be_toBE {w n : Nat} (rest : Bytes) (h : n < 256 ^ w) : be w (toBE w n ++ rest) = .ok (n, rest) := by
  unfold be
  rw [bind_eq (take_append rest (length_toBE w n)), ofBE_toBE, Nat.mod_eq_of_lt h]
  rfl

theorem u8_inverts : Inverts u8 fun x => toBE 1 x.toNat := by
  intro bs a rest h
  obtain ⟨n, mid, hn, h⟩ := bind_ok h
  obtain ⟨rfl, rfl⟩ := pure_ok h
  obtain ⟨hlt, rfl⟩ := be_ok hn
  simp only [UInt8.toNat_ofNat', Nat.mod_eq_of_lt (show n < 2 ^ 8 by omega)]

theorem u8_reads : Reads u8 fun x => toBE 1 x.toNat := by
  intro a rest
  unfold u8
  rw [bind_eq (be_toBE rest (by have := a.toNat_lt; omega)), UInt8.ofNat_toNat]
  rfl

theorem u8_cons (b : UInt8) (bs : Bytes) : u8 (b :: bs) = .ok (b, bs) := by
  have hread := u8_reads b bs
  simpa [toBE] using hread

theorem u16_inverts : Inverts u16 fun x => toBE 2 x.toNat := by
  intro bs a rest h
  obtain ⟨n, mid, hn, h⟩ := bind_ok h
  obtain ⟨rfl, rfl⟩ := pure_ok h
  obtain ⟨hlt, rfl⟩ := be_ok hn
  simp only [UInt16.toNat_ofNat', Nat.mod_eq_of_lt (show n < 2 ^ 16 by omega)]

theorem u16_reads : Reads u16 fun x => toBE 2 x.toNat := by
  intro a rest
  unfold u16
  rw [bind_eq (be_toBE rest (by have := a.toNat_lt; omega)), UInt16.ofNat_toNat]
  rfl

theorem u64_inverts : Inverts u64 fun x => toBE 8 x.toNat := by
  intro bs a rest h
  obtain ⟨n, mid, hn, h⟩ := bind_ok h
  obtain ⟨rfl, rfl⟩ := pure_ok h
  obtain ⟨hlt, rfl⟩ := be_ok hn
  simp only [UInt64.toNat_ofNat', Nat.mod_eq_of_lt (show n < 2 ^ 64 by omega)]

theorem u64_reads : Reads u64 fun x => toBE 8 x.toNat := by
  intro a rest
  unfold u64
  rw [bind_eq (be_toBE rest (by have := a.toNat_lt; omega)), UInt64.ofNat_toNat]
  rfl

theorem i64_reads {n : Int} (h : -2 ^ 63 ≤ n ∧ n < 2 ^ 63) (rest : Bytes) : i64 (intToBE 8 n ++ rest) = .ok (n, rest) := by
  obtain ⟨hlow, hhigh⟩ := h
  have hnonneg : 0 ≤ n % (256 ^ 8 : Nat) := Int.emod_nonneg _ (by norm_num)
  have hlt : (n % (256 ^ 8 : Nat)).toNat < 256 ^ 8 := by
    have := Int.emod_lt_of_pos n (show (0 : Int) < (256 ^ 8 : Nat) by norm_num)
    omega
  have hvalue : Int.bmod ((n % (256 ^ 8 : Nat)).toNat : Nat) (2 ^ 64) = n := by
    rw [Int.toNat_of_nonneg hnonneg, show (256 ^ 8 : Nat) = 2 ^ 64 by norm_num, Int.emod_bmod]
    exact Int.bmod_eq_of_le (by norm_num; omega) (by norm_num; omega)
  unfold i64 intToBE
  rw [bind_eq (be_toBE rest hlt), hvalue]
  rfl

end Reader

/-! ## Positions -/

/-- From `offset` on, the bytes are `rest`. -/
structure Cursor (bytes : Bytes) (offset : Nat) (rest : Bytes) : Prop where
  bound : offset ≤ bytes.length
  drop : bytes.drop offset = rest

namespace Cursor

variable {bytes rest x : Bytes} {offset : Nat}

theorem start (before rest : Bytes) : Cursor (before ++ rest) before.length rest :=
  ⟨by simp, List.drop_left⟩

theorem length (h : Cursor bytes offset rest) : bytes.length = offset + rest.length := by
  rw [← h.drop, List.length_drop]
  have hbound := h.bound
  omega

theorem advance {n : Nat} (h : Cursor bytes offset (x ++ rest)) (hx : x.length = n) : Cursor bytes (offset + n) rest := by
  refine ⟨?_, ?_⟩
  · rw [h.length, List.length_append]
    omega
  · rw [← List.drop_drop, h.drop, List.drop_left' hx]

theorem take {n : Nat} (h : Cursor bytes offset (x ++ rest)) (hx : x.length = n) : (bytes.drop offset).take n = x := by
  rw [h.drop, List.take_left' hx]

theorem head {b : UInt8} (h : Cursor bytes offset (b :: rest)) : bytes[offset]? = some b := by
  rw [← List.head?_drop, h.drop, List.head?_cons]

theorem tail {b : UInt8} (h : Cursor bytes offset (b :: rest)) : Cursor bytes (offset + 1) rest :=
  advance (x := [b]) h rfl

end Cursor
