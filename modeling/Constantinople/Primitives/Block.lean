/-
Headers and blocks, as in `crates/primitives/src/block.rs`. The consensus context is an opaque field
of the header. A block read from the wire has a deferred body: its transactions are not decoded.
-/
import Constantinople.Primitives.Signed

namespace Constantinople

/-- `NonEmptyRange<u64>`: from `start` up to, and without, `stop`. -/
structure NonEmptyRange where
  start : UInt64
  stop : UInt64
  nonempty : start < stop
deriving DecidableEq

namespace NonEmptyRange

def new (start stop : UInt64) : Option NonEmptyRange := if h : start < stop then some ⟨start, stop, h⟩ else none

def write (r : NonEmptyRange) : Bytes := toBE 8 r.start.toNat ++ toBE 8 r.stop.toNat

def read : Reader NonEmptyRange := do
  let start ← Reader.u64
  let stop ← Reader.u64
  if h : start < stop then return ⟨start, stop, h⟩
  else Reader.fail (.invalid "NonEmptyRange" "start must be < end")

theorem new_eq_some {start stop : UInt64} {r : NonEmptyRange} (h : new start stop = some r) :
    r.start = start ∧ r.stop = stop := by
  unfold new at h
  split at h
  · cases h; exact ⟨rfl, rfl⟩
  · cases h

end NonEmptyRange

/-- The execution header. -/
structure Header (C D : Type) where
  context : C
  parent : D
  height : UInt64
  timestamp : UInt64
  stateRoot : D
  stateRange : NonEmptyRange
  transactionsRoot : D
  transactionsRange : NonEmptyRange
deriving DecidableEq

/-- Header and ordered transactions. -/
structure Block (C D : Type) where
  header : Header C D
  body : List (LazySignedTransaction D)

abbrev SealedBlock (C D : Type) := Sealed (Block C D) D

variable {C D : Type}

/-- The codecs of the library types in a header. -/
structure HeaderCodecs (C D : Type) where
  context : Reader.Codec C
  digest : Reader.Codec D

def Header.write (codecs : HeaderCodecs C D) (h : Header C D) : Bytes :=
  codecs.context.write h.context ++ codecs.digest.write h.parent ++ toBE 8 h.height.toNat ++
    toBE 8 h.timestamp.toNat ++ codecs.digest.write h.stateRoot ++ h.stateRange.write ++
    codecs.digest.write h.transactionsRoot ++ h.transactionsRange.write

def Header.read (codecs : HeaderCodecs C D) : Reader (Header C D) := do
  let context ← codecs.context.read
  let parent ← codecs.digest.read
  let height ← Reader.u64
  let timestamp ← Reader.u64
  let stateRoot ← codecs.digest.read
  let stateRange ← NonEmptyRange.read
  let transactionsRoot ← codecs.digest.read
  let transactionsRange ← NonEmptyRange.read
  return ⟨context, parent, height, timestamp, stateRoot, stateRange, transactionsRoot, transactionsRange⟩

/-- The `encode_size` of the library types in a block: of a length, a context, and any digest. -/
structure EncodeSizes (C : Type) where
  usize : Nat → Nat
  context : C → Nat
  digest : Nat

def Header.encodeSize (sizes : EncodeSizes C) (h : Header C D) : Nat :=
  sizes.context h.context + sizes.digest + 8 + 8 + sizes.digest + (8 + 8) + sizes.digest + (8 + 8)

namespace Block

/-- The most transactions the default configuration reads, `usize::MAX`. -/
def defaultMaxTransactions : Nat := 2 ^ 64 - 1

/-- A block of already decoded transactions. -/
def new (header : Header C D) (body : List (SignedTransaction D)) : Block C D := ⟨header, body.map .new⟩

def write (E : Env D) (codecs : HeaderCodecs C D) (b : Block C D) : Bytes :=
  b.header.write codecs ++ E.usize.write b.body.length ++ b.body.flatMap fun t => t.write E

def encodeSize (sizes : EncodeSizes C) (b : Block C D) : Nat :=
  b.header.encodeSize sizes + (sizes.usize b.body.length + (b.body.map (·.encodeSize sizes.usize)).sum)

/-- Reads a block of at most `maxTransactions` transactions. -/
def read (E : Env D) (codecs : HeaderCodecs C D) (maxTransactions : Nat) : Reader (Block C D) := do
  let header ← Header.read codecs
  let len ← E.usize.read
  if maxTransactions < len then Reader.fail (.invalidLength len)
  else
    let body ← Reader.replicate (LazySignedTransaction.read E) len
    return ⟨header, body⟩

/-- The seal is the hash of the encoded header. -/
def sealWith (E : Env D) (codecs : HeaderCodecs C D) (b : Block C D) : SealedBlock C D :=
  ⟨b, E.hasher.hash (b.header.write codecs)⟩

end Block

/-- Reads a block and computes its seal. -/
def SealedBlock.read (E : Env D) (codecs : HeaderCodecs C D) (maxTransactions : Nat) : Reader (SealedBlock C D) := do
  let block ← Block.read E codecs maxTransactions
  return block.sealWith E codecs

/-- Every transaction of a block read from the wire is deferred, of a length that can hold one. -/
theorem Block.read_deferred {E : Env D} {codecs : HeaderCodecs C D} {maxTransactions : Nat} {bs rest : Bytes}
    {b : Block C D} (h : Block.read E codecs maxTransactions bs = .ok (b, rest)) :
    ∀ t ∈ b.body, ∃ pending, t = .deferred pending ∧
      Transaction.size + TransactionSignature.minSize ≤ pending.length ∧
      pending.length ≤ LazySignedTransaction.maxEncodedSize := by
  obtain ⟨header, _, -, h⟩ := Reader.bind_ok h
  obtain ⟨len, _, -, h⟩ := Reader.bind_ok h
  split at h
  · cases h
  obtain ⟨body, _, hbody, h⟩ := Reader.bind_ok h
  obtain ⟨rfl, -⟩ := Reader.pure_ok h
  refine Reader.replicate_mem (fun bs t rest ht => ?_) hbody
  obtain ⟨n, _, -, ht⟩ := Reader.bind_ok ht
  split at ht
  · cases ht
  split at ht
  · cases ht
  obtain ⟨pending, _, hp, ht⟩ := Reader.bind_ok ht
  obtain ⟨rfl, -⟩ := Reader.pure_ok ht
  obtain ⟨hlen, -⟩ := Reader.take_ok hp
  exact ⟨pending, rfl, by omega, by omega⟩

end Constantinople
