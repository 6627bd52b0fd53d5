/-
The certificate uploader, as in `crates/indexer/src/publisher/certificate.rs`. Blocks, notarizations and
finalizations of a digest meet in a pending entry, in any order. The entry is removed when its
finalization is uploaded; a notarization that comes after that waits for a block that has been there.
Commits are retried until they succeed, so an upload is what it writes.
-/
import Constantinople.Lib.Keyed
import Constantinople.Consensus.Lifecycle

namespace Constantinople.Indexer

open Constantinople

variable {C D K S : Type}

/-! ## Certificates -/

structure Proposal (K : Type) where
  payload : K
deriving DecidableEq

structure Notarization (K S : Type) where
  proposal : Proposal K
  certificate : S
deriving DecidableEq

structure Finalization (K S : Type) where
  proposal : Proposal K
  certificate : S
deriving DecidableEq

/-- A finalized header tagged with the marshal commitment certified by Simplex. -/
structure CertifiedHeader (C D K : Type) where
  commitment : K
  header : Sealed (Header C D) D
deriving DecidableEq

/-- What the uploader takes from its libraries: the block digest in a commitment, and whether a
certificate is accepted for upload with a header. -/
structure Simplex (C D K S : Type) where
  block : K → D
  notarized : Notarization K S → CertifiedHeader C D K → Bool
  finalized : Finalization K S → CertifiedHeader C D K → Bool

/-- A certificate is accepted with a header of its own commitment. -/
structure Simplex.Matches (X : Simplex C D K S) : Prop where
  notarized : ∀ n certified, n.proposal.payload = certified.commitment → X.notarized n certified = true
  finalized : ∀ f certified, f.proposal.payload = certified.commitment → X.finalized f certified = true

section Uploader

variable [DecidableEq D] (X : Simplex C D K S)

def CertifiedHeader.new (commitment : K) (block : SealedBlock C D) : Panics (CertifiedHeader C D K) :=
  if X.block commitment = block.sealDigest then .ok ⟨commitment, ⟨block.inner.header, block.sealDigest⟩⟩
  else .error (.expect "assertion `left == right` failed")

/-! ## The uploader -/

inductive SimplexInput (C D K S : Type)
  | block (block : SealedBlock C D)
  | notarization (notarization : Notarization K S)
  | finalization (finalization : Finalization K S)

def SimplexInput.blockDigestKey : SimplexInput C D K S → D
  | .block b => b.sealDigest
  | .notarization n => X.block n.proposal.payload
  | .finalization f => X.block f.proposal.payload

structure PendingBlockCertificates (C D K S : Type) where
  block : Option (SealedBlock C D)
  notarization : Option (Notarization K S)
  finalization : Option (Finalization K S)

def PendingBlockCertificates.default : PendingBlockCertificates C D K S := ⟨none, none, none⟩

/-- What an upload writes. -/
inductive Artifact (C D K S : Type)
  | block (block : SealedBlock C D)
  | notarized (notarization : Notarization K S) (certified : CertifiedHeader C D K)
  | finalized (finalization : Finalization K S) (certified : CertifiedHeader C D K)

def prepareNotarized (block : SealedBlock C D) : Option (Notarization K S) → Panics (List (Artifact C D K S))
  | none => .ok []
  | some notarization => do
    let certified ← CertifiedHeader.new X notarization.proposal.payload block
    if X.notarized notarization certified then .ok [.notarized notarization certified]
    else .error (.expect "notarization matches certified header")

def prepareFinalized (block : SealedBlock C D) : Option (Finalization K S) → Panics (List (Artifact C D K S))
  | none => .ok []
  | some finalization => do
    let certified ← CertifiedHeader.new X finalization.proposal.payload block
    if X.finalized finalization certified then .ok [.finalized finalization certified]
    else .error (.expect "finalization matches certified header")

/-- Uploads the certificates of an entry that has its block: the entry left, what is uploaded, and
whether a finalization was. -/
def prepareReadyUpload (entry : PendingBlockCertificates C D K S) :
    Panics (PendingBlockCertificates C D K S × List (Artifact C D K S) × Bool) :=
  match entry.block with
  | none => .ok (entry, [], false)
  | some block => do
    let notarized ← prepareNotarized X block entry.notarization
    let finalized ← prepareFinalized X block entry.finalization
    return (⟨some block, none, none⟩, notarized ++ finalized, entry.finalization.isSome)

/-- An input joins its entry; a block is uploaded at once. -/
def PendingBlockCertificates.receive (entry : PendingBlockCertificates C D K S) :
    SimplexInput C D K S → PendingBlockCertificates C D K S × List (Artifact C D K S)
  | .block block => ({ entry with block := some block }, [.block block])
  | .notarization notarization => ({ entry with notarization := some notarization }, [])
  | .finalization finalization => ({ entry with finalization := some finalization }, [])

/-- The pending entries and everything uploaded so far. -/
structure Uploader (C D K S : Type) where
  pending : Assoc D (PendingBlockCertificates C D K S)
  uploaded : List (Artifact C D K S)

namespace Uploader

def new : Uploader C D K S := ⟨.empty, []⟩

/-- One iteration of `run_uploader`. -/
def step (s : Uploader C D K S) (input : SimplexInput C D K S) : Panics (Uploader C D K S) := do
  let key := input.blockDigestKey X
  let (entry, blocks) := ((s.pending.get key).getD .default).receive input
  let (entry, certificates, uploadedFinalization) ← prepareReadyUpload X entry
  if uploadedFinalization then return ⟨s.pending.erase key, s.uploaded ++ (blocks ++ certificates)⟩
  else return ⟨s.pending.insert key entry, s.uploaded ++ (blocks ++ certificates)⟩

end Uploader

/-- The inputs received until the channel closes. -/
def runUploader (inputs : List (SimplexInput C D K S)) : Panics (Uploader C D K S) := inputs.foldlM (Uploader.step X) .new

/-! ## One digest -/

/-- The header of a block with a commitment to it. -/
def SealedBlock.certify (block : SealedBlock C D) (commitment : K) : CertifiedHeader C D K :=
  ⟨commitment, ⟨block.inner.header, block.sealDigest⟩⟩

/-- The digest of the block an artifact belongs to. -/
def Artifact.blockDigest : Artifact C D K S → D
  | .block b => b.sealDigest
  | .notarized n _ => X.block n.proposal.payload
  | .finalized f _ => X.block f.proposal.payload

/-- An entry holds only what belongs to its digest. -/
structure EntryOf (digest : D) (entry : PendingBlockCertificates C D K S) : Prop where
  block : ∀ b, entry.block = some b → b.sealDigest = digest
  notarization : ∀ n, entry.notarization = some n → X.block n.proposal.payload = digest
  finalization : ∀ f, entry.finalization = some f → X.block f.proposal.payload = digest

/-- The certificates of an entry, with the header of its block. -/
def PendingBlockCertificates.certificates (entry : PendingBlockCertificates C D K S) (block : SealedBlock C D) :
    List (Artifact C D K S) :=
  (entry.notarization.toList.map fun n => .notarized n (SealedBlock.certify block n.proposal.payload)) ++
    entry.finalization.toList.map fun f => .finalized f (SealedBlock.certify block f.proposal.payload)

/-- What an input does to the entry of its digest, if it has one. -/
def entryStep (entry : Option (PendingBlockCertificates C D K S)) (input : SimplexInput C D K S) :
    Option (PendingBlockCertificates C D K S) × List (Artifact C D K S) :=
  let (entry, blocks) := (entry.getD .default).receive input
  match entry.block with
  | none => (some entry, blocks)
  | some block =>
    (if entry.finalization.isSome then none else some ⟨some block, none, none⟩, blocks ++ entry.certificates block)

variable {X}

omit [DecidableEq D] in
theorem EntryOf.receive {entry : PendingBlockCertificates C D K S} {input : SimplexInput C D K S}
    (h : EntryOf X (input.blockDigestKey X) entry) : EntryOf X (input.blockDigestKey X) (entry.receive input).1 := by
  cases input with
  | block block => exact ⟨by rintro b ⟨⟩; rfl, h.notarization, h.finalization⟩
  | notarization notarization => exact ⟨h.block, by rintro n ⟨⟩; rfl, h.finalization⟩
  | finalization finalization => exact ⟨h.block, h.notarization, by rintro f ⟨⟩; rfl⟩

omit [DecidableEq D] in
theorem entryOf_getD {digest : D} {entry : Option (PendingBlockCertificates C D K S)}
    (h : ∀ e, entry = some e → EntryOf X digest e) : EntryOf X digest (entry.getD .default) := by
  cases entry with
  | some e => exact h e rfl
  | none =>
    constructor
    · rintro b ⟨⟩
    · rintro n ⟨⟩
    · rintro f ⟨⟩

/-- Certificates meet the block they name, so none of the checks fails. -/
theorem prepareReadyUpload_ok (hX : X.Matches) {digest : D} {entry : PendingBlockCertificates C D K S}
    (h : EntryOf X digest entry) {block : SealedBlock C D} (hblock : entry.block = some block) :
    prepareReadyUpload X entry =
      .ok (⟨some block, none, none⟩, entry.certificates block, entry.finalization.isSome) := by
  have hnotarized : prepareNotarized X block entry.notarization = .ok
      (entry.notarization.toList.map fun n => .notarized n (SealedBlock.certify block n.proposal.payload)) := by
    cases hn : entry.notarization with
    | none => rfl
    | some n =>
      have hseal : X.block n.proposal.payload = block.sealDigest := (h.notarization n hn).trans (h.block block hblock).symm
      simp only [prepareNotarized, CertifiedHeader.new, if_pos hseal]
      exact if_pos (hX.notarized n _ rfl)
  have hfinalized : prepareFinalized X block entry.finalization = .ok
      (entry.finalization.toList.map fun f => .finalized f (SealedBlock.certify block f.proposal.payload)) := by
    cases hf : entry.finalization with
    | none => rfl
    | some f =>
      have hseal : X.block f.proposal.payload = block.sealDigest := (h.finalization f hf).trans (h.block block hblock).symm
      simp only [prepareFinalized, CertifiedHeader.new, if_pos hseal]
      exact if_pos (hX.finalized f _ rfl)
  unfold prepareReadyUpload
  simp only [hblock, hnotarized, hfinalized]
  rfl

omit [DecidableEq D] in
/-- The artifacts of a step belong to the digest of its input. -/
theorem entryStep_keeps [DecidableEq D] :
    Keyed.Keeps (SimplexInput.blockDigestKey X) (Artifact.blockDigest X) entryStep (EntryOf X) := by
  intro entry input h
  have hentry := (entryOf_getD h).receive
  have hblocks : ∀ a ∈ ((entry.getD .default).receive input).2, a.blockDigest X = input.blockDigestKey X := by
    cases input with
    | block block => exact List.forall_mem_singleton.2 rfl
    | notarization notarization => exact List.forall_mem_nil _
    | finalization finalization => exact List.forall_mem_nil _
  unfold entryStep
  simp only
  split
  · exact ⟨by rintro e ⟨⟩; exact hentry, hblocks⟩
  · rename_i block hblock
    constructor
    · intro e he
      split at he
      · cases he
      · cases he
        refine ⟨fun b hb => hentry.block b (hblock.trans hb), ?_, ?_⟩
        · rintro n ⟨⟩
        · rintro f ⟨⟩
    · intro a ha
      simp only [PendingBlockCertificates.certificates, List.mem_append, List.mem_map, Option.mem_toList] at ha
      rcases ha with ha | ⟨n, hn, rfl⟩ | ⟨f, hf, rfl⟩
      · exact hblocks a ha
      · exact hentry.notarization n hn
      · exact hentry.finalization f hf

/-- The step of the uploader is the step of the entry of its digest. -/
theorem step_ok (hX : X.Matches) {s : Uploader C D K S} (h : Keyed.Holds (EntryOf X) s.pending)
    (input : SimplexInput C D K S) :
    let r := Keyed.step (SimplexInput.blockDigestKey X) entryStep (s.pending, s.uploaded) input
    s.step X input = .ok ⟨r.1, r.2⟩ := by
  have hentry : EntryOf X (input.blockDigestKey X)
      (((s.pending.get (input.blockDigestKey X)).getD .default).receive input).1 :=
    (entryOf_getD fun e he => h _ e he).receive
  unfold Uploader.step Keyed.step entryStep
  simp only
  split
  · rename_i hnone
    simp only [prepareReadyUpload, hnone, bind, Except.bind, List.append_nil]
    rfl
  · rename_i block hblock
    rw [prepareReadyUpload_ok hX hentry hblock]
    split
    · rename_i hf
      simp only [bind, Except.bind, hf, if_true]
      rfl
    · rename_i hf
      simp only [bind, Except.bind, hf]
      rfl

/-- The uploader never panics, and is the table of its entries. -/
theorem runUploader_ok (hX : X.Matches) (inputs : List (SimplexInput C D K S)) :
    let r := inputs.foldl (Keyed.step (SimplexInput.blockDigestKey X) entryStep) (.empty, [])
    runUploader X inputs = .ok ⟨r.1, r.2⟩ := by
  have key : ∀ (inputs : List (SimplexInput C D K S)) (s : Uploader C D K S), Keyed.Holds (EntryOf X) s.pending →
      inputs.foldlM (Uploader.step X) s = .ok
        ⟨(inputs.foldl (Keyed.step (SimplexInput.blockDigestKey X) entryStep) (s.pending, s.uploaded)).1,
          (inputs.foldl (Keyed.step (SimplexInput.blockDigestKey X) entryStep) (s.pending, s.uploaded)).2⟩ := by
    intro inputs
    induction inputs with
    | nil =>
      intro s _
      rfl
    | cons input inputs ih =>
      intro s hs
      rw [List.foldlM_cons, step_ok hX hs input]
      exact ih ⟨_, _⟩ (hs.step entryStep_keeps input)
  exact key inputs .new (by rintro k e ⟨⟩)

/-! ## Every order of arrival -/

/-- A block with the certificates for it. -/
structure Certified (X : Simplex C D K S) where
  block : SealedBlock C D
  notarization : Notarization K S
  finalization : Finalization K S
  notarizes : X.block notarization.proposal.payload = block.sealDigest
  finalizes : X.block finalization.proposal.payload = block.sealDigest

namespace Certified

def inputs (c : Certified X) : List (SimplexInput C D K S) :=
  [.block c.block, .notarization c.notarization, .finalization c.finalization]

/-- The three inputs of a block arrive once each, among those of other blocks. -/
def Arrives (c : Certified X) (inputs : List (SimplexInput C D K S)) : Prop :=
  (inputs.filter (·.blockDigestKey X = c.block.sealDigest)).Perm c.inputs

/-- The notarization is the last of them. -/
def NotarizedLast (c : Certified X) (inputs : List (SimplexInput C D K S)) : Prop :=
  (inputs.filter (·.blockDigestKey X = c.block.sealDigest)).getLast? = some (.notarization c.notarization)

/-- What is uploaded for the block is the block, its notarization and its finalization, once each and
with the block's header, and its entry is gone. -/
def Uploaded (c : Certified X) (s : Uploader C D K S) : Prop :=
  (s.uploaded.filter (·.blockDigest X = c.block.sealDigest)).Perm
      [.block c.block, .notarized c.notarization (SealedBlock.certify c.block c.notarization.proposal.payload),
        .finalized c.finalization (SealedBlock.certify c.block c.finalization.proposal.payload)] ∧
    s.pending.get c.block.sealDigest = none

end Certified

/-- The six orders of three inputs. -/
theorem orders_of_three {α : Type} {a b c : α} {l : List α} (h : l.Perm [a, b, c]) :
    l = [a, b, c] ∨ l = [b, a, c] ∨ l = [c, b, a] ∨ l = [b, c, a] ∨ l = [c, a, b] ∨ l = [a, c, b] := by
  simpa [List.permutations, List.permutationsAux, List.permutationsAux.rec, List.permutationsAux2] using
    List.mem_permutations.2 h

omit [DecidableEq D] in
/-- The entry of a block on its three inputs. A finalization that meets the block ends the entry, so a
notarization after both starts another one that never gets a block. -/
theorem machine_uploads_iff (c : Certified X) {l : List (SimplexInput C D K S)} (h : l.Perm c.inputs) :
    (l.foldl (Keyed.machine entryStep) (none, [])).2.Perm
        [.block c.block, .notarized c.notarization (SealedBlock.certify c.block c.notarization.proposal.payload),
          .finalized c.finalization (SealedBlock.certify c.block c.finalization.proposal.payload)] ∧
      (l.foldl (Keyed.machine entryStep) (none, [])).1 = none ↔
    ¬ l.getLast? = some (.notarization c.notarization) := by
  have hlost : ∀ {entry : PendingBlockCertificates C D K S} {P : Prop}, ¬ (P ∧ some entry = none) := by
    rintro entry P ⟨-, ⟨⟩⟩
  rcases orders_of_three h with rfl | rfl | rfl | rfl | rfl | rfl
  · exact iff_of_true ⟨.refl _, rfl⟩ nofun
  · exact iff_of_true ⟨.refl _, rfl⟩ nofun
  · exact iff_of_true ⟨.refl _, rfl⟩ nofun
  · exact iff_of_true ⟨.refl _, rfl⟩ nofun
  · exact iff_of_false hlost (not_not_intro rfl)
  · exact iff_of_false hlost (not_not_intro rfl)

/-- Whatever else arrives and in whatever order, everything of a block is uploaded exactly once unless its
notarization comes last of the three. -/
theorem certificates_uploaded_iff (hX : X.Matches) (inputs : List (SimplexInput C D K S)) :
    ∃ s, runUploader X inputs = .ok s ∧
      ∀ c : Certified X, c.Arrives inputs → (c.Uploaded s ↔ ¬ c.NotarizedLast inputs) := by
  refine ⟨_, runUploader_ok hX inputs, fun c hc => ?_⟩
  have hproject := Keyed.foldl_step (entryStep_keeps (X := X)) c.block.sealDigest inputs (.empty, [])
    (by rintro k e ⟨⟩)
  have hmachine := machine_uploads_iff c hc
  rw [show (none, []) = ((Assoc.empty : Assoc D (PendingBlockCertificates C D K S)).get c.block.sealDigest,
    ([] : List (Artifact C D K S)).filter (·.blockDigest X = c.block.sealDigest)) from rfl, ← hproject] at hmachine
  exact hmachine

end Uploader

/-! ## A small instance -/

/-- Commitments that are block digests, and certificates accepted with a header of their commitment. -/
def plainSimplex : Simplex Unit Nat Nat Unit where
  block := id
  notarized := fun n certified => n.proposal.payload = certified.commitment
  finalized := fun f certified => f.proposal.payload = certified.commitment

theorem plainSimplex_matches : plainSimplex.Matches :=
  ⟨fun _ _ h => decide_eq_true h, fun _ _ h => decide_eq_true h⟩

def plainCertified (block : SealedBlock Unit Nat) : Certified plainSimplex :=
  ⟨block, ⟨⟨block.sealDigest⟩, ()⟩, ⟨⟨block.sealDigest⟩, ()⟩, rfl, rfl⟩

set_option maxRecDepth 20000 in
/-- The inputs of two blocks, those of the second around those of the first. -/
theorem certificates_uploaded_sample :
    let c := plainCertified ⟨sampleGenesis.inner, 1⟩
    let c' := plainCertified ⟨sampleChild.inner, 2⟩
    ∃ s, runUploader plainSimplex [.finalization c'.finalization, .block c.block, .notarization c.notarization,
        .notarization c'.notarization, .finalization c.finalization, .block c'.block] = .ok s ∧
      c.Uploaded s ∧ c'.Uploaded s := by
  intro c c'
  obtain ⟨s, hrun, h⟩ := certificates_uploaded_iff plainSimplex_matches [.finalization c'.finalization, .block c.block,
    .notarization c.notarization, .notarization c'.notarization, .finalization c.finalization, .block c'.block]
  refine ⟨s, hrun, (h c ?_).2 ?_, (h c' ?_).2 ?_⟩
  · exact List.Perm.refl c.inputs
  · rintro ⟨⟩
  · exact List.reverse_perm c'.inputs
  · rintro ⟨⟩

set_option maxRecDepth 20000 in
/-- A notarization that comes after the block and its finalization is not uploaded, and stays pending. -/
theorem late_notarization_lost :
    let c := plainCertified sampleGenesis
    ∃ (inputs : List (SimplexInput Unit Nat Nat Unit)) (s : Uploader Unit Nat Nat Unit),
      c.Arrives inputs ∧ runUploader plainSimplex inputs = .ok s ∧ ¬ c.Uploaded s ∧
        s.pending.get c.block.sealDigest = some ⟨none, some c.notarization, none⟩ := by
  intro c
  refine ⟨[.block c.block, .finalization c.finalization, .notarization c.notarization], _, ?_, rfl, ?_, rfl⟩
  · exact (List.Perm.swap _ _ _).cons _
  · rintro ⟨-, ⟨⟩⟩

end Constantinople.Indexer
