/-
Logs that are written in pieces and acknowledged out of order. A piece is known by its end; the
watermark after `k` pieces is the end of the last of them, or what was there before the first. What is
acknowledged from the start without a gap may be published, and a published watermark only advances.
-/
import Mathlib.Data.Finset.Basic
import Mathlib.Data.Nat.Find

namespace Watermark

variable {P : Type}

/-- The watermark after publishing another one. -/
def advance [LE P] [DecidableLE P] (current : Option P) : Option P → Option P
  | none => current
  | some p => if current.any (p ≤ ·) then current else some p

/-- The ends of the pieces handed out, after what was there before, and which are acknowledged. -/
structure Log (P : Type) where
  recovered : Option P
  ends : List P
  persisted : Finset Nat

namespace Log

def new (recovered : Option P) : Log P := ⟨recovered, [], ∅⟩

/-- The watermark after the first `k` pieces. -/
def mark (l : Log P) : Nat → Option P
  | 0 => l.recovered
  | k + 1 => l.ends[k]?

/-- How many pieces are acknowledged from the start without a gap. -/
def contiguous (l : Log P) : Nat := Nat.findGreatest (fun k => ∀ i < k, i ∈ l.persisted) l.ends.length

def append (l : Log P) (p : P) : Log P := { l with ends := l.ends ++ [p] }

def acknowledge (l : Log P) (i : Nat) : Log P := { l with persisted := insert i l.persisted }

/-- The watermark a flush adds to the published one: that of the contiguous part, if it is new. -/
def flush [LE P] [DecidableLE P] (l : Log P) (published : Option P) : Option P :=
  match l.mark l.contiguous with
  | none => none
  | some p => if published.any (p ≤ ·) then none else some p

/-- Each piece ends after the watermark before it. -/
def Ordered [LT P] (l : Log P) : Prop := ∀ k p q, l.ends[k]? = some p → l.mark k = some q → q < p

/-- `l'` has the pieces of `l` and maybe more, and forgets no acknowledgement. -/
structure Grows (l l' : Log P) : Prop where
  recovered : l'.recovered = l.recovered
  ends : l.ends <+: l'.ends
  persisted : l.persisted ⊆ l'.persisted

/-- A watermark after some of the first `m` pieces, with all pieces up to it acknowledged. -/
def Publishes (l : Log P) (m : Nat) (published : Option P) : Prop :=
  ∃ k ≤ m, published = l.mark k ∧ ∀ i < k, i ∈ l.persisted

/-- What brings a watermark after `m` pieces to `c` pieces: nothing, if it is there, or the end of the
last of them, with all pieces up to it acknowledged. -/
def Brings (l : Log P) (m c : Nat) (watermark : Option P) : Prop :=
  (watermark = none ∧ c ≤ m) ∨
    ∃ i p, c = i + 1 ∧ watermark = some p ∧ l.ends[i]? = some p ∧ ∀ j < i + 1, j ∈ l.persisted

theorem advance_any [LE P] [DecidableLE P] [Std.IsLinearOrder P] {p : P} {current : Option P} (h : current.any (p ≤ ·) = true)
    (q : Option P) : (advance current q).any (p ≤ ·) = true := by
  cases q with
  | none => exact h
  | some q =>
    show Option.any _ (if current.any (q ≤ ·) then current else some q) = true
    split
    · exact h
    · rename_i hnot
      -- the new watermark was not reached, so it is above the old one
      obtain ⟨c, hc, hpc⟩ := (Option.any_eq_true _ _).1 h
      have hqc : ¬ q ≤ c := fun hle => hnot ((Option.any_eq_true _ _).2 ⟨c, hc, decide_eq_true hle⟩)
      exact decide_eq_true (Std.le_trans (of_decide_eq_true hpc) (Std.le_of_not_ge hqc))

/-! ## Growing logs -/

theorem Grows.refl (l : Log P) : l.Grows l := ⟨rfl, List.prefix_refl _, subset_rfl⟩

theorem grows_append (l : Log P) (p : P) : l.Grows (l.append p) := ⟨rfl, List.prefix_append _ _, subset_rfl⟩

theorem grows_acknowledge (l : Log P) (i : Nat) : l.Grows (l.acknowledge i) :=
  ⟨rfl, List.prefix_refl _, Finset.subset_insert _ _⟩

theorem Grows.get {l l' : Log P} (h : l.Grows l') {i : Nat} {p : P} (hp : l.ends[i]? = some p) :
    l'.ends[i]? = some p := by
  obtain ⟨rest, hrest⟩ := h.ends
  rw [← hrest, List.getElem?_append_left (List.getElem?_eq_some_iff.1 hp).1]
  exact hp

theorem Grows.mark {l l' : Log P} (h : l.Grows l') {k : Nat} (hk : k ≤ l.ends.length) : l'.mark k = l.mark k := by
  cases k with
  | zero => exact h.recovered
  | succ k =>
    show l'.ends[k]? = l.ends[k]?
    rw [h.get (List.getElem?_eq_getElem hk), List.getElem?_eq_getElem hk]

/-! ## Watermarks -/

section Order

variable [LE P] [LT P] [Std.IsLinearOrder P] [Std.LawfulOrderLT P]

omit [LE P] [Std.IsLinearOrder P] [Std.LawfulOrderLT P] in
theorem Ordered.append {l : Log P} (h : l.Ordered) {p : P} (hp : ∀ q, l.mark l.ends.length = some q → q < p) :
    (l.append p).Ordered := by
  intro k p' q hp' hq
  obtain ⟨hlt, -⟩ := List.getElem?_eq_some_iff.1 hp'
  have hlen : k ≤ l.ends.length := by
    simp only [Log.append, List.length_append, List.length_singleton] at hlt
    omega
  rw [(l.grows_append p).mark hlen] at hq
  rcases Nat.lt_or_eq_of_le hlen with hk | rfl
  · rw [Log.append, List.getElem?_append_left hk] at hp'
    exact h k p' q hp' hq
  · simp only [Log.append, List.getElem?_concat_length, Option.some.injEq] at hp'
    subst hp'
    exact hp q hq

/-- Later watermarks are higher. -/
theorem Ordered.mark_lt {l : Log P} (h : l.Ordered) {k i : Nat} (hk : k ≤ i) {p q : P} (hp : l.ends[i]? = some p)
    (hq : l.mark k = some q) : q < p := by
  induction i generalizing p with
  | zero =>
    obtain rfl : k = 0 := Nat.le_zero.1 hk
    exact h 0 p q hp hq
  | succ i ih =>
    rcases Nat.lt_or_eq_of_le hk with hlt | rfl
    · obtain ⟨hi, -⟩ := List.getElem?_eq_some_iff.1 hp
      have hget : l.ends[i]? = some l.ends[i] := List.getElem?_eq_getElem (by omega)
      exact Std.lt_trans (ih (by omega) hget) (h (i + 1) p _ hp hget)
    · exact h (i + 1) p q hp hq

/-- A watermark has reached the end of a piece exactly if it comes after it. -/
theorem Ordered.reached_iff [DecidableLE P] {l : Log P} (h : l.Ordered) {k i : Nat} (hk : k ≤ l.ends.length) {p : P}
    (hp : l.ends[i]? = some p) : (l.mark k).any (p ≤ ·) = true ↔ i < k := by
  constructor
  · intro hany
    by_contra hle
    obtain ⟨q, hq, hpq⟩ := (Option.any_eq_true _ _).1 hany
    have hlt := h.mark_lt (Nat.le_of_not_lt hle) hp hq
    exact Std.lt_irrefl (Std.lt_of_lt_of_le hlt (of_decide_eq_true hpq))
  · intro hik
    obtain ⟨k, rfl⟩ : ∃ k', k = k' + 1 := ⟨k - 1, by omega⟩
    have hget : l.ends[k]? = some l.ends[k] := List.getElem?_eq_getElem hk
    refine (Option.any_eq_true _ _).2 ⟨_, hget, decide_eq_true ?_⟩
    rcases Nat.lt_or_eq_of_le (Nat.le_of_lt_succ hik) with hlt | rfl
    · refine Std.le_of_lt (h.mark_lt (k := i + 1) hlt hget ?_)
      exact hp
    · rw [hp] at hget
      rw [← Option.some.inj hget]
      exact Std.le_refl _

/-- Publishing the end of a piece. -/
theorem Ordered.advance_mark [DecidableLE P] {l : Log P} (h : l.Ordered) {k i : Nat} (hk : k ≤ l.ends.length) {p : P}
    (hp : l.ends[i]? = some p) : advance (l.mark k) (some p) = l.mark (max k (i + 1)) := by
  unfold advance
  by_cases hik : i < k
  · simp only [(h.reached_iff hk hp).2 hik, if_true]
    rw [Nat.max_eq_left hik]
  · have hany : ¬ (l.mark k).any (p ≤ ·) = true := fun hany => hik ((h.reached_iff hk hp).1 hany)
    simp only [hany]
    rw [Nat.max_eq_right (by omega)]
    exact hp.symm

end Order

/-! ## The contiguous part -/

theorem contiguous_le (l : Log P) : l.contiguous ≤ l.ends.length := Nat.findGreatest_le _

theorem mem_of_lt_contiguous {l : Log P} {i : Nat} (h : i < l.contiguous) : i ∈ l.persisted := by
  have hnone : ∀ i < 0, i ∈ l.persisted := fun i hi => absurd hi (Nat.not_lt_zero i)
  have hspec : ∀ i < l.contiguous, i ∈ l.persisted := Nat.findGreatest_spec (P := fun k => ∀ i < k, i ∈ l.persisted)
    (Nat.zero_le l.ends.length) hnone
  exact hspec i h

theorem contiguous_le_of_persisted {l : Log P} {n : Nat} (h : ∀ i ∈ l.persisted, i < n) : l.contiguous ≤ n := by
  by_contra hlt
  exact Nat.lt_irrefl n (h n (mem_of_lt_contiguous (Nat.lt_of_not_le hlt)))

theorem le_contiguous {l : Log P} {k : Nat} (hk : k ≤ l.ends.length) (h : ∀ i < k, i ∈ l.persisted) :
    k ≤ l.contiguous :=
  Nat.le_findGreatest hk h

/-- A flush publishes the contiguous part, unless that is published already. -/
theorem flush_eq [LE P] [LT P] [Std.IsLinearOrder P] [Std.LawfulOrderLT P] [DecidableLE P] {l : Log P} (h : l.Ordered)
    {k : Nat} (hk : k ≤ l.contiguous) :
    l.flush (l.mark k) = if k < l.contiguous then l.mark l.contiguous else none := by
  have hlen := l.contiguous_le
  unfold flush
  by_cases hlt : k < l.contiguous
  · obtain ⟨c, hc⟩ : ∃ c, l.contiguous = c + 1 := ⟨l.contiguous - 1, by omega⟩
    have hget : l.ends[c]? = some l.ends[c] := List.getElem?_eq_getElem (by omega)
    have hmark : l.mark l.contiguous = some l.ends[c] := by
      rw [hc]
      exact hget
    have hany : ¬ (l.mark k).any (l.ends[c] ≤ ·) = true := fun hany => by
      have := (h.reached_iff (by omega) hget).1 hany
      omega
    rw [if_pos hlt, hmark]
    exact if_neg hany
  · obtain rfl : k = l.contiguous := by omega
    rw [if_neg hlt]
    split
    · rfl
    · rename_i p hp
      have hany : (l.mark l.contiguous).any (p ≤ ·) = true := by
        rw [hp]
        exact decide_eq_true (Std.le_refl p)
      rw [if_pos hany]

/-! ## Publishing -/

theorem Publishes.mono {l : Log P} {m m' : Nat} {published : Option P} (h : l.Publishes m published) (hm : m ≤ m') :
    l.Publishes m' published := by
  obtain ⟨k, hk, hpublished, hall⟩ := h
  exact ⟨k, hk.trans hm, hpublished, hall⟩

theorem Publishes.grow {l l' : Log P} {m : Nat} {published : Option P} (h : l.Publishes m published)
    (hm : m ≤ l.ends.length) (hl : l.Grows l') : l'.Publishes m published := by
  obtain ⟨k, hk, rfl, hall⟩ := h
  exact ⟨k, hk, (hl.mark (hk.trans hm)).symm, fun i hi => hl.persisted (hall i hi)⟩

theorem Brings.mono {l : Log P} {m m' c : Nat} {watermark : Option P} (h : l.Brings m c watermark) (hm : m ≤ m') :
    l.Brings m' c watermark := by
  rcases h with ⟨hnone, hc⟩ | hsome
  · exact .inl ⟨hnone, hc.trans hm⟩
  · exact .inr hsome

theorem Brings.grow {l l' : Log P} {m c : Nat} {watermark : Option P} (h : l.Brings m c watermark) (hl : l.Grows l') :
    l'.Brings m c watermark := by
  rcases h with hnone | ⟨i, p, hc, hp, hend, hall⟩
  · exact .inl hnone
  · exact .inr ⟨i, p, hc, hp, hl.get hend, fun j hj => hl.persisted (hall j hj)⟩

section Order

variable [LE P] [LT P] [Std.IsLinearOrder P] [Std.LawfulOrderLT P] [DecidableLE P]

theorem Brings.advance_mark {l : Log P} {m c : Nat} {watermark : Option P} (h : l.Brings m c watermark) (ho : l.Ordered)
    (hm : m ≤ l.ends.length) : advance (l.mark m) watermark = l.mark (max m c) := by
  rcases h with ⟨rfl, hc⟩ | ⟨i, p, rfl, rfl, hend, -⟩
  · rw [Nat.max_eq_left hc]
    rfl
  · exact ho.advance_mark hm hend

/-- A published watermark stays one when it advances. -/
theorem Publishes.advance {l : Log P} {m c : Nat} {published watermark : Option P} (h : l.Publishes m published)
    (hw : l.Brings m c watermark) (ho : l.Ordered) (hm : m ≤ l.ends.length) :
    l.Publishes (max m c) (advance published watermark) := by
  rcases hw with ⟨rfl, -⟩ | ⟨i, p, rfl, rfl, hend, hall⟩
  · exact h.mono (Nat.le_max_left ..)
  · obtain ⟨k, hk, rfl, hall'⟩ := h
    refine ⟨max k (i + 1), by omega, ho.advance_mark (hk.trans hm) hend, fun j hj => ?_⟩
    rcases Nat.lt_or_ge j k with hjk | hjk
    · exact hall' j hjk
    · exact hall j (by omega)

theorem Publishes.acknowledged {l : Log P} {m i : Nat} {published : Option P} {p : P} (h : l.Publishes m published)
    (ho : l.Ordered) (hm : m ≤ l.ends.length) (hend : l.ends[i]? = some p) (hp : published.any (p ≤ ·) = true) :
    ∀ j ≤ i, j ∈ l.persisted := by
  obtain ⟨k, hk, rfl, hall⟩ := h
  have hik := (ho.reached_iff (hk.trans hm) hend).1 hp
  exact fun j hj => hall j (by omega)

/-- A flush brings the watermark to the contiguous part. -/
theorem Publishes.flush {l : Log P} {m : Nat} {published : Option P} (h : l.Publishes m published) (ho : l.Ordered)
    (hm : m ≤ l.ends.length) : l.Brings m l.contiguous (l.flush published) := by
  obtain ⟨k, hk, rfl, hall⟩ := h
  have hkc : k ≤ l.contiguous := le_contiguous (hk.trans hm) hall
  have hlen := l.contiguous_le
  rw [flush_eq ho hkc]
  by_cases hlt : k < l.contiguous
  · obtain ⟨i, hi⟩ : ∃ i, l.contiguous = i + 1 := ⟨l.contiguous - 1, by omega⟩
    have hget : l.ends[i]? = some l.ends[i] := List.getElem?_eq_getElem (by omega)
    rw [if_pos hlt]
    refine .inr ⟨i, _, hi, ?_, hget, fun j hj => mem_of_lt_contiguous (by omega)⟩
    rw [hi]
    exact hget
  · rw [if_neg hlt]
    exact .inl ⟨rfl, by omega⟩

/-- After a flush the watermark has reached every piece of the contiguous part. -/
theorem Publishes.flush_any {l : Log P} {m i : Nat} {published : Option P} {p : P} (h : l.Publishes m published)
    (ho : l.Ordered) (hm : m ≤ l.ends.length) (hi : i < l.contiguous) (hend : l.ends[i]? = some p) :
    (Watermark.advance published (l.flush published)).any (p ≤ ·) = true := by
  obtain ⟨k, hk, rfl, hall⟩ := h
  have hpub : l.Publishes k (l.mark k) := ⟨k, Nat.le_refl k, rfl, hall⟩
  have hlen := l.contiguous_le
  have hkc : k ≤ l.contiguous := le_contiguous (hk.trans hm) hall
  rw [(hpub.flush ho (hk.trans hm)).advance_mark ho (hk.trans hm), Nat.max_eq_right hkc]
  exact (ho.reached_iff hlen hend).2 hi

end Order

end Log

end Watermark
