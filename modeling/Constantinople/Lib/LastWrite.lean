/-
Tables that keep the last value written to a key, and batches of writes that reach them out of order.
While a batch is in flight the table may hold or miss its writes; if no two batches in flight write a
common key, the table ends with what the batches would have left in the order they were issued.
-/
import Mathlib.Data.List.Basic
import Mathlib.Data.Option.Basic
import Mathlib.Logic.Function.Basic

namespace LastWrite

variable {K V : Type} [DecidableEq K]

/-- A table after writes, in order. -/
def write (t : K → Option V) (rows : List (K × V)) : K → Option V :=
  rows.foldl (fun t row => Function.update t row.1 (some row.2)) t

/-- The last value written to a key. -/
def last : List (K × V) → K → Option V
  | [], _ => none
  | row :: rows, k => (last rows k).or (if row.1 = k then some row.2 else none)

theorem last_append : ∀ (rows rows' : List (K × V)) (k : K), last (rows ++ rows') k = (last rows' k).or (last rows k)
  | [], rows', k => by simp [last]
  | row :: rows, rows', k => by rw [List.cons_append, last, last_append rows rows' k, last, Option.or_assoc]

/-- A written key has a last value, and only a written key. -/
theorem last_isSome : ∀ {rows : List (K × V)} {k : K}, (last rows k).isSome ↔ ∃ row ∈ rows, row.1 = k
  | [], k => by simp [last]
  | row :: rows, k => by
    rw [last, Option.isSome_or, Bool.or_eq_true, last_isSome, List.exists_mem_cons_iff, or_comm]
    simp

/-- Values that depend on their key can be computed after taking the last one. -/
theorem last_map {W : Type} (f : K → V → W) : ∀ (rows : List (K × V)) (k : K),
    last (rows.map fun row => (row.1, f row.1 row.2)) k = (last rows k).map (f k)
  | [], k => rfl
  | row :: rows, k => by
    rw [List.map_cons, last, last_map f rows k, last, Option.map_or]
    by_cases h : row.1 = k
    · simp [h]
    · simp [h]

/-- A table after writes holds the last value written, or what it held. -/
theorem write_apply : ∀ (rows : List (K × V)) (t : K → Option V) (k : K), write t rows k = (last rows k).or (t k)
  | [], t, k => rfl
  | row :: rows, t, k => by
    show write (Function.update t row.1 (some row.2)) rows k = _
    rw [write_apply rows, last, Option.or_assoc]
    congr 1
    by_cases h : row.1 = k
    · subst h; simp
    · simp [h, Function.update_of_ne (Ne.symm h)]

/-! ## Batches in flight -/

/-- A table with batches in flight, after `issued` writes in the order they were issued: the writes in
flight are the newest of their keys, and every other key holds its last issued value. -/
structure Consistent (issued : List (K × V)) (inFlight : List (List (K × V))) (t : K → Option V) : Prop where
  newest : ∀ b ∈ inFlight, ∀ k, (last b k).isSome → last issued k = last b k
  settled : ∀ k, (∃ b ∈ inFlight, (last b k).isSome) ∨ t k = last issued k

variable {issued : List (K × V)} {inFlight : List (List (K × V))} {t : K → Option V}

theorem Consistent.start : Consistent ([] : List (K × V)) [] (fun _ => none) :=
  ⟨List.forall_mem_nil _, fun _ => .inr rfl⟩

/-- Issuing a batch that shares no key with those in flight. -/
theorem Consistent.issue (h : Consistent issued inFlight t) {b : List (K × V)}
    (hsep : ∀ b' ∈ inFlight, ∀ row ∈ b, ∀ row' ∈ b', row.1 ≠ row'.1) :
    Consistent (issued ++ b) (inFlight ++ [b]) t := by
  constructor
  · intro b' hb' k hk
    rw [last_append]
    rcases List.mem_append.1 hb' with hb' | hb'
    · -- an older batch in flight: the new one does not write this key
      have hnone : last b k = none := by
        rw [← Option.not_isSome_iff_eq_none, last_isSome]
        rintro ⟨row, hrow, rfl⟩
        obtain ⟨row', hrow', heq⟩ := last_isSome.1 hk
        exact hsep b' hb' row hrow row' hrow' heq.symm
      rw [hnone, Option.none_or]
      exact h.newest b' hb' k hk
    · obtain rfl := List.mem_singleton.1 hb'
      exact Option.or_of_isSome hk
  · intro k
    rcases hb : last b k with _ | v
    · rw [last_append, hb, Option.none_or]
      apply (h.settled k).imp_left
      rintro ⟨b', hb', hk⟩
      exact ⟨b', List.mem_append_left _ hb', hk⟩
    · exact .inl ⟨b, List.mem_append_right _ (List.mem_singleton_self b), by rw [hb]; rfl⟩

/-- The table takes a batch in flight, which may stay in flight. -/
theorem Consistent.apply (h : Consistent issued inFlight t) {b : List (K × V)} (hb : b ∈ inFlight) :
    Consistent issued inFlight (write t b) := by
  refine ⟨h.newest, fun k => ?_⟩
  rw [write_apply]
  rcases hk : last b k with _ | v
  · rw [Option.none_or]; exact h.settled k
  · exact .inl ⟨b, hb, by rw [hk]; rfl⟩

/-- The table takes a batch, which is then no longer in flight. -/
theorem Consistent.land {l r : List (List (K × V))} {b : List (K × V)} (h : Consistent issued (l ++ b :: r) t) :
    Consistent issued (l ++ r) (write t b) := by
  have hb : b ∈ l ++ b :: r := List.mem_append_right _ (List.mem_cons_self ..)
  have hsub : ∀ b' ∈ l ++ r, b' ∈ l ++ b :: r := by
    intro b' hb'
    rcases List.mem_append.1 hb' with hb' | hb'
    · exact List.mem_append_left _ hb'
    · exact List.mem_append_right _ (List.mem_cons_of_mem _ hb')
  constructor
  · intro b' hb'
    exact h.newest b' (hsub b' hb')
  · intro k
    rw [write_apply]
    rcases hk : last b k with _ | v
    · -- a key the batch does not write is settled by the others
      rw [Option.none_or]
      apply (h.settled k).imp_left
      rintro ⟨b', hb', hk'⟩
      refine ⟨b', ?_, hk'⟩
      rcases List.mem_append.1 hb' with hb' | hb'
      · exact List.mem_append_left _ hb'
      · rcases List.mem_cons.1 hb' with rfl | hb'
        · rw [hk] at hk'; cases hk'
        · exact List.mem_append_right _ hb'
    · right
      rw [h.newest b hb k (by rw [hk]; rfl), hk]
      rfl

/-- With nothing in flight the table holds the last issued values. -/
theorem Consistent.done (h : Consistent issued [] t) (k : K) : t k = last issued k :=
  (h.settled k).resolve_left fun ⟨_, hb, _⟩ => List.not_mem_nil hb

end LastWrite
