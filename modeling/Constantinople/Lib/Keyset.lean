/-
Keyset pagination. The rows of a query have distinct keys and come in descending order. A page is asked for
with the key of the last row seen, and one row more than a page holds is fetched, to learn whether another
page follows. Following the cursors from the start ends, and gives every row once, in order.
-/
import Mathlib.Data.List.Sort
import Mathlib.Tactic

namespace Keyset

variable {α K : Type} [LinearOrder K] (key : α → K)

/-- Keys strictly fall along the rows. -/
def Descending (rows : List α) : Prop := rows.Pairwise fun a b => key b < key a

/-- The rows behind a cursor; without one, all rows. -/
def behind (rows : List α) : Option K → List α
  | none => rows
  | some cursor => rows.filter fun row => key row < cursor

structure Page (α K : Type) where
  rows : List α
  next : Option K

/-- The page of at most `size` rows behind a cursor. -/
def page (size : Nat) (rows : List α) (cursor : Option K) : Page α K :=
  let fetched := (behind key rows cursor).take (size + 1)
  let visible := fetched.take size
  ⟨visible, if size < fetched.length then visible.getLast?.map key else none⟩

/-- The rows of all pages from a cursor on, if the last page is among the first `calls`. -/
def follow (fetch : Option K → Page α K) : (calls : Nat) → Option K → Option (List α)
  | 0, _ => none
  | calls + 1, cursor =>
    match (fetch cursor).next with
    | none => some (fetch cursor).rows
    | some next => (follow fetch calls (some next)).map ((fetch cursor).rows ++ ·)

variable {key} {rows : List α}

/-- Rows with distinct keys have one descending order. -/
theorem Descending.eq_of_perm (h : Descending key rows) {sorted : List α}
    (hs : sorted.Pairwise fun a b => key b ≤ key a) (hp : sorted.Perm rows) : sorted = rows := by
  have hinj : ∀ a ∈ rows, ∀ b ∈ rows, key a = key b → a = b := by
    have hnodup : (rows.map key).Nodup := by
      rw [List.Nodup, List.pairwise_map]
      exact h.imp fun hab => hab.ne'
    exact fun a ha b hb => List.inj_on_of_nodup_map hnodup ha hb
  refine List.Perm.eq_of_pairwise (fun a b ha hb hab hba => ?_) hs (h.imp le_of_lt) hp
  exact hinj a (hp.subset ha) b hb (le_antisymm hba hab)

theorem behind_subset (rows : List α) (cursor : Option K) {row : α} (h : row ∈ behind key rows cursor) : row ∈ rows := by
  cases cursor with
  | none => exact h
  | some cursor => exact List.mem_of_mem_filter h

theorem Descending.behind (h : Descending key rows) (cursor : Option K) : Descending key (behind key rows cursor) := by
  cases cursor with
  | none => exact h
  | some cursor => exact h.sublist List.filter_sublist

/-- Behind the key of a row are the rows after it. -/
theorem Descending.behind_key {before after : List α} {last : α} (h : Descending key (before ++ last :: after)) :
    Keyset.behind key (before ++ last :: after) (some (key last)) = after := by
  obtain ⟨-, htail, hcross⟩ := List.pairwise_append.1 h
  obtain ⟨hlast, -⟩ := List.pairwise_cons.1 htail
  have hbefore : before.filter (fun row => key row < key last) = [] := by
    rw [List.filter_eq_nil_iff]
    intro row hrow
    have hlt := hcross row hrow last (List.mem_cons_self ..)
    simpa using hlt.le
  have hafter : after.filter (fun row => key row < key last) = after := by
    rw [List.filter_eq_self]
    intro row hrow
    simpa using hlast row hrow
  rw [Keyset.behind, List.filter_append, hbefore, List.nil_append, List.filter_cons, if_neg (by simp), hafter]

/-- The last page: all rows behind the cursor fit. -/
theorem page_of_length_le {size : Nat} {cursor : Option K} (h : (Keyset.behind key rows cursor).length ≤ size) :
    page key size rows cursor = ⟨Keyset.behind key rows cursor, none⟩ := by
  unfold page
  rw [List.take_of_length_le (by omega : (Keyset.behind key rows cursor).length ≤ size + 1)]
  simp only [List.take_of_length_le h, if_neg (Nat.not_lt.2 h)]

/-- A full page: its last row is the cursor of the next. -/
theorem page_of_lt_length {size : Nat} (hsize : 0 < size) {cursor : Option K}
    (h : size < (Keyset.behind key rows cursor).length) :
    ∃ visible last, page key size rows cursor = ⟨visible ++ [last], some (key last)⟩ ∧
      Keyset.behind key rows cursor = visible ++ last :: (Keyset.behind key rows cursor).drop size := by
  generalize hrest : Keyset.behind key rows cursor = rest at h ⊢
  obtain ⟨visible, last, hvisible⟩ : ∃ visible last, rest.take size = visible ++ [last] := by
    have hne : rest.take size ≠ [] := by
      rw [Ne, ← List.length_eq_zero_iff, List.length_take]
      omega
    exact ⟨_, _, (List.dropLast_append_getLast hne).symm⟩
  refine ⟨visible, last, ?_, ?_⟩
  · unfold page
    rw [hrest]
    simp only [List.take_take, List.length_take]
    rw [if_pos (by omega), min_eq_left (by omega : size ≤ size + 1), hvisible, List.getLast?_concat]
    rfl
  · rw [List.append_cons, ← hvisible, List.take_append_drop]

/-- Following the pages from a cursor gives the rows behind it. -/
theorem Descending.follow_page (h : Descending key rows) {size : Nat} (hsize : 0 < size) :
    ∀ {calls : Nat} {cursor : Option K} {before : List α}, rows = before ++ Keyset.behind key rows cursor →
      (Keyset.behind key rows cursor).length < calls →
      follow (page key size rows) calls cursor = some (Keyset.behind key rows cursor) := by
  intro calls
  -- on the calls that are left; `before` is what the pages up to the cursor held
  induction calls with
  | zero =>
    intro cursor before _ hcalls
    exact absurd hcalls (Nat.not_lt_zero _)
  | succ calls ih =>
    intro cursor before hrows hcalls
    rw [follow]
    by_cases hlen : (Keyset.behind key rows cursor).length ≤ size
    · rw [page_of_length_le hlen]
    · obtain ⟨visible, last, hpage, hsplit⟩ := page_of_lt_length hsize (Nat.not_le.1 hlen)
      generalize Keyset.behind key rows cursor = rest at hlen hrows hcalls hsplit ⊢
      have hwhole : rows = (before ++ visible) ++ last :: rest.drop size := by
        rw [List.append_assoc, ← hsplit]
        exact hrows
      have hnext : Keyset.behind key rows (some (key last)) = rest.drop size := by
        have hdesc := h
        rw [hwhole] at hdesc ⊢
        exact hdesc.behind_key
      have hbehind : rows = (before ++ visible ++ [last]) ++ Keyset.behind key rows (some (key last)) := by
        rw [hnext, List.append_assoc _ [last]]
        exact hwhole
      have hfewer : (Keyset.behind key rows (some (key last))).length < calls := by
        rw [hnext, List.length_drop]
        omega
      rw [hpage]
      simp only
      rw [ih hbehind hfewer, hnext, Option.map_some, ← List.append_cons, ← hsplit]

/-- Following the pages from the start gives all rows. -/
theorem Descending.follow_all (h : Descending key rows) {size calls : Nat} (hsize : 0 < size)
    (hcalls : rows.length < calls) : follow (page key size rows) calls none = some rows :=
  h.follow_page hsize (List.nil_append rows).symm hcalls

end Keyset
