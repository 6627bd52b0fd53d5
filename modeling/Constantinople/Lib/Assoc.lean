/-
Finite maps with one value per key, over Mathlib's association lists: what `HashMap` of the
standard library promises (insert, remove, lookup, the number of entries), with the iteration
order left to the representation. Entries collected and sorted by key depend only on the lookups:
two maps with the same lookups list the same entries in the same order.
-/
import Mathlib.Data.List.AList
import Mathlib.Data.List.Sort
import Mathlib.Tactic

/-- A finite map from `K` to `V`. -/
structure Assoc (K V : Type) where
  alist : AList fun _ : K => V

namespace Assoc

section Entries

variable {K V : Type}

/-- The map without entries. -/
def empty : Assoc K V := ⟨∅⟩

/-- The number of entries. -/
def size (m : Assoc K V) : Nat := m.alist.entries.length

/-- The entries, in iteration order. -/
def toList (m : Assoc K V) : List (K × V) := m.alist.entries.map fun e => (e.1, e.2)

theorem nodup_keys (m : Assoc K V) : (m.toList.map Prod.fst).Nodup := by
  have h : m.toList.map Prod.fst = m.alist.keys := by simp [toList, AList.keys, List.keys]
  rw [h]; exact AList.keys_nodup m.alist

@[simp] theorem length_toList (m : Assoc K V) : m.toList.length = m.size := by simp [toList, size]

end Entries

variable {K V : Type} [DecidableEq K]

instance [DecidableEq V] : DecidableEq (Assoc K V) := fun a b =>
  decidable_of_iff (a.alist.entries = b.alist.entries) (by
    cases a; cases b; simp [AList.ext_iff])

def get (m : Assoc K V) (k : K) : Option V := m.alist.lookup k

def insert (m : Assoc K V) (k : K) (v : V) : Assoc K V := ⟨m.alist.insert k v⟩

def erase (m : Assoc K V) (k : K) : Assoc K V := ⟨m.alist.erase k⟩

def contains (m : Assoc K V) (k : K) : Bool := (m.get k).isSome

/-- The map collected from a list of pairs; a later pair replaces an earlier one. -/
def ofPairs (l : List (K × V)) : Assoc K V := l.foldl (fun m p => m.insert p.1 p.2) empty

/-! ## Lookups -/

@[simp] theorem get_empty (k : K) : (empty : Assoc K V).get k = none := AList.lookup_empty k

theorem get_insert (m : Assoc K V) (k : K) (v : V) (k' : K) :
    (m.insert k v).get k' = if k' = k then some v else m.get k' := by
  unfold get insert
  split
  · rename_i h; subst h; exact AList.lookup_insert m.alist
  · rename_i h; exact AList.lookup_insert_ne h

@[simp] theorem get_insert_self (m : Assoc K V) (k : K) (v : V) : (m.insert k v).get k = some v := by
  simp [get_insert]

theorem get_insert_ne (m : Assoc K V) {k k' : K} (v : V) (h : k' ≠ k) : (m.insert k v).get k' = m.get k' := by
  simp [get_insert, h]

theorem get_erase (m : Assoc K V) (k k' : K) :
    (m.erase k).get k' = if k' = k then none else m.get k' := by
  unfold get erase
  split
  · rename_i h; subst h; exact AList.lookup_erase k' m.alist
  · rename_i h; exact AList.lookup_erase_ne h

@[simp] theorem get_erase_self (m : Assoc K V) (k : K) : (m.erase k).get k = none := by simp [get_erase]

/-- A pair collected from a list whose values agree per key is the pair looked up. -/
theorem get_ofPairs_map (l : List K) (f : K → V) (k : K) :
    (ofPairs (l.map fun k => (k, f k))).get k = if k ∈ l then some (f k) else none := by
  have key : ∀ (l : List K) (m : Assoc K V), ((l.map fun k => (k, f k)).foldl (fun m p => m.insert p.1 p.2) m).get k =
      if k ∈ l then some (f k) else m.get k := by
    intro l
    induction l with
    | nil => intro m; simp
    | cons a l ih =>
      intro m
      rw [List.map_cons, List.foldl_cons, ih]
      by_cases hl : k ∈ l
      · simp [hl]
      · by_cases ha : k = a
        · subst ha; simp [hl]
        · simp [hl, ha, get_insert]
  have h := key l empty
  rwa [get_empty] at h

theorem mem_toList {m : Assoc K V} {p : K × V} : p ∈ m.toList ↔ m.get p.1 = some p.2 := by
  unfold toList get
  rw [← Option.mem_def, AList.mem_lookup_iff]
  simp only [List.mem_map]
  constructor
  · rintro ⟨⟨k, v⟩, he, rfl⟩; exact he
  · intro h; exact ⟨⟨p.1, p.2⟩, h, rfl⟩

/-- A list of the keys, each once, is as long as the map. -/
theorem size_eq_length {m : Assoc K V} {keys : List K} (hnd : keys.Nodup) (h : ∀ k, k ∈ keys ↔ (m.get k).isSome) :
    m.size = keys.length := by
  have hperm : (m.toList.map Prod.fst).Perm keys := by
    refine (List.perm_ext_iff_of_nodup m.nodup_keys hnd).2 fun k => ?_
    rw [h, Option.isSome_iff_exists, List.mem_map]
    constructor
    · rintro ⟨p, hp, rfl⟩
      exact ⟨p.2, mem_toList.1 hp⟩
    · rintro ⟨v, hv⟩
      exact ⟨(k, v), mem_toList.2 hv, rfl⟩
  rw [← hperm.length_eq, List.length_map, length_toList]

/-! ## Maps with fewer entries -/

/-- Every entry of `m` is one of `m'`. -/
def Sub (m m' : Assoc K V) : Prop := ∀ k v, m.get k = some v → m'.get k = some v

theorem Sub.refl (m : Assoc K V) : m.Sub m := fun _ _ h => h

theorem Sub.trans {m₁ m₂ m₃ : Assoc K V} (h : m₁.Sub m₂) (h' : m₂.Sub m₃) : m₁.Sub m₃ :=
  fun k v hk => h' k v (h k v hk)

theorem erase_sub (m : Assoc K V) (k : K) : (m.erase k).Sub m := by
  intro k' v h
  rw [get_erase] at h
  split at h
  · cases h
  · exact h

end Assoc

/-! ## Entries sorted by key -/

section SortedPairs

variable {K V : Type} [LinearOrder K]

instance Assoc.total_fst : Std.Total (fun l r : K × V => l.1 ≤ r.1) := ⟨fun a b => le_total a.1 b.1⟩

instance Assoc.trans_fst : IsTrans (K × V) (fun l r : K × V => l.1 ≤ r.1) := ⟨fun _ _ _ h1 h2 => le_trans h1 h2⟩

/-- Sorting a list of pairs with distinct keys makes the keys strictly increase. -/
theorem pairwise_lt_insertionSort {l : List (K × V)} (h : (l.map Prod.fst).Nodup) :
    (l.insertionSort fun l r => l.1 ≤ r.1).Pairwise fun a b => a.1 < b.1 := by
  have hp := List.perm_insertionSort (fun l r : K × V => l.1 ≤ r.1) l
  have hs := List.pairwise_insertionSort (fun l r : K × V => l.1 ≤ r.1) l
  have hn : ((l.insertionSort fun l r => l.1 ≤ r.1).map Prod.fst).Nodup := (hp.map Prod.fst).nodup_iff.2 h
  rw [List.Nodup, List.pairwise_map] at hn
  exact (hs.and hn).imp fun hab => lt_of_le_of_ne hab.1 hab.2

/-- Two lists of pairs with strictly increasing keys and the same members are equal. -/
theorem eq_of_pairwise_lt_of_mem {l₁ l₂ : List (K × V)} (h₁ : l₁.Pairwise fun a b => a.1 < b.1)
    (h₂ : l₂.Pairwise fun a b => a.1 < b.1) (h : ∀ p, p ∈ l₁ ↔ p ∈ l₂) : l₁ = l₂ := by
  have hnd : ∀ {l : List (K × V)}, (l.Pairwise fun a b => a.1 < b.1) → l.Nodup :=
    fun hl => hl.imp fun hab heq => absurd (heq ▸ hab) (lt_irrefl _)
  have hperm : l₁.Perm l₂ := (List.perm_ext_iff_of_nodup (hnd h₁) (hnd h₂)).2 h
  refine List.Perm.eq_of_pairwise (fun a b _ _ hab hba => ?_) h₁ h₂ hperm
  exact absurd (lt_trans hab hba) (lt_irrefl _)

/-- The entries collected into a vector and sorted by key. -/
def Assoc.sorted (m : Assoc K V) : List (K × V) := m.toList.insertionSort fun l r => l.1 ≤ r.1

theorem Assoc.mem_sorted {m : Assoc K V} {p : K × V} : p ∈ m.sorted ↔ m.get p.1 = some p.2 := by
  unfold sorted; rw [(List.perm_insertionSort _ _).mem_iff, mem_toList]

theorem Assoc.pairwise_sorted (m : Assoc K V) : m.sorted.Pairwise fun a b => a.1 < b.1 :=
  pairwise_lt_insertionSort m.nodup_keys

end SortedPairs
