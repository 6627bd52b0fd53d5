/-
The newest entries of a table with ordered keys, where only so many can be kept. Entries come in batches, a later
one replaces an earlier one of its key, and after each batch all but the greatest keys are dropped. What is kept
is then what would be kept of all entries there ever were: a dropped entry never comes back by itself.
-/
import Constantinople.Lib.Assoc
import Constantinople.Lib.LastWrite
import Mathlib.Data.List.Sort
import Mathlib.Tactic

namespace Newest

variable {κ β : Type} [LinearOrder κ] {key : β → κ} {n : ℕ} {table table' : κ → Option β} {kept : List β}

/-- The `n` entries of a table with the greatest keys, or all of them, greatest first. -/
structure Keeps (key : β → κ) (n : ℕ) (table : κ → Option β) (kept : List β) : Prop where
  descending : kept.Pairwise fun a b => key b < key a
  length_le : kept.length ≤ n
  held : ∀ b ∈ kept, table (key b) = some b
  greatest : ∀ b, table (key b) = some b → b ∈ kept ∨ kept.length = n ∧ ∀ a ∈ kept, key b < key a

theorem Keeps.empty (key : β → κ) (n : ℕ) : Keeps key n (fun _ => none) [] :=
  ⟨.nil, Nat.zero_le n, List.forall_mem_nil _, fun _ h => by cases h⟩

theorem nodup_map_key (h : kept.Pairwise fun a b => key b < key a) : (kept.map key).Nodup := by
  rw [List.Nodup, List.pairwise_map]
  exact h.imp fun hlt => hlt.ne'

/-- In a descending list, what is greater than an entry stands before it. -/
theorem mem_of_key_lt {before after : List β} {a b : β} (h : (before ++ a :: after).Pairwise fun a b => key b < key a)
    (hb : b ∈ before ++ a :: after) (hlt : key a < key b) : b ∈ before := by
  obtain ⟨-, hafter, -⟩ := List.pairwise_append.1 h
  rcases List.mem_append.1 hb with hb | hb
  · exact hb
  · rcases List.mem_cons.1 hb with rfl | hb
    · exact absurd hlt (lt_irrefl _)
    · exact absurd ((List.pairwise_cons.1 hafter).1 b hb) hlt.asymm

/-- An entry of a descending list is among the first, or they are all greater. -/
theorem mem_take_or {all : List β} (hall : all.Pairwise fun a b => key b < key a) (n : ℕ) {b : β} (hb : b ∈ all) :
    b ∈ all.take n ∨ (all.take n).length = n ∧ ∀ a ∈ all.take n, key b < key a := by
  have hsplit := List.take_append_drop n all
  rw [← hsplit] at hb hall
  obtain ⟨-, -, hbefore⟩ := List.pairwise_append.1 hall
  rcases List.mem_append.1 hb with hb | hb
  · exact .inl hb
  · refine .inr ⟨?_, fun a ha => hbefore a ha b hb⟩
    have hlt : n < all.length := by
      by_contra hge
      rw [List.drop_eq_nil_of_le (not_lt.1 hge)] at hb
      exact List.not_mem_nil hb
    rw [List.length_take]
    omega

/-- Refilling from what was kept and a batch: `all` is the kept entries with the batch written over them. -/
theorem Keeps.refill (h : Keeps key n table kept) {all : List β}
    (hall : all.Pairwise fun a b => key b < key a) (hheld : ∀ b ∈ all, table' (key b) = some b)
    (hkeys : kept.map key ⊆ all.map key)
    (hcover : ∀ b, table' (key b) = some b → b ∈ all ∨ table (key b) = some b ∧ b ∉ kept) :
    Keeps key n table' (all.take n) := by
  refine ⟨hall.sublist (List.take_sublist n all), List.length_take_le n all,
    fun b hb => hheld b (List.mem_of_mem_take hb), ?_⟩
  intro b hb
  rcases hcover b hb with hmem | ⟨hold, hdropped⟩
  · exact mem_take_or hall n hmem
  -- an entry dropped before is below `n` keys, and these are still there
  obtain ⟨hfull, hbelow⟩ := (h.greatest b hold).resolve_left hdropped
  have hn : n ≤ all.length := by
    calc n = (kept.map key).length := by rw [List.length_map, hfull]
      _ ≤ (all.map key).length := (List.subperm_of_subset (nodup_map_key h.descending) hkeys).length_le
      _ = all.length := List.length_map ..
  refine .inr ⟨by rw [List.length_take]; omega, ?_⟩
  intro a ha
  by_contra hle
  obtain ⟨before, after, htake⟩ := List.append_of_mem ha
  have hsplit : all = before ++ a :: (after ++ all.drop n) := by
    rw [← List.cons_append, ← List.append_assoc, ← htake, List.take_append_drop]
  have hbefore : kept.map key ⊆ before.map key := by
    intro k hk
    obtain ⟨c, hc, rfl⟩ := List.mem_map.1 hk
    obtain ⟨c', hc', hkey⟩ := List.mem_map.1 (hkeys hk)
    have hlt : key a < key c' := hkey ▸ (not_lt.1 hle).trans_lt (hbelow c hc)
    have hmem := mem_of_key_lt (hsplit ▸ hall) (hsplit ▸ hc') hlt
    exact hkey ▸ List.mem_map_of_mem hmem
  have hlen := (List.subperm_of_subset (nodup_map_key h.descending) hbefore).length_le
  have htaken := congrArg List.length htake
  simp only [List.length_map, List.length_take, List.length_append, List.length_cons] at hlen htaken
  omega

/-! ## Batches -/

section Batches

variable {ν : Type} [DecidableEq ν]

/-- The last entry of each key. -/
def lastOf (key : β → κ) (entries : List β) : κ → Option β := LastWrite.last (entries.map fun b => (key b, b))

/-- The entries with a batch written over them, in a map under the names of their keys. -/
def overlay (name : κ → ν) (key : β → κ) (kept batch : List β) : Assoc ν β :=
  Assoc.ofPairs ((kept ++ batch).map fun b => (name (key b), b))

/-- All entries of a map, greatest first. -/
def ranked (key : β → κ) (entries : Assoc ν β) : List β :=
  (entries.toList.map Prod.snd).insertionSort fun a b => key b ≤ key a

theorem mem_of_last {rows : List (ν × β)} {k : ν} {b : β} (h : LastWrite.last rows k = some b) : (k, b) ∈ rows := by
  induction rows with
  | nil => cases h
  | cons row rows ih =>
    rw [LastWrite.last, Option.or_eq_some_iff] at h
    rcases h with h | ⟨-, h⟩
    · exact List.mem_cons_of_mem row (ih h)
    · split at h
      · rename_i hkey
        cases h
        exact hkey ▸ List.mem_cons_self
      · cases h

theorem get_ofPairs (pairs : List (ν × β)) (k : ν) : (Assoc.ofPairs pairs).get k = LastWrite.last pairs k := by
  induction pairs using List.reverseRecOn with
  | nil => simp [Assoc.ofPairs, LastWrite.last]
  | append_singleton pairs pair ih =>
    rw [Assoc.ofPairs, List.foldl_append, List.foldl_cons, List.foldl_nil, ← Assoc.ofPairs, Assoc.get_insert,
      LastWrite.last_append, ih]
    by_cases hk : k = pair.1
    · simp [LastWrite.last, hk]
    · simp [LastWrite.last, hk, Ne.symm hk]

theorem mem_of_lastOf {entries : List β} {k : κ} {b : β} (h : lastOf key entries k = some b) :
    b ∈ entries ∧ key b = k := by
  obtain ⟨a, ha, heq⟩ := List.mem_map.1 (mem_of_last h)
  cases heq
  exact ⟨ha, rfl⟩

theorem lastOf_append (entries batch : List β) (k : κ) :
    lastOf key (entries ++ batch) k = (lastOf key batch k).or (lastOf key entries k) := by
  rw [lastOf, List.map_append, LastWrite.last_append]
  rfl

theorem lastOf_isSome (key : β → κ) {entries : List β} {b : β} (hb : b ∈ entries) :
    (lastOf key entries (key b)).isSome :=
  LastWrite.last_isSome.2 ⟨_, List.mem_map_of_mem hb, rfl⟩

/-- In a descending list every entry is the last of its key. -/
theorem lastOf_of_mem (h : kept.Pairwise fun a b => key b < key a) {b : β} (hb : b ∈ kept) :
    lastOf key kept (key b) = some b := by
  obtain ⟨c, hc⟩ := Option.isSome_iff_exists.1 (lastOf_isSome key hb)
  obtain ⟨hmem, hkey⟩ := mem_of_lastOf hc
  rw [hc, List.inj_on_of_nodup_map (nodup_map_key h) hmem hb hkey]

section Overlay

variable {name : κ → ν} (kept batch : List β)

omit [LinearOrder κ] in
theorem mem_overlay {entry : ν × β} (h : entry ∈ (overlay name key kept batch).toList) :
    entry.1 = name (key entry.2) := by
  rw [Assoc.mem_toList, overlay, get_ofPairs] at h
  obtain ⟨b, -, heq⟩ := List.mem_map.1 (mem_of_last h)
  obtain ⟨hkey, rfl⟩ := Prod.mk.inj heq
  exact hkey.symm

theorem ranked_descending : (ranked key (overlay name key kept batch)).Pairwise fun a b => key b < key a := by
  have hsorted : (ranked key (overlay name key kept batch)).Pairwise fun a b => key b ≤ key a := by
    have : Std.Total fun a b : β => key b ≤ key a := ⟨fun a b => le_total (key b) (key a)⟩
    have : IsTrans β fun a b => key b ≤ key a := ⟨fun a b c hab hbc => hbc.trans hab⟩
    exact List.pairwise_insertionSort _ _
  have hnodup : ((ranked key (overlay name key kept batch)).map key).Nodup := by
    have hkeys : ((overlay name key kept batch).toList.map fun entry => name (key entry.2)).Nodup := by
      have hnames := Assoc.nodup_keys (overlay name key kept batch)
      rwa [List.map_congr_left fun entry hentry => mem_overlay kept batch hentry] at hnames
    have hvalues : (((overlay name key kept batch).toList.map Prod.snd).map key).Nodup := by
      rw [List.map_map]
      exact List.Nodup.of_map name (by rwa [List.map_map])
    exact ((List.perm_insertionSort _ _).map key).nodup_iff.2 hvalues
  rw [List.Nodup, List.pairwise_map] at hnodup
  exact (hsorted.and hnodup).imp fun h => lt_of_le_of_ne h.1 h.2.symm

variable (hname : name.Injective)

include hname

theorem get_overlay (k : κ) : (overlay name key kept batch).get (name k) = lastOf key (kept ++ batch) k := by
  rw [overlay, get_ofPairs, lastOf]
  induction kept ++ batch with
  | nil => rfl
  | cons b entries ih => simp only [List.map_cons, LastWrite.last, ih, hname.eq_iff]

theorem mem_ranked {b : β} :
    b ∈ ranked key (overlay name key kept batch) ↔ lastOf key (kept ++ batch) (key b) = some b := by
  rw [ranked, List.mem_insertionSort, List.mem_map, ← get_overlay kept batch hname]
  constructor
  · rintro ⟨entry, hentry, rfl⟩
    rw [← mem_overlay kept batch hentry]
    exact Assoc.mem_toList.1 hentry
  · intro h
    exact ⟨(name (key b), b), Assoc.mem_toList.2 h, rfl⟩

end Overlay

/-- What is kept after a batch is what is kept of everything. -/
theorem Keeps.batch {name : κ → ν} (hname : name.Injective) {entries : List β} (batch : List β)
    (h : Keeps key n (lastOf key entries) kept) :
    Keeps key n (lastOf key (entries ++ batch)) ((ranked key (overlay name key kept batch)).take n) := by
  apply h.refill (ranked_descending kept batch)
  · intro b hb
    rw [mem_ranked _ _ hname, lastOf_append] at hb
    rw [lastOf_append]
    rcases Option.or_eq_some_iff.1 hb with hbatch | ⟨hnone, hkept⟩
    · rw [hbatch, Option.some_or]
    · rw [hnone, Option.none_or]
      exact h.held b (mem_of_lastOf hkept).1
  · intro k hk
    obtain ⟨a, ha, rfl⟩ := List.mem_map.1 hk
    obtain ⟨b, hb⟩ := Option.isSome_iff_exists.1 (lastOf_isSome key (List.mem_append_left batch ha))
    have hkey := (mem_of_lastOf hb).2
    rw [← hkey]
    exact List.mem_map_of_mem ((mem_ranked kept batch hname).2 (hkey ▸ hb))
  · intro b hb
    rw [mem_ranked _ _ hname, lastOf_append]
    rw [lastOf_append] at hb
    rcases Option.or_eq_some_iff.1 hb with hbatch | ⟨hnone, hentries⟩
    · exact .inl (by rw [hbatch, Option.some_or])
    · by_cases hkept : b ∈ kept
      · exact .inl (by rw [hnone, Option.none_or, lastOf_of_mem h.descending hkept])
      · exact .inr ⟨hentries, hkept⟩

end Batches

end Newest
