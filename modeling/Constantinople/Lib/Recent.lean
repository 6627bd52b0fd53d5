/-
A bounded memory of the keys written to a log. The keys are kept twice, as a set for membership and as a
queue for their age: a key that is not in the set is pushed on both, and the oldest is shifted out of a queue
that is over its capacity. The queue is then the end of the log, so between two writes of one key there are at
least as many other keys as the capacity. The capacity may be infinite: then no key is written twice.
-/
import Mathlib.Data.ENat.Basic
import Mathlib.Data.Finset.Card
import Mathlib.Data.Finset.Dedup
import Mathlib.Data.Finset.Image

namespace Recent

variable {κ ι : Type} [DecidableEq κ] [DecidableEq ι] {m : ℕ∞} {seen : Finset κ} {order log : List κ} {x : κ}

/-! ## The memory -/

/-- The memory of a log: the set and the queue hold the same keys, which end the log, and a key is
forgotten only when the capacity is reached. -/
structure Tracks (m : ℕ∞) (seen : Finset κ) (order log : List κ) : Prop where
  seen_eq : seen = order.toFinset
  nodup : order.Nodup
  suffix : order <:+ log
  full : order = log ∨ m ≤ order.length

namespace Tracks

theorem empty (m : ℕ∞) : Tracks m (∅ : Finset κ) [] [] := ⟨rfl, List.nodup_nil, List.suffix_rfl, .inl rfl⟩

theorem mem_seen (h : Tracks m seen order log) : x ∈ seen ↔ x ∈ order := by
  rw [h.seen_eq, List.mem_toFinset]

theorem push (h : Tracks m seen order log) (hx : x ∉ seen) :
    Tracks m (insert x seen) (order ++ [x]) (log ++ [x]) := by
  rw [h.mem_seen] at hx
  refine ⟨?_, ?_, ?_, ?_⟩
  · ext y
    rw [Finset.mem_insert, h.mem_seen, List.mem_toFinset, List.mem_append, List.mem_singleton, or_comm]
  · exact h.nodup.append (List.nodup_singleton x) (List.disjoint_singleton.2 hx)
  · obtain ⟨old, hold⟩ := h.suffix
    exact ⟨old, by rw [← hold, List.append_assoc]⟩
  · rcases h.full with heq | hle
    · exact .inl (by rw [heq])
    · refine .inr (hle.trans ?_)
      simp

theorem shift {stale : κ} (h : Tracks m seen (stale :: order) log) (hover : m < (stale :: order).length) :
    Tracks m (seen.erase stale) order log := by
  obtain ⟨hstale, hnodup⟩ := List.nodup_cons.1 h.nodup
  refine ⟨?_, hnodup, (List.suffix_cons stale order).trans h.suffix, .inr ?_⟩
  · rw [h.seen_eq, List.toFinset_cons, Finset.erase_insert (mt List.mem_toFinset.1 hstale)]
  · rw [List.length_cons, Nat.cast_succ] at hover
    exact Order.le_of_lt_add_one hover

end Tracks

/-! ## The log -/

/-- Between two writes of one key there are at least `m` other keys. -/
def Spaced (m : ℕ∞) (log : List κ) : Prop :=
  ∀ before x between after, log = before ++ x :: (between ++ x :: after) → m ≤ (between.toFinset.erase x).card

theorem Spaced.nil (m : ℕ∞) : Spaced m ([] : List κ) := by
  intro before x between after h
  simp at h

/-- A key that is not in the memory is not among the last `m` keys of the log. -/
theorem Tracks.le_card_of_not_mem {before between : List κ} (h : Tracks m seen order (before ++ x :: between))
    (hx : x ∉ seen) : m ≤ (between.toFinset.erase x).card := by
  rw [h.mem_seen] at hx
  rcases h.full with heq | hle
  · -- nothing is forgotten yet, and `x` was written
    exact absurd (heq ▸ List.mem_append_right before List.mem_cons_self) hx
  have hsuffix : order <:+ between := by
    rcases List.suffix_or_suffix_of_suffix h.suffix (List.suffix_append before (x :: between)) with hle | hge
    · rcases List.suffix_cons_iff.1 hle with rfl | hbetween
      · exact absurd List.mem_cons_self hx
      · exact hbetween
    · exact absurd (hge.subset List.mem_cons_self) hx
  have hsubset : order.toFinset ⊆ between.toFinset.erase x := by
    intro y hy
    rw [List.mem_toFinset] at hy
    refine Finset.mem_erase.2 ⟨?_, List.mem_toFinset.2 (hsuffix.subset hy)⟩
    rintro rfl
    exact hx hy
  calc m ≤ order.length := hle
    _ = order.toFinset.card := by rw [List.toFinset_card_of_nodup h.nodup]
    _ ≤ (between.toFinset.erase x).card := by exact_mod_cast Finset.card_le_card hsubset

theorem Spaced.push (hspaced : Spaced m log) (h : Tracks m seen order log) (hx : x ∉ seen) :
    Spaced m (log ++ [x]) := by
  rintro before y between after heq
  rcases List.eq_nil_or_concat' after with rfl | ⟨after, z, rfl⟩
  · -- the later write is the one just made
    rw [show before ++ y :: (between ++ [y]) = (before ++ y :: between) ++ [y] by simp] at heq
    obtain ⟨rfl, hy⟩ := List.append_inj' heq rfl
    obtain rfl := List.singleton_injective hy
    exact h.le_card_of_not_mem hx
  · rw [show before ++ y :: (between ++ y :: (after ++ [z])) = (before ++ y :: (between ++ y :: after)) ++ [z] by simp]
      at heq
    exact hspaced before y between after (List.append_inj' heq rfl).1

/-- Spacing does not depend on how the keys are written down. -/
theorem Spaced.of_map {key : ι → κ} (hkey : key.Injective) {entries : List ι} (h : Spaced m (entries.map key)) :
    Spaced m entries := by
  rintro before x between after rfl
  have hle := h (before.map key) (key x) (between.map key) (after.map key) (by simp)
  have himage : (between.map key).toFinset.erase (key x) = (between.toFinset.erase x).image key := by
    rw [Finset.image_erase hkey]
    congr 1
    ext y
    simp
  rwa [himage, Finset.card_image_of_injective _ hkey] at hle

end Recent
