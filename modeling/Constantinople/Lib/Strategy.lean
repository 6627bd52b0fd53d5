/-
Collecting optional results, and data-parallel strategies. Collecting a list of optional results
gives all of them or nothing. A strategy splits its input into consecutive parts, works on each part in
order, and combines the results pairwise; how it splits and in which order it combines is its own choice.
A fold that is a conjunction, and an order-preserving map, do not depend on that choice.
-/
import Mathlib.Data.List.Forall2

/-- All results are there, in the order of the inputs. -/
theorem mapM_eq_some_iff {α β : Type} {f : α → Option β} {xs : List α} {ys : List β} :
    xs.mapM f = some ys ↔ xs.map f = ys.map some := by
  induction xs generalizing ys with
  | nil => cases ys <;> simp
  | cons x xs ih => cases ys with
    | nil => simp [List.mapM_cons, Option.bind_eq_some_iff]
    | cons y ys => simp [List.mapM_cons, Option.bind_eq_some_iff, ← ih]

theorem mapM_bind_some {α β γ : Type} {f : α → Option β} {g : β → Option γ} {xs : List α} {zs : List γ}
    (h : xs.mapM (fun x => (f x).bind g) = some zs) : ∃ ys, xs.mapM f = some ys ∧ ys.mapM g = some zs := by
  induction xs generalizing zs with
  | nil => exact ⟨[], rfl, h⟩
  | cons x xs ih =>
    simp only [List.mapM_cons, bind, Option.bind_eq_some_iff, pure, Option.some.injEq] at h
    obtain ⟨z, ⟨y, hy, hz⟩, zs, hzs, rfl⟩ := h
    obtain ⟨ys, hys, hzs⟩ := ih hzs
    exact ⟨y :: ys, by simp [List.mapM_cons, hy, hys], by simp [List.mapM_cons, hz, hzs]⟩

/-- Related results, one for each input, make up a related list. -/
theorem exists_forall₂ {α β : Type} {R : α → β → Prop} : ∀ {as : List α}, (∀ a ∈ as, ∃ b, R a b) →
    ∃ bs, List.Forall₂ R as bs ∧ ∀ b ∈ bs, ∃ a ∈ as, R a b
  | [], _ => ⟨[], .nil, by simp⟩
  | a :: as, h => by
    obtain ⟨b, hb⟩ := h a (List.mem_cons_self ..)
    obtain ⟨bs, hbs, hmem⟩ := exists_forall₂ fun a' ha' => h a' (List.mem_cons_of_mem a ha')
    refine ⟨b :: bs, .cons hb hbs, List.forall_mem_cons.2 ⟨⟨a, List.mem_cons_self .., hb⟩, ?_⟩⟩
    intro b' hb'
    obtain ⟨a', ha', hr⟩ := hmem b' hb'
    exact ⟨a', List.mem_cons_of_mem a ha', hr⟩

/-- How a list is split into consecutive parts, and in which order the results of the parts are combined. -/
inductive Splitting (α : Type)
  | part (items : List α)
  | join (left right : Splitting α)

namespace Splitting

variable {α β : Type}

/-- The parts, one after the other. -/
def items : Splitting α → List α
  | part items => items
  | join left right => left.items ++ right.items

/-- Fold every part from `init`, and combine the results along the splitting. -/
def fold (init : β) (f : β → α → β) (combine : β → β → β) : Splitting α → β
  | part items => items.foldl f init
  | join left right => combine (left.fold init f combine) (right.fold init f combine)

/-- Map every part, and put the results together in order. -/
def map (f : α → β) : Splitting α → List β
  | part items => items.map f
  | join left right => left.map f ++ right.map f

theorem foldl_and (p : α → Bool) : ∀ (b : Bool) (l : List α), l.foldl (fun b x => b && p x) b = (b && l.all p)
  | b, [] => by simp
  | b, x :: xs => by rw [List.foldl_cons, foldl_and p, List.all_cons, Bool.and_assoc]

theorem fold_and (p : α → Bool) (t : Splitting α) :
    t.fold true (fun valid x => valid && p x) (fun left right => left && right) = t.items.all p := by
  induction t with
  | part items => rw [fold, foldl_and, Bool.true_and, Splitting.items]
  | join left right hl hr => rw [fold, hl, hr, Splitting.items, List.all_append]

theorem map_eq (f : α → β) (t : Splitting α) : t.map f = t.items.map f := by
  induction t with
  | part items => rfl
  | join left right hl hr => rw [map, hl, hr, Splitting.items, List.map_append]

end Splitting

/-- How work is split over workers: the parts in order make up the input. -/
structure Strategy where
  parallelismHint : Nat
  split : {α : Type} → List α → Splitting α
  items_split : ∀ {α : Type} (l : List α), (split l).items = l

namespace Strategy

variable {α β : Type}

/-- One worker, one part. -/
def sequential : Strategy where
  parallelismHint := 1
  split l := .part l
  items_split _ := rfl

/-- Fold every part from `init`, then combine the results. -/
def fold (s : Strategy) (items : List α) (init : β) (f : β → α → β) (combine : β → β → β) : β :=
  (s.split items).fold init f combine

/-- Map every part, keeping the order of the input. -/
def mapCollectVec (s : Strategy) (items : List α) (f : α → β) : List β := (s.split items).map f

/-- A conjunction over all items, however they are split and combined. -/
theorem fold_and (s : Strategy) (items : List α) (p : α → Bool) :
    s.fold items true (fun valid x => valid && p x) (fun left right => left && right) = items.all p := by
  rw [fold, Splitting.fold_and, s.items_split]

theorem mapCollectVec_eq (s : Strategy) (items : List α) (f : α → β) : s.mapCollectVec items f = items.map f := by
  rw [mapCollectVec, Splitting.map_eq, s.items_split]

end Strategy
