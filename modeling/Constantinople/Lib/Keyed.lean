/-
A table of machines, one per key. Each input goes to the machine of its key, which is created on its
first input and dropped when it ends; the outputs of all machines go to one list. What a run does to
one key is what its machine does on the inputs of that key alone.
-/
import Constantinople.Lib.Assoc
import Mathlib.Data.List.Basic

namespace Keyed

variable {K E α O : Type} [DecidableEq K]

/-- Stores what a machine left, or drops it. -/
def put (m : Assoc K E) (k : K) : Option E → Assoc K E
  | none => m.erase k
  | some e => m.insert k e

theorem get_put (m : Assoc K E) (k : K) (e : Option E) (k' : K) :
    (put m k e).get k' = if k' = k then e else m.get k' := by
  cases e with
  | none => exact Assoc.get_erase ..
  | some e => exact Assoc.get_insert ..

/-- One input of a machine, with the outputs so far. -/
def machine (f : Option E → α → Option E × List O) (s : Option E × List O) (a : α) : Option E × List O :=
  ((f s.1 a).1, s.2 ++ (f s.1 a).2)

/-- One input of the table. -/
def step (key : α → K) (f : Option E → α → Option E × List O) (s : Assoc K E × List O) (a : α) :
    Assoc K E × List O :=
  (put s.1 (key a) (f (s.1.get (key a)) a).1, s.2 ++ (f (s.1.get (key a)) a).2)

section Project

variable {key : α → K} {tag : O → K} {f : Option E → α → Option E × List O} {I : K → E → Prop}

/-- Every machine of the table satisfies the invariant of its key. -/
def Holds (I : K → E → Prop) (m : Assoc K E) : Prop := ∀ k e, m.get k = some e → I k e

/-- A step keeps the invariant of its key, and its outputs are tagged with the key. -/
def Keeps (key : α → K) (tag : O → K) (f : Option E → α → Option E × List O) (I : K → E → Prop) : Prop :=
  ∀ e a, (∀ x, e = some x → I (key a) x) →
    (∀ x, (f e a).1 = some x → I (key a) x) ∧ ∀ o ∈ (f e a).2, tag o = key a

theorem Holds.step (hf : Keeps key tag f I) {s : Assoc K E × List O} (h : Holds I s.1) (a : α) :
    Holds I (step key f s a).1 := by
  intro k e he
  rw [Keyed.step, get_put] at he
  split at he
  · rename_i hk
    subst hk
    exact (hf _ a fun x hx => h _ x hx).1 e he
  · exact h k e he

/-- What a run of the table does to one key. -/
theorem foldl_step (hf : Keeps key tag f I) (k : K) : ∀ (inputs : List α) (s : Assoc K E × List O), Holds I s.1 →
    ((inputs.foldl (step key f) s).1.get k, (inputs.foldl (step key f) s).2.filter (tag · = k)) =
      (inputs.filter (key · = k)).foldl (machine f) (s.1.get k, s.2.filter (tag · = k))
  | [], _, _ => rfl
  | a :: inputs, s, h => by
    obtain ⟨-, htag⟩ := hf (s.1.get (key a)) a fun x hx => h _ x hx
    rw [List.foldl_cons, foldl_step hf k inputs _ (h.step hf a), List.filter_cons]
    by_cases hk : key a = k
    · subst hk
      have hall : (f (s.1.get (key a)) a).2.filter (tag · = key a) = (f (s.1.get (key a)) a).2 :=
        List.filter_eq_self.2 fun o ho => decide_eq_true (htag o ho)
      simp [step, machine, get_put, hall]
    · have hnone : (f (s.1.get (key a)) a).2.filter (tag · = k) = [] :=
        List.filter_eq_nil_iff.2 fun o ho => by simpa [htag o ho] using hk
      simp [step, get_put, hnone, hk, Ne.symm hk]

end Project

end Keyed
