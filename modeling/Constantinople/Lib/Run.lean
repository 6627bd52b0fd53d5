/-
Runs of step functions and step relations. A partial step function is run over a list of inputs in
two ways: `run` fails with the first input that fails, `greedy` skips the inputs that fail. A trace
is a run of a labelled step relation. Two step functions that simulate each other on the inputs at
hand fail together, end in related states and keep the same inputs.
-/
import Mathlib.Data.List.Basic
import Mathlib.Data.Option.Basic

namespace Run

variable {σ τ α : Type}

/-! ## Partial step functions -/

/-- Every input in order; fails as soon as one step does. -/
def run (step : σ → α → Option σ) : σ → List α → Option σ
  | s, [] => some s
  | s, x :: xs =>
    match step s x with
    | none => none
    | some s' => run step s' xs

/-- The inputs kept by an in-order selection: those whose step is defined on the state left by the
kept inputs before them. -/
def greedy (step : σ → α → Option σ) : σ → List α → List α
  | _, [] => []
  | s, x :: xs =>
    match step s x with
    | none => greedy step s xs
    | some s' => x :: greedy step s' xs

/-- The inputs the selection skips. -/
def skipped (step : σ → α → Option σ) : σ → List α → List α
  | _, [] => []
  | s, x :: xs =>
    match step s x with
    | none => x :: skipped step s xs
    | some s' => skipped step s' xs

/-- The state the selection ends in. -/
def final (step : σ → α → Option σ) : σ → List α → σ
  | s, [] => s
  | s, x :: xs =>
    match step s x with
    | none => final step s xs
    | some s' => final step s' xs

variable {step : σ → α → Option σ} {step' : τ → α → Option τ}

theorem run_cons {s s' : σ} {x : α} {xs : List α} :
    run step s (x :: xs) = some s' ↔ ∃ m, step s x = some m ∧ run step m xs = some s' := by
  rw [run]
  cases step s x with
  | none => simp
  | some m => simp

/-- Running the kept inputs alone does not fail, and ends where the selection ended. -/
theorem run_greedy (step : σ → α → Option σ) :
    ∀ (s : σ) (xs : List α), run step s (greedy step s xs) = some (final step s xs)
  | s, [] => rfl
  | s, x :: xs => by
    rw [greedy, final]
    cases hx : step s x with
    | none => exact run_greedy step s xs
    | some s' => simp only [run, hx]; exact run_greedy step s' xs

theorem greedy_sublist (step : σ → α → Option σ) :
    ∀ (s : σ) (xs : List α), (greedy step s xs).Sublist xs
  | s, [] => .slnil
  | s, x :: xs => by
    rw [greedy]
    cases step s x with
    | none => exact (greedy_sublist step s xs).cons x
    | some s' => exact (greedy_sublist step s' xs).cons_cons x

/-- Nothing is lost: what is kept and what is skipped rearrange the input. -/
theorem greedy_append_skipped_perm (step : σ → α → Option σ) :
    ∀ (s : σ) (xs : List α), (greedy step s xs ++ skipped step s xs).Perm xs
  | s, [] => .nil
  | s, x :: xs => by
    rw [greedy, skipped]
    cases step s x with
    | none => exact List.perm_middle.trans ((greedy_append_skipped_perm step s xs).cons x)
    | some s' => exact (greedy_append_skipped_perm step s' xs).cons x

/-- Induction rule for runs: what every step on an input preserves, the run preserves. -/
theorem run_invariant {I : σ → Prop} {xs : List α}
    (hstep : ∀ s s' x, x ∈ xs → I s → step s x = some s' → I s') :
    ∀ {s s' : σ}, I s → run step s xs = some s' → I s' := by
  induction xs with
  | nil => intro s s' hi h; cases h; exact hi
  | cons x xs ih =>
    intro s s' hi h
    obtain ⟨m, hm, h⟩ := run_cons.1 h
    exact ih (fun s s' y hy => hstep s s' y (List.mem_cons_of_mem x hy))
      (hstep s m x (List.mem_cons_self ..) hi hm) h

/-! ## Simulation -/

/-- On the inputs of `xs`, related states step together: both fail, or both reach related states. -/
def Simulates (R : σ → τ → Prop) (step : σ → α → Option σ) (step' : τ → α → Option τ) (xs : List α) : Prop :=
  ∀ s t x, x ∈ xs → R s t → Option.Rel R (step s x) (step' t x)

variable {R : σ → τ → Prop}

theorem rel_cases {o : Option σ} {o' : Option τ} (h : Option.Rel R o o') :
    (o = none ∧ o' = none) ∨ ∃ s t, o = some s ∧ o' = some t ∧ R s t := by
  cases h with
  | none => exact .inl ⟨rfl, rfl⟩
  | some hr => exact .inr ⟨_, _, rfl, rfl, hr⟩

theorem Simulates.tail {x : α} {xs : List α} (h : Simulates R step step' (x :: xs)) : Simulates R step step' xs :=
  fun s t y hy => h s t y (List.mem_cons_of_mem x hy)

theorem Simulates.run {xs : List α} (h : Simulates R step step' xs) :
    ∀ {s : σ} {t : τ}, R s t → Option.Rel R (run step s xs) (run step' t xs) := by
  induction xs with
  | nil => intro s t hr; exact .some hr
  | cons x xs ih =>
    intro s t hr
    rcases rel_cases (h s t x (List.mem_cons_self ..) hr) with ⟨hs, ht⟩ | ⟨s', t', hs, ht, hr'⟩
    · simp only [Run.run, hs, ht]; exact .none
    · simp only [Run.run, hs, ht]; exact ih h.tail hr'

/-- Selections of simulating step functions keep and skip the same inputs. -/
theorem Simulates.greedy {xs : List α} (h : Simulates R step step' xs) :
    ∀ {s : σ} {t : τ}, R s t → greedy step s xs = greedy step' t xs ∧
      skipped step s xs = skipped step' t xs ∧ R (final step s xs) (final step' t xs) := by
  induction xs with
  | nil => intro s t hr; exact ⟨rfl, rfl, hr⟩
  | cons x xs ih =>
    intro s t hr
    rcases rel_cases (h s t x (List.mem_cons_self ..) hr) with ⟨hs, ht⟩ | ⟨s', t', hs, ht, hr'⟩
    · obtain ⟨hg, hsk, hf⟩ := ih h.tail hr
      simp only [Run.greedy, skipped, final, hs, ht, hg, hsk]
      exact ⟨trivial, trivial, hf⟩
    · obtain ⟨hg, hsk, hf⟩ := ih h.tail hr'
      simp only [Run.greedy, skipped, final, hs, ht, hg, hsk]
      exact ⟨trivial, trivial, hf⟩

/-! ## Traces of a labelled step relation -/

/-- A finite run of a step relation, with the labels of its steps in order. -/
inductive Trace (step : σ → α → σ → Prop) : σ → List α → σ → Prop
  | nil (s : σ) : Trace step s [] s
  | cons {s m s' : σ} {l : α} {ls : List α} (head : step s l m) (tail : Trace step m ls s') :
    Trace step s (l :: ls) s'

namespace Trace

variable {next : σ → α → σ → Prop}

/-- Induction rule for traces: what every step preserves holds at the end of a trace. -/
theorem invariant {I : σ → Prop} (hstep : ∀ s l s', I s → next s l s' → I s') {s s' : σ} {ls : List α}
    (hi : I s) (h : Trace next s ls s') : I s' := by
  induction h with
  | nil s => exact hi
  | cons head tail ih => exact ih (hstep _ _ _ hi head)

/-- What every step says of its label holds of every label of a trace. -/
theorem forall_labels {P : α → Prop} {s s' : σ} {ls : List α} (h : Trace next s ls s')
    (hstep : ∀ s l s', next s l s' → P l) : ∀ l ∈ ls, P l := by
  induction h with
  | nil s => exact List.forall_mem_nil _
  | cons head tail ih => exact List.forall_mem_cons.2 ⟨hstep _ _ _ head, ih⟩

theorem imp_of_mem {next' : σ → α → σ → Prop} {s s' : σ} {ls : List α} (h : Trace next s ls s')
    (himp : ∀ l ∈ ls, ∀ s s', next s l s' → next' s l s') : Trace next' s ls s' := by
  induction h with
  | nil s => exact .nil s
  | cons head tail ih =>
    rw [List.forall_mem_cons] at himp
    exact .cons (himp.1 _ _ head) (ih himp.2)

theorem imp {next' : σ → α → σ → Prop} (himp : ∀ s l s', next s l s' → next' s l s') {s s' : σ} {ls : List α}
    (h : Trace next s ls s') : Trace next' s ls s' :=
  h.imp_of_mem fun l _ s s' => himp s l s'

theorem append {s m s' : σ} {ls ls' : List α} (h : Trace next s ls m) (h' : Trace next m ls' s') :
    Trace next s (ls ++ ls') s' := by
  induction h with
  | nil s => exact h'
  | cons head tail ih => exact .cons head (ih h')

theorem split {s s' : σ} {ls ls' : List α} (h : Trace next s (ls ++ ls') s') :
    ∃ m, Trace next s ls m ∧ Trace next m ls' s' := by
  induction ls generalizing s with
  | nil => exact ⟨s, .nil s, h⟩
  | cons l ls ih =>
    cases h with
    | cons head tail =>
      obtain ⟨m, hls, hls'⟩ := ih tail
      exact ⟨m, .cons head hls, hls'⟩

/-- Exactly-once rule: if a step's identifier is unspent before it, spent after it, and nothing
spent is ever forgotten, then no identifier occurs twice in a trace. -/
theorem nodup_ids {ι : Type} (id : α → ι) (Spent : σ → ι → Prop)
    (hfresh : ∀ s l s', next s l s' → ¬ Spent s (id l)) (hspend : ∀ s l s', next s l s' → Spent s' (id l))
    (hkeep : ∀ s l s' i, next s l s' → Spent s i → Spent s' i) {s s' : σ} {ls : List α} (h : Trace next s ls s') :
    (ls.map id).Nodup ∧ (∀ l ∈ ls, ¬ Spent s (id l)) ∧ (∀ i, Spent s i → Spent s' i) ∧ ∀ l ∈ ls, Spent s' (id l) := by
  induction h with
  | nil s => exact ⟨List.nodup_nil, List.forall_mem_nil _, fun i hi => hi, List.forall_mem_nil _⟩
  | @cons s m s' l ls head tail ih =>
    obtain ⟨hnd, hun, hmono, hsp⟩ := ih
    refine ⟨?_, fun x hx => ?_, fun i hi => hmono i (hkeep _ _ _ i head hi), fun x hx => ?_⟩
    · rw [List.map_cons, List.nodup_cons]
      refine ⟨fun hmem => ?_, hnd⟩
      obtain ⟨x, hx, hid⟩ := List.mem_map.1 hmem
      exact hun x hx (hid ▸ hspend _ _ _ head)
    · rcases List.mem_cons.1 hx with rfl | hx
      · exact hfresh _ _ _ head
      · exact fun hs => hun x hx (hkeep _ _ _ _ head hs)
    · rcases List.mem_cons.1 hx with rfl | hx
      · exact hmono _ (hspend _ _ _ head)
      · exact hsp x hx

end Trace

theorem run_append_eq (s : σ) (xs ys : List α) :
    run step s (xs ++ ys) = (run step s xs).bind fun m => run step m ys := by
  induction xs generalizing s with
  | nil => rfl
  | cons x xs ih =>
    rw [List.cons_append, run, run]
    cases step s x with
    | none => rfl
    | some m => exact ih m

theorem run_append {s m s' : σ} {xs ys : List α} (h : run step s xs = some m) (h' : run step m ys = some s') :
    run step s (xs ++ ys) = some s' := by
  rw [run_append_eq, h]
  exact h'

/-- A run of a step function is a trace of its graph. -/
theorem trace_of_run {s s' : σ} {xs : List α} (h : run step s xs = some s') :
    Trace (fun s x s' => step s x = some s') s xs s' := by
  induction xs generalizing s with
  | nil => cases h; exact .nil _
  | cons x xs ih =>
    obtain ⟨m, hm, h⟩ := run_cons.1 h
    exact .cons hm (ih h)

end Run
