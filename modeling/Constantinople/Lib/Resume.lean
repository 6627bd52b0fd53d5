/-
Reading a log that only grows, over connections that break. Entries carry increasing numbers. A reader that
has a number to resume from gets the entries from that number on, and one that has none starts where the other
side likes. A reader that resumes one past the last entry it got gets every entry from its first one on, in order
and once, wherever the connections broke.
-/
import Constantinople.Lib.Run
import Mathlib.Data.List.TakeWhile
import Mathlib.Tactic

namespace Resume

open Run

variable {α : Type} (number : α → ℕ)

/-- A log and one reader of it: the position of an open stream, and the number to resume from. -/
structure Reader (α : Type) where
  log : List α
  stream : Option ℕ
  next : Option ℕ

inductive Event (α : Type)
  | appended (entry : α)
  | opened (start : ℕ)
  | delivered (entry : α)
  | closed

def Reader.new : Reader α := ⟨[], none, none⟩

/-- Where a stream starts. -/
def position (log : List α) (next : Option ℕ) (start : ℕ) : ℕ :=
  match next with
  | none => start
  | some resume => (log.takeWhile (number · < resume)).length

inductive Step : Reader α → Event α → Reader α → Prop
  | append {r : Reader α} (entry : α) (above : ∀ entry' ∈ r.log, number entry' < number entry) :
    Step r (.appended entry) { r with log := r.log ++ [entry] }
  | openStream {r : Reader α} (start : ℕ) (within : start ≤ r.log.length) :
    Step r (.opened start) { r with stream := some (position number r.log r.next start) }
  | deliver {r : Reader α} {index : ℕ} {entry : α} (isOpen : r.stream = some index)
      (there : r.log[index]? = some entry) :
    Step r (.delivered entry) { r with stream := some (index + 1), next := some (number entry + 1) }
  | close {r : Reader α} : Step r .closed { r with stream := none }

def Event.entry? : Event α → Option α
  | .delivered entry => some entry
  | _ => none

/-- The entries a reader got, in order. -/
def delivered (events : List (Event α)) : List α := events.filterMap Event.entry?

/-! ## Runs -/

/-- What holds of a reader that got these entries. -/
structure Reads (r : Reader α) (got : List α) : Prop where
  ordered : r.log.Pairwise (number · < number ·)
  next_eq : r.next = got.getLast?.map (number · + 1)
  slice : got ≠ [] → ∃ before after, r.log = before ++ got ++ after ∧
    ∀ index ∈ r.stream, index = before.length + got.length

variable {number}

theorem Reads.new : Reads number (Reader.new : Reader α) [] := ⟨.nil, rfl, fun h => absurd rfl h⟩

/-- The stream that resumes after an entry starts at the entry after it. -/
theorem takeWhile_past {before after : List α} {entry : α}
    (h : (before ++ entry :: after).Pairwise (number · < number ·)) :
    (before ++ entry :: after).takeWhile (number · < number entry + 1) = before ++ [entry] := by
  obtain ⟨-, hentry, hbefore⟩ := List.pairwise_append.1 h
  rw [List.takeWhile_append_of_pos]
  · rw [List.takeWhile_cons_of_pos (by simp)]
    congr 2
    refine List.takeWhile_eq_nil_iff.2 fun hpos hlt => ?_
    have hgt := (List.pairwise_cons.1 hentry).1 _ (List.get_mem after ⟨0, hpos⟩)
    simp only [decide_eq_true_eq] at hlt
    omega
  · intro x hx
    have hlt := hbefore x hx entry List.mem_cons_self
    simp only [decide_eq_true_eq]
    omega

theorem Reads.step {r r' : Reader α} {got : List α} {event : Event α} (h : Reads number r got)
    (hstep : Step number r event r') : Reads number r' (got ++ event.entry?.toList) := by
  cases hstep with
  | append entry above =>
    refine ⟨?_, ?_, ?_⟩
    · exact List.pairwise_append.2 ⟨h.ordered, List.pairwise_singleton _ _, by simpa using above⟩
    · simpa [Event.entry?] using h.next_eq
    · intro hgot
      obtain ⟨before, after, hlog, hstream⟩ := h.slice (by simpa [Event.entry?] using hgot)
      exact ⟨before, after ++ [entry], by simp [hlog, Event.entry?], by simpa [Event.entry?] using hstream⟩
  | openStream start within =>
    refine ⟨h.ordered, by simpa [Event.entry?] using h.next_eq, ?_⟩
    intro hgot
    have hgot' : got ≠ [] := by simpa [Event.entry?] using hgot
    obtain ⟨before, after, hlog, -⟩ := h.slice hgot'
    obtain ⟨got, last, rfl⟩ := List.eq_nil_or_concat'  got |>.resolve_left hgot'
    refine ⟨before, after, by simpa [Event.entry?] using hlog, ?_⟩
    have hlog' : r.log = (before ++ got) ++ last :: after := by simp [hlog]
    have hnext : r.next = some (number last + 1) := by simpa using h.next_eq
    have hwhile := takeWhile_past (hlog' ▸ h.ordered)
    simp only [position, hnext, Option.mem_some_iff, Event.entry?, Option.toList_none, List.append_nil]
    rintro index rfl
    rw [hlog', hwhile]
    simp
  | @deliver index entry isOpen there =>
    refine ⟨h.ordered, by simp [Event.entry?], ?_⟩
    intro _
    have hlt : index < r.log.length := (List.getElem?_eq_some_iff.1 there).1
    have hentry : r.log[index] = entry := (List.getElem?_eq_some_iff.1 there).2
    by_cases hgot : got = []
    · subst hgot
      refine ⟨r.log.take index, r.log.drop (index + 1), ?_, ?_⟩
      · simp [Event.entry?, ← hentry]
      · simp [Event.entry?, Nat.le_of_lt hlt]
    · obtain ⟨before, after, hlog, hstream⟩ := h.slice hgot
      have hat := hstream index isOpen
      obtain ⟨first, rest, rfl⟩ : ∃ first rest, after = first :: rest := by
        cases after with
        | nil =>
          rw [hlog] at hlt
          simp at hlt
          omega
        | cons first rest => exact ⟨first, rest, rfl⟩
      have hfirst : first = entry := by
        rw [hlog, hat, List.getElem?_append_right (by simp)] at there
        simpa using there
      subst hfirst
      refine ⟨before, rest, by simp [hlog, Event.entry?], ?_⟩
      simp only [Event.entry?, Option.mem_some_iff, Option.toList_some, List.length_append, List.length_singleton]
      omega
  | close =>
    refine ⟨h.ordered, by simpa [Event.entry?] using h.next_eq, ?_⟩
    intro hgot
    obtain ⟨before, after, hlog, -⟩ := h.slice (by simpa [Event.entry?] using hgot)
    exact ⟨before, after, by simpa [Event.entry?] using hlog, by simp⟩

theorem Reads.trace {r r' : Reader α} {got : List α} {events : List (Event α)} (h : Reads number r got)
    (hrun : Trace (Step number) r events r') : Reads number r' (got ++ delivered events) := by
  induction hrun generalizing got with
  | nil r => simpa [delivered] using h
  | @cons r m r' event events head tail ih =>
    have hgot : got ++ delivered (event :: events) = (got ++ event.entry?.toList) ++ delivered events := by
      cases hentry : event.entry? with
      | none => simp [delivered, hentry]
      | some entry => simp [delivered, hentry]
    rw [hgot]
    exact ih (h.step head)

end Resume
