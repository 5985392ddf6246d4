import Mathlib.Data.List.Basic
import Mathlib.Tactic.Common

/-!
# Loops that stop at the first alarm

A loop over a list with a running state.  A round of it looks at the state and the element: it either raises an
alarm, and the loop is over, or goes to the next state.  `first` is the alarm that is raised first; it is the error
of the loop in `Except` (`foldlM_eq`), and there is one iff some element raises one in the state that the elements
before it lead to (`first_eq_none_iff`, `first_eq_some_iff`).
-/

namespace EarlyExit

variable {σ α ε : Type}

/-- The first alarm of a loop. -/
def first (next : σ → α → σ) (alarm : σ → α → Option ε) : σ → List α → Option ε
  | _, [] => none
  | s, x :: xs => (alarm s x).or (first next alarm (next s x) xs)

/-- One round. -/
def round (next : σ → α → σ) (alarm : σ → α → Option ε) (s : σ) (x : α) : Except ε σ :=
  match alarm s x with
  | some e => .error e
  | none => .ok (next s x)

variable {next : σ → α → σ} {alarm : σ → α → Option ε}

theorem first_eq_none_iff {s : σ} {xs : List α} :
    first next alarm s xs = none ↔
      ∀ pre x post, xs = pre ++ x :: post → alarm (pre.foldl next s) x = none := by
  induction xs generalizing s with
  | nil => simp [first]
  | cons x xs ih =>
    rw [first, Option.or_eq_none_iff, ih]
    constructor
    · rintro ⟨hx, h⟩ pre y post e
      cases pre with
      | nil =>
        obtain ⟨rfl, _⟩ := List.cons.inj e
        exact hx
      | cons z pre =>
        obtain ⟨rfl, rfl⟩ := List.cons.inj e
        exact h pre y post rfl
    · intro h
      refine ⟨h [] x xs rfl, fun pre y post e => h (x :: pre) y post ?_⟩
      rw [e, List.cons_append]

/-- The first alarm: nothing before it raises one. -/
theorem first_eq_some_iff {s : σ} {xs : List α} {e : ε} :
    first next alarm s xs = some e ↔
      ∃ pre x post, xs = pre ++ x :: post ∧ first next alarm s pre = none ∧
        alarm (pre.foldl next s) x = some e := by
  induction xs generalizing s with
  | nil => simp [first]
  | cons x xs ih =>
    rw [first, Option.or_eq_some_iff, ih]
    constructor
    · rintro (hx | ⟨hx, pre, y, post, rfl, hpre, hy⟩)
      · exact ⟨[], x, xs, rfl, rfl, hx⟩
      · exact ⟨x :: pre, y, post, rfl, by rw [first, hx, hpre]; rfl, hy⟩
    · intro h
      obtain ⟨pre, y, post, h, hpre, hy⟩ := h
      cases pre with
      | nil =>
        obtain ⟨rfl, _⟩ := List.cons.inj h
        exact Or.inl hy
      | cons z pre =>
        obtain ⟨rfl, rfl⟩ := List.cons.inj h
        rw [first, Option.or_eq_none_iff] at hpre
        exact Or.inr ⟨hpre.1, pre, y, post, rfl, hpre.2, hy⟩

theorem first_append (s : σ) (xs ys : List α) :
    first next alarm s (xs ++ ys) = (first next alarm s xs).or (first next alarm (xs.foldl next s) ys) := by
  induction xs generalizing s with
  | nil => rfl
  | cons x xs ih => rw [List.cons_append, first, first, ih, Option.or_assoc, List.foldl_cons]

/-- A loop whose rounds on the elements of the list are `round next alarm`. -/
theorem foldlM_eq {step : σ → α → Except ε σ} {xs : List α} (h : ∀ x ∈ xs, ∀ s, step s x = round next alarm s x)
    (s : σ) :
    xs.foldlM step s = match first next alarm s xs with
      | some e => .error e
      | none => .ok (xs.foldl next s) := by
  induction xs generalizing s with
  | nil => rfl
  | cons x xs ih =>
    rw [List.foldlM_cons, h x (by simp), round, first]
    cases hx : alarm s x with
    | some e => rfl
    | none => exact ih (fun y hy => h y (by simp [hy])) (next s x)

theorem foldlM_eq_ok_iff {step : σ → α → Except ε σ} {xs : List α}
    (h : ∀ x ∈ xs, ∀ s, step s x = round next alarm s x) {s t : σ} :
    xs.foldlM step s = .ok t ↔ first next alarm s xs = none ∧ xs.foldl next s = t := by
  rw [foldlM_eq h]
  cases first next alarm s xs with
  | some e => simp
  | none => simp

theorem foldlM_eq_error_iff {step : σ → α → Except ε σ} {xs : List α}
    (h : ∀ x ∈ xs, ∀ s, step s x = round next alarm s x) {s : σ} {e : ε} :
    xs.foldlM step s = .error e ↔ first next alarm s xs = some e := by
  rw [foldlM_eq h]
  cases first next alarm s xs with
  | some e => simp
  | none => simp

/-- A loop that collects the results of its rounds gets through iff every round does. -/
theorem exists_mapM_ok_iff {β : Type} {f : α → Except ε β} {xs : List α} :
    (∃ ys, xs.mapM f = .ok ys) ↔ ∀ x ∈ xs, ∃ y, f x = .ok y := by
  induction xs with
  | nil => exact ⟨fun _ x hx => (List.not_mem_nil hx).elim, fun _ => ⟨[], rfl⟩⟩
  | cons x xs ih =>
    rw [List.mapM_cons, List.forall_mem_cons, ← ih]
    cases hx : f x with
    | error e =>
      constructor
      · intro h
        obtain ⟨ys, h⟩ := h
        cases h
      · intro h
        obtain ⟨⟨y, h⟩, _⟩ := h
        cases h
    | ok y =>
      cases hxs : xs.mapM f with
      | error e =>
        constructor
        · intro h
          obtain ⟨ys, h⟩ := h
          cases h
        · intro h
          obtain ⟨_, ys, h⟩ := h
          cases h
      | ok ys => exact ⟨fun _ => ⟨⟨y, rfl⟩, ys, rfl⟩, fun _ => ⟨y :: ys, rfl⟩⟩

end EarlyExit
