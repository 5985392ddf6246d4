import Mathlib.Data.List.Induction
import Mathlib.Tactic.Common

/-!
# The last write to a register

Events `x : α` of which some write a register: `w x = some b` says that `x` writes `b`, `w x = none` that it does
not write.  `last w xs` is the value written last in `xs`.  A state with a component that every event updates as the
register (`foldl_view`) shows the last write there.
-/

namespace Register

variable {α β γ σ : Type}

/-- The value written last, `none` if nothing is written. -/
def last (w : α → Option β) (xs : List α) : Option β := xs.reverse.findSome? w

theorem last_append (w : α → Option β) (xs ys : List α) :
    last w (xs ++ ys) = (last w ys).or (last w xs) := by
  rw [last, List.reverse_append, List.findSome?_append]; rfl

theorem last_concat (w : α → Option β) (xs : List α) (x : α) :
    last w (xs ++ [x]) = (w x).or (last w xs) := by
  rw [last_append]
  cases h : w x <;> simp [last, h]

theorem last_cons (w : α → Option β) (x : α) (xs : List α) : last w (x :: xs) = (last w xs).or (w x) := by
  rw [← List.singleton_append, last_append]
  cases h : w x <;> simp [last, h]

theorem last_concat_of_eq_some {w : α → Option β} {x : α} {b : β} (h : w x = some b) (xs : List α) :
    last w (xs ++ [x]) = some b := by
  rw [last_concat, h, Option.some_or]

theorem last_eq_none_iff {w : α → Option β} {xs : List α} : last w xs = none ↔ ∀ x ∈ xs, w x = none := by
  simp [last]

/-- The last write, located in the list. -/
theorem last_eq_some_iff {w : α → Option β} {xs : List α} {b : β} :
    last w xs = some b ↔
      ∃ pre x post, xs = pre ++ x :: post ∧ w x = some b ∧ ∀ y ∈ post, w y = none := by
  rw [last, List.findSome?_eq_some_iff]
  constructor
  · intro h
    obtain ⟨l₁, a, l₂, h, ha, hn⟩ := h
    refine ⟨l₂.reverse, a, l₁.reverse, ?_, ha, fun y hy => hn y (List.mem_reverse.1 hy)⟩
    rw [← List.reverse_reverse xs, h]
    simp
  · intro h
    obtain ⟨pre, x, post, rfl, hx, hn⟩ := h
    exact ⟨post.reverse, x, pre.reverse, by simp, hx, fun y hy => hn y (List.mem_reverse.1 hy)⟩

theorem last_map (w : α → Option β) (f : β → γ) (xs : List α) :
    last (fun x => (w x).map f) xs = (last w xs).map f := by
  induction xs using List.reverseRecOn with
  | nil => rfl
  | append_singleton xs x ih =>
    rw [last_concat, last_concat, ih]
    cases w x <;> rfl

private theorem last_id_map (w : α → Option β) (xs : List α) : last id (xs.map w) = last w xs := by
  rw [last, ← List.map_reverse, List.findSome?_map, Function.id_comp, last]

/-- Only what is written matters. -/
theorem last_eq_of_map_eq {w : α → Option β} {w' : γ → Option β} {xs : List α} {ys : List γ}
    (h : xs.map w = ys.map w') : last w xs = last w' ys := by
  rw [← last_id_map, h, last_id_map]

/-- A component of a state that every event updates as the register shows the last write. -/
theorem foldl_view (step : σ → α → σ) (view : σ → β) (w : α → Option β)
    (hstep : ∀ s x, view (step s x) = (w x).getD (view s)) (s : σ) (xs : List α) :
    view (xs.foldl step s) = (last w xs).getD (view s) := by
  induction xs using List.reverseRecOn with
  | nil => rfl
  | append_singleton xs x ih =>
    rw [List.foldl_append, List.foldl_cons, List.foldl_nil, hstep, ih, last_concat]
    cases w x <;> rfl

end Register
