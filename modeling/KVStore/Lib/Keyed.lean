import Mathlib.Data.List.Basic
import Mathlib.Logic.Function.Basic
import Mathlib.Tactic.Common

/-!
# Machines with independent cells

The state has one cell for each key, and an event works on the cell of its own key only: `act` is what it does to
the cell, `out` what it answers.  So a cell sees nothing but the events on its key.

* `foldl_step`: after a run, the cell of `k` is what the events on `k` make of it;
* `answersOn_outputs`: the answers to the events on `k` are those of the cell of `k` alone.
-/

namespace Keyed

variable {κ ν ε ο : Type} [DecidableEq κ] (key : ε → κ) (act : ε → ν → ν) (out : ε → ν → ο)

def step (m : κ → ν) (e : ε) : κ → ν := Function.update m (key e) (act e (m (key e)))

/-- The answers of a run. -/
def outputs : (κ → ν) → List ε → List ο
  | _, [] => []
  | m, e :: es => out e (m (key e)) :: outputs (step key act m e) es

/-- The answers of one cell, whatever the keys of the events. -/
def cellOutputs : ν → List ε → List ο
  | _, [] => []
  | v, e :: es => out e v :: cellOutputs (act e v) es

/-- The events on `k`. -/
def on (k : κ) (es : List ε) : List ε := es.filter fun e => key e = k

/-- Of the answers to `es` those to the events on `k`. -/
def answersOn (k : κ) (es : List ε) (os : List ο) : List ο :=
  ((es.zip os).filter fun x => key x.1 = k).map Prod.snd

variable {key act out}

theorem on_cons_self {k : κ} {e : ε} (h : key e = k) (es : List ε) : on key k (e :: es) = e :: on key k es := by
  simp [on, h]

theorem on_cons_of_ne {k : κ} {e : ε} (h : key e ≠ k) (es : List ε) : on key k (e :: es) = on key k es := by
  simp [on, h]

theorem step_self {k : κ} {e : ε} (h : key e = k) (m : κ → ν) : step key act m e k = act e (m k) := by
  subst h
  exact Function.update_self _ _ _

theorem step_of_ne {k : κ} {e : ε} (h : key e ≠ k) (m : κ → ν) : step key act m e k = m k :=
  Function.update_of_ne (Ne.symm h) _ _

/-- A cell after a run. -/
theorem foldl_step (k : κ) (m : κ → ν) (es : List ε) :
    es.foldl (step key act) m k = (on key k es).foldl (fun v e => act e v) (m k) := by
  induction es generalizing m with
  | nil => rfl
  | cons e es ih =>
    rw [List.foldl_cons, ih]
    by_cases h : key e = k
    · rw [on_cons_self h, List.foldl_cons, step_self h]
    · rw [on_cons_of_ne h, step_of_ne h]

theorem outputs_of_key {k : κ} {es : List ε} (h : ∀ e ∈ es, key e = k) (m : κ → ν) :
    outputs key act out m es = cellOutputs act out (m k) es := by
  induction es generalizing m with
  | nil => rfl
  | cons e es ih =>
    obtain ⟨he, h⟩ := List.forall_mem_cons.1 h
    rw [outputs, cellOutputs, ih h, step_self he, he]

/-- The answers of a run to the events on `k`. -/
theorem answersOn_outputs (k : κ) (m : κ → ν) (es : List ε) :
    answersOn key k es (outputs key act out m es) = cellOutputs act out (m k) (on key k es) := by
  induction es generalizing m with
  | nil => rfl
  | cons e es ih =>
    have ih := ih (step key act m e)
    unfold answersOn at ih ⊢
    rw [outputs, List.zip_cons_cons]
    by_cases h : key e = k
    · rw [List.filter_cons_of_pos (by simpa using h), List.map_cons, ih, on_cons_self h, cellOutputs, step_self h, h]
    · rw [List.filter_cons_of_neg (by simpa using h), ih, on_cons_of_ne h, step_of_ne h]

theorem answersOn_map {ρ : Type} (f : ο → ρ) (k : κ) (es : List ε) (os : List ο) :
    answersOn key k es (os.map f) = (answersOn key k es os).map f := by
  unfold answersOn
  rw [List.zip_map_right, List.filter_map, List.map_map, List.map_map]
  rfl

variable (key act out)

/-- The events on other keys change neither the cell of `k` nor the answers to the events on `k`. -/
theorem run_on (k : κ) (m : κ → ν) (es : List ε) :
    answersOn key k es (outputs key act out m es) = outputs key act out m (on key k es) ∧
      es.foldl (step key act) m k = (on key k es).foldl (step key act) m k := by
  have hk : ∀ e ∈ on key k es, key e = k := fun e he => by simpa using (List.mem_filter.1 he).2
  have hon : on key k (on key k es) = on key k es := List.filter_eq_self.2 fun e he => by simpa using hk e he
  constructor
  · rw [answersOn_outputs, outputs_of_key hk]
  · rw [foldl_step, foldl_step, hon]

end Keyed
