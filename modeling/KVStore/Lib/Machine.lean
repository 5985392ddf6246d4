import Mathlib.Data.List.Basic
import Mathlib.Tactic.Common

/-!
# Partial labelled machines

A machine is a partial function `step : σ → α → Option σ`: in the state `s` the label `a` is enabled iff
`step s a` is defined.  `exec` runs a schedule (a list of labels), `trace` collects what an observer sees on the
way, and `Along P` says that every step of the run satisfies `P`.

The induction over runs is done once, in `exec_history_invariant`; the other invariant rules are cases of it.  A machine
simulates another one if each step of the other is a run of it with the same observations (`exec_simulates`).
-/

namespace Machine

variable {σ α β : Type} (step : σ → α → Option σ)

/-- The state after a schedule, `none` as soon as one of its labels is not enabled. -/
def exec (s : σ) (as : List α) : Option σ := as.foldlM step s

/-- The observations along a run. -/
def trace (obs : σ → α → List β) : σ → List α → List β
  | _, [] => []
  | s, a :: as =>
    obs s a ++ match step s a with
      | none => []
      | some s' => trace obs s' as

/-- Every step of the run of a schedule satisfies `P`, a condition on the state before the step and the label. -/
def Along (P : σ → α → Prop) : σ → List α → Prop
  | _, [] => True
  | s, a :: as => P s a ∧ ∀ s', step s a = some s' → Along P s' as

/-- The states a run goes through. -/
def Visits (s : σ) (as : List α) (t : σ) : Prop := ∃ pre, pre <+: as ∧ exec step s pre = some t

variable {step}

@[simp] theorem exec_nil (s : σ) : exec step s [] = some s := rfl

theorem exec_cons (s : σ) (a : α) (as : List α) :
    exec step s (a :: as) = (step s a).bind fun s' => exec step s' as := by
  simp [exec, List.foldlM_cons]

theorem exec_cons_eq_some {s t : σ} {a : α} {as : List α} :
    exec step s (a :: as) = some t ↔ ∃ s', step s a = some s' ∧ exec step s' as = some t := by
  rw [exec_cons, Option.bind_eq_some_iff]

theorem exec_append (s : σ) (as bs : List α) :
    exec step s (as ++ bs) = (exec step s as).bind fun t => exec step t bs := by
  simp [exec, List.foldlM_append]

theorem exec_append_eq_some {s t : σ} {as bs : List α} :
    exec step s (as ++ bs) = some t ↔ ∃ u, exec step s as = some u ∧ exec step u bs = some t := by
  rw [exec_append, Option.bind_eq_some_iff]

@[simp] theorem trace_nil (obs : σ → α → List β) (s : σ) : trace step obs s [] = [] := rfl

theorem trace_cons (obs : σ → α → List β) {s s' : σ} {a : α} (as : List α) (h : step s a = some s') :
    trace step obs s (a :: as) = obs s a ++ trace step obs s' as := by
  simp only [trace, h]

theorem along_append {P : σ → α → Prop} {s t : σ} {as bs : List α} (h : exec step s as = some t) :
    Along step P s (as ++ bs) ↔ Along step P s as ∧ Along step P t bs := by
  induction as generalizing s with
  | nil => cases h; simp [Along]
  | cons a as ih =>
    obtain ⟨s', hs, h⟩ := exec_cons_eq_some.1 h
    simp only [List.cons_append, Along, hs, Option.some.injEq, forall_eq', ih h, and_assoc]

theorem trace_append (obs : σ → α → List β) {s t : σ} {as : List α} (bs : List α) (h : exec step s as = some t) :
    trace step obs s (as ++ bs) = trace step obs s as ++ trace step obs t bs := by
  induction as generalizing s with
  | nil => cases h; rfl
  | cons a as ih =>
    obtain ⟨s', hs, h⟩ := exec_cons_eq_some.1 h
    rw [List.cons_append, trace_cons obs _ hs, trace_cons obs _ hs, ih h, List.append_assoc]

/-- `Along P` unfolded: `P` holds at every point of the run that is followed by a label. -/
theorem along_iff {P : σ → α → Prop} {s : σ} {as : List α} :
    Along step P s as ↔
      ∀ pre a post u, as = pre ++ a :: post → exec step s pre = some u → P u a := by
  constructor
  · intro h pre a post u e hu
    subst e
    exact ((along_append hu).1 h).2.1
  · intro h
    induction as generalizing s with
    | nil => trivial
    | cons a as ih =>
      refine ⟨h [] a as s rfl rfl, fun s' hs => ih fun pre b post u e hu => ?_⟩
      exact h (a :: pre) b post u (by rw [e, List.cons_append]) (exec_cons_eq_some.2 ⟨s', hs, hu⟩)

theorem Along.mono {P Q : σ → α → Prop} (hPQ : ∀ s a, P s a → Q s a) {s : σ} {as : List α}
    (h : Along step P s as) : Along step Q s as :=
  along_iff.2 fun pre a post u e hu => hPQ u a (along_iff.1 h pre a post u e hu)

theorem along_of_visits {P : σ → Prop} {s : σ} {as : List α} (h : ∀ t, Visits step s as t → P t) :
    Along step (fun t _ => P t) s as :=
  along_iff.2 fun pre a post u e hu => h u ⟨pre, e ▸ List.prefix_append pre (a :: post), hu⟩

theorem along_of_forall_mem {P : α → Prop} {as : List α} (h : ∀ a ∈ as, P a) (s : σ) :
    Along step (fun _ a => P a) s as :=
  along_iff.2 fun _ a _ _ e _ => h a (e ▸ List.mem_append_right _ List.mem_cons_self)

/-- A run that does not satisfy `P` throughout has a first step that violates it. -/
theorem exists_first_of_not_along {P : σ → α → Prop} {s t : σ} {as : List α} (ht : exec step s as = some t)
    (h : ¬Along step P s as) :
    ∃ pre a post u, as = pre ++ a :: post ∧ exec step s pre = some u ∧ Along step P s pre ∧ ¬P u a := by
  induction as generalizing s with
  | nil => exact absurd trivial h
  | cons a as ih =>
    obtain ⟨s', hs, ht⟩ := exec_cons_eq_some.1 ht
    by_cases hP : P s a
    · have h' : ¬Along step P s' as := fun h' => h ⟨hP, fun s'' hs' => by
        rw [hs, Option.some.injEq] at hs'; exact hs' ▸ h'⟩
      obtain ⟨pre, b, post, u, rfl, hu, hpre, hb⟩ := ih ht h'
      refine ⟨a :: pre, b, post, u, rfl, exec_cons_eq_some.2 ⟨s', hs, hu⟩, ⟨hP, fun s'' hs' => ?_⟩, hb⟩
      rw [hs, Option.some.injEq] at hs'
      exact hs' ▸ hpre
    · exact ⟨[], a, as, s, rfl, rfl, trivial, hP⟩

/-! ### Invariants -/

/-- An invariant of the state together with what has been observed so far, under a condition on the steps. -/
theorem exec_history_invariant (P : σ → α → Prop) (obs : σ → α → List β) (Inv : σ → List β → Prop)
    (hstep : ∀ s h a s', Inv s h → P s a → step s a = some s' → Inv s' (h ++ obs s a))
    {s t : σ} {h : List β} {as : List α} (h0 : Inv s h) (hP : Along step P s as)
    (ht : exec step s as = some t) : Inv t (h ++ trace step obs s as) := by
  induction as generalizing s h with
  | nil => cases ht; simpa using h0
  | cons a as ih =>
    obtain ⟨s', hs, ht⟩ := exec_cons_eq_some.1 ht
    rw [trace_cons obs as hs, ← List.append_assoc]
    exact ih (hstep s h a s' h0 hP.1 hs) (hP.2 s' hs) ht

theorem along_true (s : σ) (as : List α) : Along step (fun _ _ => True) s as :=
  along_iff.2 fun _ _ _ _ _ _ => trivial

/-- An invariant kept by every step that satisfies `P` holds after a run whose steps all do. -/
theorem exec_invariant_of_along (P : σ → α → Prop) (Inv : σ → Prop)
    (hstep : ∀ s a s', Inv s → P s a → step s a = some s' → Inv s')
    {s t : σ} {as : List α} (h0 : Inv s) (hP : Along step P s as) (ht : exec step s as = some t) : Inv t :=
  exec_history_invariant (h := ([] : List Unit)) P (fun _ _ => []) (fun s _ => Inv s)
    (fun s _ a s' hs hP hs' => hstep s a s' hs hP hs') h0 hP ht

/-- An inductive invariant holds after every run. -/
theorem exec_invariant (Inv : σ → Prop) (hstep : ∀ s a s', Inv s → step s a = some s' → Inv s')
    {s t : σ} {as : List α} (h0 : Inv s) (ht : exec step s as = some t) : Inv t :=
  exec_invariant_of_along (fun _ _ => True) Inv (fun s a s' hs _ => hstep s a s' hs) h0 (along_true s as) ht

/-- A run each of whose steps makes a measure smaller has no more steps than the measure allows. -/
theorem exec_length_add_le (μ : σ → Nat) (P : α → Prop) (hstep : ∀ s a s', P a → step s a = some s' → μ s' < μ s)
    {s t : σ} {as : List α} (hP : ∀ a ∈ as, P a) (ht : exec step s as = some t) : as.length + μ t ≤ μ s := by
  induction as generalizing s with
  | nil =>
    cases ht
    simp
  | cons a as ih =>
    obtain ⟨u, hu, ht⟩ := exec_cons_eq_some.1 ht
    obtain ⟨ha, hP⟩ := List.forall_mem_cons.1 hP
    have hlt := hstep s a u ha hu
    have ih := ih hP ht
    rw [List.length_cons]
    omega

/-! ### Simulation -/

section Embedding

variable {τ γ δ : Type} {step' : τ → γ → Option τ} {g : σ → τ} {f : α → γ}

/-- A machine whose steps are those of another one, on states and labels seen through `g` and `f`. -/
theorem exec_map (hstep : ∀ s a, step' (g s) (f a) = (step s a).map g) (s : σ) (as : List α) :
    exec step' (g s) (as.map f) = (exec step s as).map g := by
  induction as generalizing s with
  | nil => rfl
  | cons a as ih =>
    rw [List.map_cons, exec_cons, exec_cons, hstep]
    cases step s a with
    | none => rfl
    | some s' => exact ih s'

theorem trace_map {obs : σ → α → List β} {obs' : τ → γ → List δ} {e : β → δ}
    (hstep : ∀ s a, step' (g s) (f a) = (step s a).map g) (hobs : ∀ s a, obs' (g s) (f a) = (obs s a).map e) (s : σ)
    (as : List α) : trace step' obs' (g s) (as.map f) = (trace step obs s as).map e := by
  induction as generalizing s with
  | nil => rfl
  | cons a as ih =>
    rw [List.map_cons, trace, trace, hobs, hstep, List.map_append]
    cases step s a with
    | none => rfl
    | some s' =>
      dsimp only [Option.map_some]
      rw [ih s']

end Embedding

/-- A run is simulated if each of its steps is, by some steps with the same observations. -/
theorem exec_simulates {τ γ : Type} {step' : τ → γ → Option τ} {obs : σ → α → List β} {obs' : τ → γ → List β}
    (P : σ → α → Prop) (R : σ → τ → Prop)
    (hstep : ∀ s t a s', R s t → P s a → step s a = some s' →
      ∃ bs t', exec step' t bs = some t' ∧ trace step' obs' t bs = obs s a ∧ R s' t')
    {s s' : σ} {t : τ} {as : List α} (h0 : R s t) (hP : Along step P s as) (hs : exec step s as = some s') :
    ∃ bs t', exec step' t bs = some t' ∧ trace step' obs' t bs = trace step obs s as ∧ R s' t' := by
  induction as generalizing s t with
  | nil => cases hs; exact ⟨[], t, rfl, rfl, h0⟩
  | cons a as ih =>
    obtain ⟨u, hu, hs⟩ := exec_cons_eq_some.1 hs
    obtain ⟨bs, v, hv, hobs, hR⟩ := hstep s t a u h0 hP.1 hu
    obtain ⟨bs', t', ht, hobs', hR'⟩ := ih hR (hP.2 u hu) hs
    refine ⟨bs ++ bs', t', exec_append_eq_some.2 ⟨v, hv, ht⟩, ?_, hR'⟩
    rw [trace_append obs' bs' hv, hobs, hobs', trace_cons obs as hu]

end Machine
