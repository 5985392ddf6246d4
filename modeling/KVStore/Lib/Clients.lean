import KVStore.Lib.Atomic

/-!
# Clients of an atomic object

Programs that run side by side, share globals and use one object: each has steps of its own, and calls operations of
the object.  Such programs cannot tell a machine that is simulated by an atomic object from one that executes every
operation in one step: with the machine they come to no states but those to which they come with the other
(`exec_atomicStep`).
-/

namespace Linearizable

/-- Client programs with globals `γ` and locals `ℓ`: `act` is a step of a client on its own, `calls` the operation that
it is about to call, and `resume` what it makes of the answer. -/
structure Clients (κ γ ℓ ι ο : Type) where
  act : κ → γ → ℓ → Option (γ × ℓ)
  calls : ℓ → Option ι
  resume : κ → ℓ → ο → ℓ
  act_of_calls : ∀ c g l op, calls l = some op → act c g l = none

/-- The globals, the locals of the clients, and the object that they use. -/
structure System (κ γ ℓ τ : Type) where
  globals : γ
  locals : κ → ℓ
  object : τ

namespace Clients

variable {κ γ ℓ ι ο σ τ α : Type} [DecidableEq κ]

/-- The client `c` goes to `l`. -/
def goto (s : System κ γ ℓ τ) (c : κ) (l : ℓ) : System κ γ ℓ τ := { s with locals := Function.update s.locals c l }

@[simp] theorem goto_self (s : System κ γ ℓ τ) (c : κ) (l : ℓ) : (goto s c l).locals c = l := Function.update_self _ _ _

theorem goto_of_ne (s : System κ γ ℓ τ) {c d : κ} (hd : d ≠ c) (l : ℓ) : (goto s c l).locals d = s.locals d :=
  Function.update_of_ne hd _ _

variable (C : Clients κ γ ℓ ι ο)

/-- A step of a client on its own. -/
def ownStep (s : System κ γ ℓ τ) (c : κ) : Option (System κ γ ℓ τ) :=
  (C.act c s.globals (s.locals c)).map fun (g, l) => goto { s with globals := g } c l

/-- A step of the client `c`, which executes the operation that it is about to call at once. -/
def atomicStep (spec : σ → ι → ο × σ) (s : System κ γ ℓ σ) (c : κ) : Option (System κ γ ℓ σ) :=
  match C.calls (s.locals c) with
  | some op => some (goto { s with object := (spec s.object op).2 } c (C.resume c (s.locals c) (spec s.object op).1))
  | none => C.ownStep s c

section Step

variable [DecidableEq ι]

/-- What a client makes of the events at its side of a machine. -/
def feed (c : κ) : ℓ → List (Event ι ο) → Option ℓ
  | l, [] => some l
  | l, .inv _ op :: es => if C.calls l = some op then feed c l es else none
  | l, .ret _ res :: es => feed c (C.resume c l res) es

/-- The clients with a machine: a client steps on its own, or the machine steps at its side.  The machine only takes
operations that the client is about to call. -/
def step (stepM : τ → κ × α → Option τ) (obs : τ → κ × α → List (Event ι ο)) (s : System κ γ ℓ τ) :
    κ × Option α → Option (System κ γ ℓ τ)
  | (c, none) => C.ownStep s c
  | (c, some a) => do
    let l ← C.feed c (s.locals c) (obs s.object (c, a))
    let t ← stepM s.object (c, a)
    pure (goto { s with object := t } c l)

omit [DecidableEq κ] in
theorem feed_append (c : κ) (l : ℓ) (es es' : List (Event ι ο)) :
    C.feed c l (es ++ es') = (C.feed c l es).bind fun l' => C.feed c l' es' := by
  induction es generalizing l with
  | nil => rfl
  | cons e es ih =>
    cases e with
    | inv id op =>
      rw [List.cons_append, feed, feed]
      split
      · exact ih l
      · rfl
    | ret id res => exact ih _

/-- A client lets the machine run at its side. -/
theorem exec_of_feed {stepM : τ → κ × α → Option τ} {obs : τ → κ × α → List (Event ι ο)} {s : System κ γ ℓ τ} {c : κ}
    {as : List α} {t : τ} {l : ℓ} (ht : Machine.exec stepM s.object (as.map (Prod.mk c)) = some t)
    (hl : C.feed c (s.locals c) (Machine.trace stepM obs s.object (as.map (Prod.mk c))) = some l) :
    Machine.exec (C.step stepM obs) s (as.map fun a => (c, some a)) = some (goto { s with object := t } c l) := by
  induction as generalizing s with
  | nil =>
    obtain rfl := Option.some.inj ht
    obtain rfl := Option.some.inj hl
    have hs : goto s c (s.locals c) = s := by rw [goto, Function.update_eq_self]
    exact congrArg some hs.symm
  | cons a as ih =>
    rw [List.map_cons] at ht hl
    obtain ⟨t₁, h₁, ht⟩ := Machine.exec_cons_eq_some.1 ht
    rw [Machine.trace_cons _ _ h₁, feed_append] at hl
    obtain ⟨l₁, hl₁, hl⟩ := Option.bind_eq_some_iff.1 hl
    have hstep : C.step stepM obs s (c, some a) = some (goto { s with object := t₁ } c l₁) := by
      rw [step, hl₁, h₁]
      rfl
    have hrest := ih (s := goto { s with object := t₁ } c l₁) ht (by rwa [goto_self])
    have hs : goto { goto { s with object := t₁ } c l₁ with object := t } c l = goto { s with object := t } c l := by
      simp [goto]
    rw [List.map_cons, Machine.exec_cons, hstep, Option.bind_some, hrest, hs]

end Step

/-! ### The simulation -/

/-- Where a client is when the answer that its operation has got counts as received. -/
def settled (c : κ) (l : ℓ) : Status ι ο → ℓ
  | .done _ _ res => C.resume c l res
  | _ => l

/-- A client that waits for an operation is about to call it. -/
def Calling (l : ℓ) : Status ι ο → Prop
  | .idle => True
  | .pending _ op => C.calls l = some op
  | .done _ op _ => C.calls l = some op

/-- The clients of `s` with the atomic object `o` are where they are in `w`. -/
structure Matches (s : System κ γ ℓ τ) (o : Obj κ σ ι ο) (w : System κ γ ℓ σ) : Prop where
  globals : w.globals = s.globals
  object : w.object = o.state
  locals : ∀ c, w.locals c = C.settled c (s.locals c) (o.status c)
  calling : ∀ c, C.Calling (s.locals c) (o.status c)

variable {C} {spec : σ → ι → ο × σ} {s : System κ γ ℓ τ} {o o' : Obj κ σ ι ο} {w : System κ γ ℓ σ} {c : κ}

omit [DecidableEq κ] in
theorem matches_init (g : γ) (ls : κ → ℓ) (t : τ) (s₀ : σ) :
    C.Matches ⟨g, ls, t⟩ ({ state := s₀ } : Obj κ σ ι ο) ⟨g, ls, s₀⟩ :=
  ⟨rfl, rfl, fun _ => rfl, fun _ => trivial⟩

/-- Only the client `c` has moved. -/
private theorem Matches.at (hm : C.Matches s o w) {o' : Obj κ σ ι ο} {w' : System κ γ ℓ σ} {l : ℓ} {st : Status ι ο}
    (ho : o'.status = (o.goto c st).status) (hg : w'.globals = w.globals) (hobj : w'.object = o'.state)
    (hw : ∀ d, d ≠ c → w'.locals d = w.locals d) (hc : w'.locals c = C.settled c l st) (hl : C.Calling l st) :
    C.Matches (goto s c l) o' w' := by
  refine ⟨hg.trans hm.globals, hobj, fun d => ?_, fun d => ?_⟩
  · rw [ho]
    by_cases hd : d = c
    · rw [hd, goto_self, Obj.goto_self, hc]
    · rw [goto_of_ne _ hd, Obj.goto_of_ne _ hd, hw d hd, hm.locals d]
  · rw [ho]
    by_cases hd : d = c
    · rw [hd, goto_self, Obj.goto_self]
      exact hl
    · rw [goto_of_ne _ hd, Obj.goto_of_ne _ hd]
      exact hm.calling d

variable (spec) in
theorem Matches.ownStep {s' : System κ γ ℓ τ} (hm : C.Matches s o w) (hs : C.ownStep s c = some s') :
    ∃ w', C.atomicStep spec w c = some w' ∧ s'.object = s.object ∧ C.Matches s' o w' := by
  obtain ⟨⟨g, l⟩, ha, rfl⟩ := Option.map_eq_some_iff.1 hs
  have hcalls : C.calls (s.locals c) = none := by
    cases h : C.calls (s.locals c) with
    | none => rfl
    | some op =>
      rw [C.act_of_calls c _ _ op h] at ha
      cases ha
  -- so the client waits for nothing
  have hidle : o.status c = .idle := by
    have hc := hm.calling c
    cases hst : o.status c with
    | idle => rfl
    | pending id op =>
      rw [hst] at hc
      exact absurd (hcalls.symm.trans hc) (by simp)
    | done id op res =>
      rw [hst] at hc
      exact absurd (hcalls.symm.trans hc) (by simp)
  have hwc : w.locals c = s.locals c := by rw [hm.locals c, hidle]; rfl
  refine ⟨goto { w with globals := g } c l, ?_, rfl, ?_⟩
  · rw [atomicStep, hwc, hcalls, Clients.ownStep, hm.globals, hwc, ha]
    rfl
  · refine ⟨rfl, hm.object, fun d => ?_, fun d => ?_⟩
    · by_cases hd : d = c
      · rw [hd, goto_self, goto_self, hidle]
        rfl
      · rw [goto_of_ne _ hd, goto_of_ne _ hd]
        exact hm.locals d
    · by_cases hd : d = c
      · rw [hd, hidle]
        trivial
      · rw [goto_of_ne _ hd]
        exact hm.calling d

variable [DecidableEq ι]

/-- A move of the atomic object: the client has its answer as soon as the operation takes effect. -/
theorem Matches.move {m : Move ι} {l : ℓ} (hm : C.Matches s o w) (ho : o.step spec (c, m) = some o')
    (hl : C.feed c (s.locals c) (o.observe (c, m)) = some l) :
    ∃ cs w', Machine.exec (C.atomicStep spec) w cs = some w' ∧ C.Matches (goto s c l) o' w' := by
  have hloc := hm.locals c
  have hcall := hm.calling c
  cases m with
  | invoke op =>
    simp only [Obj.step] at ho
    split at ho
    · rename_i hc
      obtain ⟨hop, hl⟩ := Option.ite_none_right_eq_some.1 hl
      obtain rfl := Option.some.inj hl
      obtain rfl := Option.some.inj ho
      rw [hc] at hloc
      exact ⟨[], w, rfl, hm.at rfl rfl hm.object (fun _ _ => rfl) hloc hop⟩
    · cases ho
  | commit =>
    simp only [Obj.step] at ho
    split at ho
    · rename_i id op hc
      obtain rfl := Option.some.inj hl
      obtain rfl := Option.some.inj ho
      rw [hc] at hloc hcall
      have hcall : C.calls (s.locals c) = some op := hcall
      have hloc : w.locals c = s.locals c := hloc
      refine ⟨[c], goto { w with object := (spec w.object op).2 } c
        (C.resume c (w.locals c) (spec w.object op).1), ?_, ?_⟩
      · rw [Machine.exec_cons, atomicStep, hloc, hcall]
        rfl
      · refine hm.at rfl rfl (by rw [hm.object]; rfl) (fun d hd => goto_of_ne _ hd _) ?_ hcall
        rw [goto_self, hm.object, hloc]
        rfl
    · cases ho
  | respond =>
    simp only [Obj.step] at ho
    split at ho
    · rename_i id op res hc
      rw [Obj.observe, hc] at hl
      obtain rfl := Option.some.inj hl
      obtain rfl := Option.some.inj ho
      rw [hc] at hloc
      exact ⟨[], w, rfl, hm.at rfl rfl hm.object (fun _ _ => rfl) hloc trivial⟩
    · cases ho

theorem Matches.moves {ms : List (Move ι)} {l : ℓ} (hm : C.Matches s o w)
    (ho : Machine.exec (Obj.step spec) o (ms.map (Prod.mk c)) = some o')
    (hl : C.feed c (s.locals c) (Machine.trace (Obj.step spec) Obj.observe o (ms.map (Prod.mk c))) = some l) :
    ∃ cs w', Machine.exec (C.atomicStep spec) w cs = some w' ∧ C.Matches (goto s c l) o' w' := by
  induction ms generalizing s o w with
  | nil =>
    obtain rfl := Option.some.inj hl
    obtain rfl := Option.some.inj ho
    have hs : goto s c (s.locals c) = s := by rw [goto, Function.update_eq_self]
    exact ⟨[], w, rfl, hs.symm ▸ hm⟩
  | cons m ms ih =>
    rw [List.map_cons] at ho hl
    obtain ⟨o₁, h₁, ho⟩ := Machine.exec_cons_eq_some.1 ho
    rw [Machine.trace_cons _ _ h₁, feed_append] at hl
    obtain ⟨l₁, hl₁, hl⟩ := Option.bind_eq_some_iff.1 hl
    obtain ⟨cs, w₁, hw₁, hm₁⟩ := hm.move h₁ hl₁
    obtain ⟨cs', w', hw', hm'⟩ := ih hm₁ ho (by rwa [goto_self])
    refine ⟨cs ++ cs', w', Machine.exec_append_eq_some.2 ⟨w₁, hw₁, hw'⟩, ?_⟩
    have hs : goto (goto s c l₁) c l = goto s c l := by rw [goto, goto, goto, Function.update_idem]
    rwa [hs] at hm'

/-! ### Whole runs -/

variable {R : τ → Obj κ σ ι ο → Prop} {stepM : τ → κ × α → Option τ} {obs : τ → κ × α → List (Event ι ο)}

/-- With a machine that is simulated by an atomic object, the clients come to no states but those to which they come
if every operation is executed in one step. -/
theorem exec_atomicStep (hsim : Obj.Simulates spec R stepM obs) {g : γ} {ls : κ → ℓ} {t₀ : τ} {s₀ : σ}
    (h0 : R t₀ { state := s₀ }) {as : List (κ × Option α)}
    (hs : Machine.exec (C.step stepM obs) ⟨g, ls, t₀⟩ as = some s) :
    ∃ cs w o, Machine.exec (C.atomicStep spec) ⟨g, ls, s₀⟩ cs = some w ∧ R s.object o ∧ C.Matches s o w := by
  refine Machine.exec_invariant
    (fun s => ∃ cs w o, Machine.exec (C.atomicStep spec) ⟨g, ls, s₀⟩ cs = some w ∧ R s.object o ∧ C.Matches s o w)
    ?_ ⟨[], _, _, rfl, h0, matches_init g ls t₀ s₀⟩ hs
  rintro s ⟨c, a⟩ s' ⟨cs, w, o, hw, hR, hm⟩ hs
  cases a with
  | none =>
    obtain ⟨w', hw', hobj, hm'⟩ := hm.ownStep spec hs
    have hexec : Machine.exec (C.atomicStep spec) ⟨g, ls, s₀⟩ (cs ++ [c]) = some w' :=
      Machine.exec_append_eq_some.2 ⟨w, hw, by rw [Machine.exec_cons, hw']; rfl⟩
    exact ⟨_, w', o, hexec, hobj ▸ hR, hm'⟩
  | some a =>
    obtain ⟨l, hl, hs⟩ := Option.bind_eq_some_iff.1 hs
    obtain ⟨t, ht, hs⟩ := Option.bind_eq_some_iff.1 hs
    obtain rfl := Option.some.inj hs
    obtain ⟨ms, o', ho, htrace, hR'⟩ := hsim s.object o c a t hR ht
    rw [← htrace] at hl
    obtain ⟨cs', w', hw', hm'⟩ := hm.moves ho hl
    exact ⟨cs ++ cs', w', o', Machine.exec_append_eq_some.2 ⟨w, hw, hw'⟩, hR',
      hm'.globals, hm'.object, hm'.locals, hm'.calling⟩

end Clients

end Linearizable
