import Mathlib.Tactic.Common

/-!
# Programs with exceptions over a state

`Throws ε σ α` is a program that reads and writes a state `σ` and returns or throws; what it has written before it
throws stays written, also when the exception is caught.  `exec` runs it.  The constructs have rules for `exec`;
`bind` and `tryCatch` have some for a known outcome of their first part.
-/

abbrev Throws (ε σ α : Type) := ExceptT ε (StateM σ) α

namespace Throws

variable {ε σ α β : Type}

/-- The outcome of a program and the state it leaves. -/
def exec (x : Throws ε σ α) (s : σ) : Except ε α × σ := x.run.run s

@[simp] theorem exec_pure (a : α) (s : σ) : exec (pure a : Throws ε σ α) s = (.ok a, s) := rfl

@[simp] theorem exec_throw (e : ε) (s : σ) : exec (throw e : Throws ε σ α) s = (.error e, s) := rfl

@[simp] theorem exec_get (s : σ) : exec (get : Throws ε σ σ) s = (.ok s, s) := rfl

@[simp] theorem exec_set (s t : σ) : exec (set t : Throws ε σ PUnit) s = (.ok ⟨⟩, t) := rfl

@[simp] theorem exec_modify (f : σ → σ) (s : σ) :
    exec (modify f : Throws ε σ PUnit) s = (.ok ⟨⟩, f s) := rfl

theorem exec_bind (x : Throws ε σ α) (f : α → Throws ε σ β) (s : σ) :
    exec (x >>= f) s = match exec x s with
      | (.ok a, t) => exec (f a) t
      | (.error e, t) => (.error e, t) := by
  show exec (ExceptT.bind x f) s = _
  unfold exec ExceptT.bind
  simp only [ExceptT.run, StateT.run, ExceptT.mk, bind, StateT.bind]
  rcases x s with ⟨_ | _, _⟩ <;> rfl

theorem exec_tryCatch (x : Throws ε σ α) (h : ε → Throws ε σ α) (s : σ) :
    exec (tryCatch x h) s = match exec x s with
      | (.ok a, t) => (.ok a, t)
      | (.error e, t) => exec (h e) t := by
  show exec (ExceptT.tryCatch x h) s = _
  unfold exec ExceptT.tryCatch
  simp only [ExceptT.run, StateT.run, ExceptT.mk, bind, StateT.bind]
  rcases x s with ⟨_ | _, _⟩ <;> rfl

theorem exec_bind_ok {x : Throws ε σ α} {s t : σ} {a : α} (h : exec x s = (.ok a, t))
    (f : α → Throws ε σ β) : exec (x >>= f) s = exec (f a) t := by
  rw [exec_bind, h]

theorem exec_tryCatch_ok {x : Throws ε σ α} {s t : σ} {a : α} (h : exec x s = (.ok a, t))
    (c : ε → Throws ε σ α) : exec (tryCatch x c) s = (.ok a, t) := by
  rw [exec_tryCatch, h]

theorem exec_tryCatch_error {x : Throws ε σ α} {s t : σ} {e : ε} (h : exec x s = (.error e, t))
    (c : ε → Throws ε σ α) : exec (tryCatch x c) s = exec (c e) t := by
  rw [exec_tryCatch, h]

end Throws
