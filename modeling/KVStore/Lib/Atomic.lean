import KVStore.Lib.Linearizable
import KVStore.Lib.Machine
import Mathlib.Logic.Function.Basic

/-!
# Atomic objects

An object that clients use concurrently and whose operations take effect at one moment each, between their invocation
and their answer.  Its histories are linearizable, in the order of these moments (`explains_of_exec`), and so are those
of a machine whose steps are simulated by an atomic object (`explains_of_simulation`).
-/

namespace Linearizable

/-- What a client of an atomic object is doing.  Operations are numbered as they are invoked. -/
inductive Status (ι ο : Type) where
  | idle
  | pending (id : Nat) (op : ι)
  /-- has taken effect and is not answered -/
  | done (id : Nat) (op : ι) (res : ο)
  deriving DecidableEq, Repr

def Status.map {ι ο ο' : Type} (f : ο → ο') : Status ι ο → Status ι ο'
  | .idle => .idle
  | .pending id op => .pending id op
  | .done id op res => .done id op (f res)

structure Obj (κ σ ι ο : Type) where
  state : σ
  status : κ → Status ι ο := fun _ => .idle
  next : Nat := 0

inductive Move (ι : Type) where
  | invoke (op : ι)
  | commit
  | respond
  deriving DecidableEq, Repr

namespace Obj

variable {κ σ ι ο : Type} [DecidableEq κ]

/-- The client `c` goes to `st`. -/
def goto (o : Obj κ σ ι ο) (c : κ) (st : Status ι ο) : Obj κ σ ι ο :=
  { o with status := Function.update o.status c st }

variable (spec : σ → ι → ο × σ)

def step (o : Obj κ σ ι ο) : κ × Move ι → Option (Obj κ σ ι ο)
  | (c, .invoke op) =>
    match o.status c with
    | .idle => some ({ o with next := o.next + 1 }.goto c (.pending o.next op))
    | _ => none
  | (c, .commit) =>
    match o.status c with
    | .pending id op => some ({ o with state := (spec o.state op).2 }.goto c (.done id op (spec o.state op).1))
    | _ => none
  | (c, .respond) =>
    match o.status c with
    | .done _ _ _ => some (o.goto c .idle)
    | _ => none

omit [DecidableEq κ] in
/-- What the clients see. -/
def observe (o : Obj κ σ ι ο) : κ × Move ι → List (Event ι ο)
  | (_, .invoke op) => [.inv o.next op]
  | (_, .commit) => []
  | (c, .respond) =>
    match o.status c with
    | .done id _ res => [.ret id res]
    | _ => []

/-- The number of the operation that a client waits for. -/
def Holds (st : Status ι ο) (id : Nat) : Prop :=
  match st with
  | .idle => False
  | .pending i _ => i = id
  | .done i _ _ => i = id

/-- What the history `h` and the operations `l` that have taken effect say about a client. -/
def StatusInv (h : List (Event ι ο)) (l : List (Entry ι ο)) : Status ι ο → Prop
  | .idle => True
  | .pending id op => .inv id op ∈ h ∧ id ∉ l.map Entry.id
  | .done id op res => ⟨id, op, res⟩ ∈ l ∧ ∀ x, .ret id x ∉ h

structure Inv (s₀ : σ) (o : Obj κ σ ι ο) (h : List (Event ι ο)) (l : List (Entry ι ο)) : Prop where
  points : Points spec s₀ h l o.state
  fresh : ∀ id op, .inv id op ∈ h → id < o.next
  status : ∀ c, StatusInv h l (o.status c)
  distinct : ∀ c d id, Holds (o.status c) id → Holds (o.status d) id → c = d
  effective : ∀ e ∈ l, .ret e.id e.res ∈ h ∨ ∃ c, o.status c = .done e.id e.op e.res

variable {spec} {s₀ : σ} {o : Obj κ σ ι ο} {h h' : List (Event ι ο)} {l l' : List (Entry ι ο)} {c : κ}
  {st : Status ι ο}

@[simp] theorem goto_self (o : Obj κ σ ι ο) (c : κ) (st : Status ι ο) : (o.goto c st).status c = st :=
  Function.update_self _ _ _

theorem goto_of_ne (o : Obj κ σ ι ο) {c d : κ} (hd : d ≠ c) (st : Status ι ο) :
    (o.goto c st).status d = o.status d :=
  Function.update_of_ne hd _ _

theorem StatusInv.mono (hp : StatusInv h l st) (hh : ∀ e ∈ h, e ∈ h') (hl : ∀ e ∈ l, e ∈ l')
    (hid : ∀ id, Holds st id → id ∈ l'.map Entry.id → id ∈ l.map Entry.id)
    (hret : ∀ id, Holds st id → ∀ x, .ret id x ∈ h' → .ret id x ∈ h) : StatusInv h' l' st := by
  cases st with
  | idle => trivial
  | pending id op => exact ⟨hh _ hp.1, fun hm => hp.2 (hid id rfl hm)⟩
  | done id op res => exact ⟨hl _ hp.1, fun x hx => hp.2 x (hret id rfl x hx)⟩

omit [DecidableEq κ] in
theorem inv_init : Inv spec s₀ ({ state := s₀ } : Obj κ σ ι ο) [] [] where
  points := .init
  fresh := by simp
  status := fun _ => trivial
  distinct := fun _ _ _ h => h.elim
  effective := by simp

omit [DecidableEq κ] in
theorem Inv.invoked (hi : Inv spec s₀ o h l) {id : Nat} (hs : Holds (o.status c) id) : ∃ op, .inv id op ∈ h := by
  have hst := hi.status c
  cases hc : o.status c with
  | idle =>
    rw [hc] at hs
    cases hs
  | pending i op =>
    rw [hc] at hs hst
    exact ⟨op, hs ▸ hst.1⟩
  | done i op res =>
    rw [hc] at hs hst
    exact ⟨op, hs ▸ hi.points.linearizes.invoked _ hst.1⟩

/-! ### Single moves -/

section Moves

variable (spec)

theorem exec_invoke (hc : o.status c = .idle) (op : ι) :
    Machine.exec (step spec) o ([.invoke op].map (Prod.mk c)) =
        some ({ o with next := o.next + 1 }.goto c (.pending o.next op)) ∧
      Machine.trace (step spec) observe o ([.invoke op].map (Prod.mk c)) = [.inv o.next op] := by
  constructor
  · simp [Machine.exec_cons, step, hc]
  · simp [Machine.trace, step, observe, hc]

theorem exec_commit {id : Nat} {op : ι} (hc : o.status c = .pending id op) :
    Machine.exec (step spec) o ([.commit].map (Prod.mk c)) =
        some ({ o with state := (spec o.state op).2 }.goto c (.done id op (spec o.state op).1)) ∧
      Machine.trace (step spec) observe o ([.commit].map (Prod.mk c)) = [] := by
  constructor
  · simp [Machine.exec_cons, step, hc]
  · simp [Machine.trace, step, observe, hc]

theorem exec_respond {id : Nat} {op : ι} {res : ο} (hc : o.status c = .done id op res) :
    Machine.exec (step spec) o ([.respond].map (Prod.mk c)) = some (o.goto c .idle) ∧
      Machine.trace (step spec) observe o ([.respond].map (Prod.mk c)) = [.ret id res] := by
  constructor
  · simp [Machine.exec_cons, step, hc]
  · simp [Machine.trace, step, observe, hc]

end Moves

/-! ### One step -/

/-- A step of `c` to `st` leaves what is said about the other clients. -/
private theorem status_goto (hi : ∀ d, StatusInv h l (o.status d)) (hh : ∀ e ∈ h, e ∈ h') (hl : ∀ e ∈ l, e ∈ l')
    (hid : ∀ d, d ≠ c → ∀ id, Holds (o.status d) id → id ∈ l'.map Entry.id → id ∈ l.map Entry.id)
    (hret : ∀ d, d ≠ c → ∀ id, Holds (o.status d) id → ∀ x, .ret id x ∈ h' → .ret id x ∈ h)
    (hc : StatusInv h' l' st) (d : κ) : StatusInv h' l' ((o.goto c st).status d) := by
  by_cases hd : d = c
  · rw [hd, goto_self]
    exact hc
  · rw [goto_of_ne _ hd]
    exact (hi d).mono hh hl (hid d hd) (hret d hd)

private theorem distinct_goto (hi : ∀ c d id, Holds (o.status c) id → Holds (o.status d) id → c = d)
    (hc : ∀ d, d ≠ c → ∀ id, Holds st id → ¬Holds (o.status d) id) (d e : κ) (id : Nat)
    (hd : Holds ((o.goto c st).status d) id) (he : Holds ((o.goto c st).status e) id) : d = e := by
  by_cases hdc : d = c
  · subst hdc
    by_cases hec : e = d
    · exact hec.symm
    · rw [goto_self] at hd
      rw [goto_of_ne _ hec] at he
      exact absurd he (hc e hec id hd)
  · rw [goto_of_ne _ hdc] at hd
    by_cases hec : e = c
    · subst hec
      rw [goto_self] at he
      exact absurd hd (hc d hdc id he)
    · rw [goto_of_ne _ hec] at he
      exact hi d e id hd he

private theorem effective_goto (hi : ∀ e ∈ l, .ret e.id e.res ∈ h ∨ ∃ c, o.status c = .done e.id e.op e.res)
    (hh : ∀ e ∈ h, e ∈ h') (hc : ∀ e : Entry ι ο, o.status c = .done e.id e.op e.res → .ret e.id e.res ∈ h') :
    ∀ e ∈ l, .ret e.id e.res ∈ h' ∨ ∃ d, (o.goto c st).status d = .done e.id e.op e.res := by
  intro e he
  rcases hi e he with hr | ⟨d, hd⟩
  · exact Or.inl (hh _ hr)
  · by_cases hdc : d = c
    · exact Or.inl (hc e (hdc ▸ hd))
    · exact Or.inr ⟨d, by rwa [goto_of_ne _ hdc]⟩

private theorem inv_invoke (hi : Inv spec s₀ o h l) (hc : o.status c = .idle) (op : ι) :
    Inv spec s₀ ({ o with next := o.next + 1 }.goto c (.pending o.next op)) (h ++ [.inv o.next op]) l := by
  have hnew : ∀ op', .inv o.next op' ∉ h := fun op' hm => Nat.lt_irrefl _ (hi.fresh _ _ hm)
  have hnl : o.next ∉ l.map Entry.id := by
    intro hm
    obtain ⟨e, he, hid⟩ := List.mem_map.1 hm
    exact hnew e.op (hid ▸ hi.points.linearizes.invoked e he)
  refine ⟨hi.points.inv o.next op hnew, fun id op' hm => ?_, ?_, ?_, ?_⟩
  · rcases List.mem_append.1 hm with hm | hm
    · exact Nat.lt_succ_of_lt (hi.fresh id op' hm)
    · cases List.mem_singleton.1 hm
      exact Nat.lt_succ_self _
  · exact status_goto (o := { o with next := o.next + 1 }) hi.status (fun _ => List.mem_append_left _) (fun _ => id)
      (fun _ _ _ _ => id) (fun _ _ _ _ _ hx => by simpa using hx) ⟨by simp, hnl⟩
  · refine distinct_goto (o := { o with next := o.next + 1 }) hi.distinct fun d _ id hid hd => ?_
    obtain ⟨op', hop⟩ := hi.invoked hd
    exact hnew op' (hid ▸ hop)
  · exact effective_goto (o := { o with next := o.next + 1 }) hi.effective (fun _ => List.mem_append_left _)
      (fun e he => by rw [show o.status c = _ from he] at hc; cases hc)

private theorem inv_commit (hi : Inv spec s₀ o h l) {n : Nat} {op : ι} (hc : o.status c = .pending n op) :
    Inv spec s₀ ({ o with state := (spec o.state op).2 }.goto c (.done n op (spec o.state op).1)) h
      (l ++ [⟨n, op, (spec o.state op).1⟩]) := by
  obtain ⟨hinv, hid⟩ : .inv n op ∈ h ∧ n ∉ l.map Entry.id := by
    have hst := hi.status c
    rwa [hc] at hst
  refine ⟨hi.points.point hinv hid, hi.fresh, ?_, ?_, ?_⟩
  · refine status_goto (o := { o with state := (spec o.state op).2 }) hi.status (fun _ => id)
      (fun _ => List.mem_append_left _) ?_ (fun _ _ _ _ _ => id) ⟨by simp, fun x hx => ?_⟩
    · intro d hd i hi' hm
      rw [List.map_append, List.mem_append] at hm
      rcases hm with hm | hm
      · exact hm
      · obtain rfl : i = n := by simpa using hm
        exact absurd (hi.distinct d c i hi' (by rw [hc]; exact rfl)) hd
    · obtain ⟨op', ho⟩ := hi.points.linearizes.completed n x hx
      exact hid (List.mem_map_of_mem ho)
  · refine distinct_goto (o := { o with state := (spec o.state op).2 }) hi.distinct fun d hd i hid' hd' => ?_
    exact hd (hi.distinct d c i hd' (by rwa [hc]))
  · intro e he
    rcases List.mem_append.1 he with he | he
    · exact effective_goto (o := { o with state := (spec o.state op).2 }) hi.effective (fun _ => id)
        (fun e he => by rw [show o.status c = _ from he] at hc; cases hc) e he
    · obtain rfl := List.mem_singleton.1 he
      exact Or.inr ⟨c, goto_self _ _ _⟩

private theorem inv_respond (hi : Inv spec s₀ o h l) {n : Nat} {op : ι} {res : ο} (hc : o.status c = .done n op res) :
    Inv spec s₀ (o.goto c .idle) (h ++ [.ret n res]) l := by
  obtain ⟨hmem, hret⟩ : ⟨n, op, res⟩ ∈ l ∧ ∀ x, .ret n x ∉ h := by
    have hst := hi.status c
    rwa [hc] at hst
  refine ⟨hi.points.ret hmem hret, fun id op' hm => hi.fresh id op' (by simpa using hm), ?_, ?_, ?_⟩
  · refine status_goto hi.status (fun _ => List.mem_append_left _) (fun _ => id) (fun _ _ _ _ => id) ?_ trivial
    intro d hd i hi' x hx
    rcases List.mem_append.1 hx with hx | hx
    · exact hx
    · obtain rfl : i = n := by cases List.mem_singleton.1 hx; rfl
      exact absurd (hi.distinct d c i hi' (by rw [hc]; exact rfl)) hd
  · exact distinct_goto hi.distinct fun d _ id hid => hid.elim
  · refine effective_goto hi.effective (fun _ => List.mem_append_left _) fun e he => ?_
    rw [hc, Status.done.injEq] at he
    obtain ⟨h1, _, h3⟩ := he
    simp [← h1, ← h3]

theorem Inv.step {o' : Obj κ σ ι ο} {m : κ × Move ι} (hi : ∃ l, Inv spec s₀ o h l) (hs : o.step spec m = some o') :
    ∃ l, Inv spec s₀ o' (h ++ o.observe m) l := by
  obtain ⟨l, hi⟩ := hi
  obtain ⟨c, m⟩ := m
  cases m with
  | invoke op =>
    simp only [Obj.step] at hs
    split at hs
    · rename_i hc
      exact Option.some.inj hs ▸ ⟨l, inv_invoke hi hc op⟩
    · cases hs
  | commit =>
    simp only [Obj.step] at hs
    split at hs
    · rename_i n op hc
      exact Option.some.inj hs ▸ ⟨_, by simpa [observe] using inv_commit hi hc⟩
    · cases hs
  | respond =>
    simp only [Obj.step] at hs
    split at hs
    · rename_i n op res hc
      exact Option.some.inj hs ▸ ⟨l, by simpa [observe, hc] using inv_respond hi hc⟩
    · cases hs

/-- Every operation that was invoked is answered, or a client waits for it. -/
def Accounted (o : Obj κ σ ι ο) (h : List (Event ι ο)) : Prop :=
  ∀ id op, .inv id op ∈ h → (∃ res, .ret id res ∈ h) ∨ ∃ c, Holds (o.status c) id

/-- A move to a client's status that is no less than the old one, or answers it. -/
private theorem Accounted.goto {n : Nat} {x : σ} (hi : Accounted o h) (hh : ∀ e ∈ h, e ∈ h')
    (hinv : ∀ id op, .inv id op ∈ h' → .inv id op ∈ h ∨ Holds st id)
    (hc : ∀ id, Holds (o.status c) id → Holds st id ∨ ∃ res, .ret id res ∈ h') :
    Accounted ({ o with state := x, next := n }.goto c st) h' := by
  have hst : ∀ id, Holds st id → ∃ d, Holds (({ o with state := x, next := n }.goto c st).status d) id :=
    fun id h => ⟨c, by rwa [goto_self]⟩
  intro id op hm
  rcases hinv id op hm with hm | hm
  · rcases hi id op hm with ⟨res, hr⟩ | ⟨d, hd⟩
    · exact Or.inl ⟨res, hh _ hr⟩
    · by_cases hdc : d = c
      · subst hdc
        rcases hc id hd with h | h
        · exact Or.inr (hst id h)
        · exact Or.inl h
      · exact Or.inr ⟨d, by rwa [goto_of_ne _ hdc]⟩
  · exact Or.inr (hst id hm)

theorem Accounted.step {o' : Obj κ σ ι ο} {m : κ × Move ι} (hi : Accounted o h) (hs : o.step spec m = some o') :
    Accounted o' (h ++ o.observe m) := by
  obtain ⟨c, m⟩ := m
  cases m with
  | invoke op =>
    simp only [Obj.step] at hs
    split at hs
    · rename_i hc
      refine Option.some.inj hs ▸ hi.goto (fun _ => List.mem_append_left _) (fun id op' hm => ?_) (fun id h => ?_)
      · rcases List.mem_append.1 hm with hm | hm
        · exact Or.inl hm
        · cases List.mem_singleton.1 hm
          exact Or.inr rfl
      · rw [hc] at h
        exact h.elim
    · cases hs
  | commit =>
    simp only [Obj.step] at hs
    split at hs
    · rename_i n op hc
      refine Option.some.inj hs ▸ hi.goto (fun _ => List.mem_append_left _) (fun id op' hm => ?_) (fun id h => ?_)
      · exact Or.inl (by simpa [observe] using hm)
      · rw [hc] at h
        exact Or.inl h
    · cases hs
  | respond =>
    simp only [Obj.step] at hs
    split at hs
    · rename_i n op res hc
      refine Option.some.inj hs ▸ hi.goto (fun _ => List.mem_append_left _) (fun id op' hm => ?_) (fun id h => ?_)
      · exact Or.inl (by simpa [observe, hc] using hm)
      · rw [hc] at h
        exact Or.inr ⟨res, by simp [observe, hc, show n = id from h]⟩
    · cases hs

/-! ### Whole runs -/

variable (spec s₀) in
/-- The operations `order` have taken effect, in this order: all that were answered, and of the others those that are
done.  A client waits for every other operation that was invoked. -/
structure Explains (o : Obj κ σ ι ο) (h : List (Event ι ο)) (order : List (Entry ι ο)) : Prop where
  points : Points spec s₀ h order o.state
  effective : ∀ e ∈ order, .ret e.id e.res ∈ h ∨ ∃ c, o.status c = .done e.id e.op e.res
  done : ∀ c id op res, o.status c = .done id op res → ⟨id, op, res⟩ ∈ order
  accounted : Accounted o h

/-- The operations of an atomic object take effect in some order. -/
theorem explains_of_exec {ms : List (κ × Move ι)}
    (hs : Machine.exec (step spec) ({ state := s₀ } : Obj κ σ ι ο) ms = some o) :
    ∃ order, Explains spec s₀ o (Machine.trace (step spec) observe ({ state := s₀ } : Obj κ σ ι ο) ms) order := by
  have h := Machine.exec_history_invariant (h := []) (fun _ _ => True) observe
    (fun o h => (∃ l, Inv spec s₀ o h l) ∧ Accounted o h) (fun o h m o' hi _ hs => ⟨Inv.step hi.1 hs, hi.2.step hs⟩)
    ⟨⟨[], inv_init⟩, fun _ _ hm => absurd hm List.not_mem_nil⟩ (Machine.along_true _ _) hs
  obtain ⟨⟨l, hi⟩, hacc⟩ := h
  refine ⟨l, hi.points, hi.effective, fun c id op res hc => ?_, hacc⟩
  have hst := hi.status c
  rw [hc] at hst
  exact hst.1

variable {τ α : Type}

variable (spec) in
/-- Every step of a machine at a client is some moves of the object at this client, and the clients see the same. -/
def Simulates (R : τ → Obj κ σ ι ο → Prop) (stepM : τ → κ × α → Option τ) (obs : τ → κ × α → List (Event ι ο)) :
    Prop :=
  ∀ t o c a t', R t o → stepM t (c, a) = some t' → ∃ (ms : List (Move ι)) (o' : Obj κ σ ι ο),
    Machine.exec (step spec) o (ms.map (Prod.mk c)) = some o' ∧
      Machine.trace (step spec) observe o (ms.map (Prod.mk c)) = obs t (c, a) ∧ R t' o'

variable {R : τ → Obj κ σ ι ο → Prop} {stepM : τ → κ × α → Option τ} {obs : τ → κ × α → List (Event ι ο)}

/-- What the clients of a machine that is simulated by an atomic object see is explained by the operations of the
object. -/
theorem explains_of_simulation (hsim : Simulates spec R stepM obs) {t₀ t : τ} (h0 : R t₀ { state := s₀ })
    {as : List (κ × α)} (hs : Machine.exec stepM t₀ as = some t) :
    ∃ o order, R t o ∧ Explains spec s₀ o (Machine.trace stepM obs t₀ as) order := by
  have hstep : ∀ t o (a : κ × α) t', R t o → True → stepM t a = some t' → ∃ ms o',
      Machine.exec (step spec) o ms = some o' ∧ Machine.trace (step spec) observe o ms = obs t a ∧ R t' o' := by
    intro t o a t' hR _ hs
    obtain ⟨ms, o', h⟩ := hsim t o a.1 a.2 t' hR hs
    exact ⟨_, o', h⟩
  obtain ⟨ms, o, ho, htrace, hR⟩ := Machine.exec_simulates (fun _ _ => True) R hstep h0 (Machine.along_true _ _) hs
  have h := explains_of_exec ho
  rw [htrace] at h
  obtain ⟨order, h⟩ := h
  exact ⟨o, order, hR, h⟩

end Obj

end Linearizable
