import KVStore.Lib.Register
import Mathlib.Data.List.Nodup
import Mathlib.Tactic.Common

/-!
# Linearizability by linearization points

A history is the list of what the clients see: operations invoked and answered.  `Linearizes` says that a list of
operations, each with a result, is a sequential explanation of a history.  `Points` builds a history and such a list
side by side: an operation enters the list at some moment between its invocation and its answer, with the result that
the sequential object gives then.  What is built like this is a linearization (`Points.linearizes`), so a concurrent
object is linearizable if each of its steps is a rule of `Points` or silent.

An order says what an operation that reads a register can have read, in terms of real time alone (`Points.last_write`,
`Points.last_write_of_precedes`).
-/

namespace Linearizable

variable {σ ι ο α : Type}

/-- What the clients see: the operation number `id` is invoked, or answered. -/
inductive Event (ι ο : Type) where
  | inv (id : Nat) (op : ι)
  | ret (id : Nat) (res : ο)
  deriving DecidableEq, Repr

/-- An operation of a sequential order with the result it has there. -/
structure Entry (ι ο : Type) where
  id : Nat
  op : ι
  res : ο
  deriving DecidableEq, Repr

/-- `a` stands before `b` in `l`. -/
def Before (l : List α) (a b : α) : Prop := [a, b].Sublist l

/-- One after another from `s`, the operations of `l` give their results and lead to `t`. -/
def Sequential (spec : σ → ι → ο × σ) : σ → List (Entry ι ο) → σ → Prop
  | s, [], t => s = t
  | s, e :: l, t => (spec s e.op).1 = e.res ∧ Sequential spec (spec s e.op).2 l t

/-- `l` is a sequential explanation of `h`: operations that were invoked, among them all that were answered, each
once, in an order that respects real time and gives the results that were answered. -/
structure Linearizes (spec : σ → ι → ο × σ) (s₀ : σ) (h : List (Event ι ο)) (l : List (Entry ι ο)) : Prop where
  nodup : (l.map Entry.id).Nodup
  invoked : ∀ e ∈ l, .inv e.id e.op ∈ h
  completed : ∀ id res, .ret id res ∈ h → ∃ op, ⟨id, op, res⟩ ∈ l
  realTime : ∀ a ∈ l, ∀ b ∈ l, Before h (.ret a.id a.res) (.inv b.id b.op) → Before l a b
  legal : ∃ t, Sequential spec s₀ l t

/-- A history `h`, the operations `l` that have taken effect in it, and the state `s` they lead to. -/
inductive Points (spec : σ → ι → ο × σ) (s₀ : σ) : List (Event ι ο) → List (Entry ι ο) → σ → Prop
  | init : Points spec s₀ [] [] s₀
  | inv {h l s} (id : Nat) (op : ι) : Points spec s₀ h l s → (∀ op', .inv id op' ∉ h) →
      Points spec s₀ (h ++ [.inv id op]) l s
  | point {h l s} {id : Nat} {op : ι} : Points spec s₀ h l s → .inv id op ∈ h → id ∉ l.map Entry.id →
      Points spec s₀ h (l ++ [⟨id, op, (spec s op).1⟩]) (spec s op).2
  | ret {h l s} {id : Nat} {op : ι} {res : ο} : Points spec s₀ h l s → ⟨id, op, res⟩ ∈ l →
      (∀ res', .ret id res' ∉ h) → Points spec s₀ (h ++ [.ret id res]) l s

theorem before_concat {l : List α} {a b x : α} :
    Before (l ++ [x]) a b ↔ Before l a b ∨ (a ∈ l ∧ b = x) := by
  unfold Before
  constructor
  · intro h
    obtain ⟨l₁, l₂, e, h₁, h₂⟩ := List.sublist_append_iff.1 h
    rcases List.sublist_singleton.1 h₂ with rfl | rfl
    · rw [List.append_nil] at e
      exact Or.inl (e ▸ h₁)
    · have e : [a] ++ [b] = l₁ ++ [x] := e
      obtain ⟨e₁, e₂⟩ := List.append_inj' e rfl
      subst e₁
      exact Or.inr ⟨List.singleton_sublist.1 h₁, by simpa using e₂⟩
  · rintro (h | ⟨h, rfl⟩)
    · exact h.trans (List.sublist_append_left l [x])
    · exact List.Sublist.append (List.singleton_sublist.2 h) (List.Sublist.refl [b])

theorem Before.left_mem {l : List α} {a b : α} (h : Before l a b) : a ∈ l := h.subset (by simp)

theorem sequential_concat {spec : σ → ι → ο × σ} {s t : σ} {l : List (Entry ι ο)} (h : Sequential spec s l t)
    (id : Nat) (op : ι) : Sequential spec s (l ++ [⟨id, op, (spec t op).1⟩]) (spec t op).2 := by
  induction l generalizing s with
  | nil => cases h; exact ⟨rfl, rfl⟩
  | cons e l ih => exact ⟨h.1, ih h.2⟩

theorem sequential_split {spec : σ → ι → ο × σ} {s t : σ} {pre post : List (Entry ι ο)} {e : Entry ι ο}
    (h : Sequential spec s (pre ++ e :: post) t) : ∃ u, Sequential spec s pre u ∧ (spec u e.op).1 = e.res := by
  induction pre generalizing s with
  | nil => exact ⟨s, rfl, h.1⟩
  | cons x pre ih =>
    obtain ⟨u, hu, he⟩ := ih h.2
    exact ⟨u, ⟨h.1, hu⟩, he⟩

/-- The state reached by the operations that have taken effect. -/
theorem Points.sequential {spec : σ → ι → ο × σ} {s₀ s : σ} {h : List (Event ι ο)} {l : List (Entry ι ο)}
    (hp : Points spec s₀ h l s) : Sequential spec s₀ l s := by
  induction hp with
  | init => rfl
  | inv _ _ _ _ ih => exact ih
  | point _ _ _ ih => exact sequential_concat ih _ _
  | ret _ _ _ ih => exact ih

/-- The operations that have taken effect, in the order in which they did, linearize the history. -/
theorem Points.linearizes {spec : σ → ι → ο × σ} {s₀ s : σ} {h : List (Event ι ο)} {l : List (Entry ι ο)}
    (hp : Points spec s₀ h l s) : Linearizes spec s₀ h l := by
  induction hp with
  | init => exact ⟨List.nodup_nil, by simp, by simp, by simp, s₀, rfl⟩
  | @inv h l s id op hp hid ih =>
    refine ⟨ih.nodup, fun e he => List.mem_append_left _ (ih.invoked e he), ?_, ?_, s, hp.sequential⟩
    · intro i res hr
      simp only [List.mem_append, List.mem_singleton, reduceCtorEq, or_false] at hr
      exact ih.completed i res hr
    · intro a ha b hb hab
      rcases before_concat.1 hab with hab | ⟨_, e⟩
      · exact ih.realTime a ha b hb hab
      · -- `b` has taken effect, so it was invoked before
        cases e
        exact absurd (ih.invoked b hb) (hid _)
  | @point h l s id op hp hinv hid ih =>
    refine ⟨?_, ?_, ?_, ?_, _, sequential_concat hp.sequential id op⟩
    · rw [List.map_append, List.map_singleton, List.nodup_append]
      refine ⟨ih.nodup, List.pairwise_singleton _ _, fun i hi j hj e => hid ?_⟩
      obtain rfl := List.mem_singleton.1 hj
      exact e ▸ hi
    · intro e he
      rcases List.mem_append.1 he with he | he
      · exact ih.invoked e he
      · rw [List.mem_singleton] at he
        exact he ▸ hinv
    · intro i res hr
      obtain ⟨op', h'⟩ := ih.completed i res hr
      exact ⟨op', List.mem_append_left _ h'⟩
    · intro a ha b hb hab
      rcases List.mem_append.1 ha with ha | ha
      · rcases List.mem_append.1 hb with hb | hb
        · exact before_concat.2 (Or.inl (ih.realTime a ha b hb hab))
        · exact before_concat.2 (Or.inr ⟨ha, List.mem_singleton.1 hb⟩)
      · -- `a` takes effect only now, so it is not answered
        obtain ⟨op', h'⟩ := ih.completed _ _ hab.left_mem
        rw [List.mem_singleton.1 ha] at h'
        exact absurd (List.mem_map_of_mem h') hid
  | @ret h l s id op res hp hmem hret ih =>
    refine ⟨ih.nodup, fun e he => List.mem_append_left _ (ih.invoked e he), ?_, ?_, s, hp.sequential⟩
    · intro i r hr
      rcases List.mem_append.1 hr with hr | hr
      · exact ih.completed i r hr
      · cases List.mem_singleton.1 hr
        exact ⟨op, hmem⟩
    · intro a ha b hb hab
      rcases before_concat.1 hab with hab | ⟨_, e⟩
      · exact ih.realTime a ha b hb hab
      · cases e

/-! ### Operations of another object -/

section Comap

variable {ι' : Type}

/-- The same event for the operations `f op` of another object. -/
def Event.mapOp (f : ι → ι') : Event ι ο → Event ι' ο
  | .inv id op => .inv id (f op)
  | .ret id res => .ret id res

def Entry.mapOp (f : ι → ι') (e : Entry ι ο) : Entry ι' ο := ⟨e.id, f e.op, e.res⟩

theorem inv_mem_map {f : ι → ι'} {h : List (Event ι ο)} {id : Nat} {op : ι'} :
    .inv id op ∈ h.map (Event.mapOp f) ↔ ∃ op', .inv id op' ∈ h ∧ f op' = op := by
  constructor
  · intro hm
    obtain ⟨e, he, heq⟩ := List.mem_map.1 hm
    cases e with
    | inv i op' =>
      obtain ⟨rfl, rfl⟩ := Event.inv.inj heq
      exact ⟨op', he, rfl⟩
    | ret i res => cases heq
  · rintro ⟨op', hm, rfl⟩
    exact List.mem_map_of_mem hm

theorem ret_mem_map {f : ι → ι'} {h : List (Event ι ο)} {id : Nat} {res : ο} :
    .ret id res ∈ h.map (Event.mapOp f) ↔ .ret id res ∈ h := by
  constructor
  · intro hm
    obtain ⟨e, he, heq⟩ := List.mem_map.1 hm
    cases e with
    | inv i op' => cases heq
    | ret i res' =>
      obtain ⟨rfl, rfl⟩ := Event.ret.inj heq
      exact he
  · exact List.mem_map_of_mem

/-- A history of operations that are some of another object's is built by linearization points if it is so there. -/
theorem Points.comap {spec : σ → ι → ο × σ} {spec' : σ → ι' → ο × σ} {f : ι → ι'}
    (hspec : ∀ s op, spec s op = spec' s (f op)) {s₀ s : σ} {h : List (Event ι ο)} {l : List (Entry ι' ο)}
    (hp : Points spec' s₀ (h.map (Event.mapOp f)) l s) : ∃ l', l = l'.map (Entry.mapOp f) ∧ Points spec s₀ h l' s := by
  generalize hm : h.map (Event.mapOp f) = h' at hp
  induction hp generalizing h with
  | init =>
    obtain rfl := List.map_eq_nil_iff.1 hm
    exact ⟨[], rfl, .init⟩
  | inv id op _ hid ih =>
    obtain ⟨h, h₂, rfl, rfl, hlast⟩ := List.map_eq_append_iff.1 hm
    obtain ⟨e, rfl, he⟩ := List.map_eq_singleton_iff.1 hlast
    obtain ⟨l', rfl, hp⟩ := ih rfl
    cases e with
    | inv i op' =>
      obtain ⟨rfl, rfl⟩ := Event.inv.inj he
      exact ⟨l', rfl, hp.inv i op' fun op hop => hid (f op) (inv_mem_map.2 ⟨op, hop, rfl⟩)⟩
    | ret i res => cases he
  | point _ hinv hid ih =>
    subst hm
    obtain ⟨l', rfl, hp⟩ := ih rfl
    obtain ⟨op, hop, rfl⟩ := inv_mem_map.1 hinv
    rw [List.map_map] at hid
    have hp := hp.point hop hid
    rw [hspec] at hp
    exact ⟨_, by rw [List.map_append]; rfl, hp⟩
  | ret _ hmem hret ih =>
    obtain ⟨h, h₂, rfl, rfl, hlast⟩ := List.map_eq_append_iff.1 hm
    obtain ⟨e, rfl, he⟩ := List.map_eq_singleton_iff.1 hlast
    obtain ⟨l', rfl, hp⟩ := ih rfl
    cases e with
    | inv i op' => cases he
    | ret i res =>
      obtain ⟨rfl, rfl⟩ := Event.ret.inj he
      obtain ⟨x, hx, heq⟩ := List.mem_map.1 hmem
      obtain ⟨rfl, _, rfl⟩ := Entry.mk.inj heq
      exact ⟨l', rfl, hp.ret hx fun res hr => hret res (ret_mem_map.2 hr)⟩

end Comap

/-! ### What the order says about real time -/

/-- The operation number `i` is answered before the operation number `j` is invoked. -/
def Precedes (h : List (Event ι ο)) (i j : Nat) : Prop := ∃ res op, Before h (.ret i res) (.inv j op)

theorem Before.right_mem {l : List α} {a b : α} (h : Before l a b) : b ∈ l := h.subset (by simp)

/-- A cut through a list is before an element or after it. -/
private theorem append_cons_eq_append {pre post r₁ r₂ : List α} {e : α} (h : pre ++ e :: post = r₁ ++ r₂) :
    (∃ c, pre = r₁ ++ c) ∨ ∃ c, r₁ = pre ++ e :: c ∧ post = c ++ r₂ := by
  rcases List.append_eq_append_iff.1 h with ⟨c, hr, hc⟩ | ⟨c, hp, _⟩
  · cases c with
    | nil => exact Or.inl ⟨[], by simpa using hr.symm⟩
    | cons x c =>
      obtain ⟨rfl, rfl⟩ := List.cons.inj hc
      exact Or.inr ⟨c, hr, rfl⟩
  · exact Or.inl ⟨c, hp⟩

/-- What stands before an element is in the part of the list before it. -/
theorem Before.mem_left {pre post : List α} {a e : α} (hn : (pre ++ e :: post).Nodup)
    (h : Before (pre ++ e :: post) a e) : a ∈ pre := by
  obtain ⟨r₁, r₂, he, ha, hr⟩ := List.cons_sublist_iff.1 h
  rcases append_cons_eq_append he with ⟨c, rfl⟩ | ⟨c, rfl, rfl⟩
  · exact List.mem_append_left _ ha
  · have hpost : e ∉ c ++ r₂ := (List.nodup_cons.1 hn.of_append_right).1
    exact absurd (List.mem_append_right c (List.singleton_sublist.1 hr)) hpost

/-- What stands after an element is in the part of the list after it. -/
theorem Before.mem_right {pre post : List α} {b e : α} (hn : (pre ++ e :: post).Nodup)
    (h : Before (pre ++ e :: post) e b) : b ∈ post := by
  obtain ⟨r₁, r₂, he, ha, hr⟩ := List.cons_sublist_iff.1 h
  rcases append_cons_eq_append he with ⟨c, rfl⟩ | ⟨c, rfl, rfl⟩
  · exact absurd List.mem_cons_self (List.disjoint_of_nodup_append hn (List.mem_append_left c ha))
  · exact List.mem_append_right c (List.singleton_sublist.1 hr)

variable {spec : σ → ι → ο × σ} {s₀ s : σ} {h : List (Event ι ο)} {l pre post : List (Entry ι ο)} {a b e : Entry ι ο}

/-- A number belongs to one operation. -/
theorem Points.unique (hp : Points spec s₀ h l s) {id : Nat} {op op' : ι} (ho : .inv id op ∈ h)
    (ho' : .inv id op' ∈ h) : op = op' := by
  induction hp with
  | init => cases ho
  | inv i op₁ hp hi ih =>
    simp only [List.mem_append, List.mem_singleton, Event.inv.injEq] at ho ho'
    rcases ho with ho | ⟨rfl, rfl⟩
    · rcases ho' with ho' | ⟨rfl, rfl⟩
      · exact ih ho ho'
      · exact absurd ho (hi op)
    · rcases ho' with ho' | ⟨_, rfl⟩
      · exact absurd ho' (hi op')
      · rfl
  | point _ _ _ ih => exact ih ho ho'
  | ret hp hmem hret ih => exact ih (by simpa using ho) (by simpa using ho')

/-- An operation that was answered is in the order. -/
theorem Points.mem (hp : Points spec s₀ h l s) {id : Nat} {op : ι} {res : ο} (ho : .inv id op ∈ h)
    (hr : .ret id res ∈ h) : ⟨id, op, res⟩ ∈ l := by
  obtain ⟨op', hm⟩ := hp.linearizes.completed id res hr
  exact hp.unique (hp.linearizes.invoked _ hm) ho ▸ hm

theorem Points.before_of_precedes (hp : Points spec s₀ h l s) (ha : a ∈ l) (hb : b ∈ l) (hab : Precedes h a.id b.id) :
    Before l a b := by
  obtain ⟨res, op, hab⟩ := hab
  have ha' := hp.mem (hp.linearizes.invoked a ha) hab.left_mem
  obtain rfl : op = b.op := hp.unique hab.right_mem (hp.linearizes.invoked b hb)
  have hres : (⟨a.id, a.op, res⟩ : Entry ι ο) = a := List.inj_on_of_nodup_map hp.linearizes.nodup ha' ha rfl
  have hres : res = a.res := congrArg Entry.res hres
  exact hp.linearizes.realTime a ha b hb (hres ▸ hab)

/-- What precedes an operation stands before it in the order. -/
theorem Points.mem_of_precedes (hp : Points spec s₀ h (pre ++ e :: post) s) (ha : a ∈ pre ++ e :: post)
    (hae : Precedes h a.id e.id) : a ∈ pre :=
  (hp.before_of_precedes ha (by simp) hae).mem_left (hp.linearizes.nodup.of_map _)

/-- An operation does not precede what stands before it in the order. -/
theorem Points.not_precedes (hp : Points spec s₀ h (pre ++ e :: post) s) (ha : a ∈ pre) :
    ¬Precedes h e.id a.id := by
  intro hea
  have hn := hp.linearizes.nodup.of_map _
  have hpost := (hp.before_of_precedes (by simp) (List.mem_append_left _ ha) hea).mem_right hn
  exact List.disjoint_of_nodup_append hn ha (List.mem_cons_of_mem _ hpost)

/-- The last write before an operation is not invoked after it, and no other write comes between them in real time. -/
theorem Points.last_write (hp : Points spec s₀ h (pre ++ e :: post) s) (w : Entry ι ο → Option α) {v : α}
    (hv : Register.last w pre = some v) :
    ∃ a ∈ pre, w a = some v ∧ ¬Precedes h e.id a.id ∧
      ∀ b ∈ pre ++ e :: post, w b ≠ none → ¬(Precedes h a.id b.id ∧ Precedes h b.id e.id) := by
  obtain ⟨p, a, q, rfl, ha, hq⟩ := Register.last_eq_some_iff.1 hv
  have hn := hp.linearizes.nodup.of_map _
  have hmem : a ∈ p ++ a :: q := by simp
  refine ⟨a, hmem, ha, hp.not_precedes hmem, fun b hb hw hbetween => ?_⟩
  have hpre := hp.mem_of_precedes hb hbetween.2
  have hafter : b ∈ q ++ e :: post := by
    have hab := hp.before_of_precedes (List.mem_append_left _ hmem) hb hbetween.1
    rw [List.append_assoc, List.cons_append] at hab hn
    exact hab.mem_right hn
  rcases List.mem_append.1 hafter with hbq | hbe
  · exact hw (hq b hbq)
  · exact List.disjoint_of_nodup_append hn hpre hbe

/-- If a write precedes an operation, the last write before the operation is that one or one that may have come
later. -/
theorem Points.last_write_of_precedes (hp : Points spec s₀ h (pre ++ e :: post) s) (w : Entry ι ο → Option α)
    (ha : a ∈ pre ++ e :: post) (hw : w a ≠ none) (hae : Precedes h a.id e.id) :
    ∃ b ∈ pre, Register.last w pre = w b ∧ w b ≠ none ∧ ¬Precedes h b.id a.id := by
  obtain ⟨p, q, rfl⟩ := List.append_of_mem (hp.mem_of_precedes ha hae)
  have hn := hp.linearizes.nodup.of_map _
  -- the last write is not among those before `a`
  have hlast : Register.last w (p ++ a :: q) = Register.last w (a :: q) := by
    rw [Register.last_append]
    cases h : Register.last w (a :: q) with
    | none => exact absurd (Register.last_eq_none_iff.1 h a List.mem_cons_self) hw
    | some v => rfl
  cases hv : Register.last w (a :: q) with
  | none => exact absurd (Register.last_eq_none_iff.1 hv a List.mem_cons_self) hw
  | some v =>
    obtain ⟨p', b, q', he, hb, _⟩ := Register.last_eq_some_iff.1 hv
    have hbq : b ∈ a :: q := by simp [he]
    refine ⟨b, List.mem_append_right p hbq, by rw [hlast, hv, hb], by rw [hb]; exact Option.some_ne_none v, ?_⟩
    intro hba
    have hbefore := hp.before_of_precedes (List.mem_append_left _ (List.mem_append_right p hbq)) ha hba
    rw [List.append_assoc] at hbefore hn
    exact List.disjoint_of_nodup_append hn (hbefore.mem_left hn) (List.mem_append_left _ hbq)

end Linearizable
