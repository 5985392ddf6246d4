import Mathlib.Tactic.Common

/-!
# Readers of a stream

A reader takes a value from the front of an input, or fails.  `Takes r w a` says that it takes exactly `w`, as `a`,
whatever follows; `Local r` that what it gives is decided by what it takes.  Both are kept by `bind`.

`fields` is the loop that reads a record of tagged fields in any order up to an end mark: on fields that it takes one
by one it is the fold of their effects (`takes_fields`), and the record is local (`local_record`).  A local reader
fails on a value that breaks off (`read_of_truncated`), and does not read one text in two ways (`Takes.unique`).
-/

abbrev Reader (β α : Type) := StateT (List β) Option α

namespace Reader

variable {β α γ : Type}

def read (r : Reader β α) (s : List β) : Option (α × List β) := r.run s

/-- `r` takes exactly `w`, as `a`. -/
def Takes (r : Reader β α) (w : List β) (a : α) : Prop := ∀ rest, r.read (w ++ rest) = some (a, rest)

/-- What is read is decided by what is taken. -/
def Local (r : Reader β α) : Prop := ∀ s a rest, r.read s = some (a, rest) → ∃ w, s = w ++ rest ∧ r.Takes w a

/-! ### Rules -/

theorem read_pure (a : α) (s : List β) : read (pure a) s = some (a, s) := rfl

theorem read_bind (r : Reader β α) (f : α → Reader β γ) (s : List β) :
    read (r >>= f) s = (r.read s).bind fun x => (f x.1).read x.2 := rfl

theorem read_bind_eq_some {r : Reader β α} {f : α → Reader β γ} {s rest : List β} {c : γ} :
    read (r >>= f) s = some (c, rest) ↔ ∃ a t, r.read s = some (a, t) ∧ (f a).read t = some (c, rest) := by
  rw [read_bind, Option.bind_eq_some_iff, Prod.exists]

theorem exists_of_read_bind_pure {r : Reader β α} {f : α → γ} {s rest : List β} {c : γ}
    (h : read (r >>= fun a => pure (f a)) s = some (c, rest)) : ∃ a, c = f a := by
  obtain ⟨a, t, _, he⟩ := read_bind_eq_some.1 h
  exact ⟨a, (Prod.mk.inj (Option.some.inj he)).1.symm⟩

theorem takes_pure (a : α) : Takes (pure a : Reader β α) [] a := fun _ => rfl

theorem Takes.read_self {r : Reader β α} {w : List β} {a : α} (h : r.Takes w a) : r.read w = some (a, []) := by
  have h := h []
  rwa [List.append_nil] at h

theorem Takes.bind {r : Reader β α} {f : α → Reader β γ} {w w' : List β} {a : α} {c : γ} (hr : r.Takes w a)
    (hf : (f a).Takes w' c) : Takes (r >>= f) (w ++ w') c := by
  intro rest
  rw [read_bind, List.append_assoc, hr]
  exact hf rest

/-- What follows takes nothing. -/
theorem Takes.bind_nil {r : Reader β α} {f : α → Reader β γ} {w : List β} {a : α} {c : γ} (hr : r.Takes w a)
    (hf : (f a).Takes [] c) : Takes (r >>= f) w c := by
  have h := hr.bind hf
  rwa [List.append_nil] at h

theorem Takes.bind_pure {r : Reader β α} {f : α → γ} {w : List β} {a : α} (hr : r.Takes w a) :
    Takes (do let a ← r; pure (f a)) w (f a) := hr.bind_nil (takes_pure (f a))

theorem local_pure (a : α) : Local (pure a : Reader β α) := by
  intro s b rest h
  rw [read_pure] at h
  obtain ⟨rfl, rfl⟩ := Prod.mk.inj (Option.some.inj h)
  exact ⟨[], rfl, takes_pure a⟩

theorem local_failure : Local (failure : Reader β α) := by
  intro s a rest h
  cases h

theorem Local.bind {r : Reader β α} {f : α → Reader β γ} (hr : Local r) (hf : ∀ a, Local (f a)) :
    Local (r >>= f) := by
  intro s c rest h
  obtain ⟨a, t, ha, hc⟩ := read_bind_eq_some.1 h
  obtain ⟨w, rfl, hw⟩ := hr s a t ha
  obtain ⟨w', rfl, hw'⟩ := hf a t c rest hc
  exact ⟨w ++ w', (List.append_assoc w w' rest).symm, hw.bind hw'⟩

theorem Local.ite {p : Prop} [Decidable p] {r r' : Reader β α} (h : Local r) (h' : Local r') :
    Local (if p then r else r') := by
  split
  · exact h
  · exact h'

/-! ### Small readers -/

/-- The next `n` elements. -/
def items (n : Nat) : Reader β (List β) := fun s => if n ≤ s.length then some (s.splitAt n) else none

def ofOption : Option α → Reader β α
  | some a => pure a
  | none => failure

/-- `r`, so many times. -/
def repeated (r : Reader β Unit) : Nat → Reader β Unit
  | 0 => pure ()
  | n + 1 => do
    r
    repeated r n

theorem takes_items (w : List β) : (items w.length).Takes w w := by
  intro rest
  show (if w.length ≤ (w ++ rest).length then some ((w ++ rest).splitAt w.length) else none) = _
  rw [if_pos (by simp), List.splitAt_eq, List.take_left, List.drop_left]

theorem local_items (n : Nat) : Local (items n : Reader β (List β)) := by
  intro s a rest h
  obtain ⟨hn, h⟩ := Option.ite_none_right_eq_some.1 h
  rw [List.splitAt_eq, Option.some.injEq, Prod.mk.injEq] at h
  obtain ⟨rfl, rfl⟩ := h
  have ht := takes_items (s.take n)
  rw [List.length_take, Nat.min_eq_left hn] at ht
  exact ⟨s.take n, (List.take_append_drop n s).symm, ht⟩

theorem local_ofOption (o : Option α) : Local (ofOption o : Reader β α) := by
  cases o with
  | none => exact local_failure
  | some a => exact local_pure a

theorem local_repeated {r : Reader β Unit} (hr : Local r) (n : Nat) : Local (repeated r n) := by
  induction n with
  | zero => exact local_pure ()
  | succ n ih => exact hr.bind fun _ => ih

/-! ### Local readers -/

/-- A local reader that fails on the empty input takes something. -/
theorem Local.length_lt {r : Reader β α} (hl : Local r) (hnil : r.read [] = none) {s rest : List β} {a : α}
    (h : r.read s = some (a, rest)) : rest.length < s.length := by
  obtain ⟨w, rfl, hw⟩ := hl s a rest h
  have hne : w ≠ [] := by
    rintro rfl
    have h := hw.read_self
    rw [hnil] at h
    cases h
  have hpos := List.length_pos_iff.2 hne
  rw [List.length_append]
  omega

/-- What is read from a part of an input that begins with a text is that text. -/
theorem Local.eq_of_read {r : Reader β α} (hl : Local r) {w p z rest : List β} {a b : α} (h : r.Takes w a)
    (hp : p <+: w ++ z) (hr : r.read p = some (b, rest)) : b = a ∧ p = w ++ rest := by
  obtain ⟨t, ht⟩ := hp
  obtain ⟨u, rfl, hu⟩ := hl p b rest hr
  have hw := h z
  rw [← ht, List.append_assoc, hu] at hw
  obtain ⟨rfl, hz⟩ := Prod.mk.inj (Option.some.inj hw)
  rw [← hz, ← List.append_assoc] at ht
  exact ⟨rfl, List.append_cancel_right ht⟩

/-- A value that breaks off is not read. -/
theorem Local.read_of_truncated {r : Reader β α} (hl : Local r) {w p : List β} {a : α} (h : r.Takes w a)
    (hp : p <+: w) (hne : p ≠ w) : r.read p = none := by
  cases hr : r.read p with
  | none => rfl
  | some x =>
    obtain ⟨t, rfl⟩ := hp
    have hp' := (hl.eq_of_read (z := []) h (by simp) hr).2
    rw [List.append_assoc, List.self_eq_append_right, List.append_eq_nil_iff] at hp'
    rw [hp'.1, List.append_nil] at hne
    exact absurd rfl hne

/-- At most one value, and at most one text for it, stands at the front of an input. -/
theorem Takes.unique {r : Reader β α} {w w' rest rest' : List β} {a a' : α} (h : r.Takes w a) (h' : r.Takes w' a')
    (he : w ++ rest = w' ++ rest') : w = w' ∧ a = a' ∧ rest = rest' := by
  have hr := h rest
  rw [he, h'] at hr
  obtain ⟨rfl, rfl⟩ := Prod.mk.inj (Option.some.inj hr)
  exact ⟨List.append_cancel_right he, rfl, rfl⟩

/-! ### Records of tagged fields -/

section Fields

variable {τ σ : Type} (next : Reader β (Option τ)) (field : τ → σ → Reader β σ)

/-- At most `n` rounds: the tag of the next field and the field, until the end mark. -/
def fields : Nat → σ → Reader β σ
  | 0, _ => failure
  | n + 1, s => do
    match ← next with
    | none => pure s
    | some t => do
      let s ← field t s
      fields n s

/-- The fields up to the end mark.  Every round takes something, so there are at most as many as the input is long. -/
def record (s : σ) : Reader β σ := do
  let input ← get
  fields next field (input.length + 1) s

/-- A field as it stands in an input, with its effect on what has been read. -/
structure Item (τ σ β : Type) where
  tag : τ
  head : List β
  body : List β
  effect : σ → σ

/-- `next` takes the head of the field, and `field` its body. -/
structure Item.Fits (next : Reader β (Option τ)) (field : τ → σ → Reader β σ) (i : Item τ σ β) : Prop where
  head : next.Takes i.head (some i.tag)
  body : ∀ s, (field i.tag s).Takes i.body (i.effect s)

/-- The text of a field. -/
def Item.text (i : Item τ σ β) : List β := i.head ++ i.body

variable {next field}

theorem takes_fields_nil {stop : List β} (hstop : next.Takes stop none) {n : Nat} (hn : 0 < n) (s : σ) :
    (fields next field n s).Takes stop s := by
  obtain ⟨n, rfl⟩ := Nat.exists_eq_succ_of_ne_zero (Nat.ne_of_gt hn)
  exact hstop.bind_nil (takes_pure s)

theorem takes_fields {items : List (Item τ σ β)} (h : ∀ i ∈ items, i.Fits next field) {stop : List β}
    (hstop : next.Takes stop none) {n : Nat} (hn : items.length < n) (s : σ) :
    (fields next field n s).Takes (items.flatMap Item.text ++ stop) (items.foldl (fun s i => i.effect s) s) := by
  induction items generalizing n s with
  | nil => exact takes_fields_nil hstop hn s
  | cons i items ih =>
    obtain ⟨n, rfl⟩ := Nat.exists_eq_succ_of_ne_zero (Nat.ne_of_gt (Nat.lt_of_le_of_lt (Nat.zero_le _) hn))
    obtain ⟨hi, h⟩ := List.forall_mem_cons.1 h
    have hrest := ih h (Nat.lt_of_succ_lt_succ hn) (i.effect s)
    have hround := hi.head.bind (f := fun t => match t with
      | none => pure s
      | some t => do
        let s ← field t s
        fields next field n s) ((hi.body s).bind hrest)
    rw [List.flatMap_cons, List.append_assoc, Item.text, List.append_assoc]
    exact hround

variable (next) in
/-- The tag of a field takes something. -/
def Advances : Prop := ∀ s t rest, next.read s = some (some t, rest) → rest.length < s.length

theorem Advances.ne_nil {w : List β} {t : τ} (ha : Advances next) (h : next.Takes w (some t)) : w ≠ [] := by
  rintro rfl
  exact Nat.lt_irrefl _ (ha _ _ _ (h []))

/-- A run of the loop takes a text, and any number of rounds that is larger than its length does. -/
theorem takes_of_read_fields (hnext : Local next) (ha : Advances next) (hfield : ∀ t s, Local (field t s)) {n : Nat}
    {s a : σ} {input rest : List β} (h : (fields next field n s).read input = some (a, rest)) :
    ∃ w, input = w ++ rest ∧ ∀ m, w.length < m → (fields next field m s).Takes w a := by
  induction n generalizing s input with
  | zero => cases h
  | succ n ih =>
    obtain ⟨t, input', ht, h⟩ := read_bind_eq_some.1 h
    obtain ⟨w, rfl, hw⟩ := hnext _ _ _ ht
    cases t with
    | none =>
      obtain ⟨rfl, rfl⟩ := Prod.mk.inj (Option.some.inj h)
      refine ⟨w, rfl, fun m hm => ?_⟩
      exact takes_fields_nil hw (Nat.lt_of_le_of_lt (Nat.zero_le _) hm) s
    | some t =>
      obtain ⟨s', input'', hs, hrest⟩ := read_bind_eq_some.1 h
      obtain ⟨w', rfl, hw'⟩ := hfield t s _ _ _ hs
      obtain ⟨w'', rfl, hw''⟩ := ih hrest
      refine ⟨w ++ (w' ++ w''), by simp, fun m hm => ?_⟩
      obtain ⟨m, rfl⟩ := Nat.exists_eq_succ_of_ne_zero (Nat.ne_of_gt (Nat.lt_of_le_of_lt (Nat.zero_le _) hm))
      have hpos := List.length_pos_iff.2 (ha.ne_nil hw)
      rw [List.length_append, List.length_append] at hm
      exact hw.bind (hw'.bind (hw'' m (by omega)))

theorem read_record (s : σ) (input : List β) :
    (record next field s).read input = (fields next field (input.length + 1) s).read input := rfl

theorem takes_record {w : List β} {s a : σ} (h : ∀ m, w.length < m → (fields next field m s).Takes w a) :
    (record next field s).Takes w a := by
  intro rest
  rw [read_record]
  refine h _ ?_ rest
  rw [List.length_append]
  omega

/-- A record is the fold of the effects of its fields. -/
theorem takes_record_of_items (ha : Advances next) {items : List (Item τ σ β)} (h : ∀ i ∈ items, i.Fits next field)
    {stop : List β} (hstop : next.Takes stop none) (s : σ) :
    (record next field s).Takes (items.flatMap Item.text ++ stop) (items.foldl (fun s i => i.effect s) s) := by
  refine takes_record fun m hm => takes_fields h hstop (Nat.lt_of_le_of_lt ?_ hm) s
  clear hm
  induction items with
  | nil => exact Nat.zero_le _
  | cons i items ih =>
    obtain ⟨hi, h⟩ := List.forall_mem_cons.1 h
    have ih := ih h
    have hpos := List.length_pos_iff.2 (ha.ne_nil hi.head)
    rw [List.length_append] at ih
    rw [List.flatMap_cons, List.append_assoc, Item.text, List.length_append, List.length_append, List.length_append,
      List.length_cons]
    omega

theorem local_record (hnext : Local next) (ha : Advances next) (hfield : ∀ t s, Local (field t s)) (s : σ) :
    Local (record next field s) := by
  intro input a rest h
  rw [read_record] at h
  obtain ⟨w, hw, ht⟩ := takes_of_read_fields hnext ha hfield h
  exact ⟨w, hw, takes_record ht⟩

end Fields

end Reader
