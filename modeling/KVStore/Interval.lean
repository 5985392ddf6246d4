import KVStore.Verdict

/-!
# The interval that the second pass reports

Before `exit(1)` the second pass prints "Between `last_index` and `bug_index`".  `last_index` is written at the sets
on `key_2` and nowhere else, so after such a set the interval runs from the set that a get should have returned to
the first get that did not; before the first one it is printed uninitialised (`interval_brackets_iff`).

The table is arbitrary here: where a slot lacks a parameter that the pass reads, the pass ends with an access outside
the vector (`Events.Unreadable`).
-/

namespace KVStore

namespace ConsistencyTest

namespace Events

variable (e : Events)

/-- The pass takes the slot for a set on `key_2`. -/
def SetsKey2 : Prop := e.operation = ConsistencyTest.set ∧ e.parameters[0]? = some key2

/-- The pass takes the slot for a get on `key_2`. -/
def GetsKey2 : Prop := e.operation = ConsistencyTest.get ∧ e.parameters[0]? = some key2

/-- The slot lacks a parameter that the pass reads. -/
def Unreadable : Prop :=
  (e.operation = ConsistencyTest.set ∨ e.operation = ConsistencyTest.get) ∧ e.parameters[0]? = none ∨
    e.SetsKey2 ∧ e.parameters[1]? = none

instance : Decidable e.SetsKey2 := inferInstanceAs (Decidable (_ ∧ _))
instance : Decidable e.GetsKey2 := inferInstanceAs (Decidable (_ ∧ _))
instance : Decidable e.Unreadable := inferInstanceAs (Decidable (_ ∨ _))

variable {e}

theorem GetsKey2.operation_ne_set (h : e.GetsKey2) : e.operation ≠ ConsistencyTest.set := h.1 ▸ get_ne_set

theorem GetsKey2.not_unreadable (h : e.GetsKey2) : ¬e.Unreadable := by
  intro hu
  rcases hu with ⟨_, hp⟩ | ⟨hs, _⟩
  · rw [h.2] at hp
    cases hp
  · exact h.operation_ne_set hs.1

theorem setOn_key2_eq_none (h : ¬e.SetsKey2) : e.setOn key2 = none := if_neg h

theorem setOn_key2_isSome (h : e.SetsKey2) (hr : ¬e.Unreadable) : ∃ x, e.setOn key2 = some x := by
  cases hp : e.parameters[1]? with
  | none => exact absurd (Or.inr ⟨h, hp⟩) hr
  | some x => exact ⟨x, (if_pos h).trans hp⟩

theorem setsKey2_of_setOn {x : String} (h : e.setOn key2 = some x) : e.SetsKey2 :=
  (Option.ite_none_right_eq_some.1 h).1

end Events

/-! ### The second pass on any table -/

def secondHalt (v : Vars) (e : Events) : Option Halt :=
  if e.Unreadable then some .outOfRange
  else if e.GetsKey2 ∧ e.response.value ≠ v.lastUpdatedValue then some (inconsistent v e)
  else none

theorem onKey2_of_ne {e : Events} {op : String} (h : e.operation ≠ op) : onKey2 e op = .ok false := if_neg h

theorem onKey2_of_none {e : Events} {op : String} (h : e.operation = op) (h0 : e.parameters[0]? = none) :
    onKey2 e op = .error .outOfRange := by
  rw [onKey2, if_pos h, param, h0]
  rfl

theorem onKey2_of_some {e : Events} {op k : String} (h : e.operation = op) (h0 : e.parameters[0]? = some k) :
    onKey2 e op = .ok (k = key2) := by
  rw [onKey2, if_pos h, param, h0]
  rfl

/-- A set is recorded if it is on `key_2`. -/
private theorem secondPass_of_set {v : Vars} {e : Events} (hs : e.operation = set) :
    secondPass v e = EarlyExit.round secondNext secondHalt v e := by
  have hg : e.operation ≠ get := hs ▸ Events.get_ne_set.symm
  unfold secondPass EarlyExit.round secondHalt secondNext
  cases h0 : e.parameters[0]? with
  | none =>
    have hu : e.Unreadable := Or.inl ⟨Or.inl hs, h0⟩
    rw [onKey2_of_none hs h0, if_pos hu]
    rfl
  | some k =>
    rw [onKey2_of_some hs h0, onKey2_of_ne hg]
    by_cases hk : k = key2
    · subst hk
      cases h1 : e.parameters[1]? with
      | none =>
        have hu : e.Unreadable := Or.inr ⟨⟨hs, h0⟩, h1⟩
        rw [if_pos hu, param, h1]
        rfl
      | some x =>
        have hu : ¬e.Unreadable := by simp [Events.Unreadable, h0, h1]
        have hset : e.setOn key2 = some x := by simp [Events.setOn, hs, h0, h1]
        rw [if_neg hu, if_neg (fun h => hg h.1.1), param, h1, hset]
        rfl
    · have hu : ¬e.Unreadable := by simp [Events.Unreadable, Events.SetsKey2, h0, hk]
      have hset : e.setOn key2 = none := by simp [Events.setOn, h0, hk]
      rw [if_neg hu, if_neg (fun h => hg h.1.1), hset]
      simp [hk, ok_bind]
      rfl

/-- A get on `key_2` is compared with the latest set. -/
private theorem secondPass_of_get {v : Vars} {e : Events} (hg : e.operation = get) :
    secondPass v e = EarlyExit.round secondNext secondHalt v e := by
  have hs : e.operation ≠ set := hg ▸ Events.get_ne_set
  have hset : e.setOn key2 = none := Events.setOn_of_ne hs key2
  unfold secondPass EarlyExit.round secondHalt secondNext
  rw [onKey2_of_ne hs, hset]
  cases h0 : e.parameters[0]? with
  | none =>
    have hu : e.Unreadable := Or.inl ⟨Or.inr hg, h0⟩
    rw [onKey2_of_none hg h0, if_pos hu]
    rfl
  | some k =>
    have hu : ¬e.Unreadable := by simp [Events.Unreadable, Events.SetsKey2, h0, hs]
    have hk : e.GetsKey2 ↔ k = key2 := by simp [Events.GetsKey2, hg, h0]
    rw [onKey2_of_some hg h0, if_neg hu]
    by_cases hv : k = key2 ∧ e.response.value ≠ v.lastUpdatedValue
    · rw [if_pos (And.imp_left hk.2 hv)]
      simp [hv, ok_bind]
      rfl
    · rw [if_neg fun h => hv (And.imp_left hk.1 h)]
      simp [hv, ok_bind]
      rfl

theorem secondPass_eq_round (v : Vars) (e : Events) :
    secondPass v e = EarlyExit.round secondNext secondHalt v e := by
  by_cases hs : e.operation = set
  · exact secondPass_of_set hs
  · by_cases hg : e.operation = get
    · exact secondPass_of_get hg
    · -- the pass skips other slots
      have hu : ¬e.Unreadable := by simp [Events.Unreadable, Events.SetsKey2, hs, hg]
      unfold secondPass EarlyExit.round secondHalt secondNext
      rw [onKey2_of_ne hs, onKey2_of_ne hg, Events.setOn_of_ne hs, if_neg hu, if_neg (fun h => hg h.1.1)]
      rfl

theorem secondPass_foldlM_error {table : List Events} {v : Vars} {h : Halt} :
    table.foldlM secondPass v = .error h ↔ EarlyExit.first secondNext secondHalt v table = some h :=
  EarlyExit.foldlM_eq_error_iff fun e _ v => secondPass_eq_round v e

theorem secondHalt_eq_none_iff {v : Vars} {e : Events} :
    secondHalt v e = none ↔ ¬e.Unreadable ∧ (e.GetsKey2 → e.response.value = v.lastUpdatedValue) := by
  unfold secondHalt
  by_cases hu : e.Unreadable
  · simp [hu]
  · by_cases hg : e.GetsKey2 <;> simp [hu, hg]

/-- The pass exits with 1 at a get on `key_2` that did not return the value of the latest set. -/
theorem secondHalt_eq_exit {v : Vars} {e : Events} {report : Option Report}
    (h : secondHalt v e = some (.exit 1 report)) :
    e.GetsKey2 ∧ e.response.value ≠ v.lastUpdatedValue ∧
      report = some ⟨v.lastIndex, e.sequenceNumber, " read an inconsistent value"⟩ := by
  unfold secondHalt at h
  split at h
  · cases h
  · obtain ⟨hg, h⟩ := Option.ite_none_right_eq_some.1 h
    exact ⟨hg.1, hg.2, (Halt.exit.inj (Option.some.inj h)).2.symm⟩

/-- After a part of the table the pass holds the number and the value of the latest set on `key_2`. -/
theorem foldl_secondNext (v : Vars) (table : List Events) :
    ((table.foldl secondNext v).lastIndex, (table.foldl secondNext v).lastUpdatedValue) =
      (Register.last (fun e => (e.setOn key2).map fun x => (some e.sequenceNumber, x)) table).getD
        (v.lastIndex, v.lastUpdatedValue) := by
  refine Register.foldl_view secondNext (fun v => (v.lastIndex, v.lastUpdatedValue))
    (fun e => (e.setOn key2).map fun x => (some e.sequenceNumber, x)) (fun v e => ?_) v table
  unfold secondNext
  cases e.setOn key2 <;> rfl

theorem foldl_secondNext_of_no_set {table : List Events} (h : ∀ e ∈ table, ¬e.SetsKey2) (v : Vars) :
    table.foldl secondNext v = v := by
  induction table with
  | nil => rfl
  | cons e table ih =>
    obtain ⟨he, h⟩ := List.forall_mem_cons.1 h
    rw [List.foldl_cons, secondNext, Events.setOn_key2_eq_none he]
    exact ih h

/-! ### The interval -/

/-- Each slot carries the sequence number of its index. -/
def CarriesIndex (table : List Events) : Prop := ∀ (i : Nat) e, table[i]? = some e → e.sequenceNumber = i

/-- The report `r` runs from the set of `x` on `key_2` at the index `l` to the first get on `key_2` that misses it. -/
structure Brackets (table : List Events) (r : Report) (l : Nat) (x : String) : Prop where
  printed : r.lastIndex = some l
  before : l < r.bugIndex
  set : ∃ e, table[l]? = some e ∧ e.SetsKey2 ∧ e.parameters[1]? = some x
  between : ∀ i e, l < i → i < r.bugIndex → table[i]? = some e → ¬e.SetsKey2
  bug : ∃ e, table[r.bugIndex]? = some e ∧ e.GetsKey2 ∧ e.response.value ≠ x
  first : ∀ i e, l < i → i < r.bugIndex → table[i]? = some e → e.GetsKey2 → e.response.value = x
  /-- the gets before the set returned what was set before them -/
  earlier : ∀ i e, i < l → table[i]? = some e → e.GetsKey2 →
    e.response.value = (latest key2 (table.take i)).getD ""

/-- Whenever the second pass exits with 1, its report brackets the error. -/
def IntervalBrackets (table : List Events) : Prop :=
  ∀ v report, table.foldlM firstPass {} = .ok v → table.foldlM secondPass v = .error (.exit 1 report) →
    ∃ r l x, report = some r ∧ Brackets table r l x

/-- What holds of every slot before the one at which the pass exits. -/
private theorem slot_accepted {pre : List Events} (hpre : EarlyExit.first secondNext secondHalt {} pre = none)
    {i : Nat} {e : Events} (he : pre[i]? = some e) :
    ¬e.Unreadable ∧ (e.GetsKey2 → e.response.value = (latest key2 (pre.take i)).getD "") := by
  obtain ⟨hi, rfl⟩ := List.getElem?_eq_some_iff.1 he
  have h := EarlyExit.first_eq_none_iff.1 hpre (pre.take i) pre[i] (pre.drop (i + 1)) (by simp)
  rw [secondHalt_eq_none_iff, lastUpdatedValue_foldl] at h
  exact h

/-- After a set on `key_2` the pass holds its number and its value until the next one. -/
private theorem held_after_set {a c : List Events} {s : Events} {x : String} (hx : s.setOn key2 = some x)
    (hc : ∀ e ∈ c, e.setOn key2 = none) :
    ((a ++ s :: c).foldl secondNext {}).lastIndex = some s.sequenceNumber ∧
      ((a ++ s :: c).foldl secondNext {}).lastUpdatedValue = x := by
  have hl : Register.last (fun e => (e.setOn key2).map fun x => (some e.sequenceNumber, x)) (a ++ s :: c) =
      some (some s.sequenceNumber, x) :=
    Register.last_eq_some_iff.2 ⟨a, s, c, rfl, by rw [hx]; rfl, fun e he => by rw [hc e he]; rfl⟩
  have h := foldl_secondNext {} (a ++ s :: c)
  rw [hl] at h
  exact Prod.mk.inj h

/-- The latest set on `key_2` in a part of the table. -/
private theorem exists_latest_set {pre : List Events} (hread : ∀ s ∈ pre, ¬s.Unreadable)
    (hset : ∃ s ∈ pre, s.SetsKey2) :
    ∃ a s c x, pre = a ++ s :: c ∧ s.setOn key2 = some x ∧ ∀ y ∈ c, y.setOn key2 = none := by
  obtain ⟨s, hs, hk⟩ := hset
  obtain ⟨y, hy⟩ := Events.setOn_key2_isSome hk (hread s hs)
  cases hl : latest key2 pre with
  | none =>
    have hn := Register.last_eq_none_iff.1 hl s hs
    rw [hy] at hn
    cases hn
  | some x =>
    obtain ⟨a, s, c, hpre, hx, hc⟩ := Register.last_eq_some_iff.1 hl
    exact ⟨a, s, c, x, hpre, hx, hc⟩

/-- A slot between a set and the end of the accepted part. -/
private theorem slot_after_set {a b rest : List Events} {s e : Events} {i : Nat} (ha : a.length < i)
    (hi : i < (a ++ s :: b).length) (he : (a ++ s :: b ++ rest)[i]? = some e) :
    ∃ j, i = a.length + j + 1 ∧ b[j]? = some e := by
  obtain ⟨j, rfl⟩ := Nat.exists_eq_add_of_lt ha
  rw [List.getElem?_append_left hi, Nat.add_assoc, List.getElem?_append_right (Nat.le_add_right _ _),
    Nat.add_sub_cancel_left, List.getElem?_cons_succ] at he
  exact ⟨j, rfl, he⟩

private theorem brackets_of_exit {pre post : List Events} {e : Events} {report : Option Report}
    (hseq : CarriesIndex (pre ++ e :: post))
    (hpre : EarlyExit.first secondNext secondHalt {} pre = none)
    (he : secondHalt (pre.foldl secondNext {}) e = some (.exit 1 report)) (hset : ∃ s ∈ pre, s.SetsKey2) :
    ∃ r l x, report = some r ∧ Brackets (pre ++ e :: post) r l x := by
  obtain ⟨hg, hv, rfl⟩ := secondHalt_eq_exit he
  have hread : ∀ s ∈ pre, ¬s.Unreadable := by
    intro s hs
    obtain ⟨i, hi⟩ := List.mem_iff_getElem?.1 hs
    exact (slot_accepted hpre hi).1
  obtain ⟨a, s, c, x, rfl, hsx, hc⟩ := exists_latest_set hread hset
  obtain ⟨hli, hlv⟩ := held_after_set (a := a) hsx hc
  rw [hlv] at hv
  have hs : s.sequenceNumber = a.length := hseq a.length s (by simp)
  have hb : e.sequenceNumber = (a ++ s :: c).length := hseq _ e (by simp)
  refine ⟨_, a.length, x, rfl, ?_⟩
  constructor
  case printed => rw [hli, hs]
  case before => rw [hb]; simp
  case set => exact ⟨s, by simp, Events.setsKey2_of_setOn hsx, (Option.ite_none_right_eq_some.1 hsx).2⟩
  case between =>
    intro i e' hai hib hi hk
    rw [hb] at hib
    obtain ⟨j, _, hj⟩ := slot_after_set hai hib hi
    have hj := List.mem_of_getElem? hj
    obtain ⟨y, hy⟩ := Events.setOn_key2_isSome hk (hread e' (by simp [hj]))
    rw [hc e' hj] at hy
    cases hy
  case bug => exact ⟨e, by rw [hb]; simp, hg, hv⟩
  case first =>
    intro i e' hai hib hi hg'
    rw [hb] at hib
    have hval := (slot_accepted hpre ((List.getElem?_append_left hib).symm.trans hi)).2 hg'
    obtain ⟨j, rfl, _⟩ := slot_after_set hai hib hi
    -- up to this slot the latest set is still `s`
    have hlat : latest key2 (a ++ s :: c.take j) = some x :=
      Register.last_eq_some_iff.2 ⟨a, s, c.take j, rfl, hsx, fun y hy => hc y (List.mem_of_mem_take hy)⟩
    rw [Nat.add_assoc, List.take_length_add_append, List.take_succ_cons, hlat] at hval
    exact hval
  case earlier =>
    intro i e' hil hi hg'
    have hib : i < (a ++ s :: c).length := by
      rw [List.length_append]
      omega
    have hval := (slot_accepted hpre ((List.getElem?_append_left hib).symm.trans hi)).2 hg'
    rw [List.take_append_of_le_length (Nat.le_of_lt hib)]
    exact hval

theorem secondHalt_of_readable {v : Vars} {e : Events} {h : Halt} (hr : ¬e.Unreadable)
    (he : secondHalt v e = some h) : h = inconsistent v e := by
  rw [secondHalt, if_neg hr] at he
  exact (Option.some.inj (Option.ite_none_right_eq_some.1 he).2).symm

/-- A get that finds a value before the first set on `key_2`: the pass exits with an uninitialised `last_index`. -/
private theorem exit_before_set {pre : List Events} {e : Events} (post : List Events) (hg : e.GetsKey2)
    (hv : e.response.value ≠ "") (hset : ∀ s ∈ pre, ¬s.SetsKey2) (hread : ∀ s ∈ pre, ¬s.Unreadable) :
    ∃ e', EarlyExit.first secondNext secondHalt {} (pre ++ e :: post) = some (inconsistent {} e') := by
  rw [EarlyExit.first_append, foldl_secondNext_of_no_set hset, EarlyExit.first]
  cases hf : EarlyExit.first secondNext secondHalt {} pre with
  | none => exact ⟨e, by rw [secondHalt, if_neg hg.not_unreadable, if_pos ⟨hg, hv⟩]; rfl⟩
  | some h =>
    obtain ⟨p, e', q, rfl, _, he'⟩ := EarlyExit.first_eq_some_iff.1 hf
    rw [foldl_secondNext_of_no_set fun s hs => hset s (by simp [hs])] at he'
    exact ⟨e', by rw [secondHalt_of_readable (hread e' (by simp)) he']; rfl⟩

/-- The reports of the second pass bracket the error iff some get found nothing and `main` does not get there, or
every get on `key_2` that found a value comes after a set on `key_2`, or after a slot at which the pass reads outside
the parameters. -/
theorem interval_brackets_iff (table : List Events) (hseq : CarriesIndex table) :
    IntervalBrackets table ↔ (∃ e ∈ table, e.NotFound) ∨
      ∀ pre e post, table = pre ++ e :: post → e.GetsKey2 → e.response.value ≠ "" →
        ∃ s ∈ pre, s.SetsKey2 ∨ s.Unreadable := by
  constructor
  · intro h
    by_contra hcon
    push Not at hcon
    obtain ⟨hn, pre, e, post, rfl, hg, hv, hpre⟩ := hcon
    obtain ⟨e', he'⟩ := exit_before_set post hg hv (fun s hs => (hpre s hs).1) fun s hs => (hpre s hs).2
    obtain ⟨r, l, x, hr, hb⟩ := h {} _ (firstPass_foldlM.2 ⟨hn, rfl⟩) (secondPass_foldlM_error.2 he')
    obtain rfl := Option.some.inj hr
    cases hb.printed
  · intro h v report hfirst hsecond
    obtain ⟨hn, rfl⟩ := firstPass_foldlM.1 hfirst
    have hcond := h.resolve_left fun ⟨e, he, hnf⟩ => hn e he hnf
    obtain ⟨pre, e, post, rfl, hpre, he⟩ := EarlyExit.first_eq_some_iff.1 (secondPass_foldlM_error.1 hsecond)
    refine brackets_of_exit hseq hpre he ?_
    by_contra hset
    push Not at hset
    -- without a set the pass compares with the empty string
    obtain ⟨hg, hv, _⟩ := secondHalt_eq_exit he
    rw [foldl_secondNext_of_no_set hset] at hv
    obtain ⟨s, hs, hor⟩ := hcond pre e post rfl hg hv
    rcases hor with hk | hu
    · exact hset s hs hk
    · obtain ⟨i, hi⟩ := List.mem_iff_getElem?.1 hs
      exact (slot_accepted hpre hi).1 hu

/-- A set, and a get that misses it. -/
theorem interval_of_missed_set :
    IntervalBrackets [setEvent 0 key2 value1, foundEvent 1 key2 value2] ↔
      (∃ e ∈ [setEvent 0 key2 value1, foundEvent 1 key2 value2], e.NotFound) ∨
        ∀ pre e post, [setEvent 0 key2 value1, foundEvent 1 key2 value2] = pre ++ e :: post → e.GetsKey2 →
          e.response.value ≠ "" → ∃ s ∈ pre, s.SetsKey2 ∨ s.Unreadable :=
  interval_brackets_iff _ fun i e he => by
    match i with
    | 0 => exact Option.some.inj he ▸ rfl
    | 1 => exact Option.some.inj he ▸ rfl

/-- A get that finds a value of an earlier run: the report starts at an index that was never assigned. -/
theorem interval_without_set :
    CarriesIndex [foundEvent 0 key2 value1] ∧ ¬IntervalBrackets [foundEvent 0 key2 value1] := by
  refine ⟨fun i e he => ?_, fun h => ?_⟩
  · match i with
    | 0 => exact Option.some.inj he ▸ rfl
  · obtain ⟨r, l, x, hr, hb⟩ := h {} (some ⟨none, 0, " read an inconsistent value"⟩) rfl rfl
    obtain rfl := Option.some.inj hr
    cases hb.printed

end ConsistencyTest

end KVStore
