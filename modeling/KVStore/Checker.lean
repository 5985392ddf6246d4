import KVStore.Events
import KVStore.Lib.EarlyExit

/-!
# The checking passes of `consistency_test`

The three loops of `main` over `sortedBigTable`, which share their variables, and the exit code they end with
(`exitCode`).  On a table of shaped slots each loop is a loop with alarms (`firstPass_eq`, `secondPass_eq`,
`thirdPass_eq`):

* the first looks for a get that was answered with `kKeyNotFound`;
* the second compares every get on `key_2` with the value of the latest set on `key_2`;
* the third never raises an alarm after the second has not (`first_third_eq_none`).
-/

namespace KVStore

namespace ConsistencyTest

/-- What is printed before an exit; `last_index` may not have been assigned. -/
structure Report where
  lastIndex : Option Nat
  bugIndex : Nat
  text : String
  deriving DecidableEq, Repr

/-- How the passes end: `exit(code)`, or an access to `parameters` outside the vector. -/
inductive Halt where
  | exit (code : Nat) (report : Option Report)
  | outOfRange
  deriving DecidableEq, Repr

def Halt.code : Halt → Option Nat
  | .exit code _ => some code
  | .outOfRange => none

/-- The variables that the passes share. -/
structure Vars where
  lastIndex : Option Nat := none
  lastOperation : String := ""
  lastUpdatedValue : String := ""
  deriving DecidableEq, Repr

/-- `parameters[i]` -/
def param (e : Events) (i : Nat) : Except Halt String :=
  match e.parameters[i]? with
  | some p => .ok p
  | none => .error .outOfRange

/-- `operation == op && parameters[0] == key_2` -/
def onKey2 (e : Events) (op : String) : Except Halt Bool := do
  if e.operation = op then
    return (← param e 0) = key2
  else
    return false

/-- The exit of the first pass. -/
def noValue (e : Events) : Halt :=
  .exit 2 (some ⟨some e.sequenceNumber, e.sequenceNumber, " did not read in a value."⟩)

/-- The exit of the other two. -/
def inconsistent (v : Vars) (e : Events) : Halt :=
  .exit 1 (some ⟨v.lastIndex, e.sequenceNumber, " read an inconsistent value"⟩)

def firstPass (v : Vars) (e : Events) : Except Halt Vars := do
  if e.operation = get ∧ e.response.error = .kKeyNotFound then
    throw (noValue e)
  return v

def secondPass (v : Vars) (e : Events) : Except Halt Vars := do
  let mut v := v
  if ← onKey2 e set then
    v := { v with lastIndex := some e.sequenceNumber, lastUpdatedValue := ← param e 1 }
  -- someone fetched it and did not get what was set
  if (← onKey2 e get) && e.response.value ≠ v.lastUpdatedValue then
    throw (inconsistent v e)
  return v

def thirdPass (v : Vars) (e : Events) : Except Halt Vars := do
  let mut v := v
  -- gets of `value_1`, a set to `value_2`, then gets of `value_2`
  if (← onKey2 e get) && e.response.value = value1 then
    v := { v with lastIndex := some e.sequenceNumber }
  if ← onKey2 e set then
    if (← param e 1) = value2 then
      v := { v with lastIndex := some e.sequenceNumber, lastOperation := set }
  if (← onKey2 e get) && e.response.value = value2 then
    if v.lastOperation ≠ set then
      throw (inconsistent v e)
  return v

/-- The passes in a row; a run that gets through them ends with `exit(0)`. -/
def passes (table : List Events) : Except Halt Vars := do
  let v ← table.foldlM firstPass {}
  let v ← table.foldlM secondPass v
  table.foldlM thirdPass { v with lastUpdatedValue := value1 }

def halt (table : List Events) : Halt :=
  match passes table with
  | .error h => h
  | .ok _ => .exit 0 none

def exitCode (table : List Events) : Option Nat := (halt table).code

/-! ### The passes as loops with alarms -/

def firstAlarm (_ : Vars) (e : Events) : Option Halt := if e.NotFound then some (noValue e) else none

def secondNext (v : Vars) (e : Events) : Vars :=
  match e.setOn key2 with
  | some x => { v with lastIndex := some e.sequenceNumber, lastUpdatedValue := x }
  | none => v

def secondAlarm (v : Vars) (e : Events) : Option Halt :=
  if e.IsGet key2 ∧ e.response.value ≠ v.lastUpdatedValue then some (inconsistent v e) else none

def thirdNext (v : Vars) (e : Events) : Vars :=
  if e.IsGet key2 ∧ e.response.value = value1 then { v with lastIndex := some e.sequenceNumber }
  else if e.setOn key2 = some value2 then
    { v with lastIndex := some e.sequenceNumber, lastOperation := set }
  else v

def thirdAlarm (v : Vars) (e : Events) : Option Halt :=
  if e.IsGet key2 ∧ e.response.value = value2 ∧ v.lastOperation ≠ set then some (inconsistent v e) else none

theorem ok_bind {α β : Type} (x : α) (f : α → Except Halt β) : (Except.ok x >>= f) = f x := rfl

theorem onKey2_set {e : Events} (he : e.Shape) : onKey2 e set = .ok (e.setOn key2).isSome := by
  unfold onKey2
  cases he with
  | logged he =>
    cases he with
    | set k x h =>
      rw [if_pos h.1, h.setOn]
      by_cases hk : k = key2
      · simp [param, h.2, hk]
      · simp [param, h.2, hk]
    | get k h =>
      rw [h.setOn, if_neg (h.1 ▸ Events.get_ne_set)]
      rfl
  | unfilled h =>
    have hne : e.operation ≠ set := by rw [h]; decide
    rw [Events.setOn_of_ne hne, if_neg hne]
    rfl

theorem onKey2_get {e : Events} (he : e.Shape) : onKey2 e get = .ok (decide (e.IsGet key2)) := by
  unfold onKey2
  cases he with
  | logged he =>
    cases he with
    | set k x h =>
      have hne : e.operation ≠ get := h.1 ▸ Events.get_ne_set.symm
      rw [if_neg hne, decide_eq_false fun h' => hne h'.1]
      rfl
    | get k h =>
      rw [if_pos h.1]
      by_cases hk : k = key2
      · simp [param, Events.IsGet, h.1, h.2, hk]
      · simp [param, Events.IsGet, h.2, hk]
  | unfilled h =>
    have hne : e.operation ≠ get := by rw [h]; decide
    rw [if_neg hne, decide_eq_false fun h' => hne h'.1]
    rfl

theorem param_one {e : Events} {k x : String} (h : e.setOn k = some x) : param e 1 = .ok x := by
  have hp : e.parameters[1]? = some x := (Option.ite_none_right_eq_some.1 h).2
  rw [param, hp]

theorem firstPass_eq (v : Vars) (e : Events) : firstPass v e = EarlyExit.round (fun v _ => v) firstAlarm v e := by
  unfold firstPass EarlyExit.round firstAlarm
  by_cases h : e.NotFound
  · have h' : e.operation = get ∧ e.response.error = .kKeyNotFound := h
    simp only [if_pos h, if_pos h']
    rfl
  · have h' : ¬(e.operation = get ∧ e.response.error = .kKeyNotFound) := h
    simp only [if_neg h, if_neg h']
    rfl

theorem secondPass_eq {e : Events} (he : e.Shape) (v : Vars) :
    secondPass v e = EarlyExit.round secondNext secondAlarm v e := by
  simp only [secondPass, EarlyExit.round, secondNext, secondAlarm, onKey2_set he, onKey2_get he, ok_bind]
  cases hs : e.setOn key2 with
  | some x =>
    have hg : ¬e.IsGet key2 := fun h => by rw [h.setOn] at hs; cases hs
    simp [param_one hs, hg]
  | none =>
    by_cases hg : e.IsGet key2 ∧ e.response.value ≠ v.lastUpdatedValue
    · simp [hg]
      rfl
    · simp [hg]
      rfl

theorem thirdPass_eq {e : Events} (he : e.Shape) (v : Vars) :
    thirdPass v e = EarlyExit.round thirdNext thirdAlarm v e := by
  simp only [thirdPass, EarlyExit.round, thirdNext, thirdAlarm, onKey2_set he, onKey2_get he, ok_bind]
  cases hs : e.setOn key2 with
  | some x =>
    have hg : ¬e.IsGet key2 := fun h => by rw [h.setOn] at hs; cases hs
    by_cases hx : x = value2 <;> simp [param_one hs, hg, hx, ok_bind] <;> rfl
  | none =>
    by_cases hg : e.IsGet key2
    · by_cases hx : e.response.value = value1
      · have hne : value1 ≠ value2 := by decide
        simp [hg, hx, hne]
        rfl
      · by_cases hx2 : e.response.value = value2 <;> by_cases ho : v.lastOperation = set <;>
          simp [hg, hx, hx2, ho] <;> rfl
    · simp [hg]
      rfl

/-! ### The running state -/

theorem lastUpdatedValue_foldl (v : Vars) (table : List Events) :
    (table.foldl secondNext v).lastUpdatedValue = (latest key2 table).getD v.lastUpdatedValue := by
  refine Register.foldl_view secondNext Vars.lastUpdatedValue (fun e => e.setOn key2) (fun v e => ?_) v table
  unfold secondNext
  cases e.setOn key2 <;> rfl

/-- In the third pass it is `set` once `key_2` has been set to `value_2`. -/
theorem lastOperation_thirdNext (v : Vars) {table : List Events} {e : Events} (he : e ∈ table)
    (h2 : e.setOn key2 = some value2) : (table.foldl thirdNext v).lastOperation = set := by
  have h := Register.foldl_view thirdNext Vars.lastOperation
    (fun e => if e.setOn key2 = some value2 then some set else none) (fun v e => ?_) v table
  · rw [h]
    cases hl : Register.last (fun e => if Events.setOn e key2 = some value2 then some set else none) table with
    | none =>
      have := Register.last_eq_none_iff.1 hl e he
      rw [if_pos h2] at this
      cases this
    | some x =>
      obtain ⟨_, y, _, _, hy, _⟩ := Register.last_eq_some_iff.1 hl
      exact (Option.some.inj (Option.ite_none_right_eq_some.1 hy).2).symm
  · unfold thirdNext
    by_cases hs : e.setOn key2 = some value2
    · have hg : ¬e.IsGet key2 := fun h => by rw [h.setOn] at hs; cases hs
      simp [hs, hg]
    · by_cases hg : e.IsGet key2 ∧ e.response.value = value1 <;> simp [hs, hg]

/-! ### The verdict -/

/-- Some get on `key_2` did not return the value of the latest set on `key_2` before it. -/
def Stale (table : List Events) : Prop :=
  ∃ pre e post, table = pre ++ e :: post ∧ e.IsGet key2 ∧ e.response.value ≠ (latest key2 pre).getD ""

theorem first_first_eq_none_iff {table : List Events} :
    EarlyExit.first (fun v _ => v) firstAlarm {} table = none ↔ ∀ e ∈ table, ¬e.NotFound := by
  rw [EarlyExit.first_eq_none_iff]
  simp only [firstAlarm, ite_eq_right_iff, reduceCtorEq, imp_false]
  constructor
  · intro h e he
    obtain ⟨pre, post, rfl⟩ := List.append_of_mem he
    exact h pre e post rfl
  · intro h pre e post he
    exact h e (by rw [he]; simp)

theorem first_second_eq_none_iff {table : List Events} :
    EarlyExit.first secondNext secondAlarm {} table = none ↔ ¬Stale table := by
  rw [EarlyExit.first_eq_none_iff]
  simp only [secondAlarm, lastUpdatedValue_foldl, ite_eq_right_iff, reduceCtorEq, imp_false, Stale, not_exists]
  exact ⟨fun h pre e post ⟨he, hs⟩ => h pre e post he hs, fun h pre e post he hs => h pre e post ⟨he, hs⟩⟩

/-- A get that the second pass has accepted with `value_2` comes after a set to `value_2`. -/
theorem first_third_eq_none {table : List Events} (h : ¬Stale table) (v : Vars) :
    EarlyExit.first thirdNext thirdAlarm v table = none := by
  rw [EarlyExit.first_eq_none_iff]
  intro pre e post he
  rw [thirdAlarm, if_neg]
  intro h
  obtain ⟨hg, hv, ho⟩ := h
  have hl : (latest key2 pre).getD "" = value2 := by
    by_contra hne
    exact h ⟨pre, e, post, he, hg, fun heq => hne (by rw [← heq, hv])⟩
  cases hs : latest key2 pre with
  | none =>
    rw [hs] at hl
    exact absurd hl (by decide)
  | some x =>
    obtain ⟨a, e', b, rfl, hx, _⟩ := Register.last_eq_some_iff.1 hs
    rw [hs] at hl
    obtain rfl : x = value2 := hl
    exact ho (lastOperation_thirdNext v (by simp) hx)

/-- The first pass changes no variable. -/
theorem firstPass_foldlM {table : List Events} {v : Vars} :
    table.foldlM firstPass {} = .ok v ↔ (∀ e ∈ table, ¬e.NotFound) ∧ v = {} := by
  have hid : table.foldl (fun v (_ : Events) => v) ({} : Vars) = {} := List.foldl_fixed _
  rw [EarlyExit.foldlM_eq_ok_iff fun e _ v => firstPass_eq v e, first_first_eq_none_iff, hid, eq_comm (a := v)]

theorem halt_eq {table : List Events} (h : ∀ e ∈ table, e.Shape) :
    halt table = ((EarlyExit.first (fun v _ => v) firstAlarm {} table).or
      (EarlyExit.first secondNext secondAlarm {} table)).getD (.exit 0 none) := by
  have hid : table.foldl (fun v (_ : Events) => v) ({} : Vars) = {} := List.foldl_fixed _
  rw [halt, passes, EarlyExit.foldlM_eq fun e _ v => firstPass_eq v e]
  cases h1 : EarlyExit.first (fun v _ => v) firstAlarm {} table with
  | some e => rfl
  | none =>
    dsimp only
    rw [ok_bind, hid, EarlyExit.foldlM_eq fun e he v => secondPass_eq (h e he) v]
    cases h2 : EarlyExit.first secondNext secondAlarm {} table with
    | some e => rfl
    | none =>
      dsimp only
      rw [ok_bind, EarlyExit.foldlM_eq fun e he v => thirdPass_eq (h e he) v,
        first_third_eq_none (first_second_eq_none_iff.1 h2)]
      rfl

/-- The exit code of the passes: 2 if some get found nothing, otherwise 1 if some get on `key_2` is stale,
otherwise 0. -/
theorem exitCode_cases {table : List Events} (h : ∀ e ∈ table, e.Shape) :
    (exitCode table = some 2 ∧ ∃ e ∈ table, e.NotFound) ∨
    (exitCode table = some 1 ∧ (∀ e ∈ table, ¬e.NotFound) ∧ Stale table) ∨
    (exitCode table = some 0 ∧ (∀ e ∈ table, ¬e.NotFound) ∧ ¬Stale table) := by
  rw [exitCode, halt_eq h]
  cases h1 : EarlyExit.first (fun v _ => v) firstAlarm {} table with
  | some x =>
    obtain ⟨pre, e, post, rfl, _, he⟩ := EarlyExit.first_eq_some_iff.1 h1
    obtain ⟨hn, hx⟩ := Option.ite_none_right_eq_some.1 he
    refine Or.inl ⟨?_, e, by simp, hn⟩
    rw [← Option.some.inj hx]
    rfl
  | none =>
    have hn := first_first_eq_none_iff.1 h1
    cases h2 : EarlyExit.first secondNext secondAlarm {} table with
    | some x =>
      refine Or.inr (Or.inl ⟨?_, hn, ?_⟩)
      · obtain ⟨pre, e, post, rfl, _, he⟩ := EarlyExit.first_eq_some_iff.1 h2
        rw [← Option.some.inj (Option.ite_none_right_eq_some.1 he).2]
        rfl
      · by_contra hs
        rw [first_second_eq_none_iff.2 hs] at h2
        cases h2
    | none => exact Or.inr (Or.inr ⟨rfl, hn, first_second_eq_none_iff.1 h2⟩)

theorem exitCode_eq_two_iff {table : List Events} (h : ∀ e ∈ table, e.Shape) :
    exitCode table = some 2 ↔ ∃ e ∈ table, e.NotFound := by
  rcases exitCode_cases h with ⟨hc, hn⟩ | ⟨hc, hn, _⟩ | ⟨hc, hn, _⟩
  · exact ⟨fun _ => hn, fun _ => hc⟩
  all_goals
    rw [hc]
    refine ⟨fun h => ?_, fun ⟨e, he, h⟩ => absurd h (hn e he)⟩
    cases h

end ConsistencyTest

end KVStore
