import KVStore.AtomicRuns
import KVStore.Checker

/-!
# False alarms of the consistency test

The checker judges the gets by the order of the numbers, the answers come from the order of the execution.  A whole
run on the correct server therefore ends without `exit(1)` iff some get was executed too early for any answer, or
every get on `key_2` sees the same latest set in both orders (`no_false_alarm_iff`).
-/

namespace KVStore

namespace ConsistencyTest

/-! ### What a transaction sees -/

/-- The value that a transaction sets `k` to. -/
def Transaction.setOn (k : String) (tx : Transaction) : Option String :=
  if tx.request = set ∧ tx.key = k then some tx.value else none

/-- The value that `k` was last set to by some transactions. -/
def lastSet (k : String) (txs : List Transaction) : Option String := Register.last (Transaction.setOn k) txs

theorem Transaction.setOn_event (tx : Transaction) (id n : Nat) (res : Result) (k : String) :
    (tx.event id n res).setOn k = tx.setOn k := by
  unfold Events.setOn Transaction.setOn
  by_cases h : tx.request = set <;> simp [event, h]

theorem value_foldl_call (k : String) (m : Store) (txs : List Transaction) :
    ((txs.map Transaction.call).foldl effect m).value k = (lastSet k txs).getD (m.value k) := by
  rw [List.foldl_map]
  refine Register.foldl_view (fun m tx => effect m (Transaction.call tx)) (fun m => m.value k)
    (Transaction.setOn k) (fun m tx => ?_) m txs
  unfold Transaction.call Transaction.setOn
  by_cases hr : tx.request = set
  · by_cases hk : tx.key = k
    · simp [hr, hk, effect]
    · simp [hr, hk, effect, Ne.symm hk]
  · simp [hr, effect]

theorem value_storeAfter (k : String) (txs : List Transaction) :
    (storeAfter txs).value k = (lastSet k txs).getD "" :=
  value_foldl_call k Store.empty txs

/-- The values of the test are not empty. -/
theorem lastSet_ne_empty {k v : String} {txs : List Transaction} (h : lastSet k txs = some v) : v ≠ "" := by
  obtain ⟨_, tx, _, _, hv, _⟩ := Register.last_eq_some_iff.1 h
  obtain rfl := Option.some.inj (Option.ite_none_right_eq_some.1 hv).2
  rcases tx.value_mem with h | h <;> rw [h] <;> decide

theorem lastSet_getD_inj {k : String} {txs txs' : List Transaction} :
    (lastSet k txs).getD "" = (lastSet k txs').getD "" ↔ lastSet k txs = lastSet k txs' := by
  refine ⟨fun h => ?_, fun h => by rw [h]⟩
  cases h1 : lastSet k txs with
  | none =>
    cases h2 : lastSet k txs' with
    | none => rfl
    | some v => exact absurd (by rw [h1, h2] at h; exact h.symm) (lastSet_ne_empty h2)
  | some v =>
    cases h2 : lastSet k txs' with
    | none => exact absurd (by rw [h1, h2] at h; exact h) (lastSet_ne_empty h1)
    | some v' =>
      rw [h1, h2] at h
      exact congrArg some h

theorem Transaction.call_of_get {tx : Transaction} (hg : tx.request = get) : tx.call = .kvget tx.key :=
  if_neg (hg ▸ Events.get_ne_set)

theorem value_answer {tx : Transaction} (hg : tx.request = get) (txs : List Transaction) :
    (answer (storeAfter txs) tx.call).value = (lastSet tx.key txs).getD "" := by
  rw [tx.call_of_get hg]
  exact value_storeAfter tx.key txs

theorem error_answer {tx : Transaction} (hg : tx.request = get) (txs : List Transaction) :
    (answer (storeAfter txs) tx.call).error = .kKeyNotFound ↔ lastSet tx.key txs = none := by
  rw [tx.call_of_get hg]
  simp only [answer, value_storeAfter]
  cases h : lastSet tx.key txs with
  | none => simp
  | some v => simp [lastSet_ne_empty h]

/-! ### The verdict on a run -/

/-- Some get is executed before every set on its key. -/
def EarlyGet (executed : List (Nat × Transaction)) : Prop :=
  ∃ p n tx, executed[p]? = some (n, tx) ∧ tx.request = get ∧
    lastSet tx.key ((executed.take p).map Prod.snd) = none

/-- When a get on `key_2` is executed, the last set on `key_2` so far has the value of the last one that is
numbered before the get. -/
def SameView (numbering : List Transaction) (executed : List (Nat × Transaction)) : Prop :=
  ∀ p n tx, executed[p]? = some (n, tx) → tx.request = get → tx.key = key2 →
    lastSet key2 ((executed.take p).map Prod.snd) = lastSet key2 (numbering.take n)

namespace World

variable {T R : Nat} {rand : Fin T → Fin R → Nat × Nat × Nat}

/-- The slots of `sortedBigTable` after a run: the slot `n` has the event of the transaction that was executed with
the number `n`. -/
structure Slots (h : List Moment) (table : List Events) : Prop where
  length : table.length = (numbering h).length
  event : ∀ (n : Nat) e, table[n]? = some e → ∃ id tx res, e = Transaction.event tx id n res ∧ Answered h n tx res
  slot : ∀ (p n : Nat) tx, (executed h)[p]? = some (n, tx) → ∃ id,
    table[n]? = some (tx.event id n (answer (storeAfter (((executed h).take p).map Prod.snd)) tx.call))
  numbered : ∀ (n : Nat) e, table[n]? = some e → ∀ k, ∃ tx, (numbering h)[n]? = some tx ∧ e.setOn k = tx.setOn k

theorem Served.slots {w : World T Server} {h : List Moment} (hi : Served w h) (hnum : Numbering w)
    (hl : LogInv rand w) (hf : w.Finished) :
    ∃ table, sortedBigTable T R w.bigTable = some table ∧ (∀ e ∈ table, e.Shape) ∧ Slots h table := by
  obtain ⟨table, ht, hp, hm⟩ := hnum.sorted hl hf
  have hlog : ∀ e ∈ table, ∃ i, e ∈ (w.threads i).log := fun e he => (hl.mem_flatten hf).1 (hp.mem_iff.1 he)
  have hlen : table.length = (numbering h).length := by
    rw [hi.count, hnum.sequenceNo_eq hl hf, ← List.length_map Events.sequenceNumber, hm, List.length_range]
  have hevent : ∀ (n : Nat) e, table[n]? = some e →
      ∃ id tx res, e = Transaction.event tx id n res ∧ Answered h n tx res := by
    intro n e he
    obtain ⟨i, hi'⟩ := hlog e (List.mem_of_getElem? he)
    obtain ⟨tx, res, h1, h2⟩ := (hi.threads i).logged e hi'
    rw [Scatter.key_of_getElem? hm he] at h1 h2
    exact ⟨i, tx, res, h1, h2⟩
  refine ⟨table, ht, fun e he => .logged (hl.logged (hlog e he).choose_spec).1, hlen, hevent, ?_, ?_⟩
  · intro p n tx hpn
    have hk := hi.known (n, tx) (List.mem_of_getElem? hpn)
    have hlt : n < table.length := hlen ▸ (List.getElem?_eq_some_iff.1 hk).1
    obtain ⟨id, tx', res, he, p', hp', hr⟩ := hevent n _ (List.getElem?_eq_getElem hlt)
    -- the number was executed only once
    have hpp : p' = p := by
      refine (List.getElem?_inj ?_ hi.once).1 ?_
      · rw [List.length_map]
        exact (List.getElem?_eq_some_iff.1 hp').1
      · rw [List.getElem?_map, List.getElem?_map, hp', hpn]
        rfl
    subst hpp
    rw [hp'] at hpn
    obtain ⟨_, rfl⟩ := Prod.mk.inj (Option.some.inj hpn)
    exact ⟨id, by rw [List.getElem?_eq_getElem hlt, he, hr]⟩
  · intro n e he k
    obtain ⟨id, tx, res, rfl, p, hp, _⟩ := hevent n e he
    exact ⟨tx, hi.known (n, tx) (List.mem_of_getElem? hp), tx.setOn_event id n res k⟩

theorem Slots.latest_take {h : List Moment} {table : List Events} (hs : Slots h table) (k : String) (n : Nat) :
    latest k (table.take n) = lastSet k ((numbering h).take n) := by
  apply Register.last_eq_of_map_eq
  rw [List.map_take, List.map_take]
  apply congrArg (List.take n)
  apply List.ext_getElem?
  intro m
  rw [List.getElem?_map, List.getElem?_map]
  cases he : table[m]? with
  | none =>
    rw [List.getElem?_eq_none_iff, hs.length, ← List.getElem?_eq_none_iff] at he
    rw [he]
    rfl
  | some e =>
    obtain ⟨tx, htx, heq⟩ := hs.numbered m e he k
    rw [htx, Option.map_some, Option.map_some, heq]

theorem call_get {id n : Nat} {tx : Transaction} {res : Result} {k : String}
    (h : (tx.event id n res).IsGet k) : tx.request = get ∧ tx.key = k := by
  have hr : tx.request = get := h.1
  have hp : (tx.event id n res).parameters = [tx.key] := if_neg (hr ▸ Events.get_ne_set)
  exact ⟨hr, (List.cons.inj (hp.symm.trans h.2)).1⟩

theorem isGet_event {tx : Transaction} (hg : tx.request = get) (id n : Nat) (res : Result) :
    (tx.event id n res).IsGet tx.key :=
  ⟨hg, if_neg (hg ▸ Events.get_ne_set)⟩

/-- Some get of the table found nothing iff some get was executed before every set on its key. -/
theorem Slots.exists_notFound_iff {h : List Moment} {table : List Events} (hs : Slots h table) :
    (∃ e ∈ table, e.NotFound) ↔ EarlyGet (executed h) := by
  constructor
  · intro h
    obtain ⟨e, he, hn⟩ := h
    obtain ⟨n, hn'⟩ := List.mem_iff_getElem?.1 he
    obtain ⟨id, tx, res, rfl, p, hp, rfl⟩ := hs.event n e hn'
    have hg : tx.request = get := hn.1
    exact ⟨p, n, tx, hp, hg, (error_answer hg _).1 hn.2⟩
  · intro h
    obtain ⟨p, n, tx, hp, hg, hnone⟩ := h
    obtain ⟨id, he⟩ := hs.slot p n tx hp
    exact ⟨_, List.mem_of_getElem? he, hg, (error_answer hg _).2 hnone⟩

/-- No get on `key_2` is stale iff both orders show it the same latest set. -/
theorem Slots.not_stale_iff {h : List Moment} {table : List Events} (hs : Slots h table) :
    ¬Stale table ↔ SameView (numbering h) (executed h) := by
  constructor
  · intro hstale p n tx hp hg hk
    obtain ⟨id, he⟩ := hs.slot p n tx hp
    by_contra hne
    -- the slot `n` is a get that did not return the set numbered last before it
    obtain ⟨hlt, hget⟩ := List.getElem?_eq_some_iff.1 he
    refine hstale ⟨table.take n, table[n], table.drop (n + 1), ?_, ?_, ?_⟩
    · rw [List.getElem_cons_drop, List.take_append_drop]
    · rw [hget, ← hk]
      exact isGet_event hg id n _
    · intro heq
      have hval := value_answer hg (((executed h).take p).map Prod.snd)
      rw [hget, hs.latest_take] at heq
      rw [hk] at hval
      exact hne (lastSet_getD_inj.1 (hval.symm.trans heq))
  · intro hview h
    obtain ⟨pre, e, post, rfl, hg, hv⟩ := h
    obtain ⟨id, tx, res, rfl, p, hp, rfl⟩ := hs.event pre.length e (by simp)
    obtain ⟨hreq, hkey⟩ := call_get hg
    have hpre := hs.latest_take key2 pre.length
    rw [List.take_left' rfl] at hpre
    apply hv
    rw [hpre, ← hview p pre.length tx hp hreq hkey, ← hkey]
    exact value_answer hreq _

/-- The passes do not end a whole run on the correct server with `exit(1)` iff some get was executed before every
set on its key, or each get on `key_2` sees the same latest set in the order of the numbers and in that of the
server. -/
theorem no_false_alarm_iff (rand : Fin T → Fin R → Nat × Nat × Nat) (sched : List (Fin T)) (w : World T Server)
    (h : Machine.exec atomicStep (start rand {}) sched = some w) (hf : w.Finished) :
    ∃ table, sortedBigTable T R w.bigTable = some table ∧
      (exitCode table ≠ some 1 ↔
        EarlyGet (executed (history rand sched)) ∨
          SameView (numbering (history rand sched)) (executed (history rand sched))) := by
  obtain ⟨_, hnum, hl, hi⟩ := served_of_exec h
  obtain ⟨table, ht, hshape, hs⟩ := hi.slots hnum hl hf
  refine ⟨table, ht, ?_⟩
  rw [← hs.exists_notFound_iff, ← hs.not_stale_iff]
  rcases exitCode_cases hshape with ⟨h2, hn⟩ | ⟨h1, hn, hst⟩ | ⟨h0, hn, hst⟩
  · rw [h2]
    exact ⟨fun _ => Or.inl hn, fun _ => by decide⟩
  · rw [h1]
    refine ⟨fun hne => absurd rfl hne, ?_⟩
    rintro (⟨e, he, hne⟩ | hne)
    · exact absurd hne (hn e he)
    · exact absurd hst hne
  · rw [h0]
    exact ⟨fun _ => Or.inr hst, fun _ => by decide⟩

/-- Two threads in turn, each step of a request apart from the others, whose sets are executed as they are numbered. -/
def inTurn (a b : Fin 2) : List (Fin 2) := [a, b, a, b, b, a, b, a, b, a, a, b, b, a]

theorem inTurn_no_alarm :
    ∃ w, Machine.exec atomicStep (start (setThenGet 2) {}) (inTurn 0 1) = some w ∧
      ∃ table, sortedBigTable 2 2 w.bigTable = some table ∧
        (exitCode table ≠ some 1 ↔
          EarlyGet (executed (history (setThenGet 2) (inTurn 0 1))) ∨
            SameView (numbering (history (setThenGet 2) (inTurn 0 1)))
              (executed (history (setThenGet 2) (inTurn 0 1)))) := by
  have h : (Machine.exec atomicStep (start (setThenGet 2) {}) (inTurn 0 1)).any (fun w => decide w.Finished) =
      true := by decide
  obtain ⟨w, hw, hf⟩ := (Option.any_eq_true _ _).1 h
  exact ⟨w, hw, no_false_alarm_iff (setThenGet 2) _ w hw (of_decide_eq_true hf)⟩

/-- Two threads whose sets are numbered `0`, `1` and executed the other way round. -/
theorem crossed_sets_false_alarm :
    ∃ w, Machine.exec atomicStep (start (setThenGet 2) {}) [0, 1, 1, 0, 0, 1, 0, 0, 0, 0, 1, 1, 1, 1] = some w ∧
      w.Finished ∧ (sortedBigTable 2 2 w.bigTable).map exitCode = some (some 1) := by
  have h : (Machine.exec atomicStep (start (setThenGet 2) {}) [0, 1, 1, 0, 0, 1, 0, 0, 0, 0, 1, 1, 1, 1]).any
      (fun w => decide (w.Finished ∧ (sortedBigTable 2 2 w.bigTable).map exitCode = some (some 1))) = true := by
    decide
  obtain ⟨w, hw, h⟩ := (Option.any_eq_true _ _).1 h
  exact ⟨w, hw, of_decide_eq_true h⟩

end World

end ConsistencyTest

end KVStore
