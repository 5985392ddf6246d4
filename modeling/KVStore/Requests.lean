import KVStore.Events
import KVStore.Lib.Scatter
import Mathlib.Data.List.OfFn
import Mathlib.Data.List.Pairwise

/-!
# The threads of `consistency_test`

`T` threads run `requests`: each draws its transactions, performs them one after another and stores its log in
`bigTable`; then `main` scatters the logs over `sortedBigTable`.  The steps of the threads interleave.  The lock
around a transaction is commented out in the source, so `sequence_no++` is two steps: a read of the counter and a
write-back.  The server is a parameter: `serve` executes a request in one step.

What holds of every run, whatever the order of the steps, is collected in `LogInv`: each thread works through its
transactions in order, and `bigTable` holds the logs of the threads that are done.
-/

namespace KVStore

namespace ConsistencyTest

/-- One entry of `random_requests`, `random_keys` and `random_values`. -/
structure Transaction where
  request : String
  key : String
  value : String
  request_mem : request = set ∨ request = get
  key_mem : key = key1 ∨ key = key2
  value_mem : value = value1 ∨ value = value2
  deriving DecidableEq

namespace Transaction

/-- The transaction made of three results of `rand()`. -/
def draw (rand : Nat × Nat × Nat) : Transaction where
  request := if rand.1 % 2 = 0 then set else get
  key := if rand.2.1 % 2 = 0 then key1 else key2
  value := if rand.2.2 % 2 = 0 then value1 else value2
  request_mem := by split <;> simp
  key_mem := by split <;> simp
  value_mem := by split <;> simp

/-- The call `client.kvset` or `client.kvget`. -/
def call (tx : Transaction) : Request := if tx.request = set then .kvset tx.key tx.value else .kvget tx.key

/-- `data` with the sequence number and the response filled in. -/
def event (tx : Transaction) (id n : Nat) (res : Result) : Events where
  threadId := id
  sequenceNumber := n
  operation := tx.request
  parameters := if tx.request = set then [tx.key, tx.value] else [tx.key]
  response := res

theorem logged_event (tx : Transaction) (id n : Nat) (res : Result) : (tx.event id n res).Logged := by
  by_cases h : tx.request = set
  · exact .set tx.key tx.value ⟨h, if_pos h⟩
  · exact .get tx.key ⟨tx.request_mem.resolve_left h, if_neg h⟩

end Transaction

/-- The transactions that a thread sets up. -/
def setUp {R : Nat} (rand : Fin R → Nat × Nat × Nat) : List Transaction :=
  List.ofFn fun j => Transaction.draw (rand j)

/-- Where a thread is inside the body of its loop. -/
inductive Stage where
  /-- at the head of the loop -/
  | ready
  /-- has read `n` from `sequence_no` and not yet written it back -/
  | incrementing (tx : Transaction) (n : Nat)
  /-- has its number and sends the request -/
  | numbered (tx : Transaction) (n : Nat)
  /-- has the response, before `log.push_back` -/
  | answered (tx : Transaction) (n : Nat) (res : Result)
  /-- past `bigTable[id] = log` -/
  | stored
  deriving DecidableEq

/-- The locals of `requests`; `todo` is what the loop has still to perform. -/
structure Thread where
  todo : List Transaction
  stage : Stage := .ready
  log : List Events := []
  deriving DecidableEq

/-- The globals of the test, its threads, and the server. -/
structure World (T : Nat) (σ : Type) where
  sequenceNo : Nat := 0
  server : σ
  threads : Fin T → Thread
  bigTable : List (List Events)

/-- The test when its threads start, with `R` transactions each. -/
def World.start {T R : Nat} {σ : Type} (rand : Fin T → Fin R → Nat × Nat × Nat) (server : σ) : World T σ where
  server := server
  threads i := { todo := setUp (rand i) }
  bigTable := List.replicate (T * 2) []

/-- `T` threads that first set `key_2`, to `value_1` or `value_2` in turn, and then read it. -/
def setThenGet (T : Nat) : Fin T → Fin 2 → Nat × Nat × Nat :=
  fun i j => if j = 0 then (0, 1, i) else (1, 1, 0)

namespace World

variable {T : Nat} {σ : Type}

/-- The thread `i` goes to `th`. -/
def goto (w : World T σ) (i : Fin T) (th : Thread) : World T σ :=
  { w with threads := Function.update w.threads i th }

/-- The next step of the thread `i`. -/
def step (serve : σ → Request → Option (Result × σ)) (w : World T σ) (i : Fin T) : Option (World T σ) :=
  match w.threads i with
  -- `sequence_no++`: the read, then the write-back of what was read plus one
  | ⟨tx :: todo, .ready, log⟩ => some (w.goto i ⟨todo, .incrementing tx w.sequenceNo, log⟩)
  | ⟨todo, .incrementing tx n, log⟩ => some ({ w with sequenceNo := n + 1 }.goto i ⟨todo, .numbered tx n, log⟩)
  | ⟨todo, .numbered tx n, log⟩ =>
    (serve w.server tx.call).map fun (res, server) =>
      { w with server := server }.goto i ⟨todo, .answered tx n res, log⟩
  | ⟨todo, .answered tx n res, log⟩ => some (w.goto i ⟨todo, .ready, log ++ [tx.event i n res]⟩)
  -- the loop is over
  | ⟨[], .ready, log⟩ => some ({ w with bigTable := w.bigTable.set i log }.goto i ⟨[], .stored, log⟩)
  | ⟨_, .stored, _⟩ => none

/-- All threads have stored their logs. -/
def Finished (w : World T σ) : Prop := ∀ i, (w.threads i).stage = .stored

instance (w : World T σ) : Decidable w.Finished := inferInstanceAs (Decidable (∀ _, _))

/-- What a step can do: one case for each stage the thread is in. -/
inductive Steps (serve : σ → Request → Option (Result × σ)) (w : World T σ) (i : Fin T) : World T σ → Prop
  | read (tx todo log) : w.threads i = ⟨tx :: todo, .ready, log⟩ →
      Steps serve w i (w.goto i ⟨todo, .incrementing tx w.sequenceNo, log⟩)
  | write (tx n todo log) : w.threads i = ⟨todo, .incrementing tx n, log⟩ →
      Steps serve w i ({ w with sequenceNo := n + 1 }.goto i ⟨todo, .numbered tx n, log⟩)
  | send (tx n todo log res server) : w.threads i = ⟨todo, .numbered tx n, log⟩ →
      serve w.server tx.call = some (res, server) →
      Steps serve w i ({ w with server := server }.goto i ⟨todo, .answered tx n res, log⟩)
  | push (tx n todo log res) : w.threads i = ⟨todo, .answered tx n res, log⟩ →
      Steps serve w i (w.goto i ⟨todo, .ready, log ++ [tx.event i n res]⟩)
  | store (log) : w.threads i = ⟨[], .ready, log⟩ →
      Steps serve w i ({ w with bigTable := w.bigTable.set i log }.goto i ⟨[], .stored, log⟩)

variable {serve : σ → Request → Option (Result × σ)}

theorem steps_of_step {w w' : World T σ} {i : Fin T} (h : w.step serve i = some w') : Steps serve w i w' := by
  unfold step at h
  split at h
  · rename_i tx todo log ht
    exact Option.some.inj h ▸ .read tx todo log ht
  · rename_i todo tx n log ht
    exact Option.some.inj h ▸ .write tx n todo log ht
  · rename_i todo tx n log ht
    obtain ⟨⟨res, server⟩, hs, h⟩ := Option.map_eq_some_iff.1 h
    exact h ▸ .send tx n todo log res server ht hs
  · rename_i todo tx n res log ht
    exact Option.some.inj h ▸ .push tx n todo log res ht
  · rename_i log ht
    exact Option.some.inj h ▸ .store log ht
  · cases h

@[simp] theorem goto_threads_self (w : World T σ) (i : Fin T) (th : Thread) : (w.goto i th).threads i = th :=
  Function.update_self _ _ _

theorem goto_threads_of_ne (w : World T σ) {i j : Fin T} (h : j ≠ i) (th : Thread) :
    (w.goto i th).threads j = w.threads j :=
  Function.update_of_ne h _ _

@[simp] theorem goto_sequenceNo (w : World T σ) (i : Fin T) (th : Thread) :
    (w.goto i th).sequenceNo = w.sequenceNo := rfl

@[simp] theorem goto_server (w : World T σ) (i : Fin T) (th : Thread) : (w.goto i th).server = w.server := rfl

theorem step_of_incrementing {w : World T σ} {i : Fin T} {tx : Transaction} {n : Nat} {todo : List Transaction}
    {log : List Events} (h : w.threads i = ⟨todo, .incrementing tx n, log⟩) :
    w.step serve i = some ({ w with sequenceNo := n + 1 }.goto i ⟨todo, .numbered tx n, log⟩) := by
  rw [step, h]
  cases todo <;> rfl

/-- A step of one thread leaves the others where they are. -/
theorem Steps.threads_of_ne {w w' : World T σ} {i j : Fin T} (h : Steps serve w i w') (hj : j ≠ i) :
    w'.threads j = w.threads j := by
  cases h <;> exact goto_threads_of_ne _ hj _

/-! ### The logs -/

end World

/-- The transaction that a thread is performing. -/
def Stage.inWork : Stage → List Transaction
  | .incrementing tx _ => [tx]
  | .numbered tx _ => [tx]
  | .answered tx _ _ => [tx]
  | _ => []

/-- The event `e` is what the thread `id` logs for the transaction `tx`. -/
def Performs (id : Nat) (tx : Transaction) (e : Events) : Prop := ∃ n res, e = tx.event id n res

namespace World

/-- What is stored at the position `j` of `bigTable`. -/
def row (w : World T σ) (j : Nat) : List Events :=
  if h : j < T then
    if (w.threads ⟨j, h⟩).stage = .stored then (w.threads ⟨j, h⟩).log else []
  else []

/-- Each thread works through its transactions in order, and `bigTable` holds the logs of those that are done. -/
structure LogInv {R : Nat} (rand : Fin T → Fin R → Nat × Nat × Nat) (w : World T σ) : Prop where
  progress : ∀ i, ∃ done, setUp (rand i) = done ++ (w.threads i).stage.inWork ++ (w.threads i).todo ∧
    List.Forall₂ (Performs i) done (w.threads i).log
  ended : ∀ i, (w.threads i).stage = .stored → (w.threads i).todo = []
  table : w.bigTable = (List.range (T * 2)).map w.row

variable {R : Nat} {rand : Fin T → Fin R → Nat × Nat × Nat}

theorem row_of_stored {w : World T σ} {i : Fin T} (h : (w.threads i).stage = .stored) :
    w.row i = (w.threads i).log := by
  rw [row, dif_pos i.isLt, if_pos h]

theorem row_of_not_stored {w : World T σ} {i : Fin T} (h : (w.threads i).stage ≠ .stored) : w.row i = [] := by
  rw [row, dif_pos i.isLt, if_neg h]

theorem Steps.row_of_ne {w w' : World T σ} {i : Fin T} (h : Steps serve w i w') {j : Nat} (hj : j ≠ i) :
    w'.row j = w.row j := by
  unfold row
  by_cases hT : j < T
  · have hne : (⟨j, hT⟩ : Fin T) ≠ i := fun e => hj (congrArg Fin.val e)
    simp only [h.threads_of_ne hne]
  · simp only [hT, dite_false]

theorem logInv_start (rand : Fin T → Fin R → Nat × Nat × Nat) (server : σ) :
    LogInv rand (World.start rand server) where
  progress i := ⟨[], rfl, .nil⟩
  ended i h := by cases h
  table := by
    have hrow : ∀ j, (World.start rand server).row j = [] := by
      intro j
      unfold row
      split
      · rfl
      · rfl
    rw [List.map_congr_left fun j _ => hrow j, List.map_const', List.length_range]
    rfl

/-- A step performs at most one transaction to its end, and logs it. -/
theorem Steps.performs {w w' : World T σ} {i : Fin T} (h : Steps serve w i w') :
    ∃ done es, (w.threads i).stage.inWork ++ (w.threads i).todo =
        done ++ ((w'.threads i).stage.inWork ++ (w'.threads i).todo) ∧
      (w'.threads i).log = (w.threads i).log ++ es ∧ List.Forall₂ (Performs i) done es := by
  cases h with
  | read tx todo log ht => exact ⟨[], [], by simp [ht, Stage.inWork], by simp [ht], .nil⟩
  | write tx n todo log ht => exact ⟨[], [], by simp [ht, Stage.inWork], by simp [ht], .nil⟩
  | send tx n todo log res server ht => exact ⟨[], [], by simp [ht, Stage.inWork], by simp [ht], .nil⟩
  | push tx n todo log res ht =>
    exact ⟨[tx], [tx.event i n res], by simp [ht, Stage.inWork], by simp [ht], .cons ⟨n, res, rfl⟩ .nil⟩
  | store log ht => exact ⟨[], [], by simp [ht, Stage.inWork], by simp [ht], .nil⟩

/-- A step either stores the log of a thread that has nothing left to do, or leaves `bigTable` alone. -/
theorem Steps.stores {w w' : World T σ} {i : Fin T} (h : Steps serve w i w') :
    (∃ log, w'.threads i = ⟨[], .stored, log⟩ ∧ w'.bigTable = w.bigTable.set i log) ∨
    ((w.threads i).stage ≠ .stored ∧ (w'.threads i).stage ≠ .stored ∧ w'.bigTable = w.bigTable) := by
  cases h with
  | read tx todo log ht => exact Or.inr ⟨by simp [ht], by simp, rfl⟩
  | write tx n todo log ht => exact Or.inr ⟨by simp [ht], by simp, rfl⟩
  | send tx n todo log res server ht => exact Or.inr ⟨by simp [ht], by simp, rfl⟩
  | push tx n todo log res ht => exact Or.inr ⟨by simp [ht], by simp, rfl⟩
  | store log ht => exact Or.inl ⟨log, goto_threads_self _ _ _, rfl⟩

/-- `bigTable` stays the logs that have been stored. -/
theorem Steps.bigTable_eq {w w' : World T σ} {i : Fin T} (h : Steps serve w i w')
    (ht : w.bigTable = (List.range (T * 2)).map w.row) : w'.bigTable = (List.range (T * 2)).map w'.row := by
  rcases h.stores with ⟨log, hst, hb⟩ | ⟨hst, hst', hb⟩
  · have hrow : w'.row i = log := by rw [row_of_stored (by rw [hst]), hst]
    rw [hb, ht]
    apply List.ext_getElem
    · simp
    · intro j h1 h2
      rw [List.getElem_set]
      by_cases hji : (i : Nat) = j
      · rw [if_pos hji]
        simp [← hji, hrow]
      · rw [if_neg hji]
        simp [h.row_of_ne (Ne.symm hji)]
  · rw [hb, ht]
    apply List.map_congr_left
    intro j _
    by_cases hji : j = i
    · rw [hji, row_of_not_stored hst, row_of_not_stored hst']
    · rw [h.row_of_ne hji]

theorem LogInv.step {w w' : World T σ} {i : Fin T} (hi : LogInv rand w) (h : w.step serve i = some w') :
    LogInv rand w' := by
  have hs := steps_of_step h
  refine ⟨fun j => ?_, fun j hj => ?_, ?_⟩
  · by_cases hji : j = i
    · subst hji
      obtain ⟨done, hd, hf⟩ := hi.progress j
      obtain ⟨done', es, hw, hl, hf'⟩ := hs.performs
      refine ⟨done ++ done', ?_, ?_⟩
      · rw [hd, List.append_assoc, hw]
        simp only [List.append_assoc]
      · rw [hl]
        exact List.rel_append hf hf'
    · rw [hs.threads_of_ne hji]
      exact hi.progress j
  · by_cases hji : j = i
    · subst hji
      rcases hs.stores with ⟨log, ht, _⟩ | ⟨_, hst, _⟩
      · rw [ht]
      · exact absurd hj hst
    · rw [hs.threads_of_ne hji] at hj ⊢
      exact hi.ended j hj
  · exact hs.bigTable_eq hi.table

/-! ### When all threads are done -/

/-- The log of a finished thread has one event for each of its transactions, in their order. -/
theorem LogInv.performs {w : World T σ} (hi : LogInv rand w) (hf : w.Finished) (i : Fin T) :
    List.Forall₂ (Performs i) (setUp (rand i)) (w.threads i).log := by
  obtain ⟨done, hd, h⟩ := hi.progress i
  rw [hf i, hi.ended i (hf i)] at hd
  simp only [Stage.inWork, List.append_nil] at hd
  rwa [hd]

theorem LogInv.length_log {w : World T σ} (hi : LogInv rand w) (hf : w.Finished) (i : Fin T) :
    (w.threads i).log.length = R := by
  rw [← (hi.performs hf i).length_eq, setUp, List.length_ofFn]

theorem LogInv.logged {w : World T σ} (hi : LogInv rand w) {i : Fin T} {e : Events}
    (he : e ∈ (w.threads i).log) : e.Logged ∧ ∃ tx n res, e = Transaction.event tx i n res := by
  obtain ⟨done, _, h⟩ := hi.progress i
  obtain ⟨k, hk, rfl⟩ := List.mem_iff_getElem.1 he
  obtain ⟨n, res, hp⟩ := (List.forall₂_iff_get.1 h).2 k (h.length_eq ▸ hk) hk
  rw [List.get_eq_getElem] at hp
  exact ⟨by rw [hp]; exact Transaction.logged_event _ _ _ _, _, n, res, hp⟩

theorem row_eq (w : World T σ) (hf : w.Finished) (i : Fin T) : w.row i = (w.threads i).log := row_of_stored (hf i)

theorem row_of_le (w : World T σ) {j : Nat} (h : T ≤ j) : w.row j = [] := by
  rw [row, dif_neg (by omega)]

theorem LogInv.mem_bigTable {w : World T σ} (hi : LogInv rand w) (hf : w.Finished) {log : List Events}
    (h : log ∈ w.bigTable) : log = [] ∨ ∃ i, log = (w.threads i).log := by
  rw [hi.table] at h
  obtain ⟨j, _, rfl⟩ := List.mem_map.1 h
  by_cases hT : j < T
  · exact Or.inr ⟨⟨j, hT⟩, w.row_eq hf ⟨j, hT⟩⟩
  · exact Or.inl (w.row_of_le (by omega))

theorem LogInv.mem_flatten {w : World T σ} (hi : LogInv rand w) (hf : w.Finished) {e : Events} :
    e ∈ w.bigTable.flatten ↔ ∃ i, e ∈ (w.threads i).log := by
  rw [List.mem_flatten]
  constructor
  · intro h
    obtain ⟨log, hl, he⟩ := h
    rcases hi.mem_bigTable hf hl with rfl | ⟨i, rfl⟩
    · cases he
    · exact ⟨i, he⟩
  · intro h
    obtain ⟨i, he⟩ := h
    refine ⟨w.row i, ?_, by rwa [w.row_eq hf]⟩
    rw [hi.table]
    exact List.mem_map_of_mem (List.mem_range.2 (by omega))

/-- The numbers in `bigTable` are distinct iff those of each log are, and no two logs share one. -/
theorem LogInv.nodup_iff {w : World T σ} (hi : LogInv rand w) (hf : w.Finished) :
    (w.bigTable.flatten.map Events.sequenceNumber).Nodup ↔
      (∀ i, ((w.threads i).log.map Events.sequenceNumber).Nodup) ∧
        ∀ i j, i ≠ j →
          ((w.threads i).log.map Events.sequenceNumber).Disjoint ((w.threads j).log.map Events.sequenceNumber) := by
  rw [List.map_flatten, List.nodup_flatten, hi.table, List.map_map, List.pairwise_map]
  simp only [List.mem_map, List.mem_range, Function.comp_apply, forall_exists_index, and_imp,
    forall_apply_eq_imp_iff₂]
  constructor
  · intro h
    obtain ⟨h1, h2⟩ := h
    refine ⟨fun i => ?_, fun i j hij => ?_⟩
    · rw [← w.row_eq hf]
      exact h1 i (by omega)
    · rw [← w.row_eq hf, ← w.row_eq hf]
      have hsymm : Std.Symm fun a b : Nat =>
          ((w.row a).map Events.sequenceNumber).Disjoint ((w.row b).map Events.sequenceNumber) :=
        ⟨fun _ _ h => List.disjoint_symm h⟩
      exact h2.forall (List.mem_range.2 (by omega)) (List.mem_range.2 (by omega)) fun e => hij (Fin.ext e)
  · intro h
    obtain ⟨h1, h2⟩ := h
    refine ⟨fun j _ => ?_, List.nodup_range.imp fun {a b} hab => ?_⟩
    · by_cases hT : j < T
      · rw [w.row_eq hf ⟨j, hT⟩]
        exact h1 _
      · rw [w.row_of_le (by omega)]
        exact List.nodup_nil
    · by_cases ha : a < T
      · by_cases hb : b < T
        · rw [w.row_eq hf ⟨a, ha⟩, w.row_eq hf ⟨b, hb⟩]
          exact h2 _ _ fun e => hab (congrArg Fin.val e)
        · rw [w.row_of_le (j := b) (by omega)]
          exact List.disjoint_nil_right _
      · rw [w.row_of_le (j := a) (by omega)]
        exact List.disjoint_nil_left _

/-- `R` events of each of the `T` threads. -/
theorem LogInv.length_flatten {w : World T σ} (hi : LogInv rand w) (hf : w.Finished) :
    w.bigTable.flatten.length = T * R := by
  have h1 : (List.range T).map (fun j => (w.row j).length) = (List.range T).map fun _ => R := by
    apply List.map_congr_left
    intro j hj
    have hT := List.mem_range.1 hj
    rw [← hi.length_log hf ⟨j, hT⟩, ← w.row_eq hf]
  have h2 : (List.range T).map (fun j => (w.row (T + j)).length) = (List.range T).map fun _ => 0 := by
    apply List.map_congr_left
    intro j _
    rw [w.row_of_le (by omega), List.length_nil]
  rw [hi.table, List.length_flatten, List.map_map, Nat.mul_two, List.range_add, List.map_append, List.map_map,
    List.sum_append]
  simp only [Function.comp_def, h1, h2]
  simp

end World

/-! ### The scatter loop -/

/-- `sortedBigTable` after the loop of `main` that places each event at its sequence number. -/
def sortedBigTable (T R : Nat) (bigTable : List (List Events)) : Option (List Events) :=
  bigTable.foldlM (fun table log => log.foldlM (Scatter.place Events.sequenceNumber) table)
    (List.replicate (T * R) {})

theorem sortedBigTable_eq (T R : Nat) (bigTable : List (List Events)) :
    sortedBigTable T R bigTable =
      Scatter.scatter Events.sequenceNumber (List.replicate (T * R) {}) bigTable.flatten := by
  unfold sortedBigTable Scatter.scatter
  generalize List.replicate (T * R) ({} : Events) = table
  induction bigTable generalizing table with
  | nil => rfl
  | cons log bigTable ih =>
    rw [List.foldlM_cons, List.flatten_cons, Machine.exec_append]
    exact congrArg _ (funext ih)

end ConsistencyTest

end KVStore
