import KVStore.Testbed

/-!
# What the threads of the test log

At every moment the responses in the logs are those that the transactions get one at a time, in some order in which each
thread has its own transactions as it has logged them (`logs_over_net`).  It is the order in which the requests take
effect.  The checker goes by the sequence numbers instead, and these need not be in this order.
-/

namespace KVStore

open Thrift Linearizable

namespace ConsistencyTest

variable {T R : Nat}

/-- A transaction of a thread, with its response. -/
structure Performed (T : Nat) where
  thread : Fin T
  tx : Transaction
  res : Result
  deriving DecidableEq

/-- The responses are those to the transactions, one at a time from the store `m` on. -/
def Executes : Store → List (Performed T) → Prop
  | _, [] => True
  | m, x :: order => x.res = answer m x.tx.call ∧ Executes (effect m x.tx.call) order

/-- The store after some transactions on `m`. -/
def storeOf (m : Store) (order : List (Performed T)) : Store := (order.map fun x => x.tx.call).foldl effect m

/-- The event `e` is what is logged for `x`. -/
def Performed.Logs (x : Performed T) (e : Events) : Prop := ∃ n, e = x.tx.event x.thread n x.res

/-- What a thread has the response to, before it is in the log. -/
def Stage.response (i : Fin T) : Stage → List (Performed T)
  | .answered tx _ res => [⟨i, tx, res⟩]
  | _ => []

theorem executes_concat {m : Store} {order : List (Performed T)} {x : Performed T} (h : Executes m order)
    (hx : x.res = answer (storeOf m order) x.tx.call) : Executes m (order ++ [x]) := by
  induction order generalizing m with
  | nil => exact ⟨hx, trivial⟩
  | cons y order ih => exact ⟨h.1, ih h.2 hx⟩

theorem storeOf_concat (m : Store) (order : List (Performed T)) (x : Performed T) :
    storeOf m (order ++ [x]) = effect (storeOf m order) x.tx.call := by
  rw [storeOf, List.map_append, List.foldl_append]
  rfl

/-! ### One step -/

/-- What is in the order of the thread `i`, it has logged, but that the last response may not be in the log yet; and
these are its transactions so far. -/
def Thread.Explained (th : Thread) (i : Fin T) (txs : List Transaction) (own : List (Performed T)) : Prop :=
  ∃ done, own = done ++ th.stage.response i ∧ txs = done.map Performed.tx ++ th.stage.inWork ++ th.todo ∧
    List.Forall₂ Performed.Logs done th.log

/-- The order explains where the test is. -/
structure World.Explained (rand : Fin T → Fin R → Nat × Nat × Nat) (w : World T Server) (order : List (Performed T)) :
    Prop where
  unlocked : w.server.lck = false
  executes : Executes Store.empty order
  store : w.server.sharedKvstore = storeOf Store.empty order
  threads : ∀ i, (w.threads i).Explained i (setUp (rand i)) (order.filter fun x => x.thread = i)

namespace World

variable {rand : Fin T → Fin R → Nat × Nat × Nat} {w w' : World T Server} {order : List (Performed T)} {i : Fin T}

theorem explained_start (rand : Fin T → Fin R → Nat × Nat × Nat) : Explained rand (World.start rand {}) [] where
  unlocked := rfl
  executes := trivial
  store := rfl
  threads _ := ⟨[], rfl, rfl, .nil⟩

/-- A thread takes a step of its own. -/
private theorem explained_own (hi : Explained rand w order) {th : Thread} {n : Nat} {table : List (List Events)}
    (hresp : th.stage.response i = (w.threads i).stage.response i) (hlog : th.log = (w.threads i).log)
    (hwork : th.stage.inWork ++ th.todo = (w.threads i).stage.inWork ++ (w.threads i).todo) :
    Explained rand ({ w with sequenceNo := n, bigTable := table }.goto i th) order := by
  refine ⟨hi.unlocked, hi.executes, hi.store, fun j => ?_⟩
  by_cases hj : j = i
  · subst hj
    obtain ⟨done, hown, htxs, hlogs⟩ := hi.threads j
    rw [goto_threads_self]
    refine ⟨done, hresp ▸ hown, ?_, hlog ▸ hlogs⟩
    rw [htxs, List.append_assoc, List.append_assoc, hwork]
  · rw [goto_threads_of_ne _ hj]
    exact hi.threads j

/-- A request takes effect. -/
private theorem explained_send (hi : Explained rand w order) {tx : Transaction} {n : Nat} {todo : List Transaction}
    {log : List Events} (ht : w.threads i = ⟨todo, .numbered tx n, log⟩) :
    Explained rand ({ w with server := { w.server with
        sharedKvstore := effect w.server.sharedKvstore tx.call } }.goto i
          ⟨todo, .answered tx n (answer w.server.sharedKvstore tx.call), log⟩)
      (order ++ [⟨i, tx, answer w.server.sharedKvstore tx.call⟩]) := by
  refine ⟨hi.unlocked, executes_concat hi.executes (by rw [hi.store]), ?_, fun j => ?_⟩
  · rw [storeOf_concat, ← hi.store]
    rfl
  rw [List.filter_append]
  by_cases hj : j = i
  · subst hj
    obtain ⟨done, hown, htxs, hlogs⟩ := hi.threads j
    rw [ht] at hown htxs hlogs
    rw [goto_threads_self]
    refine ⟨done, ?_, htxs, hlogs⟩
    rw [hown]
    simp [Stage.response]
  · rw [goto_threads_of_ne _ hj]
    simpa [Ne.symm hj] using hi.threads j

/-- A response is logged. -/
private theorem explained_push (hi : Explained rand w order) {tx : Transaction} {n : Nat} {todo : List Transaction}
    {log : List Events} {res : Result} (ht : w.threads i = ⟨todo, .answered tx n res, log⟩) :
    Explained rand (w.goto i ⟨todo, .ready, log ++ [tx.event i n res]⟩) order := by
  refine ⟨hi.unlocked, hi.executes, hi.store, fun j => ?_⟩
  by_cases hj : j = i
  · subst hj
    obtain ⟨done, hown, htxs, hlogs⟩ := hi.threads j
    rw [ht] at hown htxs hlogs
    rw [goto_threads_self]
    refine ⟨done ++ [⟨j, tx, res⟩], ?_, ?_, List.rel_append hlogs (.cons ⟨n, rfl⟩ .nil)⟩
    · rw [hown]
      simp [Stage.response]
    · rw [htxs]
      simp [Stage.inWork]
  · rw [goto_threads_of_ne _ hj]
    exact hi.threads j

theorem Explained.step (hi : Explained rand w order) (hs : w.step (serve .kvserverConsistent) i = some w') :
    ∃ order', Explained rand w' order' := by
  cases steps_of_step hs with
  | read tx todo log ht =>
    exact ⟨order, explained_own hi (by rw [ht]; rfl) (by rw [ht]) (by rw [ht]; rfl)⟩
  | write tx n todo log ht =>
    exact ⟨order, explained_own hi (by rw [ht]; rfl) (by rw [ht]) (by rw [ht]; rfl)⟩
  | send tx n todo log res server ht h =>
    rw [serve_of_unlocked hi.unlocked] at h
    obtain ⟨rfl, rfl⟩ := Prod.mk.inj (Option.some.inj h)
    exact ⟨_, explained_send hi ht⟩
  | push tx n todo log res ht => exact ⟨order, explained_push hi ht⟩
  | store log ht => exact ⟨order, explained_own hi (by rw [ht]; rfl) (by rw [ht]) (by rw [ht]; rfl)⟩

end World

/-! ### Whole runs -/

variable {β : Type} {P : TProtocol β}

/-- At every moment of a run over the network there is an order of transactions that gives all responses in the logs,
one at a time from the empty store.  Each thread has its transactions in it in the order of its log, with at most one
more; it has logged them as it has set them up, and its log is in `bigTable` as soon as it has stored it. -/
theorem logs_over_net (hP : P.Lawful) (what : String) (rand : Fin T → Fin R → Nat × Nat × Nat)
    (acts : List (Fin T × Option NetAct)) (b : Testbed T β)
    (hs : Machine.exec (Testbed.step P what) (Testbed.start rand) acts = some b) :
    ∃ order : List (Performed T), Executes Store.empty order ∧ ∀ i, ∃ th done, b.locals i = some th ∧
      List.Forall₂ Performed.Logs done th.log ∧
      (∃ more, order.filter (fun x => x.thread = i) = done ++ more ∧ more.length ≤ 1) ∧
      setUp (rand i) = done.map Performed.tx ++ th.stage.inWork ++ th.todo ∧
      b.globals.bigTable[i.val]? = some (if th.stage = .stored then th.log else []) := by
  obtain ⟨schedule, w, hw, _, htable, hloc⟩ := threads_over_net P hP what rand acts b hs
  obtain ⟨order, hex⟩ : ∃ order, World.Explained rand w order :=
    Machine.exec_invariant (fun w => ∃ order, World.Explained rand w order)
      (fun _ _ _ ⟨_, hi⟩ hs => hi.step hs) ⟨[], World.explained_start rand⟩ hw
  have hlog := World.logInv_of_exec hw
  refine ⟨order, hex.executes, fun i => ?_⟩
  obtain ⟨th, hth, hbehind⟩ := hloc i
  obtain ⟨hwork, htodo, hl⟩ := hbehind.eq
  obtain ⟨done, hown, htxs, hlogs⟩ := hex.threads i
  refine ⟨th, done, hth, hl ▸ hlogs, ⟨_, hown, ?_⟩, by rw [htxs, hwork, htodo], ?_⟩
  · cases (w.threads i).stage <;> simp [Stage.response]
  · have hi : i.val < T * 2 := Nat.lt_of_lt_of_le i.isLt (Nat.le_mul_of_pos_right T (by decide))
    have hrow : w.row i = if th.stage = .stored then th.log else [] := by
      by_cases h : th.stage = .stored
      · rw [World.row_of_stored (hbehind.stored_iff.2 h), if_pos h, hl]
      · rw [World.row_of_not_stored (fun h' => h (hbehind.stored_iff.1 h')), if_neg h]
    rw [← htable, hlog.table, List.getElem?_map, List.getElem?_range hi, Option.map_some, hrow]

/-- Both threads call; the get of `b` arrives while the set of `a` is served, and is answered after it. -/
def interleavedCalls (a b : Fin 2) : List (Fin 2 × Option NetAct) :=
  [(a, none), (a, none), (b, none), (b, none), (a, some (.call ⟨.kvset key2 value1, {}⟩)),
    (b, some (.call ⟨.kvget key2, {}⟩)), (b, some (.deliver 7)), (a, some (.deliver 100)), (a, some .accept),
    (a, some .advance), (b, some (.deliver 100)), (b, some .accept), (a, some .advance), (a, some .advance),
    (a, some .advance), (b, some .advance), (a, some .reply), (b, some .advance), (b, some .advance),
    (b, some .advance), (b, some .reply), (b, some (.carry 100)), (b, some (.receive {})), (b, none),
    (a, some (.carry 100)), (a, some (.receive {})), (a, none), (b, none)]

theorem logs_over_net_interleaved :
    ∃ (b : Testbed 2 UInt8) (order : List (Performed 2)),
      Machine.exec (Testbed.step Binary.protocol "std::bad_alloc") (Testbed.start setAndGetOnce)
        (interleavedCalls 0 1) = some b ∧ Executes Store.empty order ∧
      ∀ i, ∃ (th : Thread) (done : List (Performed 2)), b.locals i = some th ∧
        List.Forall₂ Performed.Logs done th.log ∧ done.length = 1 ∧
        ∃ more, order.filter (fun x => x.thread = i) = done ++ more := by
  have hview : (Machine.exec (Testbed.step Binary.protocol "std::bad_alloc") (Testbed.start setAndGetOnce)
      (interleavedCalls 0 1)).map (fun b => ((b.locals 0).map (·.log.length), (b.locals 1).map (·.log.length))) =
        some (some 1, some 1) := by decide +kernel
  obtain ⟨b, hb, hlengths⟩ := Option.map_eq_some_iff.1 hview
  obtain ⟨h0, h1⟩ := Prod.mk.inj hlengths
  obtain ⟨order, hex, h⟩ := logs_over_net Binary.lawful _ _ _ b hb
  refine ⟨b, order, hb, hex, fun i => ?_⟩
  obtain ⟨th, done, hth, hlogs, ⟨more, hmore, _⟩, _⟩ := h i
  have hlength : ∀ i, (b.locals i).map (·.log.length) = some 1 := Fin.forall_fin_two.2 ⟨h0, h1⟩
  have hlog : th.log.length = 1 := by simpa [hth] using hlength i
  exact ⟨th, done, hth, hlogs, hlogs.length_eq.trans hlog, more, hmore⟩

end ConsistencyTest

end KVStore
