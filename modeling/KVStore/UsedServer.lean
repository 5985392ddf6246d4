import KVStore.FalseAlarm

/-!
# The consistency test on a server that has been used before

The server keeps its store between two runs of the test, the checker starts with the empty string.  If the requests
are executed one at a time in the order of their numbers, the two disagree as long as a value of `key_2` from an
earlier run has not been overwritten: the checker exits with 1 iff a get returns it, unless some other get finds
nothing (`no_alarm_on_used_server_iff`).  `performAll` is such a run seen from the server; the threads of `requests`
get to the same logs (`run_oneAtATime`).
-/

namespace KVStore

namespace ConsistencyTest

/-- A call of a server program as one step; it is not defined if the client does not get a reply. -/
def serve (p : Program) (s : Server) (r : Request) : Option (Result × Server) :=
  match p.handle s { request := r } with
  | (.reply res, s') => some (res, s')
  | _ => none

/-- The events of transactions that the server executes one at a time, in the order of their numbers from `n` on. -/
def performAll {T : Nat} (p : Program) : Server → Nat → List (Fin T × Transaction) → Option (List Events)
  | _, _, [] => some []
  | s, n, (id, tx) :: txs => do
    let (res, s') ← serve p s tx.call
    let events ← performAll p s' (n + 1) txs
    return tx.event id n res :: events

/-- `bigTable` when the threads have stored their logs. -/
def logs (T : Nat) (events : List Events) : List (List Events) :=
  (List.range (T * 2)).map fun id => events.filter fun e => e.threadId = id

/-- Some get on `k` comes before every set on `k`. -/
def GetBeforeSet {T : Nat} (k : String) (txs : List (Fin T × Transaction)) : Prop :=
  ∃ pre c post, txs = pre ++ c :: post ∧ c.2.request = get ∧ c.2.key = k ∧ lastSet k (pre.map Prod.snd) = none

variable {T R : Nat}

theorem serve_eq (p : Program) (m : Store) (r : Request) :
    serve p { sharedKvstore := m } r = some (answer m r, { sharedKvstore := effect m r }) := by
  rw [serve, p.handle_eq rfl (by cases r <;> rfl)]

/-! ### The table of such a run -/

/-- What `performAll` makes of a store. -/
def eventsFrom (m : Store) : Nat → List (Fin T × Transaction) → List Events
  | _, [] => []
  | n, (id, tx) :: txs => tx.event id n (answer m tx.call) :: eventsFrom (effect m tx.call) (n + 1) txs

theorem performAll_eq (p : Program) (m : Store) (n : Nat) (txs : List (Fin T × Transaction)) :
    performAll p { sharedKvstore := m } n txs = some (eventsFrom m n txs) := by
  induction txs generalizing m n with
  | nil => rfl
  | cons c txs ih =>
    rw [performAll, serve_eq, Option.bind_eq_bind, Option.bind_some]
    dsimp only
    rw [ih]
    rfl

/-- The store after some transactions on `m`. -/
def storeFrom (m : Store) (txs : List (Fin T × Transaction)) : Store :=
  ((txs.map Prod.snd).map Transaction.call).foldl effect m

theorem eventsFrom_append (m : Store) (n : Nat) (xs ys : List (Fin T × Transaction)) :
    eventsFrom m n (xs ++ ys) = eventsFrom m n xs ++ eventsFrom (storeFrom m xs) (n + xs.length) ys := by
  induction xs generalizing m n with
  | nil => rfl
  | cons c xs ih =>
    rw [List.cons_append, eventsFrom, eventsFrom, ih, List.length_cons, Nat.add_right_comm n 1, Nat.add_assoc n,
      List.cons_append]
    rfl

@[simp] theorem length_eventsFrom (m : Store) (n : Nat) (txs : List (Fin T × Transaction)) :
    (eventsFrom m n txs).length = txs.length := by
  induction txs generalizing m n with
  | nil => rfl
  | cons c txs ih => rw [eventsFrom, List.length_cons, List.length_cons, ih]

/-- A slot of the table is the event of a transaction, answered by the store that the ones before it have left. -/
theorem eventsFrom_eq_append_cons {m : Store} {txs : List (Fin T × Transaction)} {pre post : List Events}
    {e : Events} (h : eventsFrom m 0 txs = pre ++ e :: post) :
    ∃ xs c ys, txs = xs ++ c :: ys ∧ pre = eventsFrom m 0 xs ∧
      e = c.2.event c.1 xs.length (answer (storeFrom m xs) c.2.call) := by
  have hlen : pre.length < txs.length := by
    rw [← length_eventsFrom m 0 txs, h]
    simp
  obtain ⟨xs, c, ys, rfl, hl⟩ : ∃ xs c ys, txs = xs ++ c :: ys ∧ xs.length = pre.length :=
    ⟨txs.take pre.length, txs[pre.length], txs.drop (pre.length + 1), by simp, by simp; omega⟩
  rw [eventsFrom_append] at h
  obtain ⟨hpre, hrest⟩ := List.append_inj h (by rw [length_eventsFrom, hl])
  exact ⟨xs, c, ys, rfl, hpre.symm, (List.cons.inj hrest).1.symm.trans (by rw [Nat.zero_add])⟩

theorem latest_eventsFrom (k : String) (m : Store) (n : Nat) (txs : List (Fin T × Transaction)) :
    latest k (eventsFrom m n txs) = lastSet k (txs.map Prod.snd) := by
  apply Register.last_eq_of_map_eq
  induction txs generalizing m n with
  | nil => rfl
  | cons c txs ih => rw [eventsFrom, List.map_cons, List.map_cons, List.map_cons, ih, Transaction.setOn_event]

theorem map_sequenceNumber_eventsFrom (m : Store) (n : Nat) (txs : List (Fin T × Transaction)) :
    (eventsFrom m n txs).map Events.sequenceNumber = List.range' n txs.length := by
  induction txs generalizing m n with
  | nil => rfl
  | cons c txs ih =>
    rw [eventsFrom, List.map_cons, ih, List.length_cons, List.range'_succ]
    rfl

theorem threadId_eventsFrom {m : Store} {n : Nat} {txs : List (Fin T × Transaction)} {e : Events}
    (he : e ∈ eventsFrom m n txs) : e.threadId < T := by
  induction txs generalizing m n with
  | nil => cases he
  | cons c txs ih =>
    rcases List.mem_cons.1 he with rfl | he
    · exact c.1.isLt
    · exact ih he

/-! ### The run of the threads -/

/-- The schedule of transactions that are performed one after another. -/
def oneAtATime (txs : List (Fin T × Transaction)) : List (Fin T) := txs.flatMap fun c => List.replicate 4 c.1

namespace World

/-- A thread performs one transaction without being interrupted. -/
theorem exec_transaction (p : Program) {m : Store} {w : World T Server} {i : Fin T} {tx : Transaction}
    {todo : List Transaction} {log : List Events} (ht : w.threads i = ⟨tx :: todo, .ready, log⟩)
    (hs : w.server = { sharedKvstore := m }) :
    Machine.exec (step (serve p)) w (List.replicate 4 i) =
      some ({ w with
          sequenceNo := w.sequenceNo + 1
          server := ({ sharedKvstore := effect m tx.call } : Server) }.goto i
        ⟨todo, .ready, log ++ [tx.event i w.sequenceNo (answer m tx.call)]⟩) := by
  have hread : w.step (serve p) i = some (w.goto i ⟨todo, .incrementing tx w.sequenceNo, log⟩) := by
    rw [step, ht]
  have hsend : ∀ (w' : World T Server) n, w'.threads i = ⟨todo, .numbered tx n, log⟩ → w'.server = w.server →
      w'.step (serve p) i = some ({ w' with server := ({ sharedKvstore := effect m tx.call } : Server) }.goto i
        ⟨todo, .answered tx n (answer m tx.call), log⟩) := by
    intro w' n ht' hs'
    rw [step, ht', hs', hs]
    cases todo <;> simp only [serve_eq, Option.map_some]
  have hpush : ∀ (w' : World T Server) n res, w'.threads i = ⟨todo, .answered tx n res, log⟩ →
      w'.step (serve p) i = some (w'.goto i ⟨todo, .ready, log ++ [tx.event i n res]⟩) := by
    intro w' n res ht'
    rw [step, ht']
    cases todo <;> rfl
  refine Machine.exec_cons_eq_some.2 ⟨_, hread, ?_⟩
  refine Machine.exec_cons_eq_some.2 ⟨_, step_of_incrementing (goto_threads_self _ _ _), ?_⟩
  refine Machine.exec_cons_eq_some.2 ⟨_, hsend _ _ (goto_threads_self _ _ _) rfl, ?_⟩
  refine Machine.exec_cons_eq_some.2 ⟨_, hpush _ _ _ (goto_threads_self _ _ _), ?_⟩
  simp only [List.replicate_zero, Machine.exec_nil, goto, Function.update_idem]

/-- The threads perform transactions one after another. -/
private theorem exec_transactions (p : Program) {m : Store} {w : World T Server} (log : Fin T → List Events)
    {txs : List (Fin T × Transaction)} (hs : w.server = { sharedKvstore := m })
    (ht : ∀ i, w.threads i = ⟨(txs.filter fun c => c.1 = i).map Prod.snd, .ready, log i⟩) :
    ∃ w', Machine.exec (step (serve p)) w (oneAtATime txs) = some w' ∧ ∀ i, w'.threads i =
      ⟨[], .ready, log i ++ (eventsFrom m w.sequenceNo txs).filter fun e => e.threadId = (i : Nat)⟩ := by
  induction txs generalizing w m log with
  | nil => exact ⟨w, rfl, fun i => by rw [ht, eventsFrom]; simp⟩
  | cons c txs ih =>
    obtain ⟨id, tx⟩ := c
    have hid := ht id
    rw [List.filter_cons_of_pos (by simp), List.map_cons] at hid
    have hfirst := exec_transaction p hid hs
    generalize hv : World.goto _ id _ = v at hfirst
    have hthreads : ∀ i, v.threads i = ⟨(txs.filter fun c => c.1 = i).map Prod.snd, .ready,
        Function.update log id (log id ++ [tx.event id w.sequenceNo (answer m tx.call)]) i⟩ := by
      intro i
      rw [← hv]
      by_cases hi : i = id
      · rw [hi, goto_threads_self, Function.update_self]
      · rw [goto_threads_of_ne _ hi, Function.update_of_ne hi]
        show w.threads i = _
        rw [ht, List.filter_cons_of_neg (by simpa using Ne.symm hi)]
    obtain ⟨w', hw', hrest⟩ := ih (m := effect m tx.call) _ (by rw [← hv]; rfl) hthreads
    have hno : v.sequenceNo = w.sequenceNo + 1 := by rw [← hv]; rfl
    rw [hno] at hrest
    refine ⟨w', Machine.exec_append_eq_some.2 ⟨_, hfirst, hw'⟩, fun i => ?_⟩
    rw [hrest, eventsFrom]
    by_cases hi : i = id
    · subst hi
      rw [Function.update_self, List.filter_cons_of_pos (by simp [Transaction.event]), List.append_assoc]
      rfl
    · have hne : ((id : Fin T) : Nat) ≠ i := fun h => hi (Fin.ext h.symm)
      rw [Function.update_of_ne hi, List.filter_cons_of_neg (by simp [Transaction.event, hne])]

/-- Threads that have nothing left to do store their logs. -/
private theorem exec_stores {σ : Type} (serve : σ → Request → Option (Result × σ)) {w : World T σ}
    {log : Fin T → List Events} {is : List (Fin T)} (hnd : is.Nodup)
    (ht : ∀ i ∈ is, w.threads i = ⟨[], .ready, log i⟩) :
    ∃ w', Machine.exec (step serve) w is = some w' ∧ ∀ i ∈ is, w'.threads i = ⟨[], .stored, log i⟩ := by
  induction is generalizing w with
  | nil => exact ⟨w, rfl, fun i hi => by cases hi⟩
  | cons j is ih =>
    obtain ⟨hj, hnd⟩ := List.nodup_cons.1 hnd
    have hstep : w.step serve j =
        some ({ w with bigTable := w.bigTable.set j (log j) }.goto j ⟨[], .stored, log j⟩) := by
      rw [step, ht j List.mem_cons_self]
    have hkeep : ∀ i ∈ is, ({ w with bigTable := w.bigTable.set j (log j) }.goto j ⟨[], .stored, log j⟩).threads i =
        ⟨[], .ready, log i⟩ := by
      intro i hi
      have hij : i ≠ j := fun e => hj (by rwa [e] at hi)
      rw [goto_threads_of_ne _ hij]
      exact ht i (List.mem_cons_of_mem j hi)
    obtain ⟨w', hw', hrest⟩ := ih hnd hkeep
    refine ⟨w', Machine.exec_cons_eq_some.2 ⟨_, hstep, hw'⟩, List.forall_mem_cons.2 ⟨?_, hrest⟩⟩
    -- a thread that has stored its log takes no further step
    refine Machine.exec_invariant (fun u => u.threads j = ⟨[], .stored, log j⟩) (fun u i u' hu hs => ?_)
      (goto_threads_self _ _ _) hw'
    by_cases hi : j = i
    · rw [step, ← hi, hu] at hs
      cases hs
    · rw [(steps_of_step hs).threads_of_ne hi, hu]

/-- The threads of `requests` get there: if they perform their transactions one after another, in the order `txs`,
`bigTable` holds the logs of `performAll`. -/
theorem run_oneAtATime (p : Program) (m : Store) (rand : Fin T → Fin R → Nat × Nat × Nat)
    (txs : List (Fin T × Transaction)) (h : ∀ i, (txs.filter fun c => c.1 = i).map Prod.snd = setUp (rand i)) :
    ∃ w, Machine.exec (step (serve p)) (start rand { sharedKvstore := m }) (oneAtATime txs ++ List.finRange T) =
        some w ∧ w.Finished ∧ (performAll p { sharedKvstore := m } 0 txs).map (logs T) = some w.bigTable := by
  obtain ⟨u, hu, ht⟩ := exec_transactions p (w := start rand { sharedKvstore := m }) (fun _ => []) rfl
    fun i => by rw [h i]; rfl
  obtain ⟨w, hw, hstored⟩ := exec_stores (serve p) (List.nodup_finRange T) fun i _ => ht i
  have hexec := Machine.exec_append_eq_some.2 ⟨u, hu, hw⟩
  have hf : w.Finished := fun i => by rw [hstored i (List.mem_finRange i)]
  refine ⟨w, hexec, hf, ?_⟩
  rw [performAll_eq, Option.map_some, (logInv_of_exec hexec).table, logs]
  congr 1
  apply List.map_congr_left
  intro j _
  by_cases hj : j < T
  · rw [w.row_eq hf ⟨j, hj⟩, hstored _ (List.mem_finRange _)]
    rfl
  · rw [w.row_of_le (by omega), List.filter_eq_nil_iff]
    intro e he
    have := threadId_eventsFrom he
    simp
    omega

end World

/-! ### The verdict on it -/

theorem value_storeFrom (k : String) (m : Store) (txs : List (Fin T × Transaction)) :
    (storeFrom m txs).value k = (lastSet k (txs.map Prod.snd)).getD (m.value k) :=
  value_foldl_call k m (txs.map Prod.snd)

theorem answer_get {tx : Transaction} (hg : tx.request = get) (m : Store) :
    (answer m tx.call).value = m.value tx.key ∧
      ((answer m tx.call).error = .kKeyNotFound ↔ m.value tx.key = "") := by
  rw [tx.call_of_get hg]
  by_cases hv : m.value tx.key = "" <;> simp [answer, hv]

theorem lastSet_getD_eq_empty_iff {k v : String} {txs : List Transaction} :
    (lastSet k txs).getD v = "" ↔ lastSet k txs = none ∧ v = "" := by
  cases h : lastSet k txs with
  | none => simp
  | some x => simp [lastSet_ne_empty h]

/-- Some get finds nothing iff it comes before every set on a key without a value. -/
theorem exists_notFound_iff (m : Store) (txs : List (Fin T × Transaction)) :
    (∃ e ∈ eventsFrom m 0 txs, e.NotFound) ↔ ∃ k, m.value k = "" ∧ GetBeforeSet k txs := by
  constructor
  · intro h
    obtain ⟨e, he, hn⟩ := h
    obtain ⟨pre, post, heq⟩ := List.append_of_mem he
    obtain ⟨xs, c, ys, rfl, _, rfl⟩ := eventsFrom_eq_append_cons heq
    have hg : c.2.request = get := hn.1
    have hv := (answer_get hg _).2.1 hn.2
    rw [value_storeFrom, lastSet_getD_eq_empty_iff] at hv
    exact ⟨c.2.key, hv.2, xs, c, ys, rfl, hg, rfl, hv.1⟩
  · intro h
    obtain ⟨k, hk, xs, c, ys, rfl, hg, rfl, hl⟩ := h
    refine ⟨c.2.event c.1 (0 + xs.length) (answer (storeFrom m xs) c.2.call), ?_, hg, (answer_get hg _).2.2 ?_⟩
    · rw [eventsFrom_append]
      exact List.mem_append_right _ List.mem_cons_self
    · rw [value_storeFrom, hl]
      exact hk

/-- Some get on `key_2` is stale iff it comes before every set on `key_2` and finds a value. -/
theorem stale_iff (m : Store) (txs : List (Fin T × Transaction)) :
    Stale (eventsFrom m 0 txs) ↔ m.value key2 ≠ "" ∧ GetBeforeSet key2 txs := by
  constructor
  · intro h
    obtain ⟨pre, e, post, heq, hg, hv⟩ := h
    obtain ⟨xs, c, ys, rfl, rfl, rfl⟩ := eventsFrom_eq_append_cons heq
    obtain ⟨hreq, hkey⟩ := World.call_get hg
    have hval : (c.2.event c.1 xs.length (answer (storeFrom m xs) c.2.call)).response.value =
        (lastSet key2 (xs.map Prod.snd)).getD (m.value key2) := by
      rw [← hkey, ← value_storeFrom]
      exact (answer_get hreq _).1
    rw [hval, latest_eventsFrom] at hv
    cases hl : lastSet key2 (xs.map Prod.snd) with
    | none =>
      rw [hl] at hv
      exact ⟨hv, xs, c, ys, rfl, hreq, hkey, hl⟩
    | some v =>
      rw [hl] at hv
      exact absurd rfl hv
  · intro h
    obtain ⟨hv, xs, c, ys, rfl, hreq, hkey, hl⟩ := h
    refine ⟨eventsFrom m 0 xs, _, _, eventsFrom_append m 0 xs (c :: ys), hkey ▸ World.isGet_event hreq _ _ _, ?_⟩
    rw [latest_eventsFrom, hl]
    have hval := (answer_get hreq (storeFrom m xs)).1
    rw [value_storeFrom, hkey, hl] at hval
    exact fun h => hv (hval.symm.trans h)

/-- The scatter loop puts the events back in the order of their numbers. -/
theorem sortedBigTable_logs (m : Store) {txs : List (Fin T × Transaction)} (h : txs.length = T * R) :
    sortedBigTable T R (logs T (eventsFrom m 0 txs)) = some (eventsFrom m 0 txs) := by
  rw [sortedBigTable_eq]
  apply Scatter.scatter_eq
  · rw [map_sequenceNumber_eventsFrom, h, List.length_replicate, List.range_eq_range']
  · refine Scatter.flatten_buckets_perm fun e he => ?_
    have := threadId_eventsFrom he
    omega

theorem shape_eventsFrom (m : Store) (n : Nat) (txs : List (Fin T × Transaction)) :
    ∀ e ∈ eventsFrom m n txs, e.Shape := by
  induction txs generalizing m n with
  | nil => exact fun e he => by cases he
  | cons c txs ih => exact List.forall_mem_cons.2 ⟨.logged (c.2.logged_event _ _ _), ih _ _⟩

/-- If the requests are executed one at a time in the order of their numbers, the passes do not end with `exit(1)`
iff the store has no value for `key_2`, or no get on `key_2` comes before every set on it, or some get comes before
every set on its key and that key has no value. -/
theorem no_alarm_on_used_server_iff (p : Program) (m : Store) (txs : List (Fin T × Transaction))
    (h : txs.length = T * R) :
    ∃ events table, performAll p { sharedKvstore := m } 0 txs = some events ∧
      sortedBigTable T R (logs T events) = some table ∧
      (exitCode table ≠ some 1 ↔
        m.value key2 = "" ∨ ¬GetBeforeSet key2 txs ∨ ∃ k, m.value k = "" ∧ GetBeforeSet k txs) := by
  refine ⟨_, _, performAll_eq p m 0 txs, sortedBigTable_logs m h, ?_⟩
  have hn := exists_notFound_iff m txs
  have hs := stale_iff m txs
  rcases exitCode_cases (shape_eventsFrom m 0 txs) with ⟨hc, h2⟩ | ⟨hc, h2, h1⟩ | ⟨hc, _, h0⟩
  · rw [hc]
    exact ⟨fun _ => Or.inr (Or.inr (hn.1 h2)), fun _ => by decide⟩
  · rw [hc]
    obtain ⟨hv, hg⟩ := hs.1 h1
    refine ⟨fun hne => absurd rfl hne, fun hor => ?_⟩
    rcases hor with he | hg' | hk
    · exact absurd he hv
    · exact absurd hg hg'
    · obtain ⟨e, he, hnf⟩ := hn.2 hk
      exact absurd hnf (h2 e he)
  · rw [hc]
    refine ⟨fun _ => ?_, fun _ => by decide⟩
    by_cases hv : m.value key2 = ""
    · exact Or.inl hv
    · exact Or.inr (Or.inl fun hg => h0 (hs.2 ⟨hv, hg⟩))

/-- A store with a value for `key_2`, as an earlier run leaves it. -/
def usedStore : Store := Store.empty.assign key2 value1

/-- One thread sets `key_2`, and another gets it. -/
def setAndGet (a b : Fin 2) : List (Fin 2 × Transaction) := [(a, .draw (0, 1, 1)), (b, .draw (1, 1, 0))]

theorem used_server_set_and_get :
    ∃ events table,
      performAll .kvserverConsistent { sharedKvstore := usedStore } 0 (setAndGet 0 1) = some events ∧
      sortedBigTable 2 1 (logs 2 events) = some table ∧
      (exitCode table ≠ some 1 ↔
        usedStore.value key2 = "" ∨ ¬GetBeforeSet key2 (setAndGet 0 1) ∨
          ∃ k, usedStore.value k = "" ∧ GetBeforeSet k (setAndGet 0 1)) :=
  no_alarm_on_used_server_iff .kvserverConsistent usedStore (setAndGet 0 1) rfl

/-- One get on `key_2`: it finds the value of the earlier run, and the checker reports an inconsistency. -/
theorem used_server_false_alarm :
    ((performAll .kvserver { sharedKvstore := usedStore } 0 [((0 : Fin 1), .draw (1, 1, 0))]).bind fun events =>
      (sortedBigTable 1 1 (logs 1 events)).map exitCode) = some (some 1) ∧
    ((performAll .kvserverConsistent { sharedKvstore := usedStore } 0 [((0 : Fin 1), .draw (1, 1, 0))]).bind
      fun events => (sortedBigTable 1 1 (logs 1 events)).map exitCode) = some (some 1) := by
  constructor
  · decide
  · decide

end ConsistencyTest

end KVStore
