import KVStore.Outcomes
import KVStore.Race

/-!
# Runs of the consistency test against the correct server

The threads of `consistency_test` against `kvserver_consistent`, with `sequence_no++` as one step (`atomicStep`) and
no fault in the server.  A thread takes its number before its request is executed, and nothing ties the two: the
numbers give one order of the transactions (`numbering`), the server another one (`executed`).

`Served` says what the history of a run tells about its state: which transaction has which number, and that each
response is the answer of the store after the transactions executed before.
-/

namespace KVStore

namespace ConsistencyTest

/-- A call of `kvserver_consistent` as one step. -/
def serveConsistent (s : Server) (r : Request) : Option (Result × Server) :=
  match Program.kvserverConsistent.handle s { request := r } with
  | (.reply res, s') => some (res, s')
  | _ => none

theorem serveConsistent_eq {s : Server} (hl : s.lck = false) (r : Request) :
    serveConsistent s r = some (answer s.sharedKvstore r, { s with sharedKvstore := effect s.sharedKvstore r }) := by
  rw [serveConsistent, Program.handle_eq _ hl (by cases r <;> rfl)]

/-- What happens in a run that decides on its answers: a transaction gets the next number, or is executed. -/
inductive Moment where
  | take (tx : Transaction)
  | execute (n : Nat) (tx : Transaction)
  deriving DecidableEq

/-- The transactions in the order of their numbers. -/
def numbering (h : List Moment) : List Transaction :=
  h.filterMap fun
    | .take tx => some tx
    | .execute _ _ => none

/-- The transactions in the order of their execution, with their numbers. -/
def executed (h : List Moment) : List (Nat × Transaction) :=
  h.filterMap fun
    | .take _ => none
    | .execute n tx => some (n, tx)

@[simp] theorem numbering_append (h h' : List Moment) : numbering (h ++ h') = numbering h ++ numbering h' :=
  List.filterMap_append

@[simp] theorem executed_append (h h' : List Moment) : executed (h ++ h') = executed h ++ executed h' :=
  List.filterMap_append

/-- The store after some transactions on an empty one. -/
def storeAfter (txs : List Transaction) : Store := (txs.map Transaction.call).foldl effect Store.empty

/-- The transaction `tx` with the number `n` was executed in `h` and answered with `res`. -/
def Answered (h : List Moment) (n : Nat) (tx : Transaction) (res : Result) : Prop :=
  ∃ p, (executed h)[p]? = some (n, tx) ∧
    res = answer (storeAfter (((executed h).take p).map Prod.snd)) tx.call

theorem Answered.append {h : List Moment} {n : Nat} {tx : Transaction} {res : Result} (ha : Answered h n tx res)
    (h' : List Moment) : Answered (h ++ h') n tx res := by
  obtain ⟨p, hp, hr⟩ := ha
  have hlt : p < (executed h).length := (List.getElem?_eq_some_iff.1 hp).1
  refine ⟨p, ?_, ?_⟩
  · rw [executed_append, List.getElem?_append_left hlt]
    exact hp
  · rw [executed_append, List.take_append_of_le_length (Nat.le_of_lt hlt)]
    exact hr

namespace World

variable {T : Nat}

/-- `step`, with the write-back of `sequence_no` taken together with the read. -/
def atomicStep (w : World T Server) (i : Fin T) : Option (World T Server) :=
  match w.step serveConsistent i with
  | some w' =>
    match (w'.threads i).stage with
    | .incrementing _ _ => w'.step serveConsistent i
    | _ => some w'
  | none => none

def observe (w : World T Server) (i : Fin T) : List Moment :=
  match w.threads i with
  | ⟨tx :: _, .ready, _⟩ => [.take tx]
  | ⟨_, .numbered tx n, _⟩ => [.execute n tx]
  | _ => []

/-- Between atomic steps nobody is incrementing. -/
def Settled (w : World T Server) : Prop := ∀ i, ¬(w.threads i).stage.Incrementing

/-- What an atomic step can do. -/
inductive AtomicSteps (w : World T Server) (i : Fin T) : World T Server → Prop
  | take (tx todo log) : w.threads i = ⟨tx :: todo, .ready, log⟩ →
      AtomicSteps w i ({ w with sequenceNo := w.sequenceNo + 1 }.goto i ⟨todo, .numbered tx w.sequenceNo, log⟩)
  | send (tx n todo log res server) : w.threads i = ⟨todo, .numbered tx n, log⟩ →
      serveConsistent w.server tx.call = some (res, server) →
      AtomicSteps w i ({ w with server := server }.goto i ⟨todo, .answered tx n res, log⟩)
  | push (tx n todo log res) : w.threads i = ⟨todo, .answered tx n res, log⟩ →
      AtomicSteps w i (w.goto i ⟨todo, .ready, log ++ [tx.event i n res]⟩)
  | store (log) : w.threads i = ⟨[], .ready, log⟩ →
      AtomicSteps w i ({ w with bigTable := w.bigTable.set i log }.goto i ⟨[], .stored, log⟩)

private theorem atomicStep_cases {w w' : World T Server} {i : Fin T} (h : w.atomicStep i = some w') :
    ∃ v, w.step serveConsistent i = some v ∧
      ((v.threads i).stage.Incrementing ∧ v.step serveConsistent i = some w' ∨
        ¬(v.threads i).stage.Incrementing ∧ v = w') := by
  unfold atomicStep at h
  split at h
  · rename_i v hv
    refine ⟨v, hv, ?_⟩
    split at h
    · rename_i tx n hst
      exact Or.inl ⟨incrementing_iff.2 ⟨tx, n, hst⟩, h⟩
    · rename_i hst
      refine Or.inr ⟨fun hinc => ?_, Option.some.inj h⟩
      obtain ⟨tx, n, e⟩ := incrementing_iff.1 hinc
      exact hst tx n e
  · cases h

theorem atomicSteps_of_step {w w' : World T Server} {i : Fin T} (hw : Settled w)
    (h : w.atomicStep i = some w') : AtomicSteps w i w' := by
  obtain ⟨v, hv, h⟩ := atomicStep_cases h
  cases steps_of_step hv with
  | read tx todo log ht =>
    rcases h with ⟨_, h⟩ | ⟨h, _⟩
    · rw [step_of_incrementing (goto_threads_self _ _ _)] at h
      obtain rfl := Option.some.inj h
      simp only [goto, Function.update_idem]
      exact .take tx todo log ht
    · rw [goto_threads_self] at h
      exact absurd trivial h
  | write tx n todo log ht => exact absurd (by rw [ht]; trivial) (hw i)
  | send tx n todo log res server ht hr =>
    rcases h with ⟨h, _⟩ | ⟨_, rfl⟩
    · rw [goto_threads_self] at h
      exact h.elim
    · exact .send tx n todo log res server ht hr
  | push tx n todo log res ht =>
    rcases h with ⟨h, _⟩ | ⟨_, rfl⟩
    · rw [goto_threads_self] at h
      exact h.elim
    · exact .push tx n todo log res ht
  | store log ht =>
    rcases h with ⟨h, _⟩ | ⟨_, rfl⟩
    · rw [goto_threads_self] at h
      exact h.elim
    · exact .store log ht

/-- An atomic step is one step or two, none of which overlaps an increment. -/
theorem inv_atomicStep (Inv : World T Server → Prop)
    (hstep : ∀ w i w', Inv w → Separate w i → w.step serveConsistent i = some w' → Inv w')
    {w w' : World T Server} {i : Fin T} (hi : Inv w) (hw : Settled w) (h : w.atomicStep i = some w') : Inv w' := by
  obtain ⟨v, hv, h⟩ := atomicStep_cases h
  have hinv := hstep w i v hi (fun _ => hw) hv
  rcases h with ⟨hinc, h⟩ | ⟨_, rfl⟩
  · refine hstep v i w' hinv (fun hr => ?_) h
    rw [hr.1] at hinc
    exact hinc.elim
  · exact hinv

theorem AtomicSteps.threads_of_ne {w w' : World T Server} {i j : Fin T} (h : AtomicSteps w i w') (hj : j ≠ i) :
    w'.threads j = w.threads j := by
  cases h <;> exact goto_threads_of_ne _ hj _

theorem Settled.step {w w' : World T Server} {i : Fin T} (hw : Settled w) (h : AtomicSteps w i w') :
    Settled w' := by
  intro j
  by_cases hj : j = i
  · subst hj
    cases h <;> simp [Stage.Incrementing]
  · rw [h.threads_of_ne hj]
    exact hw j

end World

/-! ### The history of a run -/

/-- What the history of a run says about the number and the responses that the thread `id` holds. -/
structure Thread.Served (th : Thread) (h : List Moment) (id : Nat) : Prop where
  pending : ∀ tx n, th.stage = .numbered tx n → (numbering h)[n]? = some tx ∧ n ∉ (executed h).map Prod.fst
  answers : ∀ tx n res, th.stage = .answered tx n res → Answered h n tx res
  logged : ∀ e ∈ th.log, ∃ tx res, e = tx.event id e.sequenceNumber res ∧ Answered h e.sequenceNumber tx res

/-- The history goes on, and the number that the thread holds is not executed. -/
theorem Thread.Served.append {th : Thread} {h : List Moment} {id : Nat} (hs : th.Served h id) (h' : List Moment)
    (hnew : ∀ tx n, th.stage = .numbered tx n → n ∉ (executed h').map Prod.fst) : th.Served (h ++ h') id where
  pending := by
    intro tx n hst
    obtain ⟨h1, h2⟩ := hs.pending tx n hst
    have hlt : n < (numbering h).length := (List.getElem?_eq_some_iff.1 h1).1
    rw [numbering_append, executed_append, List.getElem?_append_left hlt, List.map_append, List.mem_append]
    exact ⟨h1, fun hm => hm.elim h2 (hnew tx n hst)⟩
  answers := fun tx n res hst => (hs.answers tx n res hst).append h'
  logged := by
    intro e he
    obtain ⟨tx, res, h1, h2⟩ := hs.logged e he
    exact ⟨tx, res, h1, h2.append h'⟩

namespace World

/-- What the history of a run says about the server, the numbers and the threads. -/
structure Served (w : World T Server) (h : List Moment) : Prop where
  server : w.server = { sharedKvstore := storeAfter ((executed h).map Prod.snd) }
  count : (numbering h).length = w.sequenceNo
  known : ∀ c ∈ executed h, (numbering h)[c.1]? = some c.2
  once : ((executed h).map Prod.fst).Nodup
  threads : ∀ i, (w.threads i).Served h i

theorem served_start {R : Nat} (rand : Fin T → Fin R → Nat × Nat × Nat) : Served (start rand {}) [] where
  server := rfl
  count := rfl
  known c h := by cases h
  once := List.nodup_nil
  threads i := by
    refine ⟨fun tx n h => ?_, fun tx n res h => ?_, fun e h => ?_⟩ <;> cases h

section Step

variable {w w' : World T Server} {h : List Moment} {i : Fin T}

theorem Served.lt_of_executed (hi : Served w h) {n : Nat} (hn : n ∈ (executed h).map Prod.fst) :
    n < w.sequenceNo := by
  obtain ⟨c, hc, rfl⟩ := List.mem_map.1 hn
  have hk := hi.known c hc
  rw [← hi.count]
  exact (List.getElem?_eq_some_iff.1 hk).1

/-- The threads after a step of `i`, if no other thread's number is executed in it. -/
private theorem threads_goto (hi : Served w h) (h' : List Moment)
    (hnew : ∀ j, j ≠ i → ∀ tx n, (w.threads j).stage = .numbered tx n → n ∉ (executed h').map Prod.fst)
    {th : Thread} (hth : th.Served (h ++ h') i) (j : Fin T) :
    ((w.goto i th).threads j).Served (h ++ h') j := by
  by_cases hj : j = i
  · rw [hj, goto_threads_self]
    exact hth
  · rw [goto_threads_of_ne _ hj]
    exact (hi.threads j).append h' (hnew j hj)

private theorem served_take (hi : Served w h) {tx : Transaction} {todo : List Transaction} {log : List Events}
    (ht : w.threads i = ⟨tx :: todo, .ready, log⟩) :
    Served ({ w with sequenceNo := w.sequenceNo + 1 }.goto i ⟨todo, .numbered tx w.sequenceNo, log⟩)
      (h ++ [.take tx]) := by
  have hn : numbering (h ++ [.take tx]) = numbering h ++ [tx] := by simp [numbering]
  have he : executed (h ++ [.take tx]) = executed h := by simp [executed]
  have hold := (hi.threads i).append [.take tx] (by simp [ht])
  refine ⟨by rw [he]; exact hi.server, by simp [hn, hi.count], ?_, by rw [he]; exact hi.once, ?_⟩
  · intro c hc
    rw [he] at hc
    have hlt : c.1 < (numbering h).length := (List.getElem?_eq_some_iff.1 (hi.known c hc)).1
    rw [hn, List.getElem?_append_left hlt]
    exact hi.known c hc
  · refine threads_goto hi [.take tx] (by simp [executed]) ⟨fun tx' n hst => ?_, fun tx' n res hst => ?_, ?_⟩
    · obtain ⟨rfl, rfl⟩ := Stage.numbered.inj hst
      rw [hn, he, ← hi.count, List.getElem?_concat_length]
      exact ⟨rfl, fun hm => Nat.lt_irrefl _ (hi.count ▸ hi.lt_of_executed hm)⟩
    · cases hst
    · rw [ht] at hold
      exact hold.logged

private theorem served_send (hi : Served w h) (hnum : Numbering w) {tx : Transaction} {n : Nat}
    {todo : List Transaction} {log : List Events} {res : Result} {server : Server}
    (ht : w.threads i = ⟨todo, .numbered tx n, log⟩)
    (hr : serveConsistent w.server tx.call = some (res, server)) :
    Served ({ w with server := server }.goto i ⟨todo, .answered tx n res, log⟩) (h ++ [.execute n tx]) := by
  have hn : numbering (h ++ [.execute n tx]) = numbering h := by simp [numbering]
  have he : executed (h ++ [.execute n tx]) = executed h ++ [(n, tx)] := by simp [executed]
  obtain ⟨hp1, hp2⟩ := (hi.threads i).pending tx n (by rw [ht])
  have hserver := hi.server
  rw [hserver, serveConsistent_eq rfl] at hr
  obtain ⟨rfl, rfl⟩ := Prod.mk.inj (Option.some.inj hr)
  refine ⟨?_, by rw [hn]; exact hi.count, ?_, ?_, ?_⟩
  · simp [he, storeAfter]
  · intro c hc
    rw [he, List.mem_append, List.mem_singleton] at hc
    rw [hn]
    rcases hc with hc | rfl
    · exact hi.known c hc
    · exact hp1
  · rw [he, List.map_append, List.nodup_append]
    refine ⟨hi.once, List.nodup_singleton _, fun a ha b hb hab => hp2 ?_⟩
    obtain rfl : b = n := by simpa using hb
    exact hab ▸ ha
  · refine threads_goto hi [.execute n tx] ?_ ⟨fun tx' m hst => ?_, fun tx' m res' hst => ?_, fun e hm => ?_⟩
    · -- the number belongs to the thread `i`
      intro j hj tx' m hst hm
      obtain rfl : m = n := by simpa [executed] using hm
      exact hj (hnum.disjoint j i m (Thread.mem_numbers (by rw [hst]; rfl)) (Thread.mem_numbers (by rw [ht]; rfl)))
    · cases hst
    · obtain ⟨rfl, rfl, rfl⟩ := Stage.answered.inj hst
      refine ⟨(executed h).length, by rw [he, List.getElem?_concat_length], ?_⟩
      rw [he, List.take_left']
      rfl
    · obtain ⟨tx', res', h1, h2⟩ := (hi.threads i).logged e (by rwa [ht])
      exact ⟨tx', res', h1, h2.append _⟩

private theorem served_push (hi : Served w h) {tx : Transaction} {n : Nat} {todo : List Transaction}
    {log : List Events} {res : Result} (ht : w.threads i = ⟨todo, .answered tx n res, log⟩) :
    Served (w.goto i ⟨todo, .ready, log ++ [tx.event i n res]⟩) (h ++ []) := by
  have hold := hi.threads i
  rw [ht] at hold
  rw [← List.append_nil h] at hold
  refine ⟨by simpa using hi.server, by simpa using hi.count, by simpa using hi.known, by simpa using hi.once,
    threads_goto hi [] (by simp [executed]) ⟨fun tx' m hst => ?_, fun tx' m res' hst => ?_, fun e hm => ?_⟩⟩
  · cases hst
  · cases hst
  · rcases List.mem_append.1 hm with hm | hm
    · exact hold.logged e hm
    · obtain rfl := List.mem_singleton.1 hm
      exact ⟨tx, res, rfl, hold.answers tx n res rfl⟩

private theorem served_store (hi : Served w h) {log : List Events} (ht : w.threads i = ⟨[], .ready, log⟩) :
    Served ({ w with bigTable := w.bigTable.set i log }.goto i ⟨[], .stored, log⟩) (h ++ []) := by
  have hold := hi.threads i
  rw [ht] at hold
  rw [← List.append_nil h] at hold
  refine ⟨by simpa using hi.server, by simpa using hi.count, by simpa using hi.known, by simpa using hi.once,
    threads_goto hi [] (by simp [executed]) ⟨fun tx' m hst => ?_, fun tx' m res' hst => ?_, hold.logged⟩⟩
  · cases hst
  · cases hst

theorem Served.step (hi : Served w h) (hw : Settled w) (hnum : Numbering w) (hs : w.atomicStep i = some w') :
    Served w' (h ++ w.observe i) := by
  cases atomicSteps_of_step hw hs with
  | take tx todo log ht =>
    have ho : w.observe i = [.take tx] := by rw [observe, ht]
    exact ho ▸ served_take hi ht
  | send tx n todo log res server ht hr =>
    have ho : w.observe i = [.execute n tx] := by rw [observe, ht]; cases todo <;> rfl
    exact ho ▸ served_send hi hnum ht hr
  | push tx n todo log res ht =>
    have ho : w.observe i = [] := by rw [observe, ht]; cases todo <;> rfl
    exact ho ▸ served_push hi ht
  | store log ht =>
    have ho : w.observe i = [] := by rw [observe, ht]
    exact ho ▸ served_store hi ht

end Step

/-! ### Whole runs -/

variable {R : Nat} {rand : Fin T → Fin R → Nat × Nat × Nat}

/-- The history of a run on an empty store. -/
def history (rand : Fin T → Fin R → Nat × Nat × Nat) (sched : List (Fin T)) : List Moment :=
  Machine.trace atomicStep observe (start rand {}) sched

theorem served_of_exec {sched : List (Fin T)} {w : World T Server}
    (h : Machine.exec atomicStep (start rand {}) sched = some w) :
    Settled w ∧ Numbering w ∧ LogInv rand w ∧ Served w (history rand sched) := by
  refine Machine.exec_history_invariant (h := []) (fun _ _ => True) observe
    (fun w h => Settled w ∧ Numbering w ∧ LogInv rand w ∧ Served w h) ?_ ?_ (Machine.along_true _ _) h
  · rintro w h i w' ⟨hw, hnum, hl, hi⟩ _ hs
    exact ⟨hw.step (atomicSteps_of_step hw hs),
      inv_atomicStep Numbering (fun _ _ _ hi hsep hs => hi.step hsep hs) hnum hw hs,
      inv_atomicStep (LogInv rand) (fun _ _ _ hi _ hs => hi.step hs) hl hw hs, hi.step hw hnum hs⟩
  · exact ⟨fun i h => h, numbering_start rand _, logInv_start rand _, served_start rand⟩

end World

end ConsistencyTest

end KVStore
