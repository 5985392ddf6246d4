import KVStore.Calls
import KVStore.Lib.Clients
import KVStore.UsedServer

/-!
# The consistency test over the network

`consistency_test` as it runs: each thread has a connection to `kvserver_consistent`, the texts of requests and replies
arrive in parts, and the steps of all threads, connections and handlers interleave.  The server is no longer one step
per request, as it is for `World.step`.  The threads cannot tell the difference: whatever they come to, they come to in
a run of `World.step` (`threads_over_net`), so what has been shown of these runs holds of the test.
-/

namespace KVStore

open Thrift Linearizable

namespace ConsistencyTest

/-! ### The threads as clients -/

structure Globals where
  sequenceNo : Nat := 0
  bigTable : List (List Events)

/-- The call that a thread is about to make.  Nothing throws in it. -/
def Thread.calls (th : Thread) : Option Call :=
  match th.stage with
  | .numbered tx _ => some { request := tx.call }
  | _ => none

/-- A thread after its call has returned.  It does not catch an exception. -/
def Thread.resume (th : Thread) (x : Received) : Option Thread :=
  match th.stage, x with
  | .numbered tx n, some (.ok w) => w.result.map fun res => { th with stage := .answered tx n res }
  | _, _ => none

/-- What a thread does without the server. -/
def Thread.act {T : Nat} (i : Fin T) (g : Globals) (th : Thread) : Option (Globals × Thread) :=
  (World.step (fun _ _ => none) ⟨g.sequenceNo, (), fun _ => th, g.bigTable⟩ i).map fun w =>
    (⟨w.sequenceNo, w.bigTable⟩, w.threads i)

theorem Thread.exists_of_calls {th : Thread} {q : Call} (h : th.calls = some q) :
    ∃ todo tx n log, th = ⟨todo, .numbered tx n, log⟩ ∧ q = { request := tx.call } := by
  obtain ⟨todo, stage, log⟩ := th
  cases stage with
  | numbered tx n => exact ⟨todo, tx, n, log, rfl, (Option.some.inj h).symm⟩
  | _ => cases h

theorem Thread.act_of_calls {T : Nat} (i : Fin T) (g : Globals) {th : Thread} {q : Call} (h : th.calls = some q) :
    th.act i g = none := by
  obtain ⟨todo, tx, n, log, rfl, _⟩ := Thread.exists_of_calls h
  cases todo <;> rfl

theorem Thread.resume_wire (todo : List Transaction) (tx : Transaction) (n : Nat) (log : List Events) (res : Result) :
    (Thread.mk todo (.numbered tx n) log).resume (some (.ok res.wire)) = some ⟨todo, .answered tx n res, log⟩ := by
  show (res.wire.result.map fun res => _) = _
  rw [WireResult.result_wire]
  rfl

/-- The threads of `requests`.  An exception ends the program; here the thread is `none`, and the test never ends. -/
def clients (T : Nat) : Clients (Fin T) Globals (Option Thread) Call Received where
  act i g th := th.bind fun th => (th.act i g).map fun (g, th) => (g, some th)
  calls th := th.bind Thread.calls
  resume _ th x := th.bind fun th => th.resume x
  act_of_calls := by
    intro i g th r h
    obtain ⟨th, rfl, h⟩ := Option.bind_eq_some_iff.1 h
    rw [Option.bind_some, Thread.act_of_calls i g h]
    rfl

variable {T R : Nat} {β : Type} (P : TProtocol β) (what : String)

/-- The test and the network. -/
abbrev Testbed (T : Nat) (β : Type) := System (Fin T) Globals (Option Thread) (Net (Fin T) β)

def Testbed.start (rand : Fin T → Fin R → Nat × Nat × Nat) : Testbed T β where
  globals := { bigTable := List.replicate (T * 2) [] }
  locals i := some { todo := setUp (rand i) }
  object := {}

/-- A thread steps on its own, or something happens at its connection. -/
def Testbed.step : Testbed T β → Fin T × Option NetAct → Option (Testbed T β) :=
  (clients T).step (Net.step P what) (Net.observe P)

/-- All threads have stored their logs. -/
def Testbed.Finished (b : Testbed T β) : Prop := ∀ i, ∃ th, b.locals i = some th ∧ th.stage = .stored

/-! ### A server that executes a request in one step -/

/-- A state of `World.step` as one of the clients. -/
def World.system (w : World T Server) : System (Fin T) Globals (Option Thread) Server where
  globals := ⟨w.sequenceNo, w.bigTable⟩
  locals i := some (w.threads i)
  object := w.server

variable {what} {w w' : World T Server} {i : Fin T}

private theorem system_goto (w : World T Server) (i : Fin T) (th : Thread) :
    (w.goto i th).system = Clients.goto w.system i (some th) := by
  have h : (fun j => some (Function.update w.threads i th j)) =
      Function.update (fun j => some (w.threads j)) i (some th) := Function.comp_update some w.threads i th
  unfold World.system World.goto Clients.goto
  rw [h]

theorem World.step_of_numbered {σ : Type} {serve : σ → Request → Option (Result × σ)} {w : World T σ}
    {tx : Transaction} {n : Nat} {todo : List Transaction} {log : List Events}
    (h : w.threads i = ⟨todo, .numbered tx n, log⟩) :
    w.step serve i = (serve w.server tx.call).map fun (res, server) =>
      { w with server := server }.goto i ⟨todo, .answered tx n res, log⟩ := by
  rw [World.step, h]
  cases todo <;> rfl

/-- A step that is not the execution of a request needs no server. -/
theorem World.step_of_not_numbered {σ : Type} (serve : σ → Request → Option (Result × σ)) {w : World T σ}
    (h : (w.threads i).calls = none) :
    w.step serve i = ((w.threads i).act i ⟨w.sequenceNo, w.bigTable⟩).map fun (g, th) =>
      { w with sequenceNo := g.sequenceNo, bigTable := g.bigTable }.goto i th := by
  unfold Thread.act World.step
  rcases hi : w.threads i with ⟨todo, stage, log⟩
  rw [hi] at h
  cases stage with
  | numbered tx n => cases h
  | _ => cases todo <;> simp [World.goto]

theorem serve_of_unlocked {s : Server} (hl : s.lck = false) (r : Request) :
    serve .kvserverConsistent s r =
      some (answer s.sharedKvstore r, { s with sharedKvstore := effect s.sharedKvstore r }) := by
  rw [serve, Program.handle_eq _ hl (by cases r <;> rfl)]

theorem remote_of_unlocked {s : Server} (hl : s.lck = false) (r : Request) :
    Net.remote what s { request := r } = (some (.ok (answer s.sharedKvstore r).wire),
      { s with sharedKvstore := effect s.sharedKvstore r }) := by
  rw [Net.remote, Throwing.whole, Program.handle_eq _ hl (by cases r <;> rfl)]
  rfl

/-- With a server that is not locked the clients step as `World.step` says. -/
theorem atomicStep_system (hl : w.server.lck = false) (i : Fin T) :
    (clients T).atomicStep (Net.remote what) w.system i =
      (w.step (serve .kvserverConsistent) i).map World.system := by
  cases h : (w.threads i).calls with
  | none =>
    have hcalls : (clients T).calls (w.system.locals i) = none := h
    have hact : (clients T).act i w.system.globals (w.system.locals i) =
      ((w.threads i).act i ⟨w.sequenceNo, w.bigTable⟩).map fun (g, th) => (g, some th) := rfl
    rw [Clients.atomicStep, hcalls, Clients.ownStep, hact, w.step_of_not_numbered _ h, Option.map_map, Option.map_map]
    refine congrArg (fun f => Option.map f _) (funext fun x => ?_)
    exact (system_goto { w with sequenceNo := x.1.sequenceNo, bigTable := x.1.bigTable } i x.2).symm
  | some r =>
    obtain ⟨todo, tx, n, log, hi, rfl⟩ := Thread.exists_of_calls h
    have hcalls : (clients T).calls (w.system.locals i) = some { request := tx.call } := h
    have hremote : Net.remote what w.system.object { request := tx.call } = _ := remote_of_unlocked hl tx.call
    have hresume : (clients T).resume i (w.system.locals i) = (w.threads i).resume := rfl
    rw [Clients.atomicStep, hcalls]
    dsimp only
    rw [hremote, hresume, hi, Thread.resume_wire, World.step_of_numbered hi, serve_of_unlocked hl, Option.map_some,
      Option.map_some, system_goto]
    rfl

theorem unlocked_step (hl : w.server.lck = false) (hs : w.step (serve .kvserverConsistent) i = some w') :
    w'.server.lck = false := by
  cases World.steps_of_step hs with
  | send tx n todo log res server ht h =>
    rw [serve_of_unlocked hl] at h
    obtain ⟨_, rfl⟩ := Prod.mk.inj (Option.some.inj h)
    exact hl
  | _ => exact hl

/-- A run of the clients is one of `World.step`. -/
theorem exec_system (hl : w.server.lck = false) {cs : List (Fin T)}
    {s : System (Fin T) Globals (Option Thread) Server}
    (hs : Machine.exec ((clients T).atomicStep (Net.remote what)) w.system cs = some s) :
    ∃ w', Machine.exec (World.step (serve .kvserverConsistent)) w cs = some w' ∧ s = w'.system := by
  induction cs generalizing w with
  | nil => exact ⟨w, rfl, (Option.some.inj hs).symm⟩
  | cons i cs ih =>
    obtain ⟨s', h', hs⟩ := Machine.exec_cons_eq_some.1 hs
    rw [atomicStep_system hl] at h'
    obtain ⟨w₁, h₁, rfl⟩ := Option.map_eq_some_iff.1 h'
    obtain ⟨w', hw', rfl⟩ := ih (unlocked_step hl h₁) hs
    exact ⟨w', Machine.exec_cons_eq_some.2 ⟨w₁, h₁, hw'⟩, rfl⟩

/-! ### Whole runs -/

/-- A thread of the test is where it is if requests are executed in one step, or its answer has not come yet. -/
inductive Behind : Thread → Thread → Prop
  | same (th : Thread) : Behind th th
  | waiting (todo tx n log res) : Behind ⟨todo, .numbered tx n, log⟩ ⟨todo, .answered tx n res, log⟩

theorem Behind.stored_iff {th th' : Thread} (h : Behind th th') : th'.stage = .stored ↔ th.stage = .stored := by
  cases h with
  | same => rfl
  | waiting => exact ⟨Stage.noConfusion, Stage.noConfusion⟩

/-- The thread has the same work done and to do. -/
theorem Behind.eq {th th' : Thread} (h : Behind th th') :
    th'.stage.inWork = th.stage.inWork ∧ th'.todo = th.todo ∧ th'.log = th.log := by
  cases h with
  | same => exact ⟨rfl, rfl, rfl⟩
  | waiting => exact ⟨rfl, rfl, rfl⟩

private theorem behind_of_settled {i : Fin T} {l : Option Thread} {th : Thread} {st : Status Call Received}
    (hc : (clients T).Calling l st) (h : some th = (clients T).settled i l st) :
    ∃ th', l = some th' ∧ Behind th' th := by
  cases st with
  | idle => exact ⟨th, h.symm, .same th⟩
  | pending id r => exact ⟨th, h.symm, .same th⟩
  | done id r x =>
    obtain ⟨th', rfl, hc⟩ := Option.bind_eq_some_iff.1 (show l.bind Thread.calls = some r from hc)
    refine ⟨th', rfl, ?_⟩
    obtain ⟨todo, tx, n, log, rfl, _⟩ := Thread.exists_of_calls hc
    have h : (Thread.mk todo (.numbered tx n) log).resume x = some th := h.symm
    obtain _ | _ | w := x
    · cases h
    · cases h
    · obtain ⟨res, _, rfl⟩ := Option.map_eq_some_iff.1 (show w.result.map _ = some th from h)
      exact .waiting todo tx n log res

/-- Whatever the test comes to over the network, it comes to if every request is executed in one step; only the answers
that are on their way are there already.  No thread is ended by an exception. -/
theorem threads_over_net (hP : P.Lawful) (what : String) (rand : Fin T → Fin R → Nat × Nat × Nat)
    (acts : List (Fin T × Option NetAct)) (b : Testbed T β)
    (hs : Machine.exec (Testbed.step P what) (Testbed.start rand) acts = some b) :
    ∃ schedule w, Machine.exec (World.step (serve .kvserverConsistent)) (World.start rand {}) schedule = some w ∧
      w.sequenceNo = b.globals.sequenceNo ∧ w.bigTable = b.globals.bigTable ∧
      ∀ i, ∃ th, b.locals i = some th ∧ Behind th (w.threads i) := by
  obtain ⟨cs, s, o, hcs, hR, hm⟩ := Clients.exec_atomicStep (Net.simulates hP) Net.simulated_init hs
  obtain ⟨w, hw, rfl⟩ := exec_system (w := World.start rand {}) rfl hcs
  refine ⟨cs, w, hw, congrArg Globals.sequenceNo hm.globals, congrArg Globals.bigTable hm.globals, fun i => ?_⟩
  exact behind_of_settled (hm.calling i) (hm.locals i)

/-! ### A schedule for every run -/

variable {P : TProtocol β} {what : String}

/-- The test is where it is in `w`, and nothing is on its way. -/
structure Settled (b : Testbed T β) (w : World T Server) : Prop where
  globals : b.globals = ⟨w.sequenceNo, w.bigTable⟩
  locals : ∀ i, b.locals i = some (w.threads i)
  object : b.object.Quiet w.server.sharedKvstore
  unlocked : w.server.lck = false
  sendable : w.server.Sendable

theorem settled_start (rand : Fin T → Fin R → Nat × Nat × Nat) :
    Settled (Testbed.start rand : Testbed T β) (World.start rand {}) where
  globals := rfl
  locals _ := rfl
  object := ⟨rfl, rfl, fun _ => rfl, fun _ => rfl, fun _ => ⟨0, rfl⟩⟩
  unlocked := rfl
  sendable _ := (by decide : Sendable "")

theorem Transaction.sendable_call (tx : Transaction) : tx.call.Sendable := by
  have hkey : Thrift.Sendable tx.key := by rcases tx.key_mem with h | h <;> rw [h] <;> decide
  have hvalue : Thrift.Sendable tx.value := by rcases tx.value_mem with h | h <;> rw [h] <;> decide
  unfold Transaction.call
  split
  · exact ⟨hkey, hvalue⟩
  · exact hkey

theorem Transaction.call_ne_kvdelete (tx : Transaction) (key : String) : tx.call ≠ .kvdelete key := by
  unfold Transaction.call
  split <;> exact Request.noConfusion

variable {b : Testbed T β} {w w' : World T Server} {i : Fin T}

private theorem Settled.goto (hb : Settled b w) (i : Fin T) (g : Globals) (s : Server) (th : Thread)
    {n : Net (Fin T) β} (hn : n.Quiet s.sharedKvstore) (hl : s.lck = false) (hs : s.Sendable) :
    Settled (Clients.goto { b with globals := g, object := n } i (some th))
      ({ w with sequenceNo := g.sequenceNo, bigTable := g.bigTable, server := s }.goto i th) := by
  refine ⟨rfl, fun j => ?_, hn, hl, hs⟩
  by_cases hj : j = i
  · rw [hj, Clients.goto_self, World.goto_threads_self]
  · rw [Clients.goto_of_ne _ hj, World.goto_threads_of_ne _ hj]
    exact hb.locals j

/-- A step of `World.step` is some steps over the network, with nothing in between. -/
theorem Settled.step (hP : P.Lawful) (hwhat : Sendable what) (hb : Settled b w)
    (hs : w.step (serve .kvserverConsistent) i = some w') :
    ∃ as b', Machine.exec (Testbed.step P what) b as = some b' ∧ Settled b' w' := by
  have hloc := hb.locals i
  cases h : (w.threads i).calls with
  | none =>
    rw [w.step_of_not_numbered _ h] at hs
    obtain ⟨⟨g, th⟩, hact, rfl⟩ := Option.map_eq_some_iff.1 hs
    refine ⟨[(i, none)], Clients.goto { b with globals := g } i (some th), ?_,
      hb.goto i g w.server th hb.object hb.unlocked hb.sendable⟩
    have hown : (clients T).act i b.globals (b.locals i) = some (g, some th) := by
      rw [hb.globals, hloc]
      show ((w.threads i).act i _).map _ = _
      rw [hact]
      rfl
    have hstep : Testbed.step P what b (i, none) = some (Clients.goto { b with globals := g } i (some th)) := by
      rw [Testbed.step, Clients.step, Clients.ownStep, hown]
      rfl
    rw [Machine.exec_cons, hstep]
    rfl
  | some r =>
    obtain ⟨todo, tx, n, log, hi, rfl⟩ := Thread.exists_of_calls h
    rw [World.step_of_numbered hi, serve_of_unlocked hb.unlocked] at hs
    obtain rfl := Option.some.inj hs
    obtain ⟨acts, net, hexec, htrace, hq⟩ := Net.exec_call_quiet hP hwhat hb.object hb.sendable
      tx.sendable_call tx.call_ne_kvdelete i
    have hfeed : (clients T).feed i (b.locals i) (Machine.trace (Net.step P what) (Net.observe P) b.object
        (acts.map (Prod.mk i))) = some (some ⟨todo, .answered tx n (answer w.server.sharedKvstore tx.call), log⟩) := by
      have hcalls : (clients T).calls (some (Thread.mk todo (.numbered tx n) log)) =
        some { request := tx.call } := rfl
      rw [htrace, hloc, hi, Clients.feed, if_pos hcalls, Clients.feed, Clients.feed]
      exact congrArg some (Thread.resume_wire todo tx n log _)
    have hsend := hb.sendable.effect hb.unlocked tx.sendable_call
    have hset := hb.goto i b.globals { w.server with sharedKvstore := effect w.server.sharedKvstore tx.call }
      ⟨todo, .answered tx n (answer w.server.sharedKvstore tx.call), log⟩ hq hb.unlocked hsend
    have hnumber : b.globals.sequenceNo = w.sequenceNo := congrArg Globals.sequenceNo hb.globals
    have htable : b.globals.bigTable = w.bigTable := congrArg Globals.bigTable hb.globals
    rw [hnumber, htable] at hset
    exact ⟨_, _, Clients.exec_of_feed (clients T) hexec hfeed, hset⟩

theorem exec_settled (hP : P.Lawful) (hwhat : Sendable what) (hb : Settled b w) {schedule : List (Fin T)}
    (hs : Machine.exec (World.step (serve .kvserverConsistent)) w schedule = some w') :
    ∃ as b', Machine.exec (Testbed.step P what) b as = some b' ∧ Settled b' w' := by
  induction schedule generalizing b w with
  | nil =>
    obtain rfl := Option.some.inj hs
    exact ⟨[], b, rfl, hb⟩
  | cons i schedule ih =>
    obtain ⟨w₁, h₁, hs⟩ := Machine.exec_cons_eq_some.1 hs
    obtain ⟨as, b₁, hb₁, hset⟩ := hb.step hP hwhat h₁
    obtain ⟨as', b', hb', hset'⟩ := ih hset hs
    exact ⟨as ++ as', b', Machine.exec_append_eq_some.2 ⟨b₁, hb₁, hb'⟩, hset'⟩

/-! ### The tables that the test can see -/

/-- The checker of the test can see the same tables over the network as if every request were executed in one step. -/
theorem tables_over_net (hP : P.Lawful) (hwhat : Sendable what) (rand : Fin T → Fin R → Nat × Nat × Nat)
    (bigTable : List (List Events)) :
    (∃ acts b, Machine.exec (Testbed.step P what) (Testbed.start rand) acts = some b ∧ b.Finished ∧
      b.globals.bigTable = bigTable) ↔
    ∃ schedule w, Machine.exec (World.step (serve .kvserverConsistent)) (World.start rand {}) schedule = some w ∧
      w.Finished ∧ w.bigTable = bigTable := by
  constructor
  · rintro ⟨acts, b, hb, hf, rfl⟩
    obtain ⟨schedule, w, hw, _, htable, hloc⟩ := threads_over_net P hP what rand acts b hb
    refine ⟨schedule, w, hw, fun i => ?_, htable⟩
    obtain ⟨th, hth, hst⟩ := hf i
    obtain ⟨th', hth', hbehind⟩ := hloc i
    obtain rfl := Option.some.inj (hth.symm.trans hth')
    exact hbehind.stored_iff.2 hst
  · rintro ⟨schedule, w, hw, hf, rfl⟩
    obtain ⟨as, b, hb, hset⟩ := exec_settled hP hwhat (settled_start rand) hw
    exact ⟨as, b, hb, fun i => ⟨_, hset.locals i, hf i⟩, congrArg Globals.bigTable hset.globals⟩

/-- One thread sets `key_2`, and the other gets it. -/
def setAndGetOnce : Fin 2 → Fin 1 → Nat × Nat × Nat := fun i _ => (i, 1, 0)

/-- Their tables when they take turns and the set is executed first. -/
def tablesOfTurns : List (List Events) :=
  [[(Transaction.draw (0, 1, 0)).event 0 0 {}], [(Transaction.draw (1, 1, 0)).event 1 1 { value := value1 }], [], []]

theorem tables_over_net_turns :
    ∃ acts b, Machine.exec (Testbed.step Binary.protocol "std::bad_alloc") (Testbed.start setAndGetOnce) acts = some b ∧
      b.Finished ∧ b.globals.bigTable = tablesOfTurns := by
  have hrun : (Machine.exec (World.step (serve .kvserverConsistent)) (World.start setAndGetOnce {})
      [0, 0, 1, 1, 0, 1, 1, 0, 0, 1]).map (fun w => (decide w.Finished, w.bigTable)) =
        some (true, tablesOfTurns) := by decide
  obtain ⟨w, hw, hview⟩ := Option.map_eq_some_iff.1 hrun
  obtain ⟨hf, htable⟩ := Prod.mk.inj hview
  exact (tables_over_net Binary.lawful (by decide) _ _).2 ⟨_, w, hw, of_decide_eq_true hf, htable⟩

end ConsistencyTest

end KVStore
