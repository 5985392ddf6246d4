import KVStore.Throwing

/-!
# The handlers are linearizable

The linearization point of a request is the access to its entry, under the lock, or that of a `kvdelete` its erasure.
Nothing throws here, so a run is one of `Throwing`, which an atomic object simulates, and what the clients see is built
by linearization points (`exists_points`).

Requests past their access but not yet answered have taken effect, and others may have seen it, so the order holds
them too, all of them (`linearizable`); without them there may be none (`unreplied_write_observed`).
-/

namespace KVStore

open Linearizable

namespace Conc

variable {Conn : Type} [DecidableEq Conn]

/-- A request executed whole by `kvserver_consistent`, nothing throwing. -/
def whole (s : Server) (r : Request) : Reply × Server := Program.kvserverConsistent.handle s { request := r }

/-- What the clients see of a step. -/
def observe (s : Conc Conn) : Conn × Act → List (Event Request Reply)
  | (_, .arrive r) => [.inv s.next r]
  | (c, .advance) =>
    match s.handlers c with
    | .finished id _ res => [.ret id (.reply res)]
    | _ => []

/-- The client history of a run. -/
def history (acts : List (Conn × Act)) : List (Event Request Reply) :=
  Machine.trace step observe ({} : Conc Conn) acts

/-- The handler is past the access to the entry: its request has taken effect, with the result `res`. -/
def Effective (ph : Phase) (e : Entry Request Reply) : Prop :=
  ∃ res, e.res = .reply res ∧ (ph = .accessed e.id e.op res ∨ ph = .finished e.id e.op res)

/-! ### The run with nothing that throws -/

/-- A request as a call in which nothing throws. -/
def quiet (r : Request) : Call := { request := r }

omit [DecidableEq Conn] in
theorem observe_quiet (s : Conc Conn) (a : Conn × Act) :
    Throwing.observe (Throwing.ofConc s) (Prod.map id Throwing.ofAct a) = (observe s a).map (Event.mapOp quiet) := by
  obtain ⟨c, a⟩ := a
  cases a with
  | arrive r => rfl
  | advance =>
    have hc : (Throwing.ofConc s).handlers c = Throwing.ofPhase (s.handlers c) := rfl
    simp only [Prod.map, id_eq, Throwing.ofAct, Throwing.observe, observe, hc]
    cases s.handlers c <;> rfl

theorem history_quiet (acts : List (Conn × Act)) :
    Throwing.history (acts.map (Prod.map id Throwing.ofAct)) = (history acts).map (Event.mapOp quiet) :=
  Machine.trace_map (fun s a => Throwing.step_quiet s a.1 a.2) observe_quiet {} acts

theorem effective_iff {ph : Phase} {e : Entry Request Reply} :
    Effective ph e ↔ (Throwing.ofPhase ph).status = .done e.id (quiet e.op) e.res := by
  constructor
  · rintro ⟨res, he, h | h⟩ <;> rw [h, he] <;> rfl
  · intro h
    cases ph with
    | accessed id r res | finished id r res =>
      all_goals
        obtain ⟨rfl, hr, he⟩ := Status.done.inj h
        obtain rfl : r = e.op := congrArg Call.request hr
        exact ⟨res, he.symm, by simp⟩
    | idle | arrived id r | locked id r | located id r => cases h

/-! ### Whole runs -/

/-- The requests that have taken effect: what the clients see is built by linearization points, and a request that has
not been answered is past its access. -/
theorem exists_points {acts : List (Conn × Act)} {s : Conc Conn} (hs : Machine.exec step {} acts = some s) :
    ∃ order σ, Points whole {} (history acts) order σ ∧
      (∀ e ∈ order, .ret e.id e.res ∈ history acts ∨ ∃ c, Effective (s.handlers c) e) ∧
      ∀ c e, Effective (s.handlers c) e → e ∈ order := by
  have hrun : Machine.exec Throwing.step {} (acts.map (Prod.map id Throwing.ofAct)) = some (Throwing.ofConc s) := by
    have h := Throwing.exec_quiet {} acts
    rwa [hs] at h
  obtain ⟨o, order, hsim, he⟩ := Throwing.explains hrun
  rw [history_quiet] at he
  have hspec : ∀ σ r, whole σ r = Throwing.whole σ (quiet r) := fun _ _ => rfl
  obtain ⟨order, rfl, hp⟩ := he.points.comap hspec
  refine ⟨order, o.state, hp, fun e hm => ?_, fun c e hc => ?_⟩
  · refine (he.effective _ (List.mem_map_of_mem hm)).imp ret_mem_map.1 fun h => ?_
    obtain ⟨c, hc⟩ := h
    exact ⟨c, effective_iff.2 ((hsim.status c).symm.trans hc)⟩
  · have hm := he.done c _ _ _ ((hsim.status c).trans (effective_iff.1 hc))
    obtain ⟨e', he', heq⟩ := List.mem_map.1 hm
    obtain ⟨h1, h2, h3⟩ := Entry.mk.inj heq
    have hop : e'.op = e.op := congrArg Call.request h2
    obtain ⟨i, r, x⟩ := e
    obtain rfl : i = e'.id := h1.symm
    obtain rfl : r = e'.op := hop.symm
    obtain rfl : x = e'.res := h3.symm
    exact he'

/-- In every run from the empty store, of `kvset` and `kvget` requests and of `kvdelete` requests as long as no erased
entry is used, the answered requests together with all pending ones past their access have a sequential order that
respects real time and explains every result. -/
theorem linearizable (acts : List (Conn × Act)) (s : Conc Conn) (hs : Machine.exec step {} acts = some s) :
    ∃ order, Linearizes whole {} (history acts) order ∧
      (∀ e ∈ order, .ret e.id e.res ∈ history acts ∨ ∃ c, Effective (s.handlers c) e) ∧
      ∀ c e, Effective (s.handlers c) e → e ∈ order := by
  obtain ⟨order, _, hp, h⟩ := exists_points hs
  exact ⟨order, hp.linearizes, h⟩

/-- A `kvset` has unlocked and not replied when a `kvget` is answered with its value. -/
def unrepliedWrite : List (Bool × Act) :=
  [(true, .arrive (.kvset "hi" "bye")), (true, .advance), (true, .advance), (true, .advance), (true, .advance),
    (false, .arrive (.kvget "hi")), (false, .advance), (false, .advance), (false, .advance), (false, .advance),
    (false, .advance)]

theorem unrepliedWrite_linearizes :
    ∃ s, Machine.exec step {} unrepliedWrite = some s ∧
      ∃ order, Linearizes whole {} (history unrepliedWrite) order ∧
        (∀ e ∈ order, .ret e.id e.res ∈ history unrepliedWrite ∨ ∃ c, Effective (s.handlers c) e) ∧
        ∀ c e, Effective (s.handlers c) e → e ∈ order :=
  ⟨_, rfl, linearizable unrepliedWrite _ rfl⟩

/-- No order of the answered requests alone explains that run. -/
theorem unreplied_write_observed :
    (Machine.exec step {} unrepliedWrite).isSome ∧
    (∀ a ∈ unrepliedWrite, ∀ key, a.2 ≠ .arrive (.kvdelete key)) ∧
    ¬∃ order, Linearizes whole {} (history unrepliedWrite) order ∧
      ∀ e ∈ order, .ret e.id e.res ∈ history unrepliedWrite := by
  have e : history unrepliedWrite = [.inv 0 (.kvset "hi" "bye"), .inv 1 (.kvget "hi"),
      .ret 1 (.reply { value := "bye" })] := rfl
  refine ⟨rfl, by simp [unrepliedWrite], ?_⟩
  intro h
  obtain ⟨order, hl, hc⟩ := h
  rw [e] at hl hc
  have hid : ∀ a ∈ order, a = ⟨1, .kvget "hi", .reply { value := "bye" }⟩ := by
    rintro ⟨i, op, res⟩ ha
    have h1 := hc _ ha
    have h2 := hl.invoked _ ha
    simp at h1 h2
    obtain ⟨rfl, rfl⟩ := h1
    simpa using h2
  obtain ⟨op, hop⟩ := hl.completed 1 (.reply { value := "bye" }) (by simp)
  obtain ⟨t, ht⟩ := hl.legal
  cases order with
  | nil => cases hop
  | cons a order =>
    -- before the `kvget` nothing has been set
    have h := ht.1
    rw [hid a (by simp)] at h
    exact absurd h (by decide)

end Conc

end KVStore
