import KVStore.Concurrent
import KVStore.Lib.Atomic

/-!
# Concurrent handlers that throw

The handlers of `kvserver_consistent` as in `Conc`, with exceptions: a call brings the `Faults` that say which of the
operations of its handler throw when they are reached.  An exception in a `try` block leads to its `catch` block; one in
a `catch` block leaves the handler, and `lck.unlock()` is not reached.  Without faults it is the machine `Conc`
(`exec_quiet`).  As there, a run goes no further than to the first use of an erased entry.

Every run simulates an atomic object that executes each call whole (`simulates`), so the sequential handlers, with all
that can throw in them, say what any number of concurrent clients see (`linearizes_throwing`).
-/

namespace KVStore

open Linearizable

/-- Where the handler of a connection is, in a call that may throw. -/
inductive CallPhase where
  | idle
  | arrived (id : Nat) (c : Call)
  /-- past `lck.lock()` -/
  | locked (id : Nat) (c : Call)
  /-- holds a reference to the entry of the key -/
  | located (id : Nat) (c : Call)
  /-- in the `catch` block -/
  | caught (id : Nat) (c : Call)
  /-- past both blocks, before `lck.unlock()` -/
  | accessed (id : Nat) (c : Call) (res : Result)
  /-- the handler has ended -/
  | finished (id : Nat) (c : Call) (reply : Reply)
  deriving DecidableEq, Repr

/-- Past `lck.lock()`, and the handler has not ended. -/
def CallPhase.InSection : CallPhase → Prop
  | .locked _ _ => True
  | .located _ _ => True
  | .caught _ _ => True
  | .accessed _ _ _ => True
  | _ => False

/-- The access to the entry throws. -/
def Call.accessThrows (c : Call) : Bool :=
  match c.request with
  | .kvset _ _ => c.faults.assign
  | .kvget _ => c.faults.copy
  | .kvdelete _ => false

/-- The `catch` block throws: that of `kvset` assigns a text. -/
def Call.catchThrows (c : Call) : Bool :=
  match c.request with
  | .kvset _ _ => c.faults.errortext
  | _ => false

/-- About to leave without unlocking. -/
def CallPhase.leaking : CallPhase → Bool
  | .caught _ c => c.catchThrows
  | _ => false

/-- What the `catch` block puts into `_return`. -/
def Request.caughtResult : Request → Result
  | .kvset _ _ => { error := .kError, errortext := "Server could not store value" }
  | _ => { error := .kKeyNotFound }

/-- The reply to a call whose `try` block has thrown. -/
def Call.brokenReply (c : Call) : Reply := if c.catchThrows then .exception else .reply c.request.caughtResult

/-- What a phase is for an atomic object: the call has taken effect once its `try` block is over. -/
def CallPhase.status : CallPhase → Status Call Reply
  | .idle => .idle
  | .arrived id c => .pending id c
  | .locked id c => .pending id c
  | .located id c => .pending id c
  | .caught id c => .done id c c.brokenReply
  | .accessed id c res => .done id c (.reply res)
  | .finished id c reply => .done id c reply

/-- The globals and the handlers; `next` is the number of the next call. -/
structure Throwing (Conn : Type) where
  sharedKvstore : Store := Store.empty
  lck : Option Conn := none
  handlers : Conn → CallPhase := fun _ => .idle
  next : Nat := 0

/-- What can happen at a connection: a call arrives, or its handler takes its next step. -/
inductive CallAct where
  | arrive (c : Call)
  | advance
  deriving DecidableEq, Repr

namespace Throwing

variable {Conn : Type} [DecidableEq Conn]

/-- The handler of `d` goes to `ph`. -/
def goto (s : Throwing Conn) (d : Conn) (ph : CallPhase) : Throwing Conn :=
  { s with handlers := Function.update s.handlers d ph }

/-- The next step of the handler of `d`. -/
def advance (s : Throwing Conn) (d : Conn) : Option (Throwing Conn) :=
  match s.handlers d with
  | .idle => none
  -- no `lck.lock()` here, and nothing that throws
  | .arrived id ⟨.kvdelete key, f⟩ =>
    some ({ s with sharedKvstore := s.sharedKvstore.erase key }.goto d
      (.finished id ⟨.kvdelete key, f⟩ (.reply (answer s.sharedKvstore (.kvdelete key)))))
  | .arrived id c => if s.lck = none then some ({ s with lck := some d }.goto d (.locked id c)) else none
  | .locked id c =>
    if c.faults.create && (s.sharedKvstore c.request.key).isNone then some (s.goto d (.caught id c))
    else some ({ s with sharedKvstore := s.sharedKvstore.locate c.request.key }.goto d (.located id c))
  | .located id c =>
    -- through an erased entry the behaviour is undefined
    if (s.sharedKvstore c.request.key).isNone then none
    else if c.accessThrows then some (s.goto d (.caught id c))
    else some ({ s with sharedKvstore := Conc.access s.sharedKvstore c.request }.goto d
      (.accessed id c (answer s.sharedKvstore c.request)))
  | .caught id c =>
    -- the lock stays as it is
    if c.catchThrows then some (s.goto d (.finished id c .exception))
    else some (s.goto d (.accessed id c c.request.caughtResult))
  | .accessed id c res => some ({ s with lck := none }.goto d (.finished id c (.reply res)))
  | .finished _ _ _ => some (s.goto d .idle)

def step (s : Throwing Conn) : Conn × CallAct → Option (Throwing Conn)
  | (d, .arrive c) =>
    if s.handlers d = .idle then some ({ s with next := s.next + 1 }.goto d (.arrived s.next c)) else none
  | (d, .advance) => s.advance d

/-- The handler of `d` has located an entry, which has been erased since: its next step would use it. -/
def AtErased (s : Throwing Conn) (d : Conn) : Prop :=
  ∃ id c, s.handlers d = .located id c ∧ s.sharedKvstore c.request.key = none

/-- What the clients see of a step. -/
def observe (s : Throwing Conn) : Conn × CallAct → List (Event Call Reply)
  | (_, .arrive c) => [.inv s.next c]
  | (d, .advance) =>
    match s.handlers d with
    | .finished id _ reply => [.ret id reply]
    | _ => []

/-- The client history of a run. -/
def history (acts : List (Conn × CallAct)) : List (Event Call Reply) :=
  Machine.trace step observe ({} : Throwing Conn) acts

/-- What a step can do: one case for each phase the handler is in, and for each way it goes on. -/
inductive Steps (s : Throwing Conn) (d : Conn) : CallAct → Throwing Conn → Prop
  | arrive (c) : s.handlers d = .idle →
      Steps s d (.arrive c) ({ s with next := s.next + 1 }.goto d (.arrived s.next c))
  | erase (id key f) : s.handlers d = .arrived id ⟨.kvdelete key, f⟩ →
      Steps s d .advance ({ s with sharedKvstore := s.sharedKvstore.erase key }.goto d
        (.finished id ⟨.kvdelete key, f⟩ (.reply (answer s.sharedKvstore (.kvdelete key)))))
  | lock (id c) : s.handlers d = .arrived id c → (∀ key, c.request ≠ .kvdelete key) → s.lck = none →
      Steps s d .advance ({ s with lck := some d }.goto d (.locked id c))
  | createThrows (id c) : s.handlers d = .locked id c → c.faults.create →
      s.sharedKvstore c.request.key = none → Steps s d .advance (s.goto d (.caught id c))
  | locate (id c) : s.handlers d = .locked id c → (c.faults.create → (s.sharedKvstore c.request.key).isSome) →
      Steps s d .advance ({ s with sharedKvstore := s.sharedKvstore.locate c.request.key }.goto d (.located id c))
  | accessThrows (id c) : s.handlers d = .located id c → (s.sharedKvstore c.request.key).isSome → c.accessThrows →
      Steps s d .advance (s.goto d (.caught id c))
  | access (id c) : s.handlers d = .located id c → (s.sharedKvstore c.request.key).isSome →
      c.accessThrows = false →
      Steps s d .advance ({ s with sharedKvstore := Conc.access s.sharedKvstore c.request }.goto d
        (.accessed id c (answer s.sharedKvstore c.request)))
  | leave (id c) : s.handlers d = .caught id c → c.catchThrows →
      Steps s d .advance (s.goto d (.finished id c .exception))
  | recover (id c) : s.handlers d = .caught id c → c.catchThrows = false →
      Steps s d .advance (s.goto d (.accessed id c c.request.caughtResult))
  | unlock (id c res) : s.handlers d = .accessed id c res →
      Steps s d .advance ({ s with lck := none }.goto d (.finished id c (.reply res)))
  | reply (id c reply) : s.handlers d = .finished id c reply → Steps s d .advance (s.goto d .idle)

theorem steps_of_step {s s' : Throwing Conn} {d : Conn} {a : CallAct} (h : s.step (d, a) = some s') :
    Steps s d a s' := by
  cases a with
  | arrive c =>
    obtain ⟨hi, h⟩ := Option.ite_none_right_eq_some.1 h
    exact Option.some.inj h ▸ .arrive c hi
  | advance =>
    simp only [step, advance] at h
    split at h
    · cases h
    · rename_i id key f hc; exact Option.some.inj h ▸ .erase id key f hc
    · rename_i id c hr hc
      obtain ⟨hl, h⟩ := Option.ite_none_right_eq_some.1 h
      refine Option.some.inj h ▸ .lock id c hc (fun key he => ?_) hl
      obtain ⟨r, f⟩ := c
      cases he
      exact hr key f rfl
    · rename_i id c hc
      split at h
      · rename_i hm
        simp only [Bool.and_eq_true, Option.isNone_iff_eq_none] at hm
        exact Option.some.inj h ▸ .createThrows id c hc hm.1 hm.2
      · rename_i hm
        refine Option.some.inj h ▸ .locate id c hc fun hcreate => ?_
        simpa [hcreate, Option.isSome_iff_ne_none] using hm
    · rename_i id c hc
      split at h
      · cases h
      · rename_i hm
        have hm : (s.sharedKvstore c.request.key).isSome := by simpa [Option.isSome_iff_ne_none] using hm
        split at h
        · rename_i ha; exact Option.some.inj h ▸ .accessThrows id c hc hm ha
        · rename_i ha; exact Option.some.inj h ▸ .access id c hc hm (by simpa using ha)
    · rename_i id c hc
      split at h
      · rename_i ht; exact Option.some.inj h ▸ .leave id c hc ht
      · rename_i ht; exact Option.some.inj h ▸ .recover id c hc (by simpa using ht)
    · rename_i id c res hc; exact Option.some.inj h ▸ .unlock id c res hc
    · rename_i id c reply hc; exact Option.some.inj h ▸ .reply id c reply hc

@[simp] theorem goto_handlers_self (s : Throwing Conn) (d : Conn) (ph : CallPhase) :
    (s.goto d ph).handlers d = ph :=
  Function.update_self _ _ _

theorem goto_handlers_of_ne (s : Throwing Conn) {d e : Conn} (h : e ≠ d) (ph : CallPhase) :
    (s.goto d ph).handlers e = s.handlers e :=
  Function.update_of_ne h _ _

@[simp] theorem goto_lck (s : Throwing Conn) (d : Conn) (ph : CallPhase) : (s.goto d ph).lck = s.lck := rfl

@[simp] theorem goto_sharedKvstore (s : Throwing Conn) (d : Conn) (ph : CallPhase) :
    (s.goto d ph).sharedKvstore = s.sharedKvstore := rfl

theorem Steps.handlers_of_ne {s s' : Throwing Conn} {d e : Conn} {a : CallAct} (h : Steps s d a s') (he : e ≠ d) :
    s'.handlers e = s.handlers e := by
  cases h <;> exact goto_handlers_of_ne _ he _

/-! ### Without exceptions -/

/-- A phase of a handler in which nothing throws. -/
def ofPhase : Phase → CallPhase
  | .idle => .idle
  | .arrived id r => .arrived id { request := r }
  | .locked id r => .locked id { request := r }
  | .located id r => .located id { request := r }
  | .accessed id r res => .accessed id { request := r } res
  | .finished id r res => .finished id { request := r } (.reply res)

def ofAct : Act → CallAct
  | .arrive r => .arrive { request := r }
  | .advance => .advance

def ofConc (s : Conc Conn) : Throwing Conn where
  sharedKvstore := s.sharedKvstore
  lck := s.lck
  handlers d := ofPhase (s.handlers d)
  next := s.next

theorem ofConc_goto (s : Conc Conn) (d : Conn) (ph : Phase) :
    ofConc (s.goto d ph) = (ofConc s).goto d (ofPhase ph) := by
  simp only [ofConc, goto, Conc.goto, mk.injEq, true_and, and_true]
  exact funext fun e => Function.apply_update (fun _ => ofPhase) s.handlers d ph e

/-- A step in which nothing throws is one of `Conc`. -/
theorem step_quiet (s : Conc Conn) (d : Conn) (a : Act) :
    step (ofConc s) (d, ofAct a) = (s.step (d, a)).map ofConc := by
  have hd : (ofConc s).handlers d = ofPhase (s.handlers d) := rfl
  -- what both do once their conditions are decided
  have hgoto : ∀ (t : Conc Conn) (ph : Phase),
      some ((ofConc t).goto d (ofPhase ph)) = (some (t.goto d ph)).map ofConc :=
    fun t ph => congrArg some (ofConc_goto t d ph).symm
  cases a with
  | arrive r =>
    simp only [step, Conc.step, ofAct, hd]
    cases h : s.handlers d with
    | idle => exact hgoto { s with next := s.next + 1 } (.arrived s.next r)
    | _ => rfl
  | advance =>
    simp only [step, Conc.step, ofAct, advance, Conc.advance, hd]
    cases h : s.handlers d with
    | idle => rfl
    | arrived id r =>
      cases r with
      | kvdelete key =>
        exact hgoto { s with sharedKvstore := s.sharedKvstore.erase key }
          (.finished id (.kvdelete key) (answer s.sharedKvstore (.kvdelete key)))
      | kvset key value | kvget key =>
        all_goals
          dsimp only [ofPhase]
          by_cases hl : s.lck = none
          · rw [if_pos hl, if_pos (show (ofConc s).lck = none from hl)]
            exact hgoto { s with lck := some d } (.locked id _)
          · rw [if_neg hl, if_neg (show (ofConc s).lck ≠ none from hl)]
            rfl
    | locked id r => exact hgoto { s with sharedKvstore := s.sharedKvstore.locate r.key } (.located id r)
    | located id r =>
      have hthrows : Call.accessThrows { request := r } = false := by cases r <;> rfl
      dsimp only [ofPhase]
      cases hm : s.sharedKvstore r.key with
      | none =>
        rw [show (ofConc s).sharedKvstore r.key = none from hm]
        rfl
      | some v =>
        rw [show (ofConc s).sharedKvstore r.key = some v from hm, hthrows]
        exact hgoto { s with sharedKvstore := Conc.access s.sharedKvstore r }
          (.accessed id r (answer s.sharedKvstore r))
    | accessed id r res => exact hgoto { s with lck := none } (.finished id r res)
    | finished id r res => exact hgoto s .idle

omit [DecidableEq Conn] in
theorem eq_ofConc_of_idle {s : Throwing Conn} (hl : s.lck = none) (h : ∀ d, s.handlers d = .idle) :
    s = ofConc { sharedKvstore := s.sharedKvstore, next := s.next } := by
  obtain ⟨m, l, handlers, next⟩ := s
  obtain rfl : l = none := hl
  obtain rfl : handlers = fun _ => .idle := funext h
  rfl

/-- A run in which nothing throws is one of `Conc`. -/
theorem exec_quiet (s : Conc Conn) (acts : List (Conn × Act)) :
    Machine.exec step (ofConc s) (acts.map (Prod.map id ofAct)) = (Machine.exec Conc.step s acts).map ofConc :=
  Machine.exec_map (fun s a => step_quiet s a.1 a.2) s acts

/-! ### The lock -/

/-- Who has the lock: a handler in its section, or one that has left it by an exception. -/
structure LockRel (s : Throwing Conn) (leaked : Bool) : Prop where
  held : ∀ d, (s.handlers d).InSection → s.lck = some d
  kept : ∀ d, s.lck = some d → (s.handlers d).InSection ∨ leaked
  leaks : ∀ d, (s.handlers d).leaking → leaked
  stuck : leaked → s.lck ≠ none ∧ ∀ d, (s.handlers d).InSection → (s.handlers d).leaking

variable {s s' : Throwing Conn} {d : Conn} {a : CallAct} {leaked : Bool}

omit [DecidableEq Conn] in
theorem lockRel_init : LockRel ({} : Throwing Conn) false where
  held := fun _ h => h.elim
  kept := fun _ h => absurd h.symm (Option.some_ne_none _)
  leaks := fun _ h => Bool.noConfusion h
  stuck := fun h => Bool.noConfusion h

omit [DecidableEq Conn] in
theorem LockRel.unique (hi : LockRel s leaked) {d e : Conn} (hd : (s.handlers d).InSection)
    (he : (s.handlers e).InSection) : d = e :=
  Option.some.inj ((hi.held d hd).symm.trans (hi.held e he))

omit [DecidableEq Conn] in
/-- The lock has not leaked while a handler that will unlock it is in its section. -/
theorem LockRel.unleaked (hi : LockRel s leaked) (hd : (s.handlers d).InSection)
    (hn : (s.handlers d).leaking = false) : leaked = false := by
  cases leaked with
  | false => rfl
  | true =>
    have h := (hi.stuck rfl).2 d hd
    rw [hn] at h
    cases h

omit [DecidableEq Conn] in
theorem inSection_of_leaking {ph : CallPhase} (h : ph.leaking) : ph.InSection := by
  cases ph with
  | caught id c => trivial
  | _ => cases h

/-- A step that leaves the lock alone. -/
private theorem LockRel.same (hi : LockRel s leaked) (hs : Steps s d a s') (hl : s'.lck = s.lck)
    (hin : (s'.handlers d).InSection → (s.handlers d).InSection ∧ (s.handlers d).leaking = false)
    (hout : (s.handlers d).InSection → (s'.handlers d).InSection ∨ (s.handlers d).leaking) :
    LockRel s' (leaked || (s'.handlers d).leaking) := by
  have hheld : ∀ e, (s'.handlers e).InSection → s'.lck = some e := by
    intro e he
    rw [hl]
    by_cases hed : e = d
    · subst hed
      exact hi.held e (hin he).1
    · rw [hs.handlers_of_ne hed] at he
      exact hi.held e he
  refine ⟨hheld, fun e he => ?_, fun e he => ?_, fun hleaked => ?_⟩
  · rw [hl] at he
    by_cases hed : e = d
    · subst hed
      rcases hi.kept e he with h | h
      · exact (hout h).imp_right fun h' => by rw [hi.leaks e h']; rfl
      · exact Or.inr (by rw [h]; rfl)
    · rw [hs.handlers_of_ne hed]
      exact (hi.kept e he).imp_right fun h => by rw [h]; rfl
  · by_cases hed : e = d
    · subst hed
      rw [he, Bool.or_true]
    · rw [hs.handlers_of_ne hed] at he
      rw [hi.leaks e he]
      rfl
  · rcases Bool.or_eq_true_iff.1 hleaked with h | h
    · refine ⟨hl ▸ (hi.stuck h).1, fun e he => ?_⟩
      by_cases hed : e = d
      · -- it stays in its section, so it is not the one that leaks
        subst hed
        obtain ⟨h1, h2⟩ := hin he
        rw [hi.unleaked h1 h2] at h
        cases h
      · rw [hs.handlers_of_ne hed] at he ⊢
        exact (hi.stuck h).2 e he
    · have hd := hheld d (inSection_of_leaking h)
      refine ⟨by rw [hd]; exact Option.some_ne_none d, fun e he => ?_⟩
      obtain rfl : d = e := Option.some.inj (hd.symm.trans (hheld e he))
      exact h

theorem LockRel.step (hi : LockRel s leaked) (hs : Steps s d a s') :
    LockRel s' (leaked || (s'.handlers d).leaking) := by
  have hsame := hi.same hs
  cases hs with
  | lock id c hc hr hl =>
    have hfree : leaked = false := Bool.eq_false_iff.2 fun h => (hi.stuck h).1 hl
    have hother : ∀ e, e ≠ d → ¬(s.handlers e).InSection := fun e _ he => by
      rw [hi.held e he] at hl
      cases hl
    have hnone : ∀ e, (s.handlers e).leaking = false := fun e =>
      Bool.eq_false_iff.2 fun h => Bool.noConfusion (hfree.symm.trans (hi.leaks e h))
    rw [hfree, goto_handlers_self]
    refine ⟨fun e he => ?_, fun e he => ?_, fun e he => ?_, fun h => Bool.noConfusion h⟩
    · by_cases hed : e = d
      · rw [hed]
        rfl
      · rw [goto_handlers_of_ne _ hed] at he
        exact absurd he (hother e hed)
    · obtain rfl : d = e := Option.some.inj he
      rw [goto_handlers_self]
      exact Or.inl trivial
    · by_cases hed : e = d
      · rw [hed, goto_handlers_self] at he
        cases he
      · rw [goto_handlers_of_ne _ hed] at he
        exact absurd he (by rw [hnone e]; exact Bool.false_ne_true)
  | unlock id c res hc =>
    have hin : (s.handlers d).InSection := by rw [hc]; trivial
    have hfree : leaked = false := hi.unleaked hin (by rw [hc]; rfl)
    have hother : ∀ e, e ≠ d → ¬(s.handlers e).InSection := fun e hed he => hed (hi.unique he hin)
    rw [hfree, goto_handlers_self]
    refine ⟨fun e he => ?_, fun e he => absurd he.symm (Option.some_ne_none e),
      fun e he => ?_, fun h => Bool.noConfusion h⟩
    · by_cases hed : e = d
      · rw [hed, goto_handlers_self] at he
        cases he
      · rw [goto_handlers_of_ne _ hed] at he
        exact absurd he (hother e hed)
    · by_cases hed : e = d
      · rw [hed, goto_handlers_self] at he
        cases he
      · rw [goto_handlers_of_ne _ hed] at he
        exact absurd (inSection_of_leaking he) (hother e hed)
  | arrive c hc | erase id key f hc | reply id c r hc =>
    exact hsame rfl (by simp [CallPhase.InSection]) (by simp [hc, CallPhase.InSection])
  | leave id c hc ht =>
    exact hsame rfl (by simp [CallPhase.InSection]) fun _ => Or.inr (by rw [hc]; exact ht)
  | createThrows id c hc | locate id c hc | accessThrows id c hc | access id c hc =>
    exact hsame rfl (fun _ => by rw [hc]; exact ⟨trivial, rfl⟩) (by simp [CallPhase.InSection])
  | recover id c hc ht =>
    exact hsame rfl (fun _ => by rw [hc]; exact ⟨trivial, ht⟩) (by simp [CallPhase.InSection])

/-! ### The store -/

/-- The entry of `c` has been located in `m'`, which is `m` for the clients; it may have been erased since. -/
def Located (m' m : Store) (c : Call) : Prop :=
  m' = m.locate c.request.key ∧ (c.faults.create → (m c.request.key).isSome) ∨ m' = m ∧ m c.request.key = none

theorem Located.erase {m' m : Store} {c : Call} (h : Located m' m c) (k : String) :
    Located (m'.erase k) (m.erase k) c := by
  by_cases hk : k = c.request.key
  · refine Or.inr ⟨?_, by rw [hk]; exact Function.update_self _ _ _⟩
    rcases h with ⟨rfl, _⟩ | ⟨rfl, _⟩
    · rw [hk]
      exact Store.erase_locate_self m _
    · rfl
  · have he : (m.erase k) c.request.key = m c.request.key := Function.update_of_ne (Ne.symm hk) _ _
    rcases h with ⟨rfl, hc⟩ | ⟨rfl, hm⟩
    · exact Or.inl ⟨Store.erase_locate_of_ne m hk, fun h => by rw [he]; exact hc h⟩
    · exact Or.inr ⟨rfl, he.trans hm⟩

/-- The entry is still there. -/
theorem Located.eq_locate {m' m : Store} {c : Call} (h : Located m' m c) (hm : (m' c.request.key).isSome) :
    m' = m.locate c.request.key ∧ (c.faults.create && (m c.request.key).isNone) = false := by
  rcases h with ⟨h, hc⟩ | ⟨h, hn⟩
  · refine ⟨h, ?_⟩
    cases hcreate : c.faults.create with
    | false => rfl
    | true => simpa [Option.isSome_iff_ne_none] using hc hcreate
  · rw [h, hn] at hm
    cases hm

/-- The store is `m`, apart from what the handler that has located an entry has done for it. -/
structure StoreRel (s : Throwing Conn) (m : Store) : Prop where
  located : ∀ d id c, s.handlers d = .located id c → Located s.sharedKvstore m c
  settled : (∀ d id c, s.handlers d ≠ .located id c) → s.sharedKvstore = m

omit [DecidableEq Conn] in
theorem storeRel_init : StoreRel ({} : Throwing Conn) Store.empty :=
  ⟨fun _ _ _ h => CallPhase.noConfusion h, fun _ => rfl⟩

variable {m m' : Store}

/-- A step of a handler that holds no entry before it or after it. -/
private theorem StoreRel.other (hr : StoreRel s m) (hs : Steps s d a s')
    (hd : ∀ id c, s.handlers d ≠ .located id c) (hd' : ∀ id c, s'.handlers d ≠ .located id c)
    (hloc : ∀ c, Located s.sharedKvstore m c → Located s'.sharedKvstore m' c)
    (hset : s.sharedKvstore = m → s'.sharedKvstore = m') : StoreRel s' m' := by
  refine ⟨fun e id c he => ?_, fun hn => hset (hr.settled fun e id c he => ?_)⟩
  · have hed : e ≠ d := by rintro rfl; exact hd' id c he
    rw [hs.handlers_of_ne hed] at he
    exact hloc c (hr.located e id c he)
  · have hed : e ≠ d := by rintro rfl; exact hd id c he
    exact hn e id c (by rwa [hs.handlers_of_ne hed])

/-- A step that leaves the store alone. -/
private theorem StoreRel.same (hr : StoreRel s m) (hs : Steps s d a s')
    (hd : ∀ id c, s.handlers d ≠ .located id c) (hd' : ∀ id c, s'.handlers d ≠ .located id c)
    (he : s'.sharedKvstore = s.sharedKvstore) : StoreRel s' m :=
  hr.other hs hd hd' (fun _ h => he ▸ h) (fun h => he ▸ h)

omit [DecidableEq Conn] in
/-- While a handler is in its section and holds no entry, nobody does. -/
private theorem StoreRel.eq_of_inSection (hr : StoreRel s m) (hi : LockRel s leaked) (hd : (s.handlers d).InSection)
    (hn : ∀ id c, s.handlers d ≠ .located id c) : s.sharedKvstore = m := by
  refine hr.settled fun e id c he => ?_
  obtain rfl : e = d := hi.unique (by rw [he]; trivial) hd
  exact hn id c he

/-- A step of the handler that has located an entry, after which it holds none. -/
private theorem StoreRel.release (hi : LockRel s leaked) (hs : Steps s d a s') (hd : (s.handlers d).InSection)
    (hd' : ∀ id c, s'.handlers d ≠ .located id c) (he : s'.sharedKvstore = m') : StoreRel s' m' := by
  refine ⟨fun e id c h => ?_, fun _ => he⟩
  have hed : e ≠ d := by rintro rfl; exact hd' id c h
  rw [hs.handlers_of_ne hed] at h
  exact absurd (hi.unique (by rw [h]; trivial) hd) hed

/-! ### One step -/

/-- The call of a handler that has the lock and is in its `try` block. -/
def lockedFor : CallPhase → Option Call
  | .locked _ c => some c
  | .located _ c => some c
  | _ => none

/-- No `kvdelete` has the lock. -/
def DeletesUnlocked (s : Throwing Conn) : Prop :=
  ∀ d c, lockedFor (s.handlers d) = some c → ∀ key, c.request ≠ .kvdelete key

theorem DeletesUnlocked.step (hu : DeletesUnlocked s) (hs : Steps s d a s') : DeletesUnlocked s' := by
  intro e c' he
  by_cases hed : e = d
  · subst hed
    cases hs with
    | lock id c h hr _ =>
      rw [goto_handlers_self] at he
      exact Option.some.inj he ▸ hr
    | locate id c h =>
      rw [goto_handlers_self] at he
      exact hu e c' (by rw [h]; exact he)
    | _ => rw [goto_handlers_self] at he; cases he
  · rw [hs.handlers_of_ne hed] at he
    exact hu e c' he

/-- A call executed whole by `kvserver_consistent`. -/
def whole (σ : Server) (c : Call) : Reply × Server := Program.kvserverConsistent.handle σ c

/-- A call whose `try` block throws. -/
theorem whole_of_breaks {σ : Server} (hl : σ.lck = false) {c : Call} (hc : ∀ key, c.request ≠ .kvdelete key)
    (h : c.faults.breaks σ.sharedKvstore c.request) :
    whole σ c = (c.brokenReply,
      { sharedKvstore := afterBreak c.faults σ.sharedKvstore c.request.key, lck := c.catchThrows }) := by
  obtain ⟨m, l⟩ := σ
  obtain ⟨r, f⟩ := c
  cases hl
  cases r with
  | kvset key value =>
    rw [whole, Program.handle_kvset_of_breaks _ rfl h]
    cases he : f.errortext <;> simp [Call.brokenReply, Call.catchThrows, Request.caughtResult, Request.key, he]
  | kvget key =>
    rw [whole, Program.handle_kvget_of_breaks _ rfl h]
    simp [Call.brokenReply, Call.catchThrows, Request.caughtResult, Request.key]
  | kvdelete key => exact absurd rfl (hc key)

/-- The state of the handlers is the state `σ` of a server that executes calls whole. -/
structure Related (s : Throwing Conn) (σ : Server) : Prop where
  lock : LockRel s σ.lck
  deletes : DeletesUnlocked s
  store : StoreRel s σ.sharedKvstore

/-- What a step is for an atomic object in the state `σ`, and its state after it. -/
inductive Abstracts (s s' : Throwing Conn) (d : Conn) (σ : Server) : CallAct → Server → Prop
  | arrive (c : Call) : s.handlers d = .idle → s'.handlers d = .arrived s.next c → s'.next = s.next + 1 →
      Abstracts s s' d σ (.arrive c) σ
  | silent : s'.next = s.next → (s'.handlers d).status = (s.handlers d).status → s.handlers d ≠ .idle →
      (∀ id c reply, s.handlers d ≠ .finished id c reply) → Abstracts s s' d σ .advance σ
  /-- the call takes effect -/
  | commit (id : Nat) (c : Call) : s'.next = s.next → (s.handlers d).status = .pending id c →
      (s'.handlers d).status = .done id c (whole σ c).1 → Abstracts s s' d σ .advance (whole σ c).2
  | reply (id : Nat) (c : Call) (reply : Reply) : s'.next = s.next → s.handlers d = .finished id c reply →
      s'.handlers d = .idle → Abstracts s s' d σ .advance σ

variable {σ : Server}

theorem breaks_eq {c : Call} (hc : ∀ key, c.request ≠ .kvdelete key) (m : Store) :
    c.faults.breaks m c.request = ((c.faults.create && (m c.request.key).isNone) || c.accessThrows) := by
  obtain ⟨r, f⟩ := c
  cases r with
  | kvset key value | kvget key => rfl
  | kvdelete key => exact absurd rfl (hc key)

/-- The `try` block throws. -/
private theorem Related.breaks (hr : Related s σ) {id : Nat} {c : Call} (hin : (s.handlers d).InSection)
    (hleak : (s.handlers d).leaking = false) (hp : (s.handlers d).status = .pending id c)
    (hne : ∀ key, c.request ≠ .kvdelete key) (hb : c.faults.breaks σ.sharedKvstore c.request)
    (hs : Steps s d .advance (s.goto d (.caught id c)))
    (hstore : s.sharedKvstore = afterBreak c.faults σ.sharedKvstore c.request.key) :
    ∃ σ', Abstracts s (s.goto d (.caught id c)) d σ .advance σ' ∧ Related (s.goto d (.caught id c)) σ' := by
  have hfree := hr.lock.unleaked hin hleak
  have hwhole := whole_of_breaks hfree hne hb
  have hlock := hr.lock.step hs
  refine ⟨_, .commit id c rfl hp (by rw [goto_handlers_self, hwhole]; rfl), ?_, hr.deletes.step hs, ?_⟩
  · rw [hfree, goto_handlers_self, Bool.false_or] at hlock
    rw [hwhole]
    exact hlock
  · rw [hwhole]
    exact StoreRel.release hr.lock hs hin (by simp) hstore

/-- Every step of a handler is one of an atomic object. -/
theorem abstracts (hr : Related s σ) (hs : Steps s d a s') : ∃ σ', Abstracts s s' d σ a σ' ∧ Related s' σ' := by
  have hlock : (s'.handlers d).leaking = false → LockRel s' σ.lck := fun h => by
    simpa [h] using hr.lock.step hs
  have hdel := hr.deletes.step hs
  have hother := hr.store.same hs
  have hsteps := hs
  cases hs with
  | arrive c hc =>
    exact ⟨σ, .arrive c hc (goto_handlers_self _ _ _) rfl, hlock (by rw [goto_handlers_self]; rfl), hdel,
      hother (by simp [hc]) (by simp) rfl⟩
  | erase id key f hc =>
    refine ⟨_, .commit id ⟨.kvdelete key, f⟩ rfl (by rw [hc]; rfl) (by rw [goto_handlers_self]; rfl),
      hlock (by rw [goto_handlers_self]; rfl), hdel, ?_⟩
    refine hr.store.other hsteps (by simp [hc]) (by simp) (fun c h => h.erase key) (fun h => ?_)
    rw [goto_sharedKvstore, h]
    rfl
  | lock id c hc hne hl =>
    exact ⟨σ, .silent rfl (by rw [goto_handlers_self, hc]; rfl) (by simp [hc]) (by simp [hc]),
      hlock (by rw [goto_handlers_self]; rfl), hdel, hother (by simp [hc]) (by simp) rfl⟩
  | createThrows id c hc hcreate hm =>
    have hin : (s.handlers d).InSection := by rw [hc]; trivial
    have hstore := hr.store.eq_of_inSection hr.lock hin (by simp [hc])
    have hne := hr.deletes d c (by rw [hc]; rfl)
    rw [hstore] at hm
    refine hr.breaks hin (by rw [hc]; rfl) (by rw [hc]; rfl) hne ?_ hsteps ?_
    · rw [breaks_eq hne, hcreate, hm]
      rfl
    · rw [hstore, afterBreak, hcreate, hm]
      rfl
  | locate id c hc hm =>
    have hin : (s.handlers d).InSection := by rw [hc]; trivial
    have hstore := hr.store.eq_of_inSection hr.lock hin (by simp [hc])
    have hlock := hlock (by rw [goto_handlers_self]; rfl)
    refine ⟨σ, .silent rfl (by rw [goto_handlers_self, hc]; rfl) (by simp [hc]) (by simp [hc]), hlock, hdel,
      ⟨fun e i c' he => ?_, fun hn => absurd (goto_handlers_self _ d _) (hn d id c)⟩⟩
    obtain rfl : e = d := hlock.unique (by rw [he]; trivial) (by rw [goto_handlers_self]; trivial)
    rw [goto_handlers_self, CallPhase.located.injEq] at he
    rw [goto_sharedKvstore, hstore, ← he.2]
    exact Or.inl ⟨rfl, fun h => hstore ▸ hm h⟩
  | accessThrows id c hc hm ha =>
    have hin : (s.handlers d).InSection := by rw [hc]; trivial
    have hne := hr.deletes d c (by rw [hc]; rfl)
    obtain ⟨hstore, hcreate⟩ := (hr.store.located d id c hc).eq_locate hm
    refine hr.breaks hin (by rw [hc]; rfl) (by rw [hc]; rfl) hne ?_ hsteps ?_
    · rw [breaks_eq hne, ha, Bool.or_true]
    · rw [afterBreak, hcreate]
      exact hstore
  | access id c hc hm ha =>
    have hin : (s.handlers d).InSection := by rw [hc]; trivial
    have hne := hr.deletes d c (by rw [hc]; rfl)
    obtain ⟨hstore, hcreate⟩ := (hr.store.located d id c hc).eq_locate hm
    have hwhole : whole σ c = (.reply (answer σ.sharedKvstore c.request),
        { σ with sharedKvstore := effect σ.sharedKvstore c.request }) := by
      refine Program.handle_eq _ (hr.lock.unleaked hin (by rw [hc]; rfl)) ?_
      rw [breaks_eq hne, ha, hcreate]
      rfl
    refine ⟨_, .commit id c rfl (by rw [hc]; rfl) ?_, ?_, hdel, StoreRel.release hr.lock hsteps hin (by simp) ?_⟩
    · rw [goto_handlers_self, hwhole, hstore, Conc.answer_locate]
      rfl
    · rw [hwhole]
      exact hlock (by rw [goto_handlers_self]; rfl)
    · rw [hwhole, goto_sharedKvstore, hstore]
      exact Conc.access_locate hne
  | leave id c hc ht =>
    refine ⟨σ, .silent rfl ?_ (by simp [hc]) (by simp [hc]), hlock (by rw [goto_handlers_self]; rfl), hdel,
      hother (by simp [hc]) (by simp) rfl⟩
    rw [goto_handlers_self, hc, CallPhase.status, CallPhase.status, Call.brokenReply, if_pos ht]
  | recover id c hc ht =>
    refine ⟨σ, .silent rfl ?_ (by simp [hc]) (by simp [hc]), hlock (by rw [goto_handlers_self]; rfl), hdel,
      hother (by simp [hc]) (by simp) rfl⟩
    rw [goto_handlers_self, hc, CallPhase.status, CallPhase.status, Call.brokenReply, ht]
    rfl
  | unlock id c res hc =>
    exact ⟨σ, .silent rfl (by rw [goto_handlers_self, hc]; rfl) (by simp [hc]) (by simp [hc]),
      hlock (by rw [goto_handlers_self]; rfl), hdel, hother (by simp [hc]) (by simp) rfl⟩
  | reply id c r hc =>
    exact ⟨σ, .reply id c r rfl hc (goto_handlers_self _ _ _), hlock (by rw [goto_handlers_self]; rfl), hdel,
      hother (by simp [hc]) (by simp) rfl⟩

/-! ### Simulation -/

/-- The handlers are in the state `o` of an atomic object. -/
structure Simulated (s : Throwing Conn) (o : Obj Conn Server Call Reply) : Prop where
  related : Related s o.state
  status : ∀ d, o.status d = (s.handlers d).status
  next : o.next = s.next

omit [DecidableEq Conn] in
theorem simulated_init : Simulated ({} : Throwing Conn) { state := {} } where
  related := ⟨lockRel_init, fun _ _ h => absurd h.symm (Option.some_ne_none _), storeRel_init⟩
  status := fun _ => rfl
  next := rfl

private theorem status_step {o : Obj Conn Server Call Reply} (hi : ∀ e, o.status e = (s.handlers e).status)
    (hs : Steps s d a s') {st : Status Call Reply} (hd : st = (s'.handlers d).status) (e : Conn) :
    (o.goto d st).status e = (s'.handlers e).status := by
  by_cases hed : e = d
  · rw [hed, Obj.goto_self, hd]
  · rw [Obj.goto_of_ne _ hed, hs.handlers_of_ne hed, hi e]

omit [DecidableEq Conn] in
private theorem observe_advance (h : ∀ id c reply, s.handlers d ≠ .finished id c reply) :
    observe s (d, .advance) = [] := by
  unfold observe
  split
  · cases ‹(d, CallAct.advance) = _›
  · split
    · rename_i hd
      cases ‹(d, CallAct.advance) = _›
      exact absurd hd (h _ _ _)
    · rfl

/-- The handlers are simulated by an atomic object that executes each call whole, with all that it throws. -/
theorem simulates : Obj.Simulates whole (@Simulated Conn) step observe := by
  intro s o d a s' hi hs
  have hst := steps_of_step hs
  have hd := hi.status d
  obtain ⟨σ', hab, hrel⟩ := abstracts hi.related hst
  cases hab with
  | arrive c h h' hn =>
    rw [h] at hd
    obtain ⟨he, ht⟩ := Obj.exec_invoke whole hd c
    refine ⟨_, _, he, by rw [ht, hi.next]; rfl, hrel, ?_, by rw [hn, ← hi.next]; rfl⟩
    exact status_step (o := { o with next := o.next + 1 }) hi.status hst (by rw [h', hi.next]; rfl)
  | silent hn h _ hf =>
    refine ⟨[], o, rfl, (observe_advance hf).symm, hrel, fun e => ?_, hi.next.trans hn.symm⟩
    by_cases hed : e = d
    · rw [hed, hd, h]
    · rw [hst.handlers_of_ne hed, hi.status e]
  | commit id c hn h h' =>
    rw [h] at hd
    obtain ⟨he, ht⟩ := Obj.exec_commit whole hd
    refine ⟨_, _, he, ?_, hrel, ?_, hi.next.trans hn.symm⟩
    · rw [ht, observe_advance]
      intro i q reply hf
      rw [hf] at h
      cases h
    · exact status_step (o := { o with state := (whole o.state c).2 }) hi.status hst h'.symm
  | reply id c reply hn h h' =>
    rw [h] at hd
    obtain ⟨he, ht⟩ := Obj.exec_respond whole hd
    refine ⟨_, _, he, by rw [ht, observe, h], hrel, ?_, hi.next.trans hn.symm⟩
    exact status_step hi.status hst (by rw [h']; rfl)

/-! ### Whole runs -/

/-- What the clients of a run see is explained by the calls that have taken effect. -/
theorem explains {acts : List (Conn × CallAct)} (hs : Machine.exec step {} acts = some s) :
    ∃ o order, Simulated s o ∧ Obj.Explains whole {} o (history acts) order :=
  Obj.explains_of_simulation simulates simulated_init hs

/-- In every run, whatever throws in it, the answered calls together with the pending ones past their `try` block have a
sequential order that respects real time, in which the handlers, executed one after another with the same exceptions,
give every reply, the exceptions included, and come to the store and to a lock that is leaked or not. -/
theorem linearizes_throwing (acts : List (Conn × CallAct)) (s : Throwing Conn)
    (hs : Machine.exec step {} acts = some s) :
    ∃ order σ, Linearizes whole {} (history acts) order ∧ Sequential whole {} order σ ∧ Related s σ ∧
      (∀ e ∈ order, .ret e.id e.res ∈ history acts ∨ ∃ d, (s.handlers d).status = .done e.id e.op e.res) ∧
      ∀ d e, (s.handlers d).status = .done e.id e.op e.res → e ∈ order := by
  obtain ⟨o, order, hsim, he⟩ := explains hs
  refine ⟨order, o.state, he.points.linearizes, he.points.sequential, hsim.related, fun e hm => ?_, fun d e hd => ?_⟩
  · refine (he.effective e hm).imp_right fun h => ?_
    obtain ⟨d, hd⟩ := h
    exact ⟨d, (hsim.status d).symm.trans hd⟩
  · exact he.done d _ _ _ ((hsim.status d).trans hd)

/-- A `kvset` whose two assignments throw. -/
def brokenSet : Call := ⟨.kvset "hi" "bye to everybody", { assign := true, errortext := true }⟩

/-- It leaks the lock, so the `kvget` of another client waits for ever; a `kvdelete` is still answered. -/
def leakingRun : List (Fin 3 × CallAct) :=
  [(0, .arrive brokenSet), (0, .advance), (1, .arrive ⟨.kvget "hi", {}⟩), (0, .advance), (0, .advance), (0, .advance),
    (0, .advance), (2, .arrive ⟨.kvdelete "hi", {}⟩), (2, .advance)]

theorem linearizes_throwing_leak :
    ∃ order σ, Linearizes whole {} (history leakingRun) order ∧ Sequential whole {} order σ ∧
      ⟨0, brokenSet, .exception⟩ ∈ order ∧ ⟨2, ⟨.kvdelete "hi", {}⟩, .reply {}⟩ ∈ order := by
  have hview : (Machine.exec step ({} : Throwing (Fin 3)) leakingRun).map (fun s => s.handlers 2) =
      some (.finished 2 ⟨.kvdelete "hi", {}⟩ (.reply {})) := by decide
  obtain ⟨s, hs, hdone⟩ := Option.map_eq_some_iff.1 hview
  obtain ⟨order, σ, hl, hseq, _, _, hmem⟩ := linearizes_throwing _ s hs
  have hhistory : history leakingRun =
      [.inv 0 brokenSet, .inv 1 ⟨.kvget "hi", {}⟩, .ret 0 .exception, .inv 2 ⟨.kvdelete "hi", {}⟩] := by decide
  refine ⟨order, σ, hl, hseq, ?_, hmem 2 ⟨2, ⟨.kvdelete "hi", {}⟩, .reply {}⟩ (by rw [hdone]; rfl)⟩
  obtain ⟨c, hc⟩ := hl.completed 0 .exception (by rw [hhistory]; simp)
  have hinv := hl.invoked _ hc
  rw [hhistory] at hinv
  obtain rfl : c = brokenSet := by simpa using hinv
  exact hc

end Throwing

end KVStore
