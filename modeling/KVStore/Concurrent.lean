import KVStore.Lib.Machine
import KVStore.Outcomes

/-!
# Concurrent handlers of `kvserver_consistent`

Any number of connections, each with a handler that serves one request at a time; the steps of the handlers
interleave.  `kvset` and `kvget` take the lock, look the entry up (creating it if needed), assign or copy it,
release the lock and reply.  `kvdelete` erases and replies; it does not take the lock.  Nothing throws here; `Throwing`
has the exceptions.

A handler whose entry has been erased would use a reference to nothing.  What the program does then is undefined, so
there is no such step: a run of the model is a run of the program up to there.

* `lck` is held by exactly the handler that is between `lock` and `unlock` (`LockInv`).
* A single handler that runs alone does what the sequential model says (`exec_alone`).
* While a handler is between `lock` and `unlock`, the only step of another that changes the store is that of a
  `kvdelete` on a key that is there, and then a located entry can be lost (`exclusion_iff`).
-/

namespace KVStore

/-- Where the handler of a connection is.  Requests are numbered as they arrive. -/
inductive Phase where
  | idle
  | arrived (id : Nat) (r : Request)
  /-- past `lck.lock()` -/
  | locked (id : Nat) (r : Request)
  /-- holds a reference to the entry of the key -/
  | located (id : Nat) (r : Request)
  /-- past the access to the entry, before `lck.unlock()` -/
  | accessed (id : Nat) (r : Request) (res : Result)
  /-- ready to reply -/
  | finished (id : Nat) (r : Request) (res : Result)
  deriving DecidableEq, Repr

/-- Between `lck.lock()` and `lck.unlock()`. -/
def Phase.InSection : Phase → Prop
  | .locked _ _ => True
  | .located _ _ => True
  | .accessed _ _ _ => True
  | _ => False

/-- The globals and the handlers; `next` is the number of the next request. -/
structure Conc (Conn : Type) where
  sharedKvstore : Store := Store.empty
  lck : Option Conn := none
  handlers : Conn → Phase := fun _ => .idle
  next : Nat := 0

/-- What can happen at a connection: a request arrives, or its handler takes its next step. -/
inductive Act where
  | arrive (r : Request)
  | advance
  deriving DecidableEq, Repr

namespace Conc

variable {Conn : Type} [DecidableEq Conn]

/-- The handler of `c` goes to `ph`. -/
def goto (s : Conc Conn) (c : Conn) (ph : Phase) : Conc Conn :=
  { s with handlers := Function.update s.handlers c ph }

/-- The access to a located entry: `kvset` assigns it, `kvget` copies it. -/
def access (m : Store) : Request → Store
  | .kvset key value => m.assign key value
  | _ => m

/-- The next step of the handler of `c`. -/
def advance (s : Conc Conn) (c : Conn) : Option (Conc Conn) :=
  match s.handlers c with
  | .idle => none
  -- no `lck.lock()` here
  | .arrived id (.kvdelete key) =>
    some ({ s with sharedKvstore := s.sharedKvstore.erase key }.goto c
      (.finished id (.kvdelete key) (answer s.sharedKvstore (.kvdelete key))))
  | .arrived id r => if s.lck = none then some ({ s with lck := some c }.goto c (.locked id r)) else none
  | .locked id r =>
    some ({ s with sharedKvstore := s.sharedKvstore.locate r.key }.goto c (.located id r))
  | .located id r =>
    -- through an erased entry the behaviour is undefined
    if (s.sharedKvstore r.key).isSome then
      some ({ s with sharedKvstore := access s.sharedKvstore r }.goto c
        (.accessed id r (answer s.sharedKvstore r)))
    else none
  | .accessed id r res => some ({ s with lck := none }.goto c (.finished id r res))
  | .finished _ _ _ => some (s.goto c .idle)

def step (s : Conc Conn) : Conn × Act → Option (Conc Conn)
  | (c, .arrive r) =>
    if s.handlers c = .idle then some ({ s with next := s.next + 1 }.goto c (.arrived s.next r)) else none
  | (c, .advance) => s.advance c

/-- What a step can do: one case for each phase the handler is in. -/
inductive Steps (s : Conc Conn) (c : Conn) : Act → Conc Conn → Prop
  | arrive (r) : s.handlers c = .idle →
      Steps s c (.arrive r) ({ s with next := s.next + 1 }.goto c (.arrived s.next r))
  | erase (id key) : s.handlers c = .arrived id (.kvdelete key) →
      Steps s c .advance ({ s with sharedKvstore := s.sharedKvstore.erase key }.goto c
        (.finished id (.kvdelete key) (answer s.sharedKvstore (.kvdelete key))))
  | lock (id r) : s.handlers c = .arrived id r → (∀ key, r ≠ .kvdelete key) → s.lck = none →
      Steps s c .advance ({ s with lck := some c }.goto c (.locked id r))
  | locate (id r) : s.handlers c = .locked id r →
      Steps s c .advance ({ s with sharedKvstore := s.sharedKvstore.locate r.key }.goto c (.located id r))
  | access (id r) : s.handlers c = .located id r → (s.sharedKvstore r.key).isSome →
      Steps s c .advance ({ s with sharedKvstore := Conc.access s.sharedKvstore r }.goto c
        (.accessed id r (answer s.sharedKvstore r)))
  | unlock (id r res) : s.handlers c = .accessed id r res →
      Steps s c .advance ({ s with lck := none }.goto c (.finished id r res))
  | reply (id r res) : s.handlers c = .finished id r res → Steps s c .advance (s.goto c .idle)

theorem steps_of_step {s s' : Conc Conn} {c : Conn} {a : Act} (h : s.step (c, a) = some s') :
    Steps s c a s' := by
  cases a with
  | arrive r =>
    obtain ⟨hi, h⟩ := Option.ite_none_right_eq_some.1 h
    exact Option.some.inj h ▸ .arrive r hi
  | advance =>
    simp only [step, advance] at h
    split at h
    · cases h
    · rename_i id key hc; exact Option.some.inj h ▸ .erase id key hc
    · rename_i id r hr hc
      obtain ⟨hl, h⟩ := Option.ite_none_right_eq_some.1 h
      exact Option.some.inj h ▸ .lock id r hc (fun key => by rintro rfl; exact hr key rfl) hl
    · rename_i id r hc; exact Option.some.inj h ▸ .locate id r hc
    · rename_i id r hc
      split at h
      · rename_i hm; exact Option.some.inj h ▸ .access id r hc hm
      · cases h
    · rename_i id r res hc; exact Option.some.inj h ▸ .unlock id r res hc
    · rename_i id r res hc; exact Option.some.inj h ▸ .reply id r res hc

@[simp] theorem goto_handlers_self (s : Conc Conn) (c : Conn) (ph : Phase) : (s.goto c ph).handlers c = ph :=
  Function.update_self _ _ _

theorem goto_handlers_of_ne (s : Conc Conn) {c d : Conn} (h : d ≠ c) (ph : Phase) :
    (s.goto c ph).handlers d = s.handlers d :=
  Function.update_of_ne h _ _

@[simp] theorem goto_lck (s : Conc Conn) (c : Conn) (ph : Phase) : (s.goto c ph).lck = s.lck := rfl

@[simp] theorem goto_sharedKvstore (s : Conc Conn) (c : Conn) (ph : Phase) :
    (s.goto c ph).sharedKvstore = s.sharedKvstore := rfl

/-- A step of one connection leaves the other handlers where they are. -/
theorem Steps.handlers_of_ne {s s' : Conc Conn} {c d : Conn} {a : Act} (h : Steps s c a s') (hd : d ≠ c) :
    s'.handlers d = s.handlers d := by
  cases h <;> exact goto_handlers_of_ne _ hd _

/-! ### The lock -/

/-- `lck` is held by exactly the handler between `lock` and `unlock`. -/
def LockInv (s : Conc Conn) : Prop := ∀ c, (s.handlers c).InSection ↔ s.lck = some c

theorem LockInv.step {s s' : Conc Conn} {c : Conn} {a : Act} (hi : LockInv s) (h : Steps s c a s') :
    LockInv s' := by
  intro d
  have hc := hi c
  by_cases hd : d = c
  · subst hd
    cases h with
    | arrive r h | erase id key h | reply id r res h => simpa [Phase.InSection, h] using hc
    | lock id r h => simp [Phase.InSection]
    | locate id r h | access id r h => simpa [Phase.InSection, h] using hc
    | unlock id r res h => simp [Phase.InSection]
  · rw [h.handlers_of_ne hd, hi d]
    cases h with
    | arrive r h | erase id key h | reply id r res h => rfl
    | locate id r h | access id r h => rfl
    | lock id r h _ hl => simp [hl, Ne.symm hd]
    | unlock id r res h =>
      rw [goto_lck, hc.1 (by rw [h]; trivial)]
      simp [Ne.symm hd]

omit [DecidableEq Conn] in
/-- At most one handler is between `lock` and `unlock`. -/
theorem LockInv.unique {s : Conc Conn} (hi : LockInv s) {c d : Conn} (hc : (s.handlers c).InSection)
    (hd : (s.handlers d).InSection) : c = d :=
  Option.some.inj (((hi c).1 hc).symm.trans ((hi d).1 hd))

omit [DecidableEq Conn] in
theorem lockInv_init : LockInv ({} : Conc Conn) := by
  intro c
  simp [Phase.InSection]

/-! ### One handler alone -/

theorem access_locate {m : Store} {r : Request} (hr : ∀ key, r ≠ .kvdelete key) :
    access (m.locate r.key) r = effect m r := by
  cases r with
  | kvset key value => exact Store.assign_locate m key value
  | kvget key => rfl
  | kvdelete key => exact absurd rfl (hr key)

theorem answer_locate (m : Store) (r : Request) : answer (m.locate r.key) r = answer m r := by
  cases r with
  | kvset key value => rfl
  | kvget key => simp only [answer, Request.key, Store.value_locate]
  | kvdelete key => rfl

/-- A request whose handler runs alone from `lck.lock()` on ends as the whole call does. -/
theorem exec_alone {s : Conc Conn} {c : Conn} (hc : s.handlers c = .idle) (hl : s.lck = none) {r : Request}
    (hr : ∀ key, r ≠ .kvdelete key) :
    Machine.exec step s ((c, .arrive r) :: List.replicate 4 (c, .advance)) =
      some ({ s with sharedKvstore := effect s.sharedKvstore r, next := s.next + 1 }.goto c
        (.finished s.next r (answer s.sharedKvstore r))) ∧
    Program.kvserverConsistent.handle { sharedKvstore := s.sharedKvstore } { request := r } =
      (.reply (answer s.sharedKvstore r), { sharedKvstore := effect s.sharedKvstore r }) := by
  refine ⟨?_, Program.handle_eq _ rfl (by cases r <;> rfl)⟩
  have h1 : s.step (c, .arrive r) = some ({ s with next := s.next + 1 }.goto c (.arrived s.next r)) := by
    rw [step, if_pos hc]
  have h2 : ({ s with next := s.next + 1 }.goto c (.arrived s.next r)).step (c, .advance) =
      some ({ s with next := s.next + 1, lck := some c }.goto c (.locked s.next r)) := by
    cases r with
    | kvdelete key => exact absurd rfl (hr key)
    | _ => simp [step, advance, hl, goto]
  have h3 : ({ s with next := s.next + 1, lck := some c }.goto c (.locked s.next r)).step (c, .advance) =
      some ({ s with
        next := s.next + 1, lck := some c, sharedKvstore := s.sharedKvstore.locate r.key }.goto c
          (.located s.next r)) := by
    simp [step, advance, goto]
  have h4 : ({ s with
        next := s.next + 1, lck := some c, sharedKvstore := s.sharedKvstore.locate r.key }.goto c
          (.located s.next r)).step (c, .advance) =
      some ({ s with
        next := s.next + 1, lck := some c, sharedKvstore := effect s.sharedKvstore r }.goto c
          (.accessed s.next r (answer s.sharedKvstore r))) := by
    simp [step, advance, goto, Store.isSome_locate, access_locate hr, answer_locate]
  have h5 : ({ s with
        next := s.next + 1, lck := some c, sharedKvstore := effect s.sharedKvstore r }.goto c
          (.accessed s.next r (answer s.sharedKvstore r))).step (c, .advance) =
      some ({ s with sharedKvstore := effect s.sharedKvstore r, next := s.next + 1 }.goto c
        (.finished s.next r (answer s.sharedKvstore r))) := by
    simp [step, advance, goto, hl]
  simp only [List.replicate, Machine.exec_cons, h1, h2, h3, h4, h5, Option.bind_some, Machine.exec_nil]

/-! ### Exclusion -/

/-- While a handler is between `lock` and `unlock`, no step of another one changes the store. -/
def Exclusion (s : Conc Conn) : Prop :=
  ∀ c, (s.handlers c).InSection → ∀ d, d ≠ c → ∀ a s', s.step (d, a) = some s' →
    s'.sharedKvstore = s.sharedKvstore

/-- The entry that a handler has located is still in the map. -/
def LocatedPresent (s : Conc Conn) : Prop :=
  ∀ c id r, s.handlers c = .located id r → (s.sharedKvstore r.key).isSome

/-- While a handler is between `lock` and `unlock`, no `kvdelete` is about to erase a key that is there. -/
def EraseWaits (s : Conc Conn) : Prop :=
  ∀ c, (s.handlers c).InSection → ∀ d id key, s.handlers d = .arrived id (.kvdelete key) →
    s.sharedKvstore key = none

omit [DecidableEq Conn] in
private theorem erase_of_eq_none {m : Store} {key : String} (h : m key = none) : m.erase key = m := by
  rw [Store.erase, ← h, Function.update_eq_self]

theorem exclusion_of_eraseWaits {s : Conc Conn} (hi : LockInv s) (he : EraseWaits s) : Exclusion s := by
  intro c hc d hd a s' hs
  cases steps_of_step hs with
  | erase id key h => exact erase_of_eq_none (he c hc d id key h)
  | lock id r h _ hl =>
    rw [(hi c).1 hc] at hl
    cases hl
  | locate id r h => exact absurd (hi.unique (by rw [h]; trivial) hc) hd
  | access id r h => exact absurd (hi.unique (by rw [h]; trivial) hc) hd
  | _ => rfl

theorem eraseWaits_of_exclusion {s : Conc Conn} (he : Exclusion s) : EraseWaits s := by
  intro c hc d id key h
  have hd : d ≠ c := by rintro rfl; rw [h] at hc; exact hc
  have e := he c hc d hd .advance _ (by rw [step, advance, h])
  have e := congrFun e key
  rw [← e]
  simp [Store.erase]

theorem LocatedPresent.step {s s' : Conc Conn} {d : Conn} {a : Act} (hp : LocatedPresent s)
    (hx : Exclusion s) (hs : s.step (d, a) = some s') : LocatedPresent s' := by
  intro c id r h
  have hsteps := steps_of_step hs
  by_cases hd : d = c
  · subst hd
    cases hsteps with
    | locate id' r' h' =>
      rw [goto_handlers_self, Phase.located.injEq] at h
      obtain ⟨rfl, rfl⟩ := h
      exact Store.isSome_locate _ _
    | _ => rw [goto_handlers_self] at h; cases h
  · rw [hsteps.handlers_of_ne (Ne.symm hd)] at h
    rw [hx c (by rw [h]; trivial) d hd a s' hs]
    exact hp c id r h

/-- In every run: other handlers leave the store alone while one is between `lock` and `unlock`, and located entries
stay, iff no `kvdelete` is ever about to erase a key that is there at such a moment. -/
theorem exclusion_iff (acts : List (Conn × Act)) :
    (∀ u, Machine.Visits step {} acts u → Exclusion u ∧ LocatedPresent u) ↔
      ∀ u, Machine.Visits step {} acts u → EraseWaits u := by
  constructor
  · exact fun h u hu => eraseWaits_of_exclusion (h u hu).1
  · rintro h u ⟨pre, hpre, hu⟩
    have hinv : LockInv u ∧ LocatedPresent u := by
      refine Machine.exec_invariant_of_along (fun v _ => EraseWaits v)
        (fun v => LockInv v ∧ LocatedPresent v) ?_ ⟨lockInv_init, by intro c id r h; cases h⟩ ?_ hu
      · rintro v ⟨d, a⟩ v' ⟨hi, hp⟩ he hv
        exact ⟨hi.step (steps_of_step hv), hp.step (exclusion_of_eraseWaits hi he) hv⟩
      · exact Machine.along_of_visits fun v ⟨pre', hpre', hv⟩ => h v ⟨pre', hpre'.trans hpre, hv⟩
    exact ⟨exclusion_of_eraseWaits hinv.1 (h u ⟨pre, hpre, hu⟩), hinv.2⟩

/-- A `kvset` has located its entry when a `kvdelete` arrives and erases it. -/
theorem erase_breaks_exclusion :
    ¬∀ u, Machine.Visits step ({} : Conc Bool)
        [(true, .arrive (.kvset "hi" "bye")), (true, .advance), (true, .advance),
          (false, .arrive (.kvdelete "hi")), (false, .advance)] u →
      Exclusion u ∧ LocatedPresent u := by
  intro h
  have hu := eraseWaits_of_exclusion (h _ ⟨[(true, .arrive (.kvset "hi" "bye")), (true, .advance),
    (true, .advance), (false, .arrive (.kvdelete "hi"))], by decide, rfl⟩).1
  exact absurd (hu true trivial false 1 "hi" rfl) (by decide)

end Conc

end KVStore
