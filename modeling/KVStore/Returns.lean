import KVStore.Calls
import Mathlib.Data.Fintype.Basic

/-!
# Calls over the network return

When no client makes a new call, and no `catch` block throws, the calls that have been made can all return, from every
state that a run comes to in which no handler is about to use an erased entry (`all_return`).  The handler that has the
lock can run to its end, whether its `try` block throws or not, and after it the others, one after another, each from
wherever its call is (`exec_return`).
-/

namespace KVStore

open Thrift Linearizable

/-- The strings of the call can be sent, and its `catch` block does not throw. -/
def Call.Orderly (c : Call) : Prop := c.request.Sendable ∧ c.catchThrows = false

instance (c : Call) : Decidable c.Orderly := inferInstanceAs (Decidable (_ ∧ _))

theorem sendable_caughtResult (r : Request) : r.caughtResult.Sendable := by
  cases r with
  | kvset key value =>
    exact ⟨(by decide : Thrift.Sendable ""), (by decide : Thrift.Sendable "Server could not store value")⟩
  | kvget key | kvdelete key => exact ⟨(by decide : Thrift.Sendable ""), (by decide : Thrift.Sendable "")⟩

namespace Throwing

variable {Conn : Type} [DecidableEq Conn] {s s' : Throwing Conn} {d e : Conn} {a : CallAct}

/-! ### Erased entries -/

omit [DecidableEq Conn] in
theorem AtErased.inSection (h : AtErased s d) : (s.handlers d).InSection := by
  obtain ⟨id, c, h, _⟩ := h
  rw [h]
  trivial

/-- No handler is about to erase an entry, or to use one that has been erased. -/
structure Unerased (s : Throwing Conn) : Prop where
  requests : ∀ d id c, s.handlers d = .arrived id c → ∀ key, c.request ≠ .kvdelete key
  entries : ∀ d, ¬AtErased s d

omit [DecidableEq Conn] in
theorem unerased_init : Unerased ({} : Throwing Conn) where
  requests _ _ _ h := CallPhase.noConfusion h
  entries _ h := h.inSection

/-- Only a `kvdelete` erases an entry. -/
private theorem Unerased.entries_step (hu : Unerased s) (hi : LockRel s false) (hs : Steps s d a s') (e : Conn) :
    ¬AtErased s' e := by
  rintro ⟨i, q, h, hnone⟩
  by_cases hed : e = d
  · subst hed
    cases hs with
    | locate id c hc hm =>
      rw [goto_handlers_self, CallPhase.located.injEq] at h
      have hsome := Store.isSome_locate s.sharedKvstore c.request.key
      rw [goto_sharedKvstore, ← h.2] at hnone
      have hnone : s.sharedKvstore.locate c.request.key c.request.key = none := hnone
      rw [hnone] at hsome
      cases hsome
    | _ => rw [goto_handlers_self] at h; cases h
  · rw [hs.handlers_of_ne hed] at h
    have hin : (s.handlers e).InSection := by rw [h]; trivial
    refine hu.entries e ⟨i, q, h, ?_⟩
    cases hs with
    | erase id key f hc => exact absurd rfl (hu.requests d id _ hc key)
    | locate id c hc => exact absurd (hi.unique hin (by rw [hc]; trivial)) hed
    | access id c hc => exact absurd (hi.unique hin (by rw [hc]; trivial)) hed
    | _ => exact hnone

theorem Unerased.step (hu : Unerased s) (hi : LockRel s false) (hs : Steps s d a s')
    (ha : ∀ c, a = .arrive c → ∀ key, c.request ≠ .kvdelete key) : Unerased s' := by
  refine ⟨fun e i q h => ?_, hu.entries_step hi hs⟩
  by_cases hed : e = d
  · subst hed
    cases hs with
    | arrive c _ =>
      rw [goto_handlers_self, CallPhase.arrived.injEq] at h
      exact ha q (by rw [h.2])
    | _ => rw [goto_handlers_self] at h; cases h
  · rw [hs.handlers_of_ne hed] at h
    exact hu.requests e i q h

/-! ### A handler that runs to its end -/

/-- The handler of `d` comes to its end if it takes all steps from now on. -/
def Finishes (s : Throwing Conn) (d : Conn) : Prop :=
  ∃ k s' i c reply, Machine.exec step s (List.replicate k (d, .advance)) = some s' ∧
    s'.handlers d = .finished i c reply

theorem Finishes.of_advance (h : s.advance d = some s') (hf : Finishes s' d) : Finishes s d := by
  obtain ⟨k, t, i, c, reply, ht, hf⟩ := hf
  exact ⟨k + 1, t, i, c, reply, Machine.exec_cons_eq_some.2 ⟨s', h, ht⟩, hf⟩

theorem finishes_of_finished {i : Nat} {c : Call} {reply : Reply} (h : s.handlers d = .finished i c reply) :
    Finishes s d := ⟨0, s, i, c, reply, rfl, h⟩

theorem finishes_of_accessed {i : Nat} {c : Call} {res : Result} (h : s.handlers d = .accessed i c res) :
    Finishes s d := by
  have ha : s.advance d = some ({ s with lck := none }.goto d (.finished i c (.reply res))) := by rw [advance, h]
  exact Finishes.of_advance ha (finishes_of_finished (goto_handlers_self _ _ _))

theorem finishes_of_caught {i : Nat} {c : Call} (h : s.handlers d = .caught i c) : Finishes s d := by
  by_cases ht : c.catchThrows
  · have ha : s.advance d = some (s.goto d (.finished i c .exception)) := by
      rw [advance, h]
      exact if_pos ht
    exact Finishes.of_advance ha (finishes_of_finished (goto_handlers_self _ _ _))
  · have ha : s.advance d = some (s.goto d (.accessed i c c.request.caughtResult)) := by
      rw [advance, h]
      exact if_neg ht
    exact Finishes.of_advance ha (finishes_of_accessed (goto_handlers_self _ _ _))

theorem finishes_of_located {i : Nat} {c : Call} (h : s.handlers d = .located i c)
    (hm : (s.sharedKvstore c.request.key).isSome) : Finishes s d := by
  have hm : (s.sharedKvstore c.request.key).isNone = false := by simpa using hm
  by_cases ht : c.accessThrows
  · have ha : s.advance d = some (s.goto d (.caught i c)) := by
      rw [advance, h]
      dsimp only
      rw [hm, if_neg Bool.false_ne_true, if_pos ht]
    exact Finishes.of_advance ha (finishes_of_caught (goto_handlers_self _ _ _))
  · have ha : s.advance d = some ({ s with sharedKvstore := Conc.access s.sharedKvstore c.request }.goto d
        (.accessed i c (answer s.sharedKvstore c.request))) := by
      rw [advance, h]
      dsimp only
      rw [hm, if_neg Bool.false_ne_true, if_neg ht]
    exact Finishes.of_advance ha (finishes_of_accessed (goto_handlers_self _ _ _))

theorem finishes_of_locked {i : Nat} {c : Call} (h : s.handlers d = .locked i c) : Finishes s d := by
  by_cases ht : (c.faults.create && (s.sharedKvstore c.request.key).isNone) = true
  · have ha : s.advance d = some (s.goto d (.caught i c)) := by
      rw [advance, h]
      exact if_pos ht
    exact Finishes.of_advance ha (finishes_of_caught (goto_handlers_self _ _ _))
  · have ha : s.advance d = some ({ s with sharedKvstore := s.sharedKvstore.locate c.request.key }.goto d
        (.located i c)) := by
      rw [advance, h]
      exact if_neg ht
    exact Finishes.of_advance ha (finishes_of_located (goto_handlers_self _ _ _) (Store.isSome_locate _ _))

/-- A handler that gets the lock, or has it, comes to its end, unless its next step would use an erased entry. -/
theorem finishes (hne : s.handlers d ≠ .idle) (hd : ¬AtErased s d) (hl : s.lck = none ∨ s.lck = some d)
    (hi : LockRel s false) : Finishes s d := by
  cases h : s.handlers d with
  | idle => exact absurd h hne
  | arrived i c =>
    have hlck : s.lck = none := by
      refine hl.resolve_right fun hd => ?_
      have hin := (hi.kept d hd).resolve_right Bool.false_ne_true
      rw [h] at hin
      exact hin
    obtain ⟨r, f⟩ := c
    cases r with
    | kvdelete key =>
      have ha : s.advance d = some ({ s with sharedKvstore := s.sharedKvstore.erase key }.goto d
          (.finished i ⟨.kvdelete key, f⟩ (.reply (answer s.sharedKvstore (.kvdelete key))))) := by rw [advance, h]
      exact Finishes.of_advance ha (finishes_of_finished (goto_handlers_self _ _ _))
    | kvset key value =>
      have ha : s.advance d = some ({ s with lck := some d }.goto d (.locked i ⟨.kvset key value, f⟩)) := by
        rw [advance, h]
        exact if_pos hlck
      exact Finishes.of_advance ha (finishes_of_locked (goto_handlers_self _ _ _))
    | kvget key =>
      have ha : s.advance d = some ({ s with lck := some d }.goto d (.locked i ⟨.kvget key, f⟩)) := by
        rw [advance, h]
        exact if_pos hlck
      exact Finishes.of_advance ha (finishes_of_locked (goto_handlers_self _ _ _))
  | locked i c => exact finishes_of_locked h
  | located i c =>
    refine finishes_of_located h (Option.isSome_iff_ne_none.2 fun hm => ?_)
    exact hd ⟨i, c, h, hm⟩
  | caught i c => exact finishes_of_caught h
  | accessed i c res => exact finishes_of_accessed h
  | finished i c reply => exact finishes_of_finished h

/-! ### Handlers that unlock and reply -/

/-- A handler works on an orderly call, or has a result that can be sent. -/
def OrderlyStatus : Status Call Reply → Prop
  | .idle => True
  | .pending _ c => c.Orderly
  | .done _ _ reply => ∃ res, reply = .reply res ∧ res.Sendable

/-- The lock has not leaked, and all strings on the server can be sent. -/
structure Orderly (s : Throwing Conn) : Prop where
  lock : LockRel s false
  store : Server.Sendable { sharedKvstore := s.sharedKvstore }
  handlers : ∀ d, OrderlyStatus (s.handlers d).status

omit [DecidableEq Conn] in
theorem orderly_init : Orderly ({} : Throwing Conn) where
  lock := lockRel_init
  store := fun _ => (by decide : Thrift.Sendable "")
  handlers := fun _ => trivial

private theorem orderly_store (hw : Orderly s) (hs : Steps s d a s') :
    Server.Sendable { sharedKvstore := s'.sharedKvstore } := by
  have hd := hw.handlers d
  cases hs with
  | erase id key f h =>
    rw [h] at hd
    exact hw.store.effect (r := .kvdelete key) rfl hd.1
  | locate id c h =>
    intro k
    show Thrift.Sendable ((s.sharedKvstore.locate c.request.key).value k)
    rw [Store.value_locate]
    exact hw.store k
  | access id c h =>
    rw [h] at hd
    obtain ⟨r, f⟩ := c
    cases r with
    | kvset key value => exact hw.store.effect (r := .kvset key value) rfl hd.1
    | kvget key | kvdelete key => exact hw.store
  | _ => exact hw.store

private theorem orderly_handler (hw : Orderly s) (hs : Steps s d a s') (ha : ∀ c, a = .arrive c → c.Orderly) :
    OrderlyStatus (s'.handlers d).status := by
  have hd := hw.handlers d
  have hanswer : ∀ r, (answer s.sharedKvstore r).Sendable := fun r =>
    (Handled.done (s := { sharedKvstore := s.sharedKvstore }) (c := ⟨r, {}⟩)).sendable hw.store
  -- the `try` block of an orderly call has thrown
  have hbroken : ∀ (c : Call), c.Orderly → ∃ res, c.brokenReply = .reply res ∧ res.Sendable := by
    intro c hc
    exact ⟨c.request.caughtResult, by rw [Call.brokenReply, hc.2]; rfl, sendable_caughtResult c.request⟩
  cases hs with
  | arrive c h =>
    rw [goto_handlers_self]
    exact ha c rfl
  | erase id key f h =>
    rw [goto_handlers_self]
    exact ⟨_, rfl, hanswer (.kvdelete key)⟩
  | createThrows id c h | accessThrows id c h =>
    all_goals
      rw [h] at hd
      rw [goto_handlers_self]
      exact hbroken c hd
  | access id c h =>
    rw [goto_handlers_self]
    exact ⟨_, rfl, hanswer c.request⟩
  | reply id c r h =>
    rw [goto_handlers_self]
    trivial
  | leave id c h ht =>
    rw [h, CallPhase.status, Call.brokenReply, if_pos ht] at hd
    rw [goto_handlers_self]
    exact hd
  | recover id c h ht =>
    rw [h, CallPhase.status, Call.brokenReply, ht] at hd
    rw [goto_handlers_self]
    exact hd
  | lock _ _ h | locate _ _ h | unlock _ _ _ h =>
    rw [h] at hd
    rw [goto_handlers_self]
    exact hd

theorem Orderly.step (hw : Orderly s) (hs : Steps s d a s') (ha : ∀ c, a = .arrive c → c.Orderly) : Orderly s' := by
  have hd := orderly_handler hw hs ha
  refine ⟨?_, orderly_store hw hs, fun e => ?_⟩
  · have hlock := hw.lock.step hs
    -- a handler that is about to leave would answer with an exception
    have hleak : (s'.handlers d).leaking = false := by
      cases h : s'.handlers d with
      | caught id c =>
        rw [h] at hd
        obtain ⟨res, hres, _⟩ := hd
        rw [Call.brokenReply] at hres
        split at hres
        · cases hres
        · simpa [CallPhase.leaking] using ‹¬c.catchThrows = true›
      | _ => rfl
    rwa [hleak] at hlock
  · by_cases hed : e = d
    · exact hed ▸ hd
    · rw [hs.handlers_of_ne hed]
      exact hw.handlers e

end Throwing

namespace Net

variable {Conn β : Type} [DecidableEq Conn] {P : TProtocol β} {what : String} {n n' n'' : Net Conn β} {c : Conn}

/-! ### Requests -/

variable {Q : Call → Prop} {a : NetAct} {o : Obj Conn Server Call Received}

/-- The calls that have not returned are of a kind. -/
def Pending (Q : Call → Prop) (n : Net Conn β) : Prop := ∀ c id q, n.clients c = .waiting id q → Q q

theorem Pending.step (hq : Pending Q n) (ha : ∀ q, a = .call q → Q q) (hs : Steps P what n c a n') : Pending Q n' := by
  intro d id q h
  by_cases hd : d = c
  · subst hd
    cases hs with
    | call q' w hc hw =>
      obtain ⟨_, rfl⟩ := ClientPhase.waiting.inj ((Function.update_self _ _ _).symm.trans h)
      exact ha _ rfl
    | receive _ _ _ _ _ _ _ => cases (Function.update_self _ _ _).symm.trans h
    | deliver _ | accept _ _ _ _ _ _ | advance _ _ _ | reply _ _ _ _ _ _ _ _ | carry _ => exact hq d id q h
  · rw [(hs.frame hd).1] at h
    exact hq d id q h

/-- What a step is for the handlers: only what was called arrives. -/
theorem Simulated.server_step (hP : P.Lawful) (ho : Simulated P what n o) (hq : Pending Q n)
    (hs : Steps P what n c a n') :
    n'.server = n.server ∨ ∃ a', Throwing.Steps n.server c a' n'.server ∧ ∀ q, a' = .arrive q → Q q := by
  cases hs with
  | accept r seqid rest server hr hsv =>
    have hst := ho.stage c
    have hidle : n.server.handlers c = .idle := by cases hsv; assumption
    rw [hidle] at hst
    obtain ⟨id, hc, _⟩ := hst.of_request hP hr
    exact Or.inr ⟨_, hsv, fun q h => CallAct.arrive.inj h ▸ hq c id _ hc⟩
  | advance server _ hsv => exact Or.inr ⟨_, hsv, fun _ h => CallAct.noConfusion h⟩
  | reply i q reply w server _ _ hsv => exact Or.inr ⟨_, hsv, fun _ h => CallAct.noConfusion h⟩
  | call _ _ _ _ | deliver _ | carry _ | receive _ _ _ _ _ _ _ => exact Or.inl rfl

/-! ### What holds of every state -/

variable (P what) in
/-- The network is where an atomic object is, and all in it is orderly. -/
structure Sound (n : Net Conn β) : Prop where
  simulated : ∃ o, Simulated P what n o
  server : n.server.Orderly
  clients : Pending Call.Orderly n

omit [DecidableEq Conn] in
theorem sound_init : Sound P what ({} : Net Conn β) where
  simulated := ⟨_, simulated_init⟩
  server := Throwing.orderly_init
  clients _ _ _ h := ClientPhase.noConfusion h

theorem Sound.step (hP : P.Lawful) (hn : Sound P what n) (ha : ∀ q, a = .call q → q.Orderly)
    (hs : n.step P what (c, a) = some n') : Sound P what n' := by
  obtain ⟨o, ho⟩ := hn.simulated
  obtain ⟨ms, o', _, _, hsim⟩ := simulates hP n o c a n' ho hs
  refine ⟨⟨o', hsim⟩, ?_, hn.clients.step ha (steps_of_step hs)⟩
  rcases ho.server_step hP hn.clients (steps_of_step hs) with h | ⟨a', h, ha'⟩
  · exact h ▸ hn.server
  · exact hn.server.step h ha'

theorem Sound.exec (hP : P.Lawful) (hn : Sound P what n) {as : List (Conn × NetAct)}
    (ha : ∀ c q, (c, NetAct.call q) ∈ as → q.Orderly) (hs : Machine.exec (Net.step P what) n as = some n') :
    Sound P what n' := by
  have hmem : ∀ x ∈ as, ∀ q, x.2 = NetAct.call q → q.Orderly := fun x hx q h => ha x.1 q (h ▸ hx)
  exact Machine.exec_invariant_of_along _ (Sound P what) (fun _ _ _ hi ha hs => hi.step hP ha hs) hn
    (Machine.along_of_forall_mem hmem n) hs

/-! ### One call -/

variable (P what) in
/-- The call of `c` can return in steps at its own connection. -/
def Returns (n : Net Conn β) (c : Conn) : Prop :=
  ∃ (acts : List NetAct) (n' : Net Conn β), (∀ q, .call q ∉ acts) ∧
    Machine.exec (step P what) n (acts.map (Prod.mk c)) = some n' ∧ n'.clients c = .idle

theorem Returns.of_exec {acts : List NetAct} (ha : ∀ q, .call q ∉ acts)
    (hs : Machine.exec (step P what) n (acts.map (Prod.mk c)) = some n') (hn : Returns P what n' c) :
    Returns P what n c := by
  obtain ⟨acts', n'', ha', hs', hidle⟩ := hn
  refine ⟨acts ++ acts', n'', fun q h => (List.mem_append.1 h).elim (ha q) (ha' q), ?_, hidle⟩
  rw [List.map_append]
  exact Machine.exec_append_eq_some.2 ⟨n', hs, hs'⟩

theorem Returns.of_step {a : NetAct} (ha : ∀ q, a ≠ .call q) (hs : n.step P what (c, a) = some n')
    (hn : Returns P what n' c) : Returns P what n c := by
  have hexec : Machine.exec (step P what) n ([a].map (Prod.mk c)) = some n' := Machine.exec_cons_eq_some.2 ⟨n', hs, rfl⟩
  exact hn.of_exec (fun q h => ha q (List.mem_singleton.1 h).symm) hexec

theorem put_self (n : Net Conn β) (c : Conn) : n.put c n.server (n.clients c) (n.wires c) = n := by
  rw [put, Function.update_eq_self, Function.update_eq_self]

/-- The reply is on its way. -/
theorem returns_of_replied (hP : P.Lawful) {s : Throwing Conn} {v : Wire β} {id : Nat} {q : Call} {reply : Reply}
    {seqid : Int32} {w : List β} (hw : replyText P what q.request.name q.request.resultName seqid reply = some w)
    (hv : v.Carries [] w) : Returns P what (n.put c s (.waiting id q) v) c := by
  obtain ⟨x, _, ht⟩ := takes_recv hP hw {}
  have hread : (KVStoreClient.recv P q.request.name {}).read (v.buffer ++ v.toClient) = some (x, []) := by
    rw [hv.reply]
    exact ht.read_self
  refine Returns.of_step (fun _ => NetAct.noConfusion) step_carry ?_
  refine ⟨[.receive {}], _, fun _ h => NetAct.noConfusion (List.mem_singleton.1 h),
    Machine.exec_cons_eq_some.2 ⟨_, step_receive hread, rfl⟩, Function.update_self _ _ _⟩

theorem returns_of_finished (hP : P.Lawful) (hn : Sound P what n) {i : Nat} {q : Call} {reply : Reply}
    (hf : n.server.handlers c = .finished i q reply) : Returns P what n c := by
  obtain ⟨o, ho⟩ := hn.simulated
  have hst := ho.stage c
  rw [hf] at hst
  obtain ⟨id, hc, _, hv⟩ := hst.of_done rfl
  obtain ⟨res, rfl, hres⟩ : ∃ res, reply = .reply res ∧ res.Sendable := by
    have h := hn.server.handlers c
    rw [hf] at h
    exact h
  obtain ⟨w, hw⟩ := Option.isSome_iff_exists.1
    (resultText_isSome what hP hres q.request q.request.resultName (n.wires c).seqid)
  have hadvance : n.server.advance c = some (n.server.goto c .idle) := by rw [Throwing.advance, hf]
  rw [← n.put_self c, hc]
  refine Returns.of_step (fun _ => NetAct.noConfusion) (step_reply hf hw hadvance) (returns_of_replied hP hw ?_)
  refine ⟨hv.request, ?_⟩
  rw [← List.append_assoc, hv.reply, List.nil_append]

/-- The handler is at the call, and can have the lock. -/
theorem returns_of_serving (hP : P.Lawful) (hn : Sound P what n) (hne : n.server.handlers c ≠ .idle)
    (he : ¬n.server.AtErased c) (hl : n.server.lck = none ∨ n.server.lck = some c) : Returns P what n c := by
  obtain ⟨k, s, i, q, reply, hs, hf⟩ := Throwing.finishes hne he hl hn.server.lock
  have hexec := exec_advances P what hs hf n (n.clients c) (n.wires c)
  rw [n.put_self c] at hexec
  have hcalls : ∀ q, NetAct.call q ∉ List.replicate k NetAct.advance := fun q h =>
    NetAct.noConfusion (List.eq_of_mem_replicate h)
  refine Returns.of_exec hcalls hexec (returns_of_finished hP (hn.exec hP (fun d q h => ?_) hexec) hf)
  obtain ⟨a, ha, he⟩ := List.mem_map.1 h
  exact absurd ((Prod.mk.inj he).2 ▸ ha) (hcalls q)

/-- The request is on its way. -/
theorem returns_of_sent (hP : P.Lawful) (hn : Sound P what n) {id : Nat} {q : Call} {w : List β}
    (hidle : n.server.handlers c = .idle) (hc : n.clients c = .waiting id q)
    (hw : KVStoreClient.send P q.request = some w) (hv : (n.wires c).Carries w [])
    (hl : n.server.lck = none ∨ n.server.lck = some c) : Returns P what n c := by
  have hread : (KVStoreProcessor.readRequest P).read ((n.wires c).input ++ (n.wires c).toServer) =
      some ((q.request, 0), []) := by
    rw [hv.request]
    exact (takes_readRequest hP hw).read_self
  have harrive : n.server.step (c, .arrive ⟨q.request, (n.clients c).faults⟩) =
      some ({ n.server with next := n.server.next + 1 }.goto c (.arrived n.server.next q)) := by
    rw [Throwing.step, if_pos hidle, hc]
    rfl
  have hdeliver : n.step P what (c, .deliver (n.wires c).toServer.length) = some (n.put c n.server (n.clients c)
      { n.wires c with input := (n.wires c).input ++ (n.wires c).toServer, toServer := [] }) :=
    (congrArg (fun m => m.step P what (c, .deliver (n.wires c).toServer.length)) (n.put_self c)).symm.trans step_deliver
  have haccept : (n.put c n.server (n.clients c) { n.wires c with
      input := (n.wires c).input ++ (n.wires c).toServer, toServer := [] }).step P what (c, .accept) =
      some (n.put c ({ n.server with next := n.server.next + 1 }.goto c (.arrived n.server.next q)) (n.clients c)
        { n.wires c with input := [], toServer := [], seqid := 0 }) := step_accept hread harrive
  have hn' := (hn.step hP (fun _ => NetAct.noConfusion) hdeliver).step hP (fun _ => NetAct.noConfusion) haccept
  refine Returns.of_step (fun _ => NetAct.noConfusion) hdeliver ?_
  refine Returns.of_step (fun _ => NetAct.noConfusion) haccept ?_
  have harrived := Throwing.goto_handlers_self { n.server with next := n.server.next + 1 } c (.arrived n.server.next q)
  refine returns_of_serving hP hn' (fun h => ?_) (fun h => ?_) hl
  · cases harrived.symm.trans h
  · have hin := h.inSection
    exact (congrArg CallPhase.InSection harrived).mp hin

/-- A call returns when its handler can have the lock, and does not come to an erased entry. -/
theorem exec_return (hP : P.Lawful) (hn : Sound P what n) (he : ¬n.server.AtErased c)
    (hl : n.server.lck = none ∨ n.server.lck = some c) : Returns P what n c := by
  obtain ⟨o, ho⟩ := hn.simulated
  have hst := ho.stage c
  generalize hc : n.clients c = cl, hph : n.server.handlers c = ph, hwire : n.wires c = v, o.status c = st at hst
  cases hst with
  | idle hv => exact ⟨[], n, fun _ => List.not_mem_nil, rfl, hc⟩
  | sent id q hw hv => exact returns_of_sent hP hn hph hc hw (hwire ▸ hv) hl
  | served id i q hp hv =>
    refine returns_of_serving hP hn (fun h => ?_) he hl
    rw [← hph, h] at hp
    cases hp
  | effective id i q reply hp hv =>
    refine returns_of_serving hP hn (fun h => ?_) he hl
    rw [← hph, h] at hp
    cases hp
  | replied id q reply seqid hw hv =>
    rw [← n.put_self c, hc, hwire]
    exact returns_of_replied hP hw hv

/-! ### All calls -/

variable (P what) in
/-- A run without new calls. -/
def Drains (n n' : Net Conn β) : Prop :=
  ∃ rest : List (Conn × NetAct), (∀ c q, (c, .call q) ∉ rest) ∧ Machine.exec (step P what) n rest = some n'

theorem Drains.trans (h : Drains P what n n') (h' : Drains P what n' n'') : Drains P what n n'' := by
  obtain ⟨rest, hc, hs⟩ := h
  obtain ⟨rest', hc', hs'⟩ := h'
  exact ⟨rest ++ rest', fun c q hm => (List.mem_append.1 hm).elim (hc c q) (hc' c q),
    Machine.exec_append_eq_some.2 ⟨n', hs, hs'⟩⟩

theorem Drains.sound (hP : P.Lawful) (h : Drains P what n n') (hn : Sound P what n) : Sound P what n' := by
  obtain ⟨rest, hc, hs⟩ := h
  exact hn.exec hP (fun c q hm => absurd hm (hc c q)) hs

/-- What happens at one connection leaves the others as they are. -/
theorem exec_frame {acts : List NetAct} (hs : Machine.exec (step P what) n (acts.map (Prod.mk c)) = some n') {d : Conn}
    (hd : d ≠ c) : n'.clients d = n.clients d ∧ n'.server.handlers d = n.server.handlers d := by
  induction acts generalizing n with
  | nil =>
    obtain rfl := Option.some.inj hs
    exact ⟨rfl, rfl⟩
  | cons a acts ih =>
    obtain ⟨n₁, h₁, hs⟩ := Machine.exec_cons_eq_some.1 hs
    obtain ⟨hc, hh, _⟩ := (steps_of_step h₁).frame hd
    obtain ⟨hc', hh'⟩ := ih hs
    exact ⟨hc'.trans hc, hh'.trans hh⟩

/-- A call that can have the lock returns and leaves the lock free, and all other clients as they are. -/
theorem drains_return (hP : P.Lawful) (hn : Sound P what n) (he : ¬n.server.AtErased c)
    (hl : n.server.lck = none ∨ n.server.lck = some c) :
    ∃ n', Drains P what n n' ∧ n'.server.lck = none ∧ n'.clients c = .idle ∧
      ∀ d, d ≠ c → n'.clients d = n.clients d := by
  obtain ⟨acts, n', hcalls, hs, hidle⟩ := exec_return hP hn he hl
  have hdrain : Drains P what n n' := by
    refine ⟨_, fun d q hm => ?_, hs⟩
    obtain ⟨a, ha, he⟩ := List.mem_map.1 hm
    exact hcalls q ((Prod.mk.inj he).2 ▸ ha)
  have hn' := hdrain.sound hP hn
  refine ⟨n', hdrain, Option.eq_none_iff_forall_not_mem.2 fun d hd => ?_, hidle, fun d hd => (exec_frame hs hd).1⟩
  -- whoever has the lock now had it before
  have hin := (hn'.server.lock.kept d hd).resolve_right Bool.false_ne_true
  have hdc : d ≠ c := by
    rintro rfl
    obtain ⟨o, ho⟩ := hn'.simulated
    have hst := ho.stage d
    rw [hidle] at hst
    rw [hst.of_idle.2.1] at hin
    exact hin
  rw [(exec_frame hs hdc).2] at hin
  have hlck := hn.server.lock.held d hin
  rcases hl with hl | hl
  · cases hl.symm.trans hlck
  · exact hdc (Option.some.inj (hlck.symm.trans hl))

omit [DecidableEq Conn] in
theorem not_atErased_of_unlocked (hn : Sound P what n) (hl : n.server.lck = none) : ¬n.server.AtErased c := by
  intro h
  cases hl.symm.trans (hn.server.lock.held c h.inSection)

/-- While the lock is free, one call after another can return. -/
theorem drains_all (hP : P.Lawful) (hn : Sound P what n) (hl : n.server.lck = none) (cs : List Conn) :
    ∃ n', Drains P what n n' ∧ (∀ c ∈ cs, n'.clients c = .idle) := by
  suffices h : ∃ n', Drains P what n n' ∧ (∀ c ∈ cs, n'.clients c = .idle) ∧
      ∀ c, n.clients c = .idle → n'.clients c = .idle by
    obtain ⟨n', hdrain, hcs, _⟩ := h
    exact ⟨n', hdrain, hcs⟩
  induction cs generalizing n with
  | nil => exact ⟨n, ⟨[], fun _ _ => List.not_mem_nil, rfl⟩, fun _ h => absurd h List.not_mem_nil, fun _ h => h⟩
  | cons c cs ih =>
    obtain ⟨n₁, hd₁, hl₁, hc₁, hf₁⟩ := drains_return hP hn (not_atErased_of_unlocked (c := c) hn hl) (Or.inl hl)
    obtain ⟨n', hd', hcs, hkeep⟩ := ih (hd₁.sound hP hn) hl₁
    refine ⟨n', hd₁.trans hd', List.forall_mem_cons.2 ⟨hkeep c hc₁, hcs⟩, fun d hd => hkeep d ?_⟩
    by_cases hdc : d = c
    · rw [hdc, hc₁]
    · rw [hf₁ d hdc, hd]

theorem drains_idle [Fintype Conn] (hP : P.Lawful) (hn : Sound P what n) (he : ∀ c, ¬n.server.AtErased c) :
    ∃ n', Drains P what n n' ∧ ∀ c, n'.clients c = .idle := by
  -- first whoever has the lock
  obtain ⟨n₁, hd₁, hl₁⟩ : ∃ n₁, Drains P what n n₁ ∧ n₁.server.lck = none := by
    cases hl : n.server.lck with
    | none => exact ⟨n, ⟨[], fun _ _ => List.not_mem_nil, rfl⟩, hl⟩
    | some c =>
      obtain ⟨n₁, hd₁, hl₁, _⟩ := drains_return hP hn (he c) (Or.inr hl)
      exact ⟨n₁, hd₁, hl₁⟩
  obtain ⟨n', hd', hidle⟩ := drains_all hP (hd₁.sound hP hn) hl₁ Finset.univ.toList
  exact ⟨n', hd₁.trans hd', fun c => hidle c (Finset.mem_toList.2 (Finset.mem_univ c))⟩

/-- As long as no `catch` block throws: from every state that a run comes to in which no handler is about to use an
erased entry, all calls can return, with no new ones. -/
theorem all_return [Fintype Conn] (hP : P.Lawful) (acts : List (Conn × NetAct)) (n : Net Conn β)
    (hr : ∀ c q, (c, NetAct.call q) ∈ acts → q.Orderly) (hs : Machine.exec (step P what) {} acts = some n)
    (he : ∀ c, ¬n.server.AtErased c) : ∃ n', Drains P what n n' ∧ ∀ c, n'.clients c = .idle :=
  drains_idle hP (sound_init.exec hP hr hs) he

/-- A `kvset` that will throw has located its entry when a `kvdelete` for the same key arrives, which waits for
nothing. -/
def deleteArrives : List (Bool × NetAct) :=
  [(true, .call ⟨.kvset "hi" "bye to everybody", { assign := true }⟩), (true, .deliver 100), (true, .accept),
    (true, .advance), (true, .advance), (false, .call ⟨.kvdelete "hi", {}⟩), (false, .deliver 100), (false, .accept)]

theorem all_return_deleteArrives :
    ∃ n n', Machine.exec (step Binary.protocol "std::bad_alloc") ({} : Net Bool UInt8) deleteArrives = some n ∧
      Drains Binary.protocol "std::bad_alloc" n n' ∧ ∀ c, n'.clients c = .idle := by
  have hview : (Machine.exec (step Binary.protocol "std::bad_alloc") ({} : Net Bool UInt8) deleteArrives).map
      (fun n => ((n.server.sharedKvstore "hi").isSome, n.server.handlers false, n.server.handlers true)) =
        some (true, .arrived 1 ⟨.kvdelete "hi", {}⟩,
          .located 0 ⟨.kvset "hi" "bye to everybody", { assign := true }⟩) := by decide +kernel
  obtain ⟨n, hn, hv⟩ := Option.map_eq_some_iff.1 hview
  obtain ⟨hm, hv⟩ := Prod.mk.inj hv
  obtain ⟨hfalse, htrue⟩ := Prod.mk.inj hv
  have hr : ∀ c q, (c, NetAct.call q) ∈ deleteArrives → q.Orderly := by
    intro c q hmem
    simp only [deleteArrives, List.mem_cons, Prod.mk.injEq, NetAct.call.injEq, reduceCtorEq, and_false, false_or,
      or_false, List.not_mem_nil] at hmem
    rcases hmem with ⟨_, rfl⟩ | ⟨_, rfl⟩ <;> decide
  have he : ∀ c, ¬n.server.AtErased c := by
    rintro c ⟨id, q, hc, hnone⟩
    cases c with
    | false =>
      rw [hfalse] at hc
      cases hc
    | true =>
      obtain ⟨_, rfl⟩ := CallPhase.located.inj (htrue.symm.trans hc)
      rw [show n.server.sharedKvstore "hi" = none from hnone] at hm
      cases hm
  obtain ⟨n', hd, hidle⟩ := all_return Binary.lawful _ n hr hn he
  exact ⟨n, n', hn, hd, hidle⟩

/-- As long as no client calls `kvdelete` and no `catch` block throws, no run comes to a use of an erased entry, and all
calls can return from every state that it comes to. -/
theorem all_return_without_kvdelete [Fintype Conn] (hP : P.Lawful) (acts : List (Conn × NetAct)) (n : Net Conn β)
    (hr : ∀ c q, (c, NetAct.call q) ∈ acts → q.Orderly ∧ ∀ key, q.request ≠ .kvdelete key)
    (hs : Machine.exec (step P what) {} acts = some n) :
    (∀ c, ¬n.server.AtErased c) ∧ ∃ n', Drains P what n n' ∧ ∀ c, n'.clients c = .idle := by
  have hmem : ∀ x ∈ acts, ∀ q, x.2 = NetAct.call q → q.Orderly ∧ ∀ key, q.request ≠ .kvdelete key :=
    fun x hx q h => hr x.1 q (h ▸ hx)
  have hinv : Sound P what n ∧ Pending (fun q => ∀ key, q.request ≠ .kvdelete key) n ∧ n.server.Unerased := by
    refine Machine.exec_invariant_of_along _
      (fun n => Sound P what n ∧ Pending (fun q => ∀ key, q.request ≠ .kvdelete key) n ∧ n.server.Unerased) ?_
      ⟨sound_init, fun _ _ _ h => ClientPhase.noConfusion h, Throwing.unerased_init⟩
      (Machine.along_of_forall_mem hmem _) hs
    rintro m ⟨c, a⟩ m' ⟨hm, hq, hu⟩ ha hs
    refine ⟨hm.step hP (fun q h => (ha q h).1) hs, hq.step (fun q h => (ha q h).2) (steps_of_step hs), ?_⟩
    obtain ⟨o, ho⟩ := hm.simulated
    rcases ho.server_step hP hq (steps_of_step hs) with h | ⟨a', h, ha'⟩
    · exact h ▸ hu
    · exact hu.step hm.server.lock h ha'
  exact ⟨hinv.2.2.entries, drains_idle hP hinv.1 hinv.2.2.entries⟩

/-- A `kvset` that will throw has located its entry, and a `kvget` is on its way. -/
def getOnItsWay : List (Bool × NetAct) :=
  [(true, .call ⟨.kvset "hi" "bye to everybody", { assign := true }⟩), (true, .deliver 100), (true, .accept),
    (true, .advance), (true, .advance), (false, .call ⟨.kvget "hi", {}⟩), (false, .deliver 7)]

theorem all_return_without_kvdelete_two :
    ∃ n n', Machine.exec (step Binary.protocol "std::bad_alloc") ({} : Net Bool UInt8) getOnItsWay = some n ∧
      Drains Binary.protocol "std::bad_alloc" n n' ∧ ∀ c, n'.clients c = .idle := by
  have hsome : (Machine.exec (step Binary.protocol "std::bad_alloc") ({} : Net Bool UInt8) getOnItsWay).isSome := by
    decide +kernel
  obtain ⟨n, hn⟩ := Option.isSome_iff_exists.1 hsome
  have hr : ∀ c q, (c, NetAct.call q) ∈ getOnItsWay → q.Orderly ∧ ∀ key, q.request ≠ .kvdelete key := by
    intro c q hmem
    simp only [getOnItsWay, List.mem_cons, Prod.mk.injEq, NetAct.call.injEq, reduceCtorEq, and_false, false_or,
      or_false, List.not_mem_nil] at hmem
    rcases hmem with ⟨_, rfl⟩ | ⟨_, rfl⟩ <;> exact ⟨by decide, fun _ => Request.noConfusion⟩
  obtain ⟨_, n', hd, hidle⟩ := all_return_without_kvdelete Binary.lawful _ n hr hn
  exact ⟨n, n', hn, hd, hidle⟩

end Net

end KVStore
