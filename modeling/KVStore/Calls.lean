import KVStore.Net

/-!
# A call that is made alone

What happens at one connection while nothing else does, and nothing throws: the request arrives in one part, the handler
runs to its end, the reply arrives in one part, and the call returns (`exec_call_quiet`).
-/

namespace KVStore

open Thrift Linearizable

namespace Net

variable {Conn β : Type} [DecidableEq Conn] {P : TProtocol β} {what : String} {n : Net Conn β} {c : Conn} {m : Store}

/-- Nothing is on its way, and no call is served. -/
structure Quiet (n : Net Conn β) (m : Store) : Prop where
  store : n.server.sharedKvstore = m
  lock : n.server.lck = none
  handlers : ∀ c, n.server.handlers c = .idle
  clients : ∀ c, n.clients c = .idle
  wires : ∀ c, ∃ seqid, n.wires c = { seqid := seqid }

/-- The network with the server `s` and the connection of `c` as given. -/
def put (n : Net Conn β) (c : Conn) (s : Throwing Conn) (cl : ClientPhase) (v : Wire β) : Net Conn β :=
  { n with server := s, clients := Function.update n.clients c cl, wires := Function.update n.wires c v }

variable (P what) in
/-- A handler that has come to its end has taken its steps as it does over the network. -/
theorem exec_advances {s s' : Throwing Conn} {k : Nat}
    (h : Machine.exec Throwing.step s (List.replicate k (c, .advance)) = some s') {i : Nat} {q : Call} {reply : Reply}
    (hf : s'.handlers c = .finished i q reply) (n : Net Conn β) (cl : ClientPhase) (v : Wire β) :
    Machine.exec (step P what) (n.put c s cl v) ((List.replicate k NetAct.advance).map (Prod.mk c)) =
      some (n.put c s' cl v) := by
  induction k generalizing s with
  | zero =>
    obtain rfl := Option.some.inj h
    rfl
  | succ k ih =>
    rw [List.replicate_succ] at h
    obtain ⟨s₁, h₁, h⟩ := Machine.exec_cons_eq_some.1 h
    have hn : ∀ j q' reply', s.handlers c ≠ .finished j q' reply' := by
      intro j q' reply' hc
      have hidle : s₁.handlers c = .idle := by
        rw [Throwing.step, Throwing.advance, hc] at h₁
        obtain rfl := Option.some.inj h₁
        exact Throwing.goto_handlers_self _ _ _
      cases k with
      | zero =>
        obtain rfl := Option.some.inj h
        rw [hidle] at hf
        cases hf
      | succ k =>
        rw [List.replicate_succ] at h
        obtain ⟨s₂, h₂, _⟩ := Machine.exec_cons_eq_some.1 h
        rw [Throwing.step, Throwing.advance, hidle] at h₂
        cases h₂
    have hstep : (n.put c s cl v).step P what (c, .advance) = some (n.put c s₁ cl v) := by
      have h₁ : s.advance c = some s₁ := h₁
      simp only [step, put]
      rw [h₁]
      rfl
    rw [List.replicate_succ, List.map_cons, Machine.exec_cons, hstep]
    exact ih h

theorem step_call {w : List β} {s : Throwing Conn} {v : Wire β} {q : Call}
    (hw : KVStoreClient.send P q.request = some w) :
    (n.put c s .idle v).step P what (c, .call q) =
      some ({ n with next := n.next + 1 }.put c s (.waiting n.next q) { v with toServer := v.toServer ++ w }) := by
  simp [step, put, turn, rewire, hw]

theorem step_deliver {s : Throwing Conn} {cl : ClientPhase} {v : Wire β} :
    (n.put c s cl v).step P what (c, .deliver v.toServer.length) =
      some (n.put c s cl { v with input := v.input ++ v.toServer, toServer := [] }) := by
  simp [step, put, rewire]

theorem step_accept {s s' : Throwing Conn} {cl : ClientPhase} {v : Wire β} {r : Request} {seqid : Int32}
    {rest : List β} (hr : (KVStoreProcessor.readRequest P).read v.input = some ((r, seqid), rest))
    (hs : s.step (c, .arrive ⟨r, cl.faults⟩) = some s') :
    (n.put c s cl v).step P what (c, .accept) = some (n.put c s' cl { v with input := rest, seqid := seqid }) := by
  simp [step, put, rewire, hr, hs]

theorem step_reply {s s' : Throwing Conn} {cl : ClientPhase} {v : Wire β} {i : Nat} {q : Call} {reply : Reply}
    {w : List β} (hf : s.handlers c = .finished i q reply)
    (hw : replyText P what q.request.name q.request.resultName v.seqid reply = some w) (hs : s.advance c = some s') :
    (n.put c s cl v).step P what (c, .reply) = some (n.put c s' cl { v with toClient := v.toClient ++ w }) := by
  simp [step, put, rewire, hf, hw, hs]

theorem step_carry {s : Throwing Conn} {cl : ClientPhase} {v : Wire β} :
    (n.put c s cl v).step P what (c, .carry v.toClient.length) =
      some (n.put c s cl { v with buffer := v.buffer ++ v.toClient, toClient := [] }) := by
  simp [step, put, rewire]

theorem step_receive {s : Throwing Conn} {v : Wire β} {id : Nat} {q : Call} {old : WireResult}
    {x : Except TApplicationException WireResult} {rest : List β}
    (hx : (KVStoreClient.recv P q.request.name old).read v.buffer = some (x, rest)) :
    (n.put c s (.waiting id q) v).step P what (c, .receive old) =
      some (n.put c s .idle { v with buffer := rest }) := by
  simp [step, put, turn, rewire, receive_eq, hx]

theorem observe_receive {s : Throwing Conn} {v : Wire β} {id : Nat} {q : Call} {old : WireResult}
    {x : Except TApplicationException WireResult} {rest : List β}
    (hx : (KVStoreClient.recv P q.request.name old).read v.buffer = some (x, rest)) :
    observe P (n.put c s (.waiting id q) v) (c, .receive old) = [.ret id (some x)] := by
  simp [observe, put, receive_eq, hx]

theorem trace_advances (n : Net Conn β) (k : Nat) :
    Machine.trace (step P what) (observe P) n ((List.replicate k NetAct.advance).map (Prod.mk c)) = [] := by
  induction k generalizing n with
  | zero => rfl
  | succ k ih =>
    rw [List.replicate_succ, List.map_cons, Machine.trace]
    cases step P what n (c, .advance) with
    | none => rfl
    | some n' => exact ih n'

/-- The handler of a call in which nothing throws, from the arrival of its request to its end. -/
private theorem exec_handler (hq : Quiet n m) {r : Request} (hne : ∀ key, r ≠ .kvdelete key) (c : Conn) :
    ∃ s : Throwing Conn, s = { n.server with sharedKvstore := effect m r, next := n.server.next + 1 }.goto c
        (.finished n.server.next { request := r } (.reply (answer m r))) ∧
      Machine.exec Throwing.step n.server ((c, .arrive { request := r }) :: List.replicate 4 (c, .advance)) =
        some s := by
  let s₀ : Conc Conn := { sharedKvstore := n.server.sharedKvstore, next := n.server.next }
  have hserver : n.server = Throwing.ofConc s₀ := Throwing.eq_ofConc_of_idle hq.lock hq.handlers
  have h := Throwing.exec_quiet s₀ ((c, .arrive r) :: List.replicate 4 (c, .advance))
  rw [(Conc.exec_alone (s := s₀) (c := c) rfl rfl hne).1, Option.map_some, Throwing.ofConc_goto, ← hserver] at h
  refine ⟨_, ?_, h⟩
  rw [← hq.store, hserver]
  rfl

/-- When nothing else happens, a call in which nothing throws can be made and served, and returns. -/
theorem exec_call_quiet (hP : P.Lawful) (hwhat : Sendable what) (hq : Quiet n m) (hm : ∀ k, Sendable (m.value k))
    {r : Request} (hr : r.Sendable) (hne : ∀ key, r ≠ .kvdelete key) (c : Conn) :
    ∃ (acts : List NetAct) (n' : Net Conn β), Machine.exec (step P what) n (acts.map (Prod.mk c)) = some n' ∧
      Machine.trace (step P what) (observe P) n (acts.map (Prod.mk c)) =
        [.inv n.next { request := r }, .ret n.next (some (.ok (answer m r).wire))] ∧
      Quiet n' (effect m r) := by
  obtain ⟨seqid, hv⟩ := hq.wires c
  have hn : n = n.put c n.server .idle { seqid := seqid } := by
    rw [put, ← hq.clients c, ← hv, Function.update_eq_self, Function.update_eq_self]
  obtain ⟨w, hw⟩ := Option.isSome_iff_exists.1 (send_isSome hP hr)
  obtain ⟨q, hqr⟩ : ∃ q : Call, q = { request := r } := ⟨_, rfl⟩
  have hw : KVStoreClient.send P q.request = some w := hqr ▸ hw
  -- the handler from the arrival of the request to the end
  obtain ⟨s₂, hs₂, hexec⟩ := exec_handler hq hne c
  rw [← hqr] at hs₂ hexec ⊢
  obtain ⟨s₁, h₁, h₂⟩ := Machine.exec_cons_eq_some.1 hexec
  have hf : s₂.handlers c = .finished n.server.next q (.reply (answer m r)) := hs₂ ▸ Throwing.goto_handlers_self _ _ _
  have h₃ : s₂.advance c = some (s₂.goto c .idle) := by rw [Throwing.advance, hf]
  obtain ⟨o, ho⟩ := Option.isSome_iff_exists.1 (replyText_isSome (s := { sharedKvstore := m }) hP hwhat hm
    (Handled.done (c := q)) Reply.noConfusion q.request.resultName 0)
  have hreq : q.request = r := by rw [hqr]
  have hfaults : (⟨q.request, (ClientPhase.waiting n.next q).faults⟩ : Call) = q := rfl
  obtain ⟨x, hx, hrecv⟩ := takes_recv hP ho {}
  obtain rfl := Option.some.inj hx
  rw [hreq] at ho
  have hcall : n.step P what (c, .call q) = some ({ n with next := n.next + 1 }.put c n.server (.waiting n.next q)
      { toServer := w, seqid := seqid }) :=
    (congrArg (fun n => step P what n (c, .call q)) hn).trans (step_call hw)
  have hdeliver : ({ n with next := n.next + 1 }.put c n.server (.waiting n.next q)
      { toServer := w, seqid := seqid }).step P what (c, .deliver w.length) =
        some ({ n with next := n.next + 1 }.put c n.server (.waiting n.next q) { input := w, seqid := seqid }) :=
    step_deliver
  have haccept : ({ n with next := n.next + 1 }.put c n.server (.waiting n.next q)
      { input := w, seqid := seqid }).step P what (c, .accept) =
        some ({ n with next := n.next + 1 }.put c s₁ (.waiting n.next q) {}) :=
    step_accept (takes_readRequest hP hw).read_self h₁
  have hadvances := exec_advances P what h₂ hf { n with next := n.next + 1 } (.waiting n.next q) {}
  have hreply : ({ n with next := n.next + 1 }.put c s₂ (.waiting n.next q) {}).step P what (c, .reply) =
      some ({ n with next := n.next + 1 }.put c (s₂.goto c .idle) (.waiting n.next q) { toClient := o }) :=
    step_reply hf (by rw [hreq]; exact ho) h₃
  have hcarry : ({ n with next := n.next + 1 }.put c (s₂.goto c .idle) (.waiting n.next q)
      { toClient := o }).step P what (c, .carry o.length) =
        some ({ n with next := n.next + 1 }.put c (s₂.goto c .idle) (.waiting n.next q) { buffer := o }) :=
    step_carry
  have hreceive : ({ n with next := n.next + 1 }.put c (s₂.goto c .idle) (.waiting n.next q)
      { buffer := o }).step P what (c, .receive {}) =
        some ({ n with next := n.next + 1 }.put c (s₂.goto c .idle) .idle {}) :=
    step_receive hrecv.read_self
  have hseen : observe P ({ n with next := n.next + 1 }.put c (s₂.goto c .idle) (.waiting n.next q) { buffer := o })
      (c, .receive {}) = [.ret n.next (some (.ok (answer m q.request).wire))] := observe_receive hrecv.read_self
  have hfirst : Machine.exec (step P what) n ([.call q, .deliver w.length, .accept].map (Prod.mk c)) =
      some ({ n with next := n.next + 1 }.put c s₁ (.waiting n.next q) {}) := by
    simp only [List.map_cons, List.map_nil, Machine.exec_cons, hcall, hdeliver, haccept, Option.bind_some,
      Machine.exec_nil]
  have hlast : Machine.exec (step P what) ({ n with next := n.next + 1 }.put c s₂ (.waiting n.next q) {})
      ([.reply, .carry o.length, .receive {}].map (Prod.mk c)) =
        some ({ n with next := n.next + 1 }.put c (s₂.goto c .idle) .idle {}) := by
    simp only [List.map_cons, List.map_nil, Machine.exec_cons, hreply, hcarry, hreceive, Option.bind_some,
      Machine.exec_nil]
  refine ⟨[.call q, .deliver w.length, .accept] ++ (List.replicate 4 .advance ++
    [.reply, .carry o.length, .receive {}]),
    { n with next := n.next + 1 }.put c (s₂.goto c .idle) .idle {}, ?_, ?_, ?_⟩
  · rw [List.map_append, List.map_append]
    exact Machine.exec_append_eq_some.2 ⟨_, hfirst, Machine.exec_append_eq_some.2 ⟨_, hadvances, hlast⟩⟩
  · rw [List.map_append, List.map_append, Machine.trace_append _ _ hfirst, Machine.trace_append _ _ hadvances,
      trace_advances]
    simp only [List.map_cons, List.map_nil, Machine.trace_cons _ _ hcall, Machine.trace_cons _ _ hdeliver,
      Machine.trace_cons _ _ haccept, Machine.trace_cons _ _ hreply, Machine.trace_cons _ _ hcarry,
      Machine.trace_cons _ _ hreceive, Machine.trace_nil, hseen, hreq]
    rfl
  · refine ⟨?_, ?_, fun d => ?_, fun d => ?_, fun d => ?_⟩
    · exact hs₂ ▸ rfl
    · exact hs₂ ▸ hq.lock
    all_goals by_cases hd : d = c
    · rw [hd]
      exact Throwing.goto_handlers_self _ _ _
    · show (s₂.goto c .idle).handlers d = .idle
      rw [Throwing.goto_handlers_of_ne _ hd, hs₂, Throwing.goto_handlers_of_ne _ hd]
      exact hq.handlers d
    · rw [hd]
      exact Function.update_self _ _ _
    · exact (Function.update_of_ne hd _ _).trans (hq.clients d)
    · exact ⟨0, hd ▸ Function.update_self _ _ _⟩
    · obtain ⟨seqid', hd'⟩ := hq.wires d
      exact ⟨seqid', (Function.update_of_ne hd _ _).trans hd'⟩

end Net

end KVStore
