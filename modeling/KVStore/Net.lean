import KVStore.Malformed
import KVStore.Throwing

/-!
# The service over the network

Any number of clients, each with a connection to `kvserver_consistent`.  A client sends a request and waits for the
reply; the text of either arrives in parts of any length, and the thread of the connection reads a request as soon as
it is there, runs the handler and writes the reply, all as the processor does (`exec_serve_read`).  The steps of all
clients, handlers and connections interleave.  A call brings what will throw in its handler, and a run goes no further
than the handlers do (`Throwing`): to the first use of an erased entry.

No client ever gets a reply that is not the one to its own request, whatever the parts are (`Stage`), and what the
clients see is linearizable from the moment a call is made to the moment it returns (`calls_linearize`).
-/

namespace KVStore

open Thrift Reader TProtocol Linearizable

/-- What a client is doing.  Calls are numbered as they are made. -/
inductive ClientPhase where
  | idle
  | waiting (id : Nat) (q : Call)
  deriving DecidableEq, Repr

/-- What will throw in the handler of the call. -/
def ClientPhase.faults : ClientPhase → Faults
  | .idle => {}
  | .waiting _ q => q.faults

/-- What is on the way between a client and the thread of its connection. -/
structure Wire (β : Type) where
  toServer : List β := []
  /-- has arrived at the server and has not been read -/
  input : List β := []
  toClient : List β := []
  /-- has arrived at the client and has not been read -/
  buffer : List β := []
  /-- the number of the message that was read last -/
  seqid : Int32 := 0

/-- The text to the server is `x` and that to the client `y`, arrived or not. -/
structure Wire.Carries {β : Type} (v : Wire β) (x y : List β) : Prop where
  request : v.input ++ v.toServer = x
  reply : v.buffer ++ v.toClient = y

structure Net (Conn β : Type) where
  server : Throwing Conn := {}
  clients : Conn → ClientPhase := fun _ => .idle
  wires : Conn → Wire β := fun _ => {}
  next : Nat := 0

/-- What can happen at a connection. -/
inductive NetAct where
  | call (q : Call)
  /-- so much of the request arrives -/
  | deliver (k : Nat)
  | accept
  | advance
  | reply
  /-- so much of the reply arrives -/
  | carry (k : Nat)
  /-- the call returns, into the `Result` that the client gave -/
  | receive (old : WireResult)
  deriving DecidableEq, Repr

/-- What a client gets from a call. -/
abbrev Received := Option (Except TApplicationException WireResult)

namespace Net

variable {Conn β : Type} [DecidableEq Conn] (P : TProtocol β) (what : String)

/-- The text on the connection of `c` is `v` from now on. -/
def rewire (n : Net Conn β) (c : Conn) (v : Wire β) : Net Conn β :=
  { n with wires := Function.update n.wires c v }

/-- The client of `c` goes to `cl`. -/
def turn (n : Net Conn β) (c : Conn) (cl : ClientPhase) : Net Conn β :=
  { n with clients := Function.update n.clients c cl }

def step (n : Net Conn β) : Conn × NetAct → Option (Net Conn β)
  | (c, .call q) =>
    match n.clients c with
    | .idle => do
      let w ← KVStoreClient.send P q.request
      pure (({ n with next := n.next + 1 }.turn c (.waiting n.next q)).rewire c
        { n.wires c with toServer := (n.wires c).toServer ++ w })
    | .waiting _ _ => none
  | (c, .deliver k) =>
    some (n.rewire c { n.wires c with
      input := (n.wires c).input ++ (n.wires c).toServer.take k
      toServer := (n.wires c).toServer.drop k })
  | (c, .accept) => do
    let ((r, seqid), rest) ← (KVStoreProcessor.readRequest P).read (n.wires c).input
    let server ← n.server.step (c, .arrive ⟨r, (n.clients c).faults⟩)
    pure ({ n with server := server }.rewire c { n.wires c with input := rest, seqid := seqid })
  | (c, .advance) =>
    match n.server.handlers c with
    | .finished _ _ _ => none
    | _ => do
      let server ← n.server.advance c
      pure { n with server := server }
  | (c, .reply) =>
    match n.server.handlers c with
    | .finished _ q reply => do
      let w ← replyText P what q.request.name q.request.resultName (n.wires c).seqid reply
      let server ← n.server.advance c
      pure ({ n with server := server }.rewire c { n.wires c with toClient := (n.wires c).toClient ++ w })
    | _ => none
  | (c, .carry k) =>
    some (n.rewire c { n.wires c with
      buffer := (n.wires c).buffer ++ (n.wires c).toClient.take k
      toClient := (n.wires c).toClient.drop k })
  | (c, .receive old) =>
    match n.clients c with
    | .waiting _ q => do
      let (_, rest) ← (KVStoreClient.receive P q.request old).read (n.wires c).buffer
      pure ((n.turn c .idle).rewire c { n.wires c with buffer := rest })
    | .idle => none

omit [DecidableEq Conn] in
/-- What the clients see of a step. -/
def observe (n : Net Conn β) : Conn × NetAct → List (Event Call Received)
  | (_, .call q) => [.inv n.next q]
  | (c, .receive old) =>
    match n.clients c with
    | .waiting id q => (((KVStoreClient.receive P q.request old).read (n.wires c).buffer).map fun x =>
        Event.ret id (some x.1)).toList
    | .idle => []
  | _ => []

/-- The history of the clients in a run. -/
def history (acts : List (Conn × NetAct)) : List (Event Call Received) :=
  Machine.trace (step P what) (observe P) ({} : Net Conn β) acts

/-- A call, executed whole. -/
def remote (σ : Server) (q : Call) : Received × Server :=
  ((Throwing.whole σ q).1.received what, (Throwing.whole σ q).2)

/-! ### The readers on an empty input -/

section Readers

variable {P} (hP : P.Lawful)
include hP

omit [DecidableEq Conn] in
theorem local_recv (name : String) (old : WireResult) : Local (KVStoreClient.recv P name old) := by
  refine hP.streams.messageBegin.bind fun x => ?_
  have hresult : Local (do
      let result ← CallResult.read P old
      P.readMessageEnd
      if result.isset then pure (.ok result.success)
      else pure (.error { message := name ++ " failed: unknown result", type := .missingResult })
        : Reader β (Except TApplicationException WireResult)) :=
    (CallResult.local_read hP old).bind fun _ => hP.streams.messageEnd.bind fun _ =>
      Local.ite (local_pure _) (local_pure _)
  have hskip : ∀ {α : Type} {r : Reader β α}, Local r → Local (do
      P.skip 0 .struct
      P.readMessageEnd
      r) := fun hr => (hP.streams.skip 0 .struct).bind fun _ => hP.streams.messageEnd.bind fun _ => hr
  refine Local.ite (hP.streams.exception.bind fun _ => hP.streams.messageEnd.bind fun _ => local_pure _) ?_
  have hname := Local.ite (p := x.1 ≠ name) (hskip hresult) hresult
  exact Local.ite (hskip hname) hname

omit [DecidableEq Conn] in
theorem read_nil_request : (KVStoreProcessor.readRequest P).read [] = none := by
  obtain ⟨w, hw⟩ := Option.isSome_iff_exists.1 (send_isSome hP (r := .kvget "") (by decide : Sendable ""))
  exact (local_readRequest hP).read_of_truncated (takes_readRequest hP hw) List.nil_prefix (send_ne_nil hP hw).symm

omit [DecidableEq Conn] in
/-- The text of a result begins with a field. -/
theorem resultText_ne_nil {what name result : String} {seqid : Int32} {res : Result} {w : List β}
    (h : replyText P what name result seqid (.reply res) = some w) : w ≠ [] := by
  have hfield := (advances_nextField hP).ne_nil (takes_nextField hP "success" (show TType.struct ≠ .stop by decide) 0)
  obtain ⟨head, text, _, ht, rfl⟩ := messageText_eq_some h
  obtain ⟨success, _, ht⟩ := Option.bind_eq_some_iff.1 ht
  obtain rfl := Option.some.inj ht
  simp [hfield]

omit [DecidableEq Conn] in
theorem read_nil_recv (r : Request) (old : WireResult) : (KVStoreClient.recv P r.name old).read [] = none := by
  have hw : Sendable "" := by decide
  have hs : Server.Sendable {} := fun _ => hw
  obtain ⟨w, h⟩ := Option.isSome_iff_exists.1
    (replyText_isSome hP hw hs (Handled.done (c := ⟨r, {}⟩)) Reply.noConfusion r.resultName 0)
  obtain ⟨x, _, ht⟩ := takes_recv hP h old
  exact (local_recv hP r.name old).read_of_truncated ht List.nil_prefix (resultText_ne_nil hP h).symm

end Readers

/-! ### Connections -/

variable {P what}

variable (P what) in
/-- Where a call is, seen from its client, its handler and its connection, and what it is for an atomic object. -/
inductive Stage : ClientPhase → CallPhase → Wire β → Status Call Received → Prop
  | idle {v : Wire β} : v.Carries [] [] → Stage .idle .idle v .idle
  | sent {v : Wire β} {w : List β} (id : Nat) (q : Call) : KVStoreClient.send P q.request = some w →
      v.Carries w [] → Stage (.waiting id q) .idle v (.pending id q)
  | served {v : Wire β} {ph : CallPhase} (id i : Nat) (q : Call) : ph.status = .pending i q → v.Carries [] [] →
      Stage (.waiting id q) ph v (.pending id q)
  | effective {v : Wire β} {ph : CallPhase} (id i : Nat) (q : Call) (reply : Reply) : ph.status = .done i q reply →
      v.Carries [] [] → Stage (.waiting id q) ph v (.done id q (reply.received what))
  | replied {v : Wire β} {w : List β} (id : Nat) (q : Call) (reply : Reply) (seqid : Int32) :
      replyText P what q.request.name q.request.resultName seqid reply = some w → v.Carries [] w →
      Stage (.waiting id q) .idle v (.done id q (reply.received what))

/-- How much of the text has arrived does not matter. -/
theorem Stage.arrived {cl : ClientPhase} {ph : CallPhase} {v v' : Wire β} {st : Status Call Received}
    (h : Stage P what cl ph v st) (hv : ∀ x y, v.Carries x y → v'.Carries x y) : Stage P what cl ph v' st := by
  cases h with
  | idle h => exact .idle (hv _ _ h)
  | sent id q hw h => exact .sent id q hw (hv _ _ h)
  | served id i q hp h => exact .served id i q hp (hv _ _ h)
  | effective id i q reply hp h => exact .effective id i q reply hp (hv _ _ h)
  | replied id q reply seqid hw h => exact .replied id q reply seqid hw (hv _ _ h)

section Inversion

variable {cl : ClientPhase} {ph : CallPhase} {v : Wire β} {st : Status Call Received}

theorem Stage.of_idle (h : Stage P what .idle ph v st) : st = .idle ∧ ph = .idle ∧ v.Carries [] [] := by
  cases h with
  | idle hv => exact ⟨rfl, rfl, hv⟩

theorem Stage.of_pending (h : Stage P what cl ph v st) {i : Nat} {q : Call} (hp : ph.status = .pending i q) :
    ∃ id, cl = .waiting id q ∧ st = .pending id q ∧ v.Carries [] [] := by
  cases h with
  | served id j q' hq hv =>
    rw [hq] at hp
    obtain ⟨_, rfl⟩ := Status.pending.inj hp
    exact ⟨id, rfl, rfl, hv⟩
  | effective id j q' reply hq _ =>
    rw [hq] at hp
    cases hp
  | idle _ | sent id q' _ _ | replied id q' reply seqid _ _ => cases hp

theorem Stage.of_done (h : Stage P what cl ph v st) {i : Nat} {q : Call} {reply : Reply}
    (hp : ph.status = .done i q reply) :
    ∃ id, cl = .waiting id q ∧ st = .done id q (reply.received what) ∧ v.Carries [] [] := by
  cases h with
  | served id j q' hq _ =>
    rw [hq] at hp
    cases hp
  | effective id j q' reply' hq hv =>
    rw [hq] at hp
    obtain ⟨_, rfl, rfl⟩ := Status.done.inj hp
    exact ⟨id, rfl, rfl, hv⟩
  | idle _ | sent id q' _ _ | replied id q' reply' seqid _ _ => cases hp

theorem Stage.waiting_of_done {id : Nat} {q : Call} {x : Received} (h : Stage P what cl ph v (.done id q x)) :
    cl = .waiting id q := by
  cases h with
  | effective _ i _ reply _ _ => rfl
  | replied _ _ reply seqid _ _ => rfl

/-- Where a call is that has not returned. -/
theorem Stage.of_waiting (hP : P.Lawful) {id : Nat} {q : Call} (h : Stage P what (.waiting id q) ph v st) :
    (∃ x, st = .done id q x) ∨ (∃ i, ph.status = .pending i q) ∨ v.input ++ v.toServer ≠ [] := by
  cases h with
  | sent _ _ hw hv => exact Or.inr (Or.inr (hv.request ▸ send_ne_nil hP hw))
  | served _ i _ hp _ => exact Or.inr (Or.inl ⟨i, hp⟩)
  | effective _ i _ reply _ _ => exact Or.inl ⟨_, rfl⟩
  | replied _ _ reply seqid _ _ => exact Or.inl ⟨_, rfl⟩

/-- The request that a thread reads is the one that its client has sent, and it has arrived as a whole. -/
theorem Stage.of_request (hP : P.Lawful) (h : Stage P what cl .idle v st) {r : Request} {seqid : Int32} {rest : List β}
    (hr : (KVStoreProcessor.readRequest P).read v.input = some ((r, seqid), rest)) :
    ∃ id, cl = .waiting id ⟨r, cl.faults⟩ ∧ st = .pending id ⟨r, cl.faults⟩ ∧
      ({ v with input := rest, seqid := seqid } : Wire β).Carries [] [] := by
  have hempty : v.input ++ v.toServer = [] → False := by
    intro hv
    rw [(List.append_eq_nil_iff.1 hv).1, read_nil_request hP] at hr
    cases hr
  cases h with
  | sent id q hw hv =>
    obtain ⟨he, hinput⟩ := (local_readRequest hP).eq_of_read (z := []) (takes_readRequest hP hw)
      ⟨v.toServer, by rw [hv.request, List.append_nil]⟩ hr
    obtain ⟨rfl, _⟩ := Prod.mk.inj he
    have hrest := hv.request
    rw [hinput, List.append_assoc, List.append_right_eq_self] at hrest
    exact ⟨id, rfl, rfl, hrest, hv.reply⟩
  | idle hv => exact (hempty hv.request).elim
  | served id j q hq _ => cases hq
  | effective id j q reply hq _ => cases hq
  | replied id q reply seqid' _ hv => exact (hempty hv.request).elim

/-- The reply that a client reads is the one to its own request, and it has arrived as a whole. -/
theorem Stage.of_reply (hP : P.Lawful) {id : Nat} {q : Call} (h : Stage P what (.waiting id q) ph v st)
    {old : WireResult} {x : Except TApplicationException WireResult} {rest : List β}
    (hx : (KVStoreClient.recv P q.request.name old).read v.buffer = some (x, rest)) :
    ph = .idle ∧ st = .done id q (some x) ∧ ({ v with buffer := rest } : Wire β).Carries [] [] := by
  have hempty : v.buffer ++ v.toClient = [] → False := by
    intro hv
    rw [(List.append_eq_nil_iff.1 hv).1, read_nil_recv hP] at hx
    cases hx
  cases h with
  | replied _ _ reply seqid hw hv =>
    obtain ⟨y, hy, ht⟩ := takes_recv hP hw old
    obtain ⟨rfl, hbuffer⟩ := (local_recv hP q.request.name old).eq_of_read (z := []) ht
      ⟨v.toClient, by rw [hv.reply, List.append_nil]⟩ hx
    have hrest := hv.reply
    rw [hbuffer, List.append_assoc, List.append_right_eq_self] at hrest
    exact ⟨rfl, by rw [hy], hv.request, hrest⟩
  | sent _ _ _ hv => exact (hempty hv.reply).elim
  | served _ j _ _ hv => exact (hempty hv.reply).elim
  | effective _ j _ reply _ hv => exact (hempty hv.reply).elim

end Inversion

/-! ### One step -/

variable (P what) in
/-- What a step can do. -/
inductive Steps (n : Net Conn β) (c : Conn) : NetAct → Net Conn β → Prop
  | call (q : Call) (w : List β) : n.clients c = .idle → KVStoreClient.send P q.request = some w →
      Steps n c (.call q) (({ n with next := n.next + 1 }.turn c (.waiting n.next q)).rewire c
        { n.wires c with toServer := (n.wires c).toServer ++ w })
  | deliver (k : Nat) : Steps n c (.deliver k) (n.rewire c { n.wires c with
      input := (n.wires c).input ++ (n.wires c).toServer.take k
      toServer := (n.wires c).toServer.drop k })
  | accept (r : Request) (seqid : Int32) (rest : List β) (server : Throwing Conn) :
      (KVStoreProcessor.readRequest P).read (n.wires c).input = some ((r, seqid), rest) →
      Throwing.Steps n.server c (.arrive ⟨r, (n.clients c).faults⟩) server →
      Steps n c .accept ({ n with server := server }.rewire c { n.wires c with input := rest, seqid := seqid })
  | advance (server : Throwing Conn) : (∀ i q reply, n.server.handlers c ≠ .finished i q reply) →
      Throwing.Steps n.server c .advance server → Steps n c .advance { n with server := server }
  | reply (i : Nat) (q : Call) (reply : Reply) (w : List β) (server : Throwing Conn) :
      n.server.handlers c = .finished i q reply →
      replyText P what q.request.name q.request.resultName (n.wires c).seqid reply = some w →
      Throwing.Steps n.server c .advance server →
      Steps n c .reply ({ n with server := server }.rewire c
        { n.wires c with toClient := (n.wires c).toClient ++ w })
  | carry (k : Nat) : Steps n c (.carry k) (n.rewire c { n.wires c with
      buffer := (n.wires c).buffer ++ (n.wires c).toClient.take k
      toClient := (n.wires c).toClient.drop k })
  | receive (old : WireResult) (id : Nat) (q : Call) (x : Except TApplicationException WireResult)
      (rest : List β) : n.clients c = .waiting id q →
      (KVStoreClient.recv P q.request.name old).read (n.wires c).buffer = some (x, rest) →
      Steps n c (.receive old) ((n.turn c .idle).rewire c { n.wires c with buffer := rest })

theorem steps_of_step {n n' : Net Conn β} {c : Conn} {a : NetAct} (h : n.step P what (c, a) = some n') :
    Steps P what n c a n' := by
  cases a with
  | call q =>
    simp only [step] at h
    split at h
    · rename_i hc
      obtain ⟨w, hw, h⟩ := Option.bind_eq_some_iff.1 h
      exact Option.some.inj h ▸ .call q w hc hw
    · cases h
  | deliver k => exact Option.some.inj h ▸ .deliver k
  | accept =>
    obtain ⟨⟨⟨r, seqid⟩, rest⟩, hr, h⟩ := Option.bind_eq_some_iff.1 h
    obtain ⟨server, hs, h⟩ := Option.bind_eq_some_iff.1 h
    exact Option.some.inj h ▸ .accept r seqid rest server hr (Throwing.steps_of_step hs)
  | advance =>
    simp only [step] at h
    split at h
    · cases h
    · rename_i hf
      obtain ⟨server, hs, h⟩ := Option.bind_eq_some_iff.1 h
      exact Option.some.inj h ▸ .advance server hf (Throwing.steps_of_step hs)
  | reply =>
    simp only [step] at h
    split at h
    · rename_i i q reply hf
      obtain ⟨w, hw, h⟩ := Option.bind_eq_some_iff.1 h
      obtain ⟨server, hs, h⟩ := Option.bind_eq_some_iff.1 h
      exact Option.some.inj h ▸ .reply i q reply w server hf hw (Throwing.steps_of_step hs)
    · cases h
  | carry k => exact Option.some.inj h ▸ .carry k
  | receive old =>
    simp only [step] at h
    split at h
    · rename_i id q hc
      obtain ⟨⟨x, rest⟩, hx, h⟩ := Option.bind_eq_some_iff.1 h
      rw [receive_eq] at hx
      exact Option.some.inj h ▸ .receive old id q x rest hc hx
    · cases h

variable {n n' : Net Conn β} {c : Conn} {a : NetAct} {o : Obj Conn Server Call Received}

/-- A step at one connection leaves the others as they are. -/
theorem Steps.frame (h : Steps P what n c a n') {d : Conn} (hd : d ≠ c) :
    n'.clients d = n.clients d ∧ n'.server.handlers d = n.server.handlers d ∧ n'.wires d = n.wires d := by
  cases h with
  | call q w hc hw => exact ⟨Function.update_of_ne hd _ _, rfl, Function.update_of_ne hd _ _⟩
  | deliver k => exact ⟨rfl, rfl, Function.update_of_ne hd _ _⟩
  | accept r seqid rest server hr hs => exact ⟨rfl, hs.handlers_of_ne hd, Function.update_of_ne hd _ _⟩
  | advance server hf hs => exact ⟨rfl, hs.handlers_of_ne hd, rfl⟩
  | reply i q reply w server hf hw hs => exact ⟨rfl, hs.handlers_of_ne hd, Function.update_of_ne hd _ _⟩
  | carry k => exact ⟨rfl, rfl, Function.update_of_ne hd _ _⟩
  | receive old id q x rest hc hx => exact ⟨Function.update_of_ne hd _ _, rfl, Function.update_of_ne hd _ _⟩

variable (P what) in
/-- The network is in the state `o` of an atomic object. -/
structure Simulated (n : Net Conn β) (o : Obj Conn Server Call Received) : Prop where
  related : Throwing.Related n.server o.state
  next : o.next = n.next
  stage : ∀ c, Stage P what (n.clients c) (n.server.handlers c) (n.wires c) (o.status c)

omit [DecidableEq Conn] in
theorem simulated_init : Simulated P what ({} : Net Conn β) { state := {} } where
  related := Throwing.simulated_init.related
  next := rfl
  stage := fun _ => .idle ⟨rfl, rfl⟩

private theorem stage_step
    (hi : ∀ d, Stage P what (n.clients d) (n.server.handlers d) (n.wires d) (o.status d)) (hs : Steps P what n c a n')
    {st : Status Call Received} (hc : Stage P what (n'.clients c) (n'.server.handlers c) (n'.wires c) st)
    (d : Conn) :
    Stage P what (n'.clients d) (n'.server.handlers d) (n'.wires d) ((o.goto c st).status d) := by
  by_cases hd : d = c
  · rw [hd, Obj.goto_self]
    exact hc
  · obtain ⟨h1, h2, h3⟩ := hs.frame hd
    rw [Obj.goto_of_ne _ hd, h1, h2, h3]
    exact hi d

/-- A step that is none of the atomic object. -/
private theorem stage_same
    (hi : ∀ d, Stage P what (n.clients d) (n.server.handlers d) (n.wires d) (o.status d)) (hs : Steps P what n c a n')
    (hc : Stage P what (n'.clients c) (n'.server.handlers c) (n'.wires c) (o.status c)) (d : Conn) :
    Stage P what (n'.clients d) (n'.server.handlers d) (n'.wires d) (o.status d) := by
  by_cases hd : d = c
  · exact hd ▸ hc
  · obtain ⟨h1, h2, h3⟩ := hs.frame hd
    rw [h1, h2, h3]
    exact hi d

private theorem advance_step (hi : Simulated P what n o) {server : Throwing Conn}
    (hf : ∀ i q reply, n.server.handlers c ≠ .finished i q reply) (hs : Throwing.Steps n.server c .advance server) :
    ∃ (ms : List (Move Call)) (o' : Obj Conn Server Call Received),
      Machine.exec (Obj.step (remote what)) o (ms.map (Prod.mk c)) = some o' ∧
      Machine.trace (Obj.step (remote what)) Obj.observe o (ms.map (Prod.mk c)) = [] ∧
      Simulated P what { n with server := server } o' := by
  have hn : Steps P what n c .advance { n with server := server } := .advance server hf hs
  have hst := hi.stage c
  obtain ⟨σ', hab, hrel⟩ := Throwing.abstracts hi.related hs
  cases hab with
  | silent _ h hne _ =>
    refine ⟨[], o, rfl, rfl, hrel, hi.next, stage_same hi.stage hn ?_⟩
    show Stage P what (n.clients c) (server.handlers c) (n.wires c) (o.status c)
    cases hp : (n.server.handlers c).status with
    | idle =>
      refine absurd ?_ hne
      cases hph : n.server.handlers c <;> rw [hph] at hp <;> first | rfl | cases hp
    | pending i q =>
      obtain ⟨id, h1, h2, hv⟩ := hst.of_pending hp
      rw [h1, h2]
      exact .served id i q (h.trans hp) hv
    | done i q reply =>
      obtain ⟨id, h1, h2, hv⟩ := hst.of_done hp
      rw [h1, h2]
      exact .effective id i q reply (h.trans hp) hv
  | commit i q _ h h' =>
    obtain ⟨id, h1, h2, hv⟩ := hst.of_pending h
    obtain ⟨he, ht⟩ := Obj.exec_commit (remote what) h2
    refine ⟨_, _, he, ht, hrel, hi.next, ?_⟩
    refine stage_step (o := { o with state := (remote what o.state q).2 }) hi.stage hn ?_
    show Stage P what (n.clients c) (server.handlers c) (n.wires c) _
    rw [h1]
    exact .effective id i q _ h' hv
  | reply i q reply _ h _ => exact absurd h (hf i q reply)

private theorem reply_step (hi : Simulated P what n o) {i : Nat} {q : Call} {reply : Reply} {w : List β}
    {server : Throwing Conn} (hf : n.server.handlers c = .finished i q reply)
    (hw : replyText P what q.request.name q.request.resultName (n.wires c).seqid reply = some w)
    (hs : Throwing.Steps n.server c .advance server) : Simulated P what ({ n with server := server }.rewire c
      { n.wires c with toClient := (n.wires c).toClient ++ w }) o := by
  have hn := Steps.reply i q reply w server hf hw hs
  have hst := hi.stage c
  rw [hf] at hst
  obtain ⟨id, h1, h2, hv⟩ := hst.of_done rfl
  have hidle : server.handlers c = .idle ∧ Throwing.Related server o.state := by
    obtain ⟨σ', hab, hrel⟩ := Throwing.abstracts hi.related hs
    cases hab with
    | silent _ _ _ h => exact absurd hf (h i q reply)
    | commit j q' _ h _ =>
      rw [hf] at h
      cases h
    | reply j q' reply' _ _ h => exact ⟨h, hrel⟩
  refine ⟨hidle.2, hi.next, stage_same hi.stage hn ?_⟩
  show Stage P what (n.clients c) (server.handlers c) (Function.update n.wires c _ c) (o.status c)
  rw [h1, h2, hidle.1, Function.update_self]
  refine .replied id q reply (n.wires c).seqid hw ⟨hv.request, ?_⟩
  show (n.wires c).buffer ++ ((n.wires c).toClient ++ w) = w
  rw [← List.append_assoc, hv.reply, List.nil_append]

/-- The network is simulated by an atomic object. -/
theorem simulates (hP : P.Lawful) :
    Obj.Simulates (remote what) (Simulated P what : Net Conn β → _ → Prop) (step P what) (observe P) := by
  intro n o c a n' hi hs
  have hn := steps_of_step hs
  have hst := hi.stage c
  cases hn with
  | call q w hc hw =>
    rw [hc] at hst
    obtain ⟨h1, h2, hv⟩ := hst.of_idle
    obtain ⟨he, ht⟩ := Obj.exec_invoke (remote what) h1 q
    refine ⟨_, _, he, by rw [ht, hi.next]; rfl, hi.related, congrArg (· + 1) hi.next, ?_⟩
    refine stage_step (o := { o with next := o.next + 1 }) hi.stage (.call q w hc hw) ?_
    show Stage P what (Function.update n.clients c _ c) (n.server.handlers c) (Function.update n.wires c _ c) _
    rw [Function.update_self, Function.update_self, h2, hi.next]
    refine .sent n.next q hw ⟨?_, hv.reply⟩
    show (n.wires c).input ++ ((n.wires c).toServer ++ w) = w
    rw [← List.append_assoc, hv.request, List.nil_append]
  | deliver k =>
    refine ⟨[], o, rfl, rfl, hi.related, hi.next, stage_same hi.stage (.deliver k) ?_⟩
    show Stage P what (n.clients c) (n.server.handlers c) (Function.update n.wires c _ c) (o.status c)
    rw [Function.update_self]
    refine hst.arrived fun x y hv => ⟨?_, hv.reply⟩
    show (n.wires c).input ++ (n.wires c).toServer.take k ++ (n.wires c).toServer.drop k = x
    rw [List.append_assoc, List.take_append_drop, hv.request]
  | accept r seqid rest server hr hsv =>
    have hidle : n.server.handlers c = .idle ∧
        server.handlers c = .arrived n.server.next ⟨r, (n.clients c).faults⟩ ∧ Throwing.Related server o.state := by
      obtain ⟨σ', hab, hrel⟩ := Throwing.abstracts hi.related hsv
      cases hab with
      | arrive _ h h' _ => exact ⟨h, h', hrel⟩
    rw [hidle.1] at hst
    obtain ⟨id, h1, h2, hv⟩ := hst.of_request hP hr
    refine ⟨[], o, rfl, rfl, hidle.2.2, hi.next, stage_same hi.stage (.accept r seqid rest server hr hsv) ?_⟩
    show Stage P what (n.clients c) (server.handlers c) (Function.update n.wires c _ c) (o.status c)
    rw [hidle.2.1, Function.update_self, h2]
    exact h1 ▸ .served id n.server.next ⟨r, (n.clients c).faults⟩ rfl hv
  | advance server hf hsv => exact advance_step hi hf hsv
  | reply i q reply w server hf hw hsv => exact ⟨[], o, rfl, rfl, reply_step hi hf hw hsv⟩
  | carry k =>
    refine ⟨[], o, rfl, rfl, hi.related, hi.next, stage_same hi.stage (.carry k) ?_⟩
    show Stage P what (n.clients c) (n.server.handlers c) (Function.update n.wires c _ c) (o.status c)
    rw [Function.update_self]
    refine hst.arrived fun x y hv => ⟨hv.request, ?_⟩
    show (n.wires c).buffer ++ (n.wires c).toClient.take k ++ (n.wires c).toClient.drop k = y
    rw [List.append_assoc, List.take_append_drop, hv.reply]
  | receive old id q x rest hc hx =>
    rw [hc] at hst
    obtain ⟨h1, h2, hv⟩ := hst.of_reply hP hx
    obtain ⟨he, ht⟩ := Obj.exec_respond (remote what) h2
    refine ⟨_, _, he, ?_, hi.related, hi.next, ?_⟩
    · rw [ht, observe, hc]
      dsimp only
      rw [receive_eq, hx]
      rfl
    · refine stage_step hi.stage (.receive old id q x rest hc hx) ?_
      show Stage P what (Function.update n.clients c _ c) (n.server.handlers c) (Function.update n.wires c _ c) _
      rw [Function.update_self, Function.update_self, h1]
      exact .idle hv

/-! ### Whole runs -/

/-- What the clients see in any run, from the moment a call is made to the moment it returns, is linearizable: the calls
that have returned, with some that have not, have a sequential order that respects real time, gives what was received,
exceptions included, and leads to the store and the lock.  A call that has not returned and is not in the order has not
been read, or its `try` block is not over. -/
theorem calls_linearize (hP : P.Lawful) (acts : List (Conn × NetAct)) (n : Net Conn β)
    (hs : Machine.exec (step P what) {} acts = some n) :
    ∃ order σ, Linearizes (remote what) {} (history P what acts) order ∧ Sequential (remote what) {} order σ ∧
      Throwing.Related n.server σ ∧
      (∀ e ∈ order, .ret e.id e.res ∈ history P what acts ∨ ∃ c, n.clients c = .waiting e.id e.op) ∧
      ∀ c id q, n.clients c = .waiting id q → (∃ x, ⟨id, q, x⟩ ∈ order) ∨
        (∃ i, (n.server.handlers c).status = .pending i q) ∨ (n.wires c).input ++ (n.wires c).toServer ≠ [] := by
  obtain ⟨o, order, hR, he⟩ := Obj.explains_of_simulation (simulates hP) simulated_init hs
  refine ⟨order, o.state, he.points.linearizes, he.points.sequential, hR.related, fun e hm => ?_, fun c id q hc => ?_⟩
  · refine (he.effective e hm).imp_right fun h => ?_
    obtain ⟨c, hc⟩ := h
    have hst := hR.stage c
    rw [hc] at hst
    exact ⟨c, hst.waiting_of_done⟩
  · have hst := hR.stage c
    rw [hc] at hst
    refine (hst.of_waiting hP).imp_left fun h => ?_
    obtain ⟨x, hx⟩ := h
    exact ⟨x, he.done c id q x hx⟩

/-- Two clients call; the `kvset` is served, throws, and its exception is received while the `kvget` has arrived only in
part. -/
def brokenCalls : List (Bool × NetAct) :=
  [(true, .call Throwing.brokenSet), (false, .call ⟨.kvget "hi", {}⟩), (true, .deliver 20), (false, .deliver 7),
    (true, .deliver 40), (true, .accept), (true, .advance), (true, .advance), (true, .advance), (true, .advance),
    (true, .reply), (true, .carry 100), (true, .receive {})]

theorem calls_linearize_broken :
    ∃ order σ, Linearizes (remote "std::bad_alloc") {} (history Binary.protocol "std::bad_alloc" brokenCalls) order ∧
      Sequential (remote "std::bad_alloc") {} order σ ∧ σ.lck = true := by
  have hview : (Machine.exec (step Binary.protocol "std::bad_alloc") ({} : Net Bool UInt8) brokenCalls).map
      (fun n => (n.server.lck, n.server.handlers true)) = some (some true, .idle) := by decide +kernel
  obtain ⟨n, hn, hv⟩ := Option.map_eq_some_iff.1 hview
  obtain ⟨hl, hidle⟩ := Prod.mk.inj hv
  obtain ⟨order, σ, hlin, hseq, hrel, _⟩ := calls_linearize Binary.lawful _ n hn
  refine ⟨order, σ, hlin, hseq, (hrel.lock.kept true hl).resolve_left fun h => ?_⟩
  rw [hidle] at h
  exact h

end Net

end KVStore
