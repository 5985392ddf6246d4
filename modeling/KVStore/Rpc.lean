import KVStore.Acknowledged
import KVStore.Lib.Binary
import KVStore.Messages

/-!
# Calls over a connection

The generated client sends a request as a `T_CALL` message and reads a message back; the generated processor reads the
arguments of the call, runs the handler and writes a `T_REPLY` with the `Result`, or a `T_EXCEPTION`.  The `process` of
the library's `TDispatchProcessor`, which reads the head of a message, is a parameter.  The handler has run on exactly
the request that was sent, and the client gets what the handler answered (`exec_serve_send`, `takes_recv`), so calls
over a connection are calls on the server (`session_eq`).
-/

namespace KVStore

open Thrift Reader TProtocol Throws

variable {β : Type} (P : TProtocol β)

/-- The name of a method. -/
def Request.name : Request → String
  | .kvset _ _ => "kvset"
  | .kvget _ => "kvget"
  | .kvdelete _ => "kvdelete"

/-! ### The client -/

namespace KVStoreClient

def sendKvset (key value : String) : Option (List β) := do
  let head ← P.writeMessageBegin "kvset" .call 0
  let args ← KvsetArgs.write P { key := key, value := value }
  pure (head ++ args ++ P.writeMessageEnd)

def sendKvget (key : String) : Option (List β) := do
  let head ← P.writeMessageBegin "kvget" .call 0
  let args ← KvgetArgs.write P { key := key }
  pure (head ++ args ++ P.writeMessageEnd)

def sendKvdelete (key : String) : Option (List β) := do
  let head ← P.writeMessageBegin "kvdelete" .call 0
  let args ← KvdeleteArgs.write P { key := key }
  pure (head ++ args ++ P.writeMessageEnd)

def send : Request → Option (List β)
  | .kvset key value => sendKvset P key value
  | .kvget key => sendKvget P key
  | .kvdelete key => sendKvdelete P key

/-- The `recv` of the method `name`: what is read goes into the `Result` that the caller gave.  A message of another
kind, or with another name, is skipped, and the next text read as if it were the result. -/
def recv (name : String) (success : WireResult) : Reader β (Except TApplicationException WireResult) := do
  let (fname, mtype, _) ← P.readMessageBegin
  if mtype = .exception then do
    let x ← P.readException
    P.readMessageEnd
    pure (.error x)
  else do
    if mtype ≠ .reply then do
      P.skip 0 .struct
      P.readMessageEnd
    if fname ≠ name then do
      P.skip 0 .struct
      P.readMessageEnd
    let result ← CallResult.read P success
    P.readMessageEnd
    if result.isset then pure (.ok result.success)
    else pure (.error { message := name ++ " failed: unknown result", type := .missingResult })

def recvKvset (success : WireResult) : Reader β (Except TApplicationException WireResult) := recv P "kvset" success

def recvKvget (success : WireResult) : Reader β (Except TApplicationException WireResult) := recv P "kvget" success

def recvKvdelete (success : WireResult) : Reader β (Except TApplicationException WireResult) :=
  recv P "kvdelete" success

/-- The `recv` for a request. -/
def receive : Request → WireResult → Reader β (Except TApplicationException WireResult)
  | .kvset _ _ => recvKvset P
  | .kvget _ => recvKvget P
  | .kvdelete _ => recvKvdelete P

end KVStoreClient

/-! ### The processor -/

/-- A connection as the processor has it: what comes in, what goes out, and the server. -/
structure Link (β : Type) where
  input : List β
  output : List β := []
  server : Server

abbrev Io (β : Type) := Throws Stop (Link β)

namespace Io

def take {α : Type} (r : Reader β α) : Io β α := do
  let m ← get
  match r.read m.input with
  | some (a, rest) => do
    set { m with input := rest }
    pure a
  | none => throw .thrown

def put (w : Option (List β)) : Io β Unit :=
  match w with
  | some w => modify fun m => { m with output := m.output ++ w }
  | none => throw .thrown

end Io

/-- The `process` of the server library, which runs the `dispatchCall` of the generated processor. -/
structure TDispatchProcessor (β : Type) where
  process : (String → Int32 → Io β Unit) → Io β Unit

/-- What the library does: it reads the head of a message, and passes a call on; to read what is no head ends in an
exception. -/
structure TDispatchProcessor.Lawful (D : TDispatchProcessor β) (P : TProtocol β) : Prop where
  call : ∀ (dispatchCall : String → Int32 → Io β Unit) (m : Link β) (fname : String) (mtype : TMessageType)
    (seqid : Int32) (rest : List β), mtype = .call ∨ mtype = .oneway →
    P.readMessageBegin.read m.input = some ((fname, mtype, seqid), rest) →
    exec (D.process dispatchCall) m = exec (dispatchCall fname seqid) { m with input := rest }
  unread : ∀ (dispatchCall : String → Int32 → Io β Unit) (m : Link β), P.readMessageBegin.read m.input = none →
    ∃ rest, exec (D.process dispatchCall) m = (.error .thrown, { m with input := rest })

/-- Messages that are no calls are dropped. -/
def TDispatchProcessor.ofProtocol : TDispatchProcessor β where
  process dispatchCall := do
    let (fname, mtype, seqid) ← Io.take P.readMessageBegin
    if mtype = .call ∨ mtype = .oneway then dispatchCall fname seqid
    else pure ()

namespace KVStoreProcessor

variable (p : Program) (f : Faults)

/-- The `try` block around the handler: its `Result`, or nothing if an exception was caught. -/
def runHandler (r : Request) : Io β (Option Result) := do
  let m ← get
  set { m with server := (p.handle m.server ⟨r, f⟩).2 }
  match (p.handle m.server ⟨r, f⟩).1 with
  | .reply res => pure (some res)
  | .exception => pure none
  | .hang => throw .blocked

/-- `what` is the text of the exception that a handler throws. -/
def process (what name result : String) (args : Reader β Request) (seqid : Int32) : Io β Unit := do
  let r ← Io.take args
  Io.take P.readMessageEnd
  match ← runHandler p f r with
  | some res => do
    Io.put (P.writeMessageBegin name .reply seqid)
    Io.put (CallResult.write P result res)
    Io.put (some P.writeMessageEnd)
  | none => do
    Io.put (P.writeMessageBegin name .exception seqid)
    Io.put (P.writeException { message := what })
    Io.put (some P.writeMessageEnd)

variable (what : String)

/-- The arguments that `process_kvset` reads and passes to the handler. -/
def kvsetArgs : Reader β Request := do
  let args ← KvsetArgs.read P
  pure (.kvset args.key args.value)

def kvgetArgs : Reader β Request := do
  let args ← KvgetArgs.read P
  pure (.kvget args.key)

def kvdeleteArgs : Reader β Request := do
  let args ← KvdeleteArgs.read P
  pure (.kvdelete args.key)

def processKvset : Int32 → Io β Unit := process P p f what "kvset" "KVStore_kvset_result" (kvsetArgs P)

def processKvget : Int32 → Io β Unit := process P p f what "kvget" "KVStore_kvget_result" (kvgetArgs P)

def processKvdelete : Int32 → Io β Unit := process P p f what "kvdelete" "KVStore_kvdelete_result" (kvdeleteArgs P)

def processMap (fname : String) : Option (Int32 → Io β Unit) :=
  if fname = "kvset" then some (processKvset P p f what)
  else if fname = "kvget" then some (processKvget P p f what)
  else if fname = "kvdelete" then some (processKvdelete P p f what)
  else none

def dispatchCall (fname : String) (seqid : Int32) : Io β Unit :=
  match processMap P p f what fname with
  | none => do
    Io.take (P.skip 0 .struct)
    Io.take P.readMessageEnd
    Io.put (P.writeMessageBegin fname .exception seqid)
    Io.put (P.writeException { message := "Invalid method name: '" ++ fname ++ "'", type := .unknownMethod })
    Io.put (some P.writeMessageEnd)
  | some pfn => pfn seqid

/-- What the server does for a message. -/
def serve (D : TDispatchProcessor β) : Io β Unit := D.process (dispatchCall P p f what)

end KVStoreProcessor

/-! ### The messages of a call -/

section Messages

/-- The name of the `result` struct of a method. -/
def Request.resultName : Request → String
  | .kvset _ _ => "KVStore_kvset_result"
  | .kvget _ => "KVStore_kvget_result"
  | .kvdelete _ => "KVStore_kvdelete_result"

/-- The reader of the arguments of a method. -/
def Request.argsReader : Request → Reader β Request
  | .kvset _ _ => KVStoreProcessor.kvsetArgs P
  | .kvget _ => KVStoreProcessor.kvgetArgs P
  | .kvdelete _ => KVStoreProcessor.kvdeleteArgs P

/-- The arguments of a request, written by the client. -/
def Request.argsText : Request → Option (List β)
  | .kvset key value => KvsetArgs.write P { key := key, value := value }
  | .kvget key => KvgetArgs.write P { key := key }
  | .kvdelete key => KvdeleteArgs.write P { key := key }

/-- A message: the head, the body and the end. -/
def messageText (name : String) (mtype : TMessageType) (seqid : Int32) (body : Option (List β)) : Option (List β) := do
  let head ← P.writeMessageBegin name mtype seqid
  let body ← body
  pure (head ++ body ++ P.writeMessageEnd)

/-- The message that goes out for a call. -/
def replyText (what name result : String) (seqid : Int32) : Reply → Option (List β)
  | .reply res => messageText P name .reply seqid (CallResult.write P result res)
  | .exception => messageText P name .exception seqid (P.writeException { message := what })
  | .hang => none

variable {P}

theorem receive_eq (r : Request) (success : WireResult) :
    KVStoreClient.receive P r success = KVStoreClient.recv P r.name success := by
  cases r <;> rfl

theorem send_eq (r : Request) : KVStoreClient.send P r = messageText P r.name .call 0 (r.argsText P) := by
  cases r <;> rfl

theorem processMap_name (p : Program) (f : Faults) (what : String) (r : Request) :
    KVStoreProcessor.processMap P p f what r.name =
      some (KVStoreProcessor.process P p f what r.name r.resultName (r.argsReader P)) := by
  cases r <;> rfl

theorem messageText_eq_some {name : String} {mtype : TMessageType} {seqid : Int32} {body : Option (List β)}
    {w : List β} (h : messageText P name mtype seqid body = some w) :
    ∃ head text, P.writeMessageBegin name mtype seqid = some head ∧ body = some text ∧
      w = head ++ (text ++ P.writeMessageEnd) := by
  obtain ⟨head, hh, h⟩ := Option.bind_eq_some_iff.1 h
  obtain ⟨text, hb, h⟩ := Option.bind_eq_some_iff.1 h
  refine ⟨head, text, hh, hb, ?_⟩
  rw [← List.append_assoc]
  exact (Option.some.inj h).symm

theorem takes_args (hP : P.Lawful) {r : Request} {w : List β} (h : r.argsText P = some w) :
    (r.argsReader P).Takes w r := by
  cases r with
  | kvset key value => exact (takes_kvsetArgs hP h).bind_pure
  | kvget key => exact (takes_keyArgs hP h).bind_pure
  | kvdelete key => exact (takes_keyArgs hP h).bind_pure

end Messages

/-! ### The server serves a message -/

section Serve

variable {P} {D : TDispatchProcessor β} {p : Program} {f : Faults} {what : String}

theorem Io.exec_take_eq {α : Type} (r : Reader β α) (m : Link β) :
    exec (Io.take r) m = match r.read m.input with
      | some (a, rest) => (.ok a, { m with input := rest })
      | none => (.error .thrown, m) := by
  rw [Io.take, exec_bind_ok (exec_get _)]
  cases r.read m.input <;> rfl

theorem TDispatchProcessor.lawful_ofProtocol : (TDispatchProcessor.ofProtocol P).Lawful P where
  call dispatchCall m fname mtype seqid rest hm hread := by
    rw [ofProtocol, exec_bind, Io.exec_take_eq, hread]
    dsimp only
    rw [if_pos hm]
  unread dispatchCall m hread := by
    refine ⟨m.input, ?_⟩
    rw [ofProtocol, exec_bind, Io.exec_take_eq, hread]

theorem Io.exec_take {α : Type} {r : Reader β α} {w : List β} {a : α} (h : r.Takes w a) (rest out : List β)
    (s : Server) : exec (Io.take r) ⟨w ++ rest, out, s⟩ = (.ok a, ⟨rest, out, s⟩) := by
  rw [Io.exec_take_eq]
  dsimp only
  rw [h rest]

theorem Io.exec_put (w : List β) (m : Link β) :
    exec (Io.put (some w)) m = (.ok (), { m with output := m.output ++ w }) := rfl

theorem exec_runHandler (r : Request) (m : Link β) :
    exec (KVStoreProcessor.runHandler p f r) m = (match (p.handle m.server ⟨r, f⟩).1 with
      | .reply res => .ok (some res)
      | .exception => .ok none
      | .hang => .error .blocked, { m with server := (p.handle m.server ⟨r, f⟩).2 }) := by
  rw [KVStoreProcessor.runHandler, exec_bind_ok (exec_get _), exec_bind_ok (exec_set _ _)]
  cases (p.handle m.server ⟨r, f⟩).1 <;> rfl

theorem exec_puts {name : String} {mtype : TMessageType} {seqid : Int32} {body : Option (List β)} {w : List β}
    (h : messageText P name mtype seqid body = some w) (m : Link β) :
    exec (do Io.put (P.writeMessageBegin name mtype seqid); Io.put body; Io.put (some P.writeMessageEnd)) m =
      (.ok (), { m with output := m.output ++ w }) := by
  obtain ⟨u, v, hu, hv, rfl⟩ := messageText_eq_some h
  rw [hu, hv, exec_bind_ok (Io.exec_put u m), exec_bind_ok (Io.exec_put v _), Io.exec_put]
  simp

/-- The processor runs the handler on the arguments that it reads, and writes what comes out. -/
theorem exec_process_read {name result : String} {args : Reader β Request} {m : Link β} {r : Request}
    {rest rest' : List β} (ha : args.read m.input = some (r, rest)) (he : P.readMessageEnd.read rest = some ((), rest'))
    (seqid : Int32) {o : List β} (ho : replyText P what name result seqid (p.handle m.server ⟨r, f⟩).1 = some o) :
    exec (KVStoreProcessor.process P p f what name result args seqid) m =
      (.ok (), ⟨rest', m.output ++ o, (p.handle m.server ⟨r, f⟩).2⟩) := by
  rw [KVStoreProcessor.process, exec_bind, Io.exec_take_eq, ha]
  dsimp only
  rw [exec_bind, Io.exec_take_eq, he]
  dsimp only
  rw [exec_bind, exec_runHandler]
  dsimp only
  cases hr : (p.handle m.server ⟨r, f⟩).1 with
  | reply res =>
    rw [hr] at ho
    exact exec_puts ho _
  | exception =>
    rw [hr] at ho
    exact exec_puts ho _
  | hang =>
    rw [hr] at ho
    cases ho

theorem exec_process (hP : P.Lawful) {name result : String} {args : Reader β Request} {w : List β} {r : Request}
    (ha : args.Takes w r) (seqid : Int32) (rest out : List β) (s : Server) {o : List β}
    (ho : replyText P what name result seqid (p.handle s ⟨r, f⟩).1 = some o) :
    exec (KVStoreProcessor.process P p f what name result args seqid) ⟨w ++ (P.writeMessageEnd ++ rest), out, s⟩ =
      (.ok (), ⟨rest, out ++ o, (p.handle s ⟨r, f⟩).2⟩) :=
  exec_process_read (m := ⟨_, out, s⟩) (ha _) (hP.roundTrips.messageEnd _) seqid ho

theorem exec_process_hang (hP : P.Lawful) {name result : String} {args : Reader β Request} {w : List β} {r : Request}
    (ha : args.Takes w r) (seqid : Int32) (rest out : List β) (s : Server) (hr : (p.handle s ⟨r, f⟩).1 = .hang) :
    exec (KVStoreProcessor.process P p f what name result args seqid) ⟨w ++ (P.writeMessageEnd ++ rest), out, s⟩ =
      (.error .blocked, ⟨rest, out, (p.handle s ⟨r, f⟩).2⟩) := by
  rw [KVStoreProcessor.process, exec_bind_ok (Io.exec_take ha _ _ _),
    exec_bind_ok (Io.exec_take hP.roundTrips.messageEnd _ _ _), exec_bind, exec_runHandler, hr]

variable (p f what)

/-- A message of a call gets to `dispatchCall`. -/
theorem exec_serve_message (hP : P.Lawful) (hD : D.Lawful P) {fname : String} {mtype : TMessageType} {seqid : Int32}
    {head : List β} (hm : mtype = .call ∨ mtype = .oneway)
    (hh : P.writeMessageBegin fname mtype seqid = some head) (rest out : List β) (s : Server) :
    exec (KVStoreProcessor.serve P p f what D) ⟨head ++ rest, out, s⟩ =
      exec (KVStoreProcessor.dispatchCall P p f what fname seqid) ⟨rest, out, s⟩ :=
  hD.call _ _ fname mtype seqid rest hm (hP.roundTrips.messageBegin _ _ _ _ hh rest)

/-- The server hands the message of a request to the function that processes it. -/
theorem exec_serve_send (hP : P.Lawful) (hD : D.Lawful P) {r : Request} {w : List β}
    (h : KVStoreClient.send P r = some w) (rest out : List β) (s : Server) :
    ∃ text, (r.argsReader P).Takes text r ∧ exec (KVStoreProcessor.serve P p f what D) ⟨w ++ rest, out, s⟩ =
      exec (KVStoreProcessor.process P p f what r.name r.resultName (r.argsReader P) 0)
        ⟨text ++ (P.writeMessageEnd ++ rest), out, s⟩ := by
  rw [send_eq] at h
  obtain ⟨head, text, hh, ht, rfl⟩ := messageText_eq_some h
  refine ⟨text, takes_args hP ht, ?_⟩
  rw [List.append_assoc, List.append_assoc, exec_serve_message p f what hP hD (Or.inl rfl) hh,
    KVStoreProcessor.dispatchCall, processMap_name]

/-- A request that is sent is served: the handler runs on it, and the rest of the input stays. -/
theorem exec_serve (hP : P.Lawful) (hD : D.Lawful P) {r : Request} {w : List β}
    (h : KVStoreClient.send P r = some w) (rest out : List β) (s : Server) {o : List β}
    (ho : replyText P what r.name r.resultName 0 (p.handle s ⟨r, f⟩).1 = some o) :
    exec (KVStoreProcessor.serve P p f what D) ⟨w ++ rest, out, s⟩ =
      (.ok (), ⟨rest, out ++ o, (p.handle s ⟨r, f⟩).2⟩) := by
  obtain ⟨text, ha, he⟩ := exec_serve_send p f what hP hD h rest out s
  rw [he, exec_process hP ha 0 rest out s ho]

theorem exec_serve_hang (hP : P.Lawful) (hD : D.Lawful P) {r : Request} {w : List β}
    (h : KVStoreClient.send P r = some w) (rest out : List β) (s : Server) (hr : (p.handle s ⟨r, f⟩).1 = .hang) :
    exec (KVStoreProcessor.serve P p f what D) ⟨w ++ rest, out, s⟩ =
      (.error .blocked, ⟨rest, out, (p.handle s ⟨r, f⟩).2⟩) := by
  obtain ⟨text, ha, he⟩ := exec_serve_send p f what hP hD h rest out s
  rw [he, exec_process_hang hP ha 0 rest out s hr]

end Serve

/-! ### The client receives a message -/

section Recv

variable {P} {what : String}

variable (what) in
/-- What the client makes of a reply; of one that does not come, nothing. -/
def Reply.received : Reply → Option (Except TApplicationException WireResult)
  | .reply res => some (.ok res.wire)
  | .exception => some (.error { message := what })
  | .hang => none

/-- The client gets what the handler answered, whatever its `Result` was before. -/
theorem takes_recv (hP : P.Lawful) {name result : String} {seqid : Int32} {reply : Reply} {w : List β}
    (h : replyText P what name result seqid reply = some w) (old : WireResult) :
    ∃ x, reply.received what = some x ∧ (KVStoreClient.recv P name old).Takes w x := by
  cases reply with
  | reply res =>
    obtain ⟨head, body, hh, hb, rfl⟩ := messageText_eq_some h
    refine ⟨.ok res.wire, rfl, ?_⟩
    refine Takes.bind (hP.roundTrips.messageBegin _ _ _ _ hh) ?_
    dsimp only
    rw [if_neg (by decide), if_neg (by decide), if_neg (by simp)]
    refine Takes.bind (takes_callResult hP hb old) ?_
    dsimp only
    exact hP.roundTrips.messageEnd.bind_pure
  | exception =>
    obtain ⟨head, body, hh, hb, rfl⟩ := messageText_eq_some h
    refine ⟨.error { message := what }, rfl, ?_⟩
    refine Takes.bind (hP.roundTrips.messageBegin _ _ _ _ hh) ?_
    exact Takes.bind (hP.roundTrips.exception _ _ hb) hP.roundTrips.messageEnd.bind_pure
  | hang => cases h

end Recv

/-! ### Texts that can be written -/

section Sendable

variable {P} {what : String}

/-- The strings of a request can be sent. -/
def Request.Sendable : Request → Prop
  | .kvset key value => Thrift.Sendable key ∧ Thrift.Sendable value
  | .kvget key => Thrift.Sendable key
  | .kvdelete key => Thrift.Sendable key

instance : (r : Request) → Decidable r.Sendable
  | .kvset _ _ => inferInstanceAs (Decidable (_ ∧ _))
  | .kvget key => inferInstanceAs (Decidable (Thrift.Sendable key))
  | .kvdelete key => inferInstanceAs (Decidable (Thrift.Sendable key))

/-- Every value in the store can be sent. -/
def Server.Sendable (s : Server) : Prop := ∀ k, Thrift.Sendable (s.sharedKvstore.value k)

theorem Server.Sendable.handle {p : Program} {s : Server} (hs : s.Sendable) (hr : p.Ready s) {c : Call}
    (hc : c.request.Sendable) : (p.handle s c).2.Sendable := by
  intro k
  rw [(handled hr c).value, acknowledged]
  split
  · obtain ⟨r, f⟩ := c
    cases r with
    | kvset key value => exact hc.2
    | kvget key => exact (by decide : Thrift.Sendable "")
    | kvdelete key => exact (by decide : Thrift.Sendable "")
  · exact hs k

theorem messageText_isSome (hP : P.Lawful) {name : String} (hn : Sendable name) (mtype : TMessageType) (seqid : Int32)
    {body : Option (List β)} (hb : body.isSome) : (messageText P name mtype seqid body).isSome := by
  obtain ⟨head, hh⟩ := Option.isSome_iff_exists.1 (hP.writes.messageBegin name mtype seqid hn)
  obtain ⟨text, rfl⟩ := Option.isSome_iff_exists.1 hb
  rw [messageText, hh]
  rfl

theorem Request.sendable_name (r : Request) : Thrift.Sendable r.name := by
  cases r with
  | kvset key value => exact (by decide : Thrift.Sendable "kvset")
  | kvget key => exact (by decide : Thrift.Sendable "kvget")
  | kvdelete key => exact (by decide : Thrift.Sendable "kvdelete")

theorem send_isSome (hP : P.Lawful) {r : Request} (hr : r.Sendable) : (KVStoreClient.send P r).isSome := by
  rw [send_eq]
  refine messageText_isSome hP r.sendable_name _ _ ?_
  cases r with
  | kvset key value =>
    obtain ⟨k, hk⟩ := Option.isSome_iff_exists.1 (hP.writes.string key hr.1)
    obtain ⟨v, hv⟩ := Option.isSome_iff_exists.1 (hP.writes.string value hr.2)
    simp [Request.argsText, KvsetArgs.write, hk, hv]
  | kvget key =>
    obtain ⟨k, hk⟩ := Option.isSome_iff_exists.1 (hP.writes.string key hr)
    simp [Request.argsText, KvgetArgs.write, KeyArgs.write, hk]
  | kvdelete key =>
    obtain ⟨k, hk⟩ := Option.isSome_iff_exists.1 (hP.writes.string key hr)
    simp [Request.argsText, KvdeleteArgs.write, KeyArgs.write, hk]

/-- The store of a server that can be sent, after a request that can. -/
theorem Server.Sendable.effect {s : Server} (hs : s.Sendable) (hl : s.lck = false) {r : Request} (hr : r.Sendable) :
    ({ s with sharedKvstore := effect s.sharedKvstore r } : Server).Sendable := by
  have hready : Program.kvserverConsistent.Ready s := fun h => Program.noConfusion h
  have h := hs.handle hready (c := ⟨r, {}⟩) hr
  rwa [Program.handle_eq _ hl (by cases r <;> rfl)] at h

/-- The strings of a result can be sent. -/
def Result.Sendable (res : Result) : Prop := Thrift.Sendable res.value ∧ Thrift.Sendable res.errortext

/-- What a handler answers can be sent if the store can. -/
theorem Handled.sendable {s s' : Server} {c : Call} {res : Result} (h : Handled s c (.reply res) s')
    (hs : s.Sendable) : res.Sendable := by
  obtain ⟨hv, ht⟩ := h.texts
  constructor
  · rcases hv with hv | hv <;> rw [hv]
    · decide
    · exact hs _
  · rcases ht with ht | ht <;> rw [ht] <;> decide

variable (what) in
theorem resultText_isSome (hP : P.Lawful) {res : Result} (hres : res.Sendable) (r : Request) (result : String)
    (seqid : Int32) : (replyText P what r.name result seqid (.reply res)).isSome := by
  refine messageText_isSome hP r.sendable_name _ _ ?_
  obtain ⟨v, hv⟩ := Option.isSome_iff_exists.1 (hP.writes.string _ hres.1)
  obtain ⟨t, ht⟩ := Option.isSome_iff_exists.1 (hP.writes.string _ hres.2)
  simp [CallResult.write, Result.write, hv, ht]

/-- Whatever the handler answers can be written, if the store and the text of the exception can. -/
theorem replyText_isSome (hP : P.Lawful) (hw : Sendable what) {s s' : Server} (hs : s.Sendable) {c : Call}
    {reply : Reply} (h : Handled s c reply s') (hne : reply ≠ .hang) (result : String) (seqid : Int32) :
    (replyText P what c.request.name result seqid reply).isSome := by
  cases reply with
  | reply res => exact resultText_isSome what hP (h.sendable hs) c.request result seqid
  | exception => exact messageText_isSome hP c.request.sendable_name _ _ (hP.writes.exception _ hw)
  | hang => exact absurd rfl hne

end Sendable

/-! ### Sessions -/

section Session

variable (p : Program) (what : String) (D : TDispatchProcessor β)

/-- A call: the client sends the request, the server serves a message, and the client receives one.  `old` is the
`Result` that the client gives. -/
def KVStoreClient.call (old : WireResult) (c : Call) : Io β (Except TApplicationException WireResult) := do
  let m ← get
  match KVStoreClient.send P c.request with
  | none => throw .thrown
  | some w => set { m with input := m.input ++ w }
  KVStoreProcessor.serve P p c.faults what D
  let m ← get
  match (KVStoreClient.receive P c.request old).read m.output with
  | none => throw .thrown
  | some (x, rest) => do
    set { m with output := rest }
    pure x

/-- The calls of a client, one after another over one connection. -/
def KVStoreClient.session (old : WireResult) : List Call → Io β (List (Except TApplicationException WireResult))
  | [] => pure []
  | c :: calls => do
    let x ← KVStoreClient.call P p what D old c
    let xs ← KVStoreClient.session old calls
    pure (x :: xs)

variable {P p what D}

theorem exec_call (hP : P.Lawful) (hD : D.Lawful P) (hw : Sendable what) {s : Server} (hs : s.Sendable)
    (hr : p.Ready s) {c : Call} (hc : c.request.Sendable) (hne : (p.handle s c).1 ≠ .hang) (old : WireResult) :
    ∃ x, (p.handle s c).1.received what = some x ∧
      exec (KVStoreClient.call P p what D old c) ⟨[], [], s⟩ = (.ok x, ⟨[], [], (p.handle s c).2⟩) := by
  obtain ⟨w, hsend⟩ := Option.isSome_iff_exists.1 (send_isSome hP hc)
  obtain ⟨o, ho⟩ := Option.isSome_iff_exists.1
    (replyText_isSome hP hw hs (handled hr c) hne c.request.resultName 0)
  obtain ⟨x, hx, hrecv⟩ := takes_recv hP ho old
  refine ⟨x, hx, ?_⟩
  have hserve := exec_serve p c.faults what hP hD hsend [] [] s ho
  rw [List.append_nil] at hserve
  rw [KVStoreClient.call, exec_bind_ok (exec_get _), hsend]
  dsimp only
  rw [exec_bind_ok (exec_set _ _), List.nil_append, exec_bind_ok hserve, exec_bind_ok (exec_get _)]
  dsimp only
  rw [List.nil_append, receive_eq, hrecv.read_self]
  rfl

theorem exec_call_hang (hP : P.Lawful) (hD : D.Lawful P) {s : Server} {c : Call} (hc : c.request.Sendable)
    (hh : (p.handle s c).1 = .hang) (old : WireResult) :
    exec (KVStoreClient.call P p what D old c) ⟨[], [], s⟩ = (.error .blocked, ⟨[], [], (p.handle s c).2⟩) := by
  obtain ⟨w, hsend⟩ := Option.isSome_iff_exists.1 (send_isSome hP hc)
  have hserve := exec_serve_hang p c.faults what hP hD hsend [] [] s hh
  rw [List.append_nil] at hserve
  rw [KVStoreClient.call, exec_bind_ok (exec_get _), hsend]
  dsimp only
  rw [exec_bind_ok (exec_set _ _), List.nil_append, exec_bind, hserve]

/-- The calls up to the first that hangs, which included. -/
def Program.served (p : Program) : Server → List Call → List Call
  | _, [] => []
  | s, c :: calls => if (p.handle s c).1 = .hang then [c] else c :: p.served (p.handle s c).2 calls

/-- What the client gets of the replies to its calls; if one hangs, nothing. -/
def receivedAll (what : String) (replies : List Reply) :
    Except Stop (List (Except TApplicationException WireResult)) :=
  match replies.mapM (Reply.received what) with
  | some xs => .ok xs
  | none => .error .blocked

/-- A session over a connection is a session with the handlers: the client gets their answers, the server ends in the
same state, and nothing is left on the way. -/
theorem session_eq (hP : P.Lawful) (hD : D.Lawful P) (hw : Sendable what) {s : Server} (hs : s.Sendable)
    (hr : p.Ready s) (calls : List Call) (hc : ∀ c ∈ calls, c.request.Sendable) (old : WireResult) :
    exec (KVStoreClient.session P p what D old calls) ⟨[], [], s⟩ =
      (receivedAll what (p.replies s calls), ⟨[], [], p.after s (p.served s calls)⟩) := by
  induction calls generalizing s with
  | nil => rfl
  | cons c calls ih =>
    obtain ⟨hc1, hc2⟩ := List.forall_mem_cons.1 hc
    rw [KVStoreClient.session, receivedAll, Program.replies, List.mapM_cons, Program.served]
    by_cases hh : (p.handle s c).1 = .hang
    · rw [exec_bind, exec_call_hang hP hD hc1 hh old, if_pos hh, hh]
      rfl
    · obtain ⟨x, hx, hcall⟩ := exec_call hP hD hw hs hr hc1 hh old
      have ih := ih (hs.handle hr hc1) (hr.handle c) hc2
      rw [exec_bind_ok hcall, exec_bind, ih, if_neg hh, hx, receivedAll]
      cases (p.replies (p.handle s c).2 calls).mapM (Reply.received what) <;> rfl

/-- A write, a read, and a write that throws. -/
theorem session_eq_hi_bye :
    exec (KVStoreClient.session Binary.protocol .kvserver "std::bad_alloc" (.ofProtocol Binary.protocol) {}
        [⟨.kvset "hi" "bye", {}⟩, ⟨.kvget "hi", {}⟩, ⟨.kvset "hi" "", { assign := true, errortext := true }⟩])
        ⟨[], [], {}⟩ =
      (.ok [.ok {}, .ok { value := "bye" }, .error { message := "std::bad_alloc" }],
        ⟨[], [], Program.kvserver.after {}
          [⟨.kvset "hi" "bye", {}⟩, ⟨.kvget "hi", {}⟩, ⟨.kvset "hi" "", { assign := true, errortext := true }⟩]⟩) := by
  let calls : List Call :=
    [⟨.kvset "hi" "bye", {}⟩, ⟨.kvget "hi", {}⟩, ⟨.kvset "hi" "", { assign := true, errortext := true }⟩]
  have hserved : Program.kvserver.served {} calls = calls := by decide
  have hreplies : Program.kvserver.replies {} calls = [.reply {}, .reply { value := "bye" }, .exception] := by decide
  have h : exec (KVStoreClient.session Binary.protocol .kvserver "std::bad_alloc" (.ofProtocol Binary.protocol) {}
        calls) ⟨[], [], {}⟩ =
      (receivedAll "std::bad_alloc" (Program.kvserver.replies {} calls),
        ⟨[], [], Program.kvserver.after {} (Program.kvserver.served {} calls)⟩) :=
    session_eq Binary.lawful TDispatchProcessor.lawful_ofProtocol (by decide) (s := {})
      (fun _ => (by decide : Thrift.Sendable "")) (fun _ => rfl) calls (by decide) {}
  rw [hserved, hreplies] at h
  exact h

end Session

end KVStore
