import KVStore.Lib.Binary
import KVStore.Rpc

/-!
# Messages that are not what they should be

What the processor does with other messages than those of the client, and the client with other replies than those of
the server.  A request that can be read is handled and answered (`exec_serve_read`).  One that breaks off changes
nothing (`exec_serve_truncated`), the name of an unknown method is answered, its arguments skipped
(`exec_serve_unknown`), and arguments may come as any fields (`exec_serve_fields`).  A reply without a `success` is an
error (`takes_recv_missing`).
-/

namespace KVStore

open Thrift Reader TProtocol Throws

variable {β : Type} (P : TProtocol β)

namespace KVStoreProcessor

/-- The arguments of the method `fname`. -/
def argsOf (fname : String) : Reader β Request :=
  if fname = "kvset" then kvsetArgs P
  else if fname = "kvget" then kvgetArgs P
  else if fname = "kvdelete" then kvdeleteArgs P
  else failure

/-- Arguments and the end of their message. -/
def body (args : Reader β Request) : Reader β Request := do
  let r ← args
  P.readMessageEnd
  pure r

/-- A whole call of one of the methods, and its number. -/
def readRequest : Reader β (Request × Int32) := do
  let (fname, mtype, seqid) ← P.readMessageBegin
  if mtype = .call ∨ mtype = .oneway then do
    let r ← body P (argsOf P fname)
    pure (r, seqid)
  else failure

end KVStoreProcessor

open KVStoreProcessor

/-! ### Any input -/

section AnyInput

variable {P} {D : TDispatchProcessor β} {p : Program} {f : Faults} {what : String}

/-- The arguments that are read are those of the method. -/
private theorem processMap_of_read {fname : String} {input rest : List β} {r : Request}
    (h : (argsOf P fname).read input = some (r, rest)) :
    processMap P p f what fname =
      some (KVStoreProcessor.process P p f what r.name r.resultName (argsOf P fname)) := by
  unfold processMap
  by_cases hset : fname = "kvset"
  · have hargs : argsOf P fname = kvsetArgs P := if_pos hset
    rw [hargs] at h ⊢
    obtain ⟨args, rfl⟩ := exists_of_read_bind_pure h
    exact if_pos hset
  by_cases hget : fname = "kvget"
  · have hargs : argsOf P fname = kvgetArgs P := (if_neg hset).trans (if_pos hget)
    rw [hargs] at h ⊢
    obtain ⟨args, rfl⟩ := exists_of_read_bind_pure h
    exact (if_neg hset).trans (if_pos hget)
  by_cases hdelete : fname = "kvdelete"
  · have hargs : argsOf P fname = kvdeleteArgs P := (if_neg hset).trans ((if_neg hget).trans (if_pos hdelete))
    rw [hargs] at h ⊢
    obtain ⟨args, rfl⟩ := exists_of_read_bind_pure h
    exact (if_neg hset).trans ((if_neg hget).trans (if_pos hdelete))
  · have hargs : argsOf P fname = failure := (if_neg hset).trans ((if_neg hget).trans (if_neg hdelete))
    rw [hargs] at h
    cases h

/-- When a whole request can be read, the server runs the handler on it and writes the reply. -/
theorem exec_serve_read (hD : D.Lawful P) {m : Link β} {r : Request} {seqid : Int32} {rest : List β}
    (h : (readRequest P).read m.input = some ((r, seqid), rest)) {o : List β}
    (ho : replyText P what r.name r.resultName seqid (p.handle m.server ⟨r, f⟩).1 = some o) :
    exec (serve P p f what D) m = (.ok (), ⟨rest, m.output ++ o, (p.handle m.server ⟨r, f⟩).2⟩) := by
  obtain ⟨⟨fname, mtype, i⟩, input, hhead, htail⟩ := read_bind_eq_some.1 h
  dsimp only at htail
  by_cases hm : mtype = .call ∨ mtype = .oneway
  · rw [if_pos hm] at htail
    obtain ⟨r', rest', hbody, he⟩ := read_bind_eq_some.1 htail
    obtain ⟨hr, rfl⟩ := Prod.mk.inj (Option.some.inj he)
    obtain ⟨rfl, rfl⟩ := Prod.mk.inj hr
    obtain ⟨r, input', hargs, hrest⟩ := read_bind_eq_some.1 hbody
    obtain ⟨⟨⟩, rest, hend, he⟩ := read_bind_eq_some.1 hrest
    obtain ⟨rfl, rfl⟩ := Prod.mk.inj (Option.some.inj he)
    rw [serve, hD.call _ m fname mtype i input hm hhead, dispatchCall, processMap_of_read hargs]
    exact exec_process_read (m := { m with input := input }) hargs hend i ho
  · rw [if_neg hm] at htail
    cases htail

end AnyInput

/-! ### Requests -/

section Requests

variable {P} {D : TDispatchProcessor β} (hP : P.Lawful) {p : Program} {f : Faults} {what : String}
include hP

theorem local_readRequest : Local (readRequest P) := by
  refine hP.streams.messageBegin.bind fun x => Local.ite (Local.bind (Local.bind ?_ fun _ =>
    hP.streams.messageEnd.bind fun _ => local_pure _) fun _ => local_pure _) local_failure
  exact Local.ite ((KvsetArgs.local_read hP).bind fun _ => local_pure _)
    (Local.ite ((KeyArgs.local_read hP).bind fun _ => local_pure _)
      (Local.ite ((KeyArgs.local_read hP).bind fun _ => local_pure _) local_failure))

/-- A request that is sent is read as what it is. -/
theorem takes_readRequest {r : Request} {w : List β} (h : KVStoreClient.send P r = some w) :
    (readRequest P).Takes w (r, 0) := by
  rw [send_eq] at h
  obtain ⟨head, text, hh, ht, rfl⟩ := messageText_eq_some h
  refine (hP.roundTrips.messageBegin _ _ _ _ hh).bind ?_
  dsimp only
  rw [if_pos (Or.inl rfl)]
  have hargs : argsOf P r.name = r.argsReader P := by cases r <;> rfl
  rw [body, hargs]
  exact Takes.bind_pure (f := fun r => (r, 0)) ((takes_args hP ht).bind hP.roundTrips.messageEnd.bind_pure)

theorem send_ne_nil {r : Request} {w : List β} (h : KVStoreClient.send P r = some w) : w ≠ [] := by
  have hkey := (advances_nextField hP).ne_nil (takes_nextField hP "key" (show TType.string ≠ .stop by decide) 1)
  rw [send_eq] at h
  obtain ⟨head, text, _, ht, rfl⟩ := messageText_eq_some h
  have htext : text ≠ [] := by
    rintro rfl
    cases r with
    | kvset key value =>
      obtain ⟨k, hk, ht⟩ := Option.bind_eq_some_iff.1 ht
      obtain ⟨v, hv, ht⟩ := Option.bind_eq_some_iff.1 ht
      simp [hkey] at ht
    | kvget key =>
      obtain ⟨k, hk, ht⟩ := Option.bind_eq_some_iff.1 ht
      simp [hkey] at ht
    | kvdelete key =>
      obtain ⟨k, hk, ht⟩ := Option.bind_eq_some_iff.1 ht
      simp [hkey] at ht
  simp [htext]

/-- The requests on a connection are told apart by the text alone. -/
theorem requests_unique {reqs reqs' : List Request} {ws ws' : List (List β)}
    (h : reqs.mapM (KVStoreClient.send P) = some ws) (h' : reqs'.mapM (KVStoreClient.send P) = some ws')
    (he : ws.flatten = ws'.flatten) : reqs = reqs' := by
  have hcons : ∀ {r : Request} {reqs : List Request} {ws : List (List β)},
      (r :: reqs).mapM (KVStoreClient.send P) = some ws →
        ∃ w rest, KVStoreClient.send P r = some w ∧ reqs.mapM (KVStoreClient.send P) = some rest ∧
          ws = w :: rest := by
    intro r reqs ws h
    rw [List.mapM_cons] at h
    obtain ⟨w, hw, h⟩ := Option.bind_eq_some_iff.1 h
    obtain ⟨rest, hrest, h⟩ := Option.bind_eq_some_iff.1 h
    exact ⟨w, rest, hw, hrest, (Option.some.inj h).symm⟩
  induction reqs generalizing reqs' ws ws' with
  | nil =>
    obtain rfl := Option.some.inj h
    cases reqs' with
    | nil => rfl
    | cons r' reqs' =>
      obtain ⟨w', rest', hw', _, rfl⟩ := hcons h'
      have hnil : w' = [] := (List.append_eq_nil_iff.1 he.symm).1
      exact absurd hnil (send_ne_nil hP hw')
  | cons r reqs ih =>
    obtain ⟨w, rest, hw, hrest, rfl⟩ := hcons h
    cases reqs' with
    | nil =>
      obtain rfl := Option.some.inj h'
      have hnil : w = [] := (List.append_eq_nil_iff.1 he).1
      exact absurd hnil (send_ne_nil hP hw)
    | cons r' reqs' =>
      obtain ⟨w', rest', hw', hrest', rfl⟩ := hcons h'
      rw [List.flatten_cons, List.flatten_cons] at he
      obtain ⟨_, hr, hrest''⟩ := (takes_readRequest hP hw).unique (takes_readRequest hP hw') he
      rw [(Prod.mk.inj hr).1, ih hrest hrest' hrest'']

omit hP in
/-- The same two requests in another order have another text. -/
theorem requests_unique_hi_bye :
    ∃ ws ws', [.kvset "hi" "bye", .kvget "hi"].mapM (KVStoreClient.send Binary.protocol) = some ws ∧
      [.kvget "hi", .kvset "hi" "bye"].mapM (KVStoreClient.send Binary.protocol) = some ws' ∧
      ws.flatten ≠ ws'.flatten := by
  have hsome : ([.kvset "hi" "bye", .kvget "hi"].mapM (KVStoreClient.send Binary.protocol)).isSome ∧
      ([.kvget "hi", .kvset "hi" "bye"].mapM (KVStoreClient.send Binary.protocol)).isSome := by decide +kernel
  obtain ⟨ws, h⟩ := Option.isSome_iff_exists.1 hsome.1
  obtain ⟨ws', h'⟩ := Option.isSome_iff_exists.1 hsome.2
  exact ⟨ws, ws', h, h', fun he => absurd (requests_unique Binary.lawful h h' he) (by decide)⟩

omit hP in
private theorem read_body (args : Reader β Request) (s : List β) :
    (body P args).read s = (args.read s).bind fun x => (P.readMessageEnd.read x.2).map fun y => (x.1, y.2) := by
  rw [body, read_bind]
  congr 1
  funext x
  rw [read_bind]
  cases P.readMessageEnd.read x.2 <;> rfl

omit hP in
private theorem exec_process_unread {name result : String} {args : Reader β Request} {seqid : Int32} {m : Link β}
    (h : (body P args).read m.input = none) :
    ∃ rest, exec (KVStoreProcessor.process P p f what name result args seqid) m =
      (.error .thrown, { m with input := rest }) := by
  rw [read_body] at h
  rw [KVStoreProcessor.process, exec_bind, Io.exec_take_eq]
  cases ha : args.read m.input with
  | none => exact ⟨m.input, rfl⟩
  | some x =>
    rw [ha, Option.bind_some, Option.map_eq_none_iff] at h
    dsimp only
    rw [exec_bind, Io.exec_take_eq]
    dsimp only
    rw [h]
    exact ⟨x.2, rfl⟩

/-- A request that breaks off, wherever it does, is not served: nothing is answered, and the store stays. -/
theorem exec_serve_truncated (hD : D.Lawful P) {r : Request} {w q : List β} (h : KVStoreClient.send P r = some w)
    (hq : q <+: w) (hne : q ≠ w) (out : List β) (s : Server) :
    ∃ rest, exec (serve P p f what D) ⟨q, out, s⟩ = (.error .thrown, ⟨rest, out, s⟩) := by
  have hread := (local_readRequest hP).read_of_truncated (takes_readRequest hP h) hq hne
  rw [send_eq] at h
  obtain ⟨head, text, hh, ht, rfl⟩ := messageText_eq_some h
  rw [readRequest, read_bind] at hread
  cases hx : P.readMessageBegin.read q with
  | none => exact hD.unread _ ⟨q, out, s⟩ hx
  | some x =>
    obtain ⟨x, rest⟩ := x
    obtain ⟨rfl, _⟩ := hP.streams.messageBegin.eq_of_read (hP.roundTrips.messageBegin _ _ _ _ hh) hq hx
    rw [hx, Option.bind_some] at hread
    dsimp only at hread
    rw [if_pos (Or.inl rfl), read_bind, Option.bind_eq_none_iff] at hread
    rw [serve, hD.call _ ⟨q, out, s⟩ r.name .call 0 rest (Or.inl rfl) hx, dispatchCall, processMap_name]
    have hargs : argsOf P r.name = r.argsReader P := by cases r <;> rfl
    rw [hargs] at hread
    refine exec_process_unread (Option.eq_none_iff_forall_ne_some.2 fun y hy => ?_)
    exact Option.some_ne_none _ (hread y hy)

omit hP in
/-- Seven bytes of a `kvset` have arrived. -/
theorem exec_serve_truncated_hi_bye :
    ∃ w rest, KVStoreClient.send Binary.protocol (.kvset "hi" "bye") = some w ∧
      exec (serve Binary.protocol .kvserver {} "std::bad_alloc" (.ofProtocol Binary.protocol)) ⟨w.take 7, [], {}⟩ =
        (.error .thrown, ⟨rest, [], {}⟩) := by
  have hlen : (KVStoreClient.send Binary.protocol (.kvset "hi" "bye")).map List.length = some 37 := by
    decide +kernel
  obtain ⟨w, h⟩ := Option.isSome_iff_exists.1 (send_isSome Binary.lawful (r := .kvset "hi" "bye") (by decide))
  rw [h, Option.map_some, Option.some.injEq] at hlen
  have hne : w.take 7 ≠ w := fun he => by
    have hl := congrArg List.length he
    rw [List.length_take, hlen] at hl
    omega
  obtain ⟨rest, hrest⟩ :=
    exec_serve_truncated Binary.lawful TDispatchProcessor.lawful_ofProtocol h (List.take_prefix 7 w) hne [] {}
  exact ⟨w, rest, h, hrest⟩

/-- The name is of no method. -/
def UnknownMethod (fname : String) : Prop := fname ≠ "kvset" ∧ fname ≠ "kvget" ∧ fname ≠ "kvdelete"

omit hP in
theorem processMap_unknown {fname : String} (h : UnknownMethod fname) : processMap P p f what fname = none := by
  rw [processMap, if_neg h.1, if_neg h.2.1, if_neg h.2.2]

/-- What is thrown for an unknown method. -/
def unknownMethod (fname : String) : TApplicationException where
  message := "Invalid method name: '" ++ fname ++ "'"
  type := .unknownMethod

/-- A call of an unknown method, with any arguments, is answered with an exception of the same number; the store stays,
and the server is ready for the next message. -/
theorem exec_serve_unknown (hD : D.Lawful P) {fname : String} (hf : UnknownMethod fname)
    (hs : Sendable (unknownMethod fname).message) {mtype : TMessageType} (hm : mtype = .call ∨ mtype = .oneway)
    {seqid : Int32} {name : String}
    {fs : List (StructField β)} (hfs : ∀ x ∈ fs, x.type ≠ .stop ∧ (P.skip 1 x.type).Takes x.body ()) {w : List β}
    (hw : messageText P fname mtype seqid (some (P.structText name fs)) = some w) (rest out : List β) (s : Server) :
    ∃ o, messageText P fname .exception seqid (P.writeException (unknownMethod fname)) = some o ∧
      exec (serve P p f what D) ⟨w ++ rest, out, s⟩ = (.ok (), ⟨rest, out ++ o, s⟩) := by
  have hfname : Sendable fname := hs.of_append_left.of_append_right
  obtain ⟨o, ho⟩ := Option.isSome_iff_exists.1
    (messageText_isSome hP hfname .exception seqid (hP.writes.exception _ hs))
  obtain ⟨head, text, hh, ht, rfl⟩ := messageText_eq_some hw
  obtain rfl := Option.some.inj ht
  refine ⟨o, ho, ?_⟩
  rw [List.append_assoc, List.append_assoc, exec_serve_message p f what hP hD hm hh, dispatchCall,
    processMap_unknown hf]
  dsimp only
  rw [exec_bind_ok (Io.exec_take (hP.roundTrips.skipStruct 0 name fs (by decide) hfs) _ _ _),
    exec_bind_ok (Io.exec_take hP.roundTrips.messageEnd _ _ _)]
  exact exec_puts ho _

omit hP in
/-- A call of a method `kvswap`, with one string. -/
theorem exec_serve_unknown_kvswap :
    ∃ w o, messageText Binary.protocol "kvswap" .call 7
        (some (Binary.protocol.structText "args" [⟨"key", .string, 1, (Binary.writeString "hi").getD []⟩])) = some w ∧
      messageText Binary.protocol "kvswap" .exception 7
        (Binary.protocol.writeException { message := "Invalid method name: 'kvswap'", type := .unknownMethod }) =
          some o ∧
      exec (serve Binary.protocol .kvserver {} "std::bad_alloc" (.ofProtocol Binary.protocol)) ⟨w, [], {}⟩ =
        (.ok (), ⟨[], o, {}⟩) := by
  have hfs : ∀ x ∈ [(⟨"key", .string, 1, (Binary.writeString "hi").getD []⟩ : StructField UInt8)], x.type ≠ .stop ∧
      (Binary.protocol.skip 1 x.type).Takes x.body () := by
    intro x hx
    obtain rfl := List.mem_singleton.1 hx
    exact ⟨TType.noConfusion, Binary.lawful.roundTrips.skipString 1 "hi" _ (by decide) rfl⟩
  obtain ⟨w, hw⟩ := Option.isSome_iff_exists.1 (messageText_isSome Binary.lawful (by decide : Sendable "kvswap") .call 7
    (rfl : (some (Binary.protocol.structText "args"
      [⟨"key", .string, 1, (Binary.writeString "hi").getD []⟩])).isSome = true))
  have hserve : ∃ o, messageText Binary.protocol "kvswap" .exception 7
        (Binary.protocol.writeException (unknownMethod "kvswap")) = some o ∧
      exec (serve Binary.protocol .kvserver {} "std::bad_alloc" (.ofProtocol Binary.protocol)) ⟨w ++ [], [], {}⟩ =
        (.ok (), ⟨[], [] ++ o, {}⟩) :=
    exec_serve_unknown Binary.lawful TDispatchProcessor.lawful_ofProtocol ⟨by decide, by decide, by decide⟩ (by decide)
      (Or.inl rfl) hfs hw [] [] {}
  obtain ⟨o, ho, he⟩ := hserve
  rw [List.append_nil] at he
  exact ⟨w, o, hw, ho, he⟩

/-- The request of the method of a request, with the arguments that the fields give. -/
def ofFields (P : TProtocol β) (fs : List (StructField β)) : Request → Request
  | .kvset _ _ => .kvset ((Register.last (P.stringField 1) fs).getD "") ((Register.last (P.stringField 2) fs).getD "")
  | .kvget _ => .kvget ((Register.last (P.stringField 1) fs).getD "")
  | .kvdelete _ => .kvdelete ((Register.last (P.stringField 1) fs).getD "")

private theorem takes_argsReader (method : Request) {fs : List (StructField β)} (h : ∀ x ∈ fs, P.Valid 1 x)
    (name : String) : (method.argsReader P).Takes (P.structText name fs) (ofFields P fs method) := by
  cases method with
  | kvset key value => exact (KvsetArgs.takes_read hP h name).bind_pure
  | kvget key => exact (KeyArgs.takes_read hP h name).bind_pure
  | kvdelete key => exact (KeyArgs.takes_read hP h name).bind_pure

/-- A call whose arguments come as any fields in any order is served with the last string of each number: what is
absent is empty, what is of another number or type is skipped.  The reply has the number of the call. -/
theorem exec_serve_fields (hD : D.Lawful P) (method : Request) {mtype : TMessageType}
    (hm : mtype = .call ∨ mtype = .oneway) {seqid : Int32} {name : String} {fs : List (StructField β)}
    (hfs : ∀ x ∈ fs, P.Valid 1 x) {w : List β}
    (hw : messageText P method.name mtype seqid (some (P.structText name fs)) = some w) (rest out : List β)
    (s : Server) {o : List β}
    (ho : replyText P what method.name method.resultName seqid (p.handle s ⟨ofFields P fs method, f⟩).1 = some o) :
    exec (serve P p f what D) ⟨w ++ rest, out, s⟩ =
      (.ok (), ⟨rest, out ++ o, (p.handle s ⟨ofFields P fs method, f⟩).2⟩) := by
  obtain ⟨head, text, hh, ht, rfl⟩ := messageText_eq_some hw
  obtain rfl := Option.some.inj ht
  rw [List.append_assoc, List.append_assoc, exec_serve_message p f what hP hD hm hh, dispatchCall, processMap_name]
  exact exec_process hP (takes_argsReader hP method hfs name) seqid rest out s ho

omit hP in
/-- A `kvset` with its value first, and with a number that the server does not know. -/
theorem exec_serve_fields_hi_bye :
    ∃ w o, messageText Binary.protocol "kvset" .call 7 (some (Binary.protocol.structText "args"
        [⟨"value", .string, 2, (Binary.writeString "bye").getD []⟩, ⟨"ttl", .i32, 7, Binary.writeI32 60⟩,
          ⟨"key", .string, 1, (Binary.writeString "hi").getD []⟩])) = some w ∧
      exec (serve Binary.protocol .kvserver {} "std::bad_alloc" (.ofProtocol Binary.protocol)) ⟨w, [], {}⟩ =
        (.ok (), ⟨[], o, (Program.kvserver.handle {} ⟨.kvset "hi" "bye", {}⟩).2⟩) := by
  let fs : List (StructField UInt8) := [⟨"value", .string, 2, (Binary.writeString "bye").getD []⟩,
    ⟨"ttl", .i32, 7, Binary.writeI32 60⟩, ⟨"key", .string, 1, (Binary.writeString "hi").getD []⟩]
  have hfs : ∀ x ∈ fs, Binary.protocol.Valid 1 x := by
    refine List.forall_mem_cons.2 ⟨?_, List.forall_mem_cons.2 ⟨?_, List.forall_mem_singleton.2 ?_⟩⟩
    · exact valid_string Binary.lawful (by decide) (s := "bye") rfl "value" 2
    · exact valid_i32 Binary.lawful (by decide) 60 "ttl" 7
    · exact valid_string Binary.lawful (by decide) (s := "hi") rfl "key" 1
  have hof : ofFields Binary.protocol fs (.kvset "" "") = .kvset "hi" "bye" := by decide +kernel
  obtain ⟨w, hw⟩ := Option.isSome_iff_exists.1 (messageText_isSome Binary.lawful (by decide : Sendable "kvset") .call 7
    (rfl : (some (Binary.protocol.structText "args" fs)).isSome = true))
  obtain ⟨o, ho⟩ := Option.isSome_iff_exists.1
    (messageText_isSome Binary.lawful (by decide : Sendable "kvset") .reply 7
      (by decide +kernel : (CallResult.write Binary.protocol "KVStore_kvset_result" {}).isSome = true))
  have he : exec (serve Binary.protocol .kvserver {} "std::bad_alloc" (.ofProtocol Binary.protocol)) ⟨w ++ [], [], {}⟩ =
      (.ok (), ⟨[], [] ++ o,
        (Program.kvserver.handle {} ⟨ofFields Binary.protocol fs (.kvset "" ""), {}⟩).2⟩) :=
    exec_serve_fields Binary.lawful TDispatchProcessor.lawful_ofProtocol (.kvset "" "") (Or.inl rfl) hfs hw [] [] {}
      (by rw [hof]; exact ho)
  rw [List.append_nil, hof] at he
  exact ⟨w, o, hw, he⟩

end Requests

/-! ### Replies -/

section Replies

variable {P} (hP : P.Lawful)
include hP

/-- A `result` without a `success`, whatever else it holds, is read to its end and is an error. -/
theorem takes_recv_missing {name sname : String} {seqid : Int32} {fs : List (StructField β)}
    (hfs : ∀ f ∈ fs, P.Valid 1 f ∧ ¬(f.id = 0 ∧ f.type = .struct)) {w : List β}
    (hw : messageText P name .reply seqid (some (P.structText sname fs)) = some w) (old : WireResult) :
    (KVStoreClient.recv P name old).Takes w
      (.error { message := name ++ " failed: unknown result", type := .missingResult }) := by
  obtain ⟨head, text, hh, ht, rfl⟩ := messageText_eq_some hw
  obtain rfl := Option.some.inj ht
  have hswitch : ∀ f ∈ fs, f.type ≠ .stop ∧ ∀ r, (CallResult.switch P f.type f.id r).Takes f.body r := by
    intro f hf
    obtain ⟨hv, hns⟩ := hfs f hf
    refine ⟨hv.type, fun r => ?_⟩
    unfold CallResult.switch readCase
    by_cases h0 : f.id = 0
    · rw [if_pos h0, if_neg fun hs => hns ⟨h0, hs⟩]
      exact takes_skipField hv r
    · rw [if_neg h0]
      exact takes_skipField hv r
  have hread : (CallResult.read P old).Takes (P.structText sname fs) (CallResult.mk old false) := by
    have h := takes_readStruct hP (fun _ r => r) hswitch sname (CallResult.mk old false)
    rwa [List.foldl_fixed] at h
  refine Takes.bind (hP.roundTrips.messageBegin _ _ _ _ hh) ?_
  dsimp only
  rw [if_neg (by decide), if_neg (by decide), if_neg (by simp)]
  refine Takes.bind hread ?_
  exact hP.roundTrips.messageEnd.bind_pure

omit hP in
theorem takes_recv_missing_ttl :
    ∃ w, messageText Binary.protocol "kvget" .reply 7 (some (Binary.protocol.structText "result"
        [⟨"ttl", .i32, 7, Binary.writeI32 60⟩])) = some w ∧
      (KVStoreClient.recv Binary.protocol "kvget" {}).Takes w
        (.error { message := "kvget failed: unknown result", type := .missingResult }) := by
  have hfs : ∀ x ∈ [(⟨"ttl", .i32, 7, Binary.writeI32 60⟩ : StructField UInt8)], Binary.protocol.Valid 1 x ∧
      ¬(x.id = 0 ∧ x.type = .struct) :=
    List.forall_mem_singleton.2 ⟨valid_i32 Binary.lawful (by decide) 60 "ttl" 7, by decide⟩
  obtain ⟨w, hw⟩ := Option.isSome_iff_exists.1 (messageText_isSome Binary.lawful (by decide : Sendable "kvget") .reply 7
    (rfl : (some (Binary.protocol.structText "result" [⟨"ttl", .i32, 7, Binary.writeI32 60⟩])).isSome = true))
  exact ⟨w, hw, takes_recv_missing Binary.lawful hfs hw {}⟩

/-- A reply whose `Result` comes as any fields in any order is received with the last of each number; what is absent
stays as it was in the `Result` that the caller gave. -/
theorem takes_recv_fields {name sname rname : String} {seqid : Int32} {fs : List (StructField β)}
    (hfs : ∀ f ∈ fs, P.Valid 2 f) {w : List β}
    (hw : messageText P name .reply seqid
      (some (P.structText sname [⟨"success", .struct, 0, P.structText rname fs⟩])) = some w) (old : WireResult) :
    (KVStoreClient.recv P name old).Takes w (.ok
      { value := (Register.last (P.stringField 1) fs).getD old.value
        error := (Register.last (P.i32Field 2) fs).getD old.error
        errortext := (Register.last (P.stringField 3) fs).getD old.errortext }) := by
  obtain ⟨head, text, hh, ht, rfl⟩ := messageText_eq_some hw
  obtain rfl := Option.some.inj ht
  let read (r : WireResult) : WireResult :=
    { value := (Register.last (P.stringField 1) fs).getD r.value
      error := (Register.last (P.i32Field 2) fs).getD r.error
      errortext := (Register.last (P.stringField 3) fs).getD r.errortext }
  have hswitch : ∀ c, (CallResult.switch P .struct 0 c).Takes (P.structText rname fs)
      { success := read c.success, isset := true } := by
    intro c
    unfold CallResult.switch readCase
    rw [if_pos rfl, if_pos rfl]
    exact (WireResult.takes_read hP hfs rname c.success).bind_pure
  have hresult : (CallResult.read P old).Takes
      (P.structText sname [⟨"success", .struct, 0, P.structText rname fs⟩]) { success := read old, isset := true } := by
    refine takes_readStruct hP (fun _ c => { success := read c.success, isset := true }) (fun g hg => ?_) sname
      (CallResult.mk old false)
    obtain rfl := List.mem_singleton.1 hg
    exact ⟨TType.noConfusion, hswitch⟩
  refine Takes.bind (hP.roundTrips.messageBegin _ _ _ _ hh) ?_
  dsimp only
  rw [if_neg (by decide), if_neg (by decide), if_neg (by simp)]
  refine Takes.bind hresult ?_
  exact hP.roundTrips.messageEnd.bind_pure

omit hP in
/-- Of the `Result` only the number of the error is sent. -/
theorem takes_recv_fields_error :
    ∃ w, messageText Binary.protocol "kvget" .reply 7 (some (Binary.protocol.structText "result"
        [⟨"success", .struct, 0, Binary.protocol.structText "Result" [⟨"error", .i32, 2, Binary.writeI32 1⟩]⟩])) =
          some w ∧
      (KVStoreClient.recv Binary.protocol "kvget" { value := "bye" }).Takes w (.ok { value := "bye", error := 1 }) := by
  have hfs : ∀ x ∈ [(⟨"error", .i32, 2, Binary.writeI32 1⟩ : StructField UInt8)], Binary.protocol.Valid 2 x :=
    List.forall_mem_singleton.2 (valid_i32 Binary.lawful (by decide) 1 "error" 2)
  obtain ⟨w, hw⟩ := Option.isSome_iff_exists.1 (messageText_isSome Binary.lawful (by decide : Sendable "kvget") .reply 7
    (rfl : (some (Binary.protocol.structText "result" [⟨"success", .struct, 0,
      Binary.protocol.structText "Result" [⟨"error", .i32, 2, Binary.writeI32 1⟩]⟩])).isSome = true))
  have h := takes_recv_fields Binary.lawful hfs hw { value := "bye" }
  have hi : (Register.last (Binary.protocol.i32Field 2) [⟨"error", .i32, 2, Binary.writeI32 1⟩]) = some 1 := by
    decide +kernel
  rw [hi] at h
  exact ⟨w, hw, h⟩

end Replies

end KVStore
