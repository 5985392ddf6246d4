import KVStore.Lib.Protocol

/-!
# A binary protocol

A `TProtocol` over bytes as `TBinaryProtocol` writes and reads them: numbers with their highest byte first, a string
after its length, a field after its type and its number, and a message after its version and its type.  It is lawful
(`lawful`).
-/

namespace Thrift

open Reader TProtocol

namespace Binary

/-! ### Numbers -/

/-- The `k` lowest bytes of a number, the highest first. -/
def natBytes : Nat → Nat → List UInt8
  | 0, _ => []
  | k + 1, n => natBytes k (n / 256) ++ [UInt8.ofNat n]

def bytesNat (bs : List UInt8) : Nat := bs.foldl (fun n b => 256 * n + b.toNat) 0

/-- The numbers of `k` bytes are below `bound k`. -/
def bound : Nat → Nat
  | 0 => 1
  | k + 1 => 256 * bound k

def nat (k : Nat) : Reader UInt8 Nat := do
  let bs ← items k
  pure (bytesNat bs)

theorem length_natBytes (k n : Nat) : (natBytes k n).length = k := by
  induction k generalizing n with
  | zero => rfl
  | succ k ih => rw [natBytes, List.length_append, ih, List.length_singleton]

theorem bytesNat_natBytes {k n : Nat} (h : n < bound k) : bytesNat (natBytes k n) = n := by
  induction k generalizing n with
  | zero => exact (Nat.lt_one_iff.1 h).symm
  | succ k ih =>
    have hk : n / 256 < bound k := Nat.div_lt_of_lt_mul h
    have ih := ih hk
    unfold bytesNat at ih ⊢
    rw [natBytes, List.foldl_append, ih, List.foldl_cons, List.foldl_nil, UInt8.toNat_ofNat']
    exact Nat.div_add_mod n 256

theorem takes_nat {k n : Nat} (h : n < bound k) : (nat k).Takes (natBytes k n) n := by
  have ht := (takes_items (natBytes k n)).bind_pure (f := bytesNat)
  rwa [length_natBytes, bytesNat_natBytes h] at ht

theorem local_nat (k : Nat) : Local (nat k) := (local_items k).bind fun _ => local_pure _

def writeI32 (n : Int32) : List UInt8 := natBytes 4 n.toBitVec.toNat

def readI32 : Reader UInt8 Int32 := do
  let n ← nat 4
  pure (Int32.ofBitVec (BitVec.ofNat 32 n))

theorem takes_i32 (n : Int32) : readI32.Takes (writeI32 n) n := by
  have h := (takes_nat (k := 4) (n := n.toBitVec.toNat) n.toBitVec.isLt).bind_pure
    (f := fun n => Int32.ofBitVec (BitVec.ofNat 32 n))
  rwa [BitVec.ofNat_toNat, BitVec.setWidth_eq, Int32.ofBitVec_toBitVec] at h

theorem local_i32 : Local readI32 := (local_nat 4).bind fun _ => local_pure _

/-! ### Strings -/

def text (s : String) : List UInt8 := s.toByteArray.data.toList

def string (bs : List UInt8) : Option String := String.fromUTF8? ⟨bs.toArray⟩

theorem string_text (s : String) : string (text s) = some s :=
  dif_pos s.isValidUTF8

theorem size_of_string {bs : List UInt8} {s : String} (h : string bs = some s) : s.utf8ByteSize = bs.length := by
  unfold string String.fromUTF8? at h
  split at h
  · obtain rfl := Option.some.inj h
    rfl
  · cases h

def writeString (s : String) : Option (List UInt8) :=
  if Sendable s then some (natBytes 4 s.utf8ByteSize ++ text s) else none

/-- A length; a negative one is refused. -/
def size : Reader UInt8 Nat := do
  let n ← nat 4
  if n < 2147483648 then pure n else failure

def readText : Reader UInt8 (List UInt8) := do
  let n ← size
  items n

def readString : Reader UInt8 String := do
  let bs ← readText
  ofOption (string bs)

theorem takes_size {n : Nat} (h : n < 2147483648) : size.Takes (natBytes 4 n) n := by
  have hn : n < bound 4 := Nat.lt_trans h (by decide)
  refine (takes_nat hn).bind_nil ?_
  rw [if_pos h]
  exact takes_pure n

theorem local_size : Local size := (local_nat 4).bind fun _ => Local.ite (local_pure _) local_failure

theorem local_text : Local readText := local_size.bind fun n => local_items n

theorem local_string : Local readString := local_text.bind fun _ => local_ofOption _

theorem takes_text {s : String} {w : List UInt8} (h : writeString s = some w) : readText.Takes w (text s) := by
  obtain ⟨hs, h⟩ := Option.ite_none_right_eq_some.1 h
  obtain rfl := Option.some.inj h
  exact (takes_size hs).bind (takes_items (text s))

theorem takes_string {s : String} {w : List UInt8} (h : writeString s = some w) : readString.Takes w s := by
  refine (takes_text h).bind_nil ?_
  rw [string_text]
  exact takes_pure s

/-- No string of 2³¹ bytes or more is ever read. -/
theorem sendable_of_read {s : String} {input rest : List UInt8} (h : readString.read input = some (s, rest)) :
    Sendable s := by
  obtain ⟨bs, t, hbs, h⟩ := read_bind_eq_some.1 h
  obtain ⟨n, u, hn, hbs⟩ := read_bind_eq_some.1 hbs
  obtain ⟨m, v, _, hn⟩ := read_bind_eq_some.1 hn
  have hlt : n < 2147483648 := by
    by_cases hm : m < 2147483648
    · rw [if_pos hm] at hn
      obtain ⟨rfl, _⟩ := Prod.mk.inj (Option.some.inj hn)
      exact hm
    · rw [if_neg hm] at hn
      cases hn
  have hlen : bs.length ≤ n := by
    obtain ⟨_, hbs⟩ := Option.ite_none_right_eq_some.1 hbs
    rw [List.splitAt_eq, Option.some.injEq, Prod.mk.injEq] at hbs
    rw [← hbs.1, List.length_take]
    exact Nat.min_le_left _ _
  have hs : string bs = some s := by
    cases hs : string bs with
    | none =>
      rw [hs] at h
      cases h
    | some s' =>
      rw [hs] at h
      rw [(Prod.mk.inj (Option.some.inj h)).1]
  rw [Sendable, size_of_string hs]
  exact Nat.lt_of_le_of_lt hlen hlt

/-! ### Fields -/

def typeNumber : TType → Nat
  | .stop => 0
  | .bool => 2
  | .byte => 3
  | .double => 4
  | .i16 => 6
  | .i32 => 8
  | .i64 => 10
  | .string => 11
  | .struct => 12
  | .map => 13
  | .set => 14
  | .list => 15

def typeOf : Nat → Option TType
  | 0 => some .stop
  | 2 => some .bool
  | 3 => some .byte
  | 4 => some .double
  | 6 => some .i16
  | 8 => some .i32
  | 10 => some .i64
  | 11 => some .string
  | 12 => some .struct
  | 13 => some .map
  | 14 => some .set
  | 15 => some .list
  | _ => none

def readType : Reader UInt8 TType := do
  let n ← nat 1
  ofOption (typeOf n)

theorem takes_type (type : TType) : readType.Takes (natBytes 1 (typeNumber type)) type := by
  have hb : typeNumber type < bound 1 := by cases type <;> decide
  refine (takes_nat hb).bind_nil ?_
  cases type <;> exact takes_pure _

theorem local_type : Local readType := (local_nat 1).bind fun _ => local_ofOption _

def writeFieldBegin (type : TType) (id : Int16) : List UInt8 :=
  natBytes 1 (typeNumber type) ++ natBytes 2 id.toBitVec.toNat

def readFieldBegin : Reader UInt8 (TType × Int16) := do
  let type ← readType
  if type = .stop then pure (.stop, 0)
  else do
    let id ← nat 2
    pure (type, Int16.ofBitVec (BitVec.ofNat 16 id))

theorem takes_fieldBegin {type : TType} (h : type ≠ .stop) (id : Int16) :
    readFieldBegin.Takes (writeFieldBegin type id) (type, id) := by
  refine (takes_type type).bind ?_
  rw [if_neg h]
  have hi := (takes_nat (k := 2) (n := id.toBitVec.toNat) id.toBitVec.isLt).bind_pure
    (f := fun id => (type, Int16.ofBitVec (BitVec.ofNat 16 id)))
  rwa [BitVec.ofNat_toNat, BitVec.setWidth_eq, Int16.ofBitVec_toBitVec] at hi

theorem takes_fieldStop : readFieldBegin.Takes (natBytes 1 (typeNumber .stop)) (.stop, 0) := by
  refine (takes_type .stop).bind_nil ?_
  rw [if_pos rfl]
  exact takes_pure _

theorem local_fieldBegin : Local readFieldBegin :=
  local_type.bind fun _ => Local.ite (local_pure _) ((local_nat 2).bind fun _ => local_pure _)

/-! ### Skipping -/

/-- A field, or the end of a struct. -/
def next : Reader UInt8 (Option (TType × Int16)) := do
  let (type, id) ← readFieldBegin
  pure (if type = .stop then none else some (type, id))

/-- `skip` with so many levels left. -/
def skip : Nat → TType → Reader UInt8 Unit
  | 0, _ => failure
  | _ + 1, .stop => failure
  | _ + 1, .bool => do let _ ← items 1
  | _ + 1, .byte => do let _ ← items 1
  | _ + 1, .i16 => do let _ ← items 2
  | _ + 1, .i32 => do let _ ← items 4
  | _ + 1, .i64 => do let _ ← items 8
  | _ + 1, .double => do let _ ← items 8
  | _ + 1, .string => do let _ ← readText
  | n + 1, .struct => record next (fun t _ => skip n t.1) ()
  | n + 1, .map => do
    let key ← readType
    let value ← readType
    let count ← size
    repeated (do skip n key; skip n value) count
  | n + 1, .set => do
    let type ← readType
    let count ← size
    repeated (skip n type) count
  | n + 1, .list => do
    let type ← readType
    let count ← size
    repeated (skip n type) count

theorem local_next : Local next := local_fieldBegin.bind fun _ => local_pure _

theorem advances_next : Advances next := fun _ _ _ h => local_next.length_lt rfl h

theorem takes_next {type : TType} (h : type ≠ .stop) (id : Int16) :
    next.Takes (writeFieldBegin type id) (some (type, id)) := by
  refine (takes_fieldBegin h id).bind_nil ?_
  dsimp only
  rw [if_neg h]
  exact takes_pure _

theorem takes_next_stop : next.Takes (natBytes 1 (typeNumber .stop)) none :=
  takes_fieldStop.bind_pure (f := fun x : TType × Int16 => if x.1 = .stop then none else some (x.1, x.2))

theorem local_skip (n : Nat) (type : TType) : Local (skip n type) := by
  induction n generalizing type with
  | zero => exact local_failure
  | succ n ih =>
    cases type with
    | stop => exact local_failure
    | bool | byte | i16 | i32 | i64 | double => exact (local_items _).bind fun _ => local_pure _
    | string => exact local_text.bind fun _ => local_pure _
    | struct => exact local_record local_next advances_next (fun t _ => ih t.1) ()
    | map =>
      exact local_type.bind fun key => local_type.bind fun value => local_size.bind fun count =>
        local_repeated ((ih key).bind fun _ => ih value) count
    | set | list =>
      exact local_type.bind fun type => local_size.bind fun count => local_repeated (ih type) count

/-! ### Messages -/

def messageNumber : TMessageType → Nat
  | .call => 1
  | .reply => 2
  | .exception => 3
  | .oneway => 4

def messageOf : Nat → Option TMessageType
  | 1 => some .call
  | 2 => some .reply
  | 3 => some .exception
  | 4 => some .oneway
  | _ => none

/-- The version stands in the two highest bytes, the type in the lowest. -/
def writeMessageBegin (name : String) (type : TMessageType) (seqid : Int32) : Option (List UInt8) := do
  let name ← writeString name
  pure (natBytes 4 (2147549184 + messageNumber type) ++ (name ++ writeI32 seqid))

/-- A message without a version begins with the length of its name. -/
def readMessageBegin : Reader UInt8 (String × TMessageType × Int32) := do
  let n ← nat 4
  if n < 2147483648 then do
    let bs ← items n
    let name ← ofOption (string bs)
    let t ← nat 1
    let type ← ofOption (messageOf t)
    let seqid ← readI32
    pure (name, type, seqid)
  else if n / 65536 = 32769 then do
    let type ← ofOption (messageOf (n % 256))
    let name ← readString
    let seqid ← readI32
    pure (name, type, seqid)
  else failure

theorem takes_messageBegin {name : String} {type : TMessageType} {seqid : Int32} {w : List UInt8}
    (h : writeMessageBegin name type seqid = some w) : readMessageBegin.Takes w (name, type, seqid) := by
  obtain ⟨text, hn, h⟩ := Option.bind_eq_some_iff.1 h
  obtain rfl := Option.some.inj h
  have hb : 2147549184 + messageNumber type < bound 4 := by cases type <;> decide
  have hrest : Takes (do
      let name ← readString
      let seqid ← readI32
      pure (name, type, seqid)) (text ++ writeI32 seqid) (name, type, seqid) :=
    (takes_string hn).bind (takes_i32 seqid).bind_pure
  refine (takes_nat hb).bind ?_
  rw [if_neg (by omega)]
  cases type <;> exact hrest

theorem local_messageBegin : Local readMessageBegin := by
  refine (local_nat 4).bind fun n => Local.ite ?_ (Local.ite ?_ local_failure)
  · exact (local_items n).bind fun bs => (local_ofOption _).bind fun _ => (local_nat 1).bind fun _ =>
      (local_ofOption _).bind fun _ => local_i32.bind fun _ => local_pure _
  · exact (local_ofOption _).bind fun _ => local_string.bind fun _ => local_i32.bind fun _ => local_pure _

/-! ### Exceptions -/

def exceptionNumber : TApplicationExceptionType → Nat
  | .unknown => 0
  | .unknownMethod => 1
  | .missingResult => 5

def exceptionOf (n : Int32) : TApplicationExceptionType :=
  if n = 1 then .unknownMethod
  else if n = 5 then .missingResult
  else .unknown

def writeException (x : TApplicationException) : Option (List UInt8) := do
  let message ← writeString x.message
  pure (writeFieldBegin .string 1 ++ message ++
    (writeFieldBegin .i32 2 ++ writeI32 (Int32.ofNat (exceptionNumber x.type))) ++ natBytes 1 (typeNumber .stop))

def exceptionField (t : TType × Int16) (x : TApplicationException) : Reader UInt8 TApplicationException :=
  if t = (.string, 1) then do
    let message ← readString
    pure { x with message := message }
  else if t = (.i32, 2) then do
    let type ← readI32
    pure { x with type := exceptionOf type }
  else do
    skip 63 t.1
    pure x

def readException : Reader UInt8 TApplicationException := record next exceptionField { message := "" }

theorem takes_exception {x : TApplicationException} {w : List UInt8} (h : writeException x = some w) :
    readException.Takes w x := by
  obtain ⟨message, hm, h⟩ := Option.bind_eq_some_iff.1 h
  obtain rfl := Option.some.inj h
  let fs : List (Item (TType × Int16) TApplicationException UInt8) := [
    { tag := (.string, 1)
      head := writeFieldBegin .string 1
      body := message
      effect := fun y => { y with message := x.message } },
    { tag := (.i32, 2)
      head := writeFieldBegin .i32 2
      body := writeI32 (Int32.ofNat (exceptionNumber x.type))
      effect := fun y => { y with type := x.type } }]
  have hfs : ∀ i ∈ fs, i.Fits next exceptionField := by
    simp only [fs, List.forall_mem_cons]
    refine ⟨⟨takes_next (by decide) 1, fun y => ?_⟩, ⟨takes_next (by decide) 2, fun y => ?_⟩, by simp⟩
    · exact (takes_string hm).bind_pure (f := fun message => { y with message := message })
    · have ht := (takes_i32 (Int32.ofNat (exceptionNumber x.type))).bind_pure
        (f := fun type => { y with type := exceptionOf type })
      have he : exceptionOf (Int32.ofNat (exceptionNumber x.type)) = x.type := by cases x.type <;> rfl
      rwa [he] at ht
  have hread := takes_record_of_items advances_next hfs takes_next_stop { message := "" }
  simpa [fs, Item.text, readException] using hread

theorem local_exception : Local readException := by
  refine local_record local_next advances_next (fun t x => ?_) _
  exact Local.ite (local_string.bind fun _ => local_pure _) (Local.ite (local_i32.bind fun _ => local_pure _)
    ((local_skip 63 t.1).bind fun _ => local_pure _))

/-! ### The protocol -/

def protocol : TProtocol UInt8 where
  writeMessageBegin := writeMessageBegin
  writeMessageEnd := []
  writeStructBegin := fun _ => []
  writeStructEnd := []
  writeFieldBegin := fun _ type id => writeFieldBegin type id
  writeFieldEnd := []
  writeFieldStop := natBytes 1 (typeNumber .stop)
  writeI32 := writeI32
  writeString := writeString
  writeException := writeException
  readMessageBegin := readMessageBegin
  readMessageEnd := pure ()
  readStructBegin := pure ()
  readStructEnd := pure ()
  readFieldBegin := readFieldBegin
  readFieldEnd := pure ()
  readI32 := readI32
  readString := readString
  readException := readException
  skip := fun d => skip (recursionLimit - d)

private theorem skip_succ {d : Nat} (h : d < recursionLimit) (type : TType) :
    protocol.skip d type = skip (recursionLimit - (d + 1) + 1) type := by
  show skip (recursionLimit - d) type = _
  rw [show recursionLimit - (d + 1) + 1 = recursionLimit - d by omega]

theorem takes_skipStruct {d : Nat} (hd : d < recursionLimit) {fs : List (StructField UInt8)}
    (h : ∀ f ∈ fs, f.type ≠ .stop ∧ (protocol.skip (d + 1) f.type).Takes f.body ()) (name : String) :
    (protocol.skip d .struct).Takes (protocol.structText name fs) () := by
  let item : StructField UInt8 → Item (TType × Int16) Unit UInt8 := fun f =>
    { tag := (f.type, f.id)
      head := writeFieldBegin f.type f.id
      body := f.body
      effect := id }
  have hfits : ∀ i ∈ fs.map item, i.Fits next fun t _ => skip (recursionLimit - (d + 1)) t.1 := by
    intro i hi
    obtain ⟨f, hf, rfl⟩ := List.mem_map.1 hi
    obtain ⟨ht, hs⟩ := h f hf
    exact ⟨takes_next ht f.id, fun _ => hs⟩
  have hrecord := takes_record_of_items advances_next hfits takes_next_stop ()
  have htext : protocol.structText name fs =
      (fs.map item).flatMap Item.text ++ natBytes 1 (typeNumber .stop) := by
    have hitem : protocol.fieldText = fun f => (item f).text := funext fun f => List.append_nil _
    have hbegin : protocol.structText name fs = fs.flatMap protocol.fieldText ++ natBytes 1 (typeNumber .stop) :=
      List.append_nil _
    rw [hbegin, List.flatMap_map, hitem]
  rw [htext, skip_succ hd]
  exact hrecord

theorem roundTrips : protocol.RoundTrips where
  messageBegin := fun _ _ _ _ h => takes_messageBegin h
  messageEnd := takes_pure ()
  structBegin := fun _ => takes_pure ()
  structEnd := takes_pure ()
  fieldBegin := fun _ _ id h => takes_fieldBegin h id
  fieldEnd := takes_pure ()
  fieldStop := ⟨0, takes_fieldStop⟩
  i32 := takes_i32
  string := fun _ _ h => takes_string h
  exception := fun _ _ h => takes_exception h
  skipI32 := by
    intro d n hd
    rw [skip_succ hd]
    have h := takes_items (writeI32 n)
    rw [writeI32, length_natBytes] at h
    exact h.bind_pure (f := fun _ => ())
  skipString := by
    intro d s w hd h
    rw [skip_succ hd]
    exact (takes_text h).bind_pure (f := fun _ => ())
  skipStruct := fun _ name _ hd h => takes_skipStruct hd h name

theorem streams : protocol.Streams where
  messageBegin := local_messageBegin
  messageEnd := local_pure ()
  structBegin := local_pure ()
  structEnd := local_pure ()
  fieldBegin := local_fieldBegin
  fieldEnd := local_pure ()
  i32 := local_i32
  string := local_string
  exception := local_exception
  skip := fun _ type => local_skip _ type
  advances := fun _ _ _ _ h _ => local_fieldBegin.length_lt rfl h

private theorem isSome_writeString {s : String} (h : Sendable s) : (writeString s).isSome := by
  rw [writeString, if_pos h]
  rfl

theorem writes : protocol.Writes where
  messageBegin := by
    intro name type seqid h
    obtain ⟨w, hw⟩ := Option.isSome_iff_exists.1 (isSome_writeString h)
    show (writeMessageBegin name type seqid).isSome
    rw [writeMessageBegin, hw]
    rfl
  string := fun _ h => isSome_writeString h
  exception := by
    intro x h
    obtain ⟨w, hw⟩ := Option.isSome_iff_exists.1 (isSome_writeString h)
    show (writeException x).isSome
    rw [writeException, hw]
    rfl
  sendable := fun _ _ _ h => sendable_of_read h

/-- What is written is read back, readers read from the front, and only strings that are too long are refused. -/
theorem lawful : protocol.Lawful := ⟨roundTrips, streams, writes⟩

end Binary

end Thrift
