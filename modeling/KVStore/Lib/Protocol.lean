import KVStore.Lib.Reader

/-!
# The protocol layer of the RPC library

What generated code uses of a `TProtocol`: writers that give a text, or throw, and readers that take it back.
`TProtocol.Lawful` is what it relies on: a reader takes what its writer wrote, reads from the front only, and only
strings of 2³¹ bytes or more cannot be written.

A struct is a list of fields up to an end mark.  `readStruct` is the generated loop with its `switch` left open;
`takes_readStruct` says what it makes of fields in any order.  The library counts the levels of what is being read and
throws beyond `recursionLimit`, so `skip` is told how many there are around it.
-/

namespace Thrift

open Reader

inductive TType where
  | stop | bool | byte | double | i16 | i32 | i64 | string | struct | map | set | list
  deriving DecidableEq, Repr

inductive TMessageType where
  | call | reply | exception | oneway
  deriving DecidableEq, Repr

/-- The kinds of `TApplicationException` that generated code throws. -/
inductive TApplicationExceptionType where
  | unknown | unknownMethod | missingResult
  deriving DecidableEq, Repr

structure TApplicationException where
  message : String
  type : TApplicationExceptionType := .unknown
  deriving DecidableEq, Repr

/-- The default limit of a `TInputRecursionTracker`. -/
def recursionLimit : Nat := 64

/-- A protocol over a stream of `β`; a writer is `none` if it throws.  The strings that are read are text, and the types
of fields are those of `TType`; a reader fails on anything else. -/
structure TProtocol (β : Type) where
  writeMessageBegin : String → TMessageType → Int32 → Option (List β)
  writeMessageEnd : List β
  writeStructBegin : String → List β
  writeStructEnd : List β
  writeFieldBegin : String → TType → Int16 → List β
  writeFieldEnd : List β
  writeFieldStop : List β
  writeI32 : Int32 → List β
  writeString : String → Option (List β)
  /-- `TApplicationException::write` -/
  writeException : TApplicationException → Option (List β)
  readMessageBegin : Reader β (String × TMessageType × Int32)
  readMessageEnd : Reader β Unit
  readStructBegin : Reader β Unit
  readStructEnd : Reader β Unit
  /-- the type and the number of a field, or `stop` -/
  readFieldBegin : Reader β (TType × Int16)
  readFieldEnd : Reader β Unit
  readI32 : Reader β Int32
  readString : Reader β String
  /-- `TApplicationException::read` -/
  readException : Reader β TApplicationException
  /-- `skip` when so many levels are being read -/
  skip : Nat → TType → Reader β Unit

/-- A string that can be sent. -/
def Sendable (s : String) : Prop := s.utf8ByteSize < 2147483648

instance (s : String) : Decidable (Sendable s) := inferInstanceAs (Decidable (_ < _))

theorem Sendable.of_append_left {s t : String} (h : Sendable (s ++ t)) : Sendable s := by
  rw [Sendable, String.utf8ByteSize_append] at h
  exact Nat.lt_of_le_of_lt (Nat.le_add_right _ _) h

theorem Sendable.of_append_right {s t : String} (h : Sendable (s ++ t)) : Sendable t := by
  rw [Sendable, String.utf8ByteSize_append] at h
  exact Nat.lt_of_le_of_lt (Nat.le_add_left _ _) h

namespace TProtocol

variable {β : Type}

/-- A field as it is written. -/
structure StructField (β : Type) where
  name : String
  type : TType
  id : Int16
  body : List β

def fieldText (P : TProtocol β) (f : StructField β) : List β :=
  P.writeFieldBegin f.name f.type f.id ++ f.body ++ P.writeFieldEnd

/-- The text of a struct with these fields. -/
def structText (P : TProtocol β) (name : String) (fs : List (StructField β)) : List β :=
  P.writeStructBegin name ++ fs.flatMap P.fieldText ++ P.writeFieldStop ++ P.writeStructEnd

/-- Readers take what writers wrote. -/
structure RoundTrips (P : TProtocol β) : Prop where
  messageBegin : ∀ name type seqid w, P.writeMessageBegin name type seqid = some w →
    P.readMessageBegin.Takes w (name, type, seqid)
  messageEnd : P.readMessageEnd.Takes P.writeMessageEnd ()
  structBegin : ∀ name, P.readStructBegin.Takes (P.writeStructBegin name) ()
  structEnd : P.readStructEnd.Takes P.writeStructEnd ()
  fieldBegin : ∀ name type id, type ≠ .stop → P.readFieldBegin.Takes (P.writeFieldBegin name type id) (type, id)
  fieldEnd : P.readFieldEnd.Takes P.writeFieldEnd ()
  fieldStop : ∃ id, P.readFieldBegin.Takes P.writeFieldStop (.stop, id)
  i32 : ∀ n, P.readI32.Takes (P.writeI32 n) n
  string : ∀ s w, P.writeString s = some w → P.readString.Takes w s
  exception : ∀ x w, P.writeException x = some w → P.readException.Takes w x
  skipI32 : ∀ d n, d < recursionLimit → (P.skip d .i32).Takes (P.writeI32 n) ()
  skipString : ∀ d s w, d < recursionLimit → P.writeString s = some w → (P.skip d .string).Takes w ()
  skipStruct : ∀ d name fs, d < recursionLimit →
    (∀ f ∈ fs, f.type ≠ .stop ∧ (P.skip (d + 1) f.type).Takes f.body ()) →
    (P.skip d .struct).Takes (P.structText name fs) ()

/-- Readers read from the front of the stream. -/
structure Streams (P : TProtocol β) : Prop where
  messageBegin : Local P.readMessageBegin
  messageEnd : Local P.readMessageEnd
  structBegin : Local P.readStructBegin
  structEnd : Local P.readStructEnd
  fieldBegin : Local P.readFieldBegin
  fieldEnd : Local P.readFieldEnd
  i32 : Local P.readI32
  string : Local P.readString
  exception : Local P.readException
  skip : ∀ d type, Local (P.skip d type)
  /-- the beginning of a field takes something -/
  advances : ∀ s type id rest, P.readFieldBegin.read s = some ((type, id), rest) → type ≠ .stop →
    rest.length < s.length

/-- Nothing but a string that is too long makes a writer throw, and no such string is ever read. -/
structure Writes (P : TProtocol β) : Prop where
  messageBegin : ∀ name type seqid, Sendable name → (P.writeMessageBegin name type seqid).isSome
  string : ∀ s, Sendable s → (P.writeString s).isSome
  exception : ∀ x, Sendable x.message → (P.writeException x).isSome
  sendable : ∀ s a rest, P.readString.read s = some (a, rest) → Sendable a

structure Lawful (P : TProtocol β) : Prop where
  roundTrips : P.RoundTrips
  streams : P.Streams
  writes : P.Writes

/-! ### Structs -/

/-- `readFieldBegin`, and the test for `T_STOP`. -/
def nextField (P : TProtocol β) : Reader β (Option (TType × Int16)) := do
  let (ftype, fid) ← P.readFieldBegin
  pure (if ftype = .stop then none else some (ftype, fid))

/-- The generated `read` of a struct; `switch` is its `switch (fid)`. -/
def readStruct {σ : Type} (P : TProtocol β) (switch : TType → Int16 → σ → Reader β σ) (s : σ) : Reader β σ := do
  P.readStructBegin
  let s ← record P.nextField (fun t s => do
    let s ← switch t.1 t.2 s
    P.readFieldEnd
    pure s) s
  P.readStructEnd
  pure s

/-- The `default` of the `switch`, and of a case whose type does not match. -/
def skipField {σ : Type} (P : TProtocol β) (d : Nat) (ftype : TType) (s : σ) : Reader β σ := do
  P.skip d ftype
  pure s

/-- A case of the `switch`: a field of the type `type` is read, another one skipped. -/
def readCase {α σ : Type} (P : TProtocol β) (d : Nat) (type : TType) (reader : Reader β α) (set : α → σ)
    (ftype : TType) (s : σ) : Reader β σ :=
  if ftype = type then do
    let a ← reader
    pure (set a)
  else skipField P d ftype s

/-- A field, at the level `d`, that can be read as a value of its type, and skipped. -/
structure Valid (P : TProtocol β) (d : Nat) (f : StructField β) : Prop where
  type : f.type ≠ .stop
  string : f.type = .string → ∃ s, P.readString.Takes f.body s
  i32 : f.type = .i32 → ∃ n, P.readI32.Takes f.body n
  skips : (P.skip d f.type).Takes f.body ()

/-- The value of a field with this number and this type. -/
def fieldValue {α : Type} (type : TType) (reader : Reader β α) (id : Int16) (f : StructField β) : Option α :=
  if f.id = id ∧ f.type = type then (reader.read f.body).map Prod.fst else none

def stringField (P : TProtocol β) : Int16 → StructField β → Option String := fieldValue .string P.readString

def i32Field (P : TProtocol β) : Int16 → StructField β → Option Int32 := fieldValue .i32 P.readI32

variable {P : TProtocol β} {σ : Type} {switch : TType → Int16 → σ → Reader β σ} {d : Nat}

theorem takes_nextField (hP : P.Lawful) (name : String) {type : TType} (h : type ≠ .stop) (id : Int16) :
    P.nextField.Takes (P.writeFieldBegin name type id) (some (type, id)) := by
  have h1 := (hP.roundTrips.fieldBegin name type id h).bind_pure
    (f := fun x : TType × Int16 => if x.1 = .stop then none else some (x.1, x.2))
  rwa [if_neg h] at h1

theorem takes_nextField_stop (hP : P.Lawful) : P.nextField.Takes P.writeFieldStop none := by
  obtain ⟨id, h⟩ := hP.roundTrips.fieldStop
  exact h.bind_pure (f := fun x : TType × Int16 => if x.1 = .stop then none else some (x.1, x.2))

theorem local_nextField (hP : P.Lawful) : Local P.nextField :=
  hP.streams.fieldBegin.bind fun _ => local_pure _

theorem advances_nextField (hP : P.Lawful) : Advances P.nextField := by
  intro s t rest h
  obtain ⟨⟨type, id⟩, rest', hr, h⟩ := read_bind_eq_some.1 h
  obtain ⟨ht, rfl⟩ := Prod.mk.inj (Option.some.inj h)
  exact hP.streams.advances s type id rest' hr (Option.ite_none_left_eq_some.1 ht).1

/-- A struct is read as the fold of the effects of its fields. -/
theorem takes_readStruct (hP : P.Lawful) {fs : List (StructField β)} (effect : StructField β → σ → σ)
    (h : ∀ f ∈ fs, f.type ≠ .stop ∧ ∀ s, (switch f.type f.id s).Takes f.body (effect f s)) (name : String) (s : σ) :
    (P.readStruct switch s).Takes (P.structText name fs) (fs.foldl (fun s f => effect f s) s) := by
  let item : StructField β → Item (TType × Int16) σ β := fun f =>
    { tag := (f.type, f.id)
      head := P.writeFieldBegin f.name f.type f.id
      body := f.body ++ P.writeFieldEnd
      effect := effect f }
  have hfits : ∀ i ∈ fs.map item, i.Fits P.nextField (fun t s => do
      let s ← switch t.1 t.2 s
      P.readFieldEnd
      pure s) := by
    intro i hi
    obtain ⟨f, hf, rfl⟩ := List.mem_map.1 hi
    obtain ⟨ht, hs⟩ := h f hf
    exact ⟨takes_nextField hP f.name ht f.id, fun s => (hs s).bind hP.roundTrips.fieldEnd.bind_pure⟩
  have hrecord := takes_record_of_items (advances_nextField hP) hfits (takes_nextField_stop hP) s
  have htext : P.structText name fs = P.writeStructBegin name ++
      (((fs.map item).flatMap Item.text ++ P.writeFieldStop) ++ P.writeStructEnd) := by
    have hitem : ∀ f, (item f).text = P.fieldText f := fun f => by
      simp only [Item.text, item, fieldText, List.append_assoc]
    simp only [structText, List.flatMap_map, hitem, List.append_assoc]
  have hfold : fs.foldl (fun s f => effect f s) s = (fs.map item).foldl (fun s i => i.effect s) s := by
    rw [List.foldl_map]
  rw [htext, hfold]
  refine Takes.bind (hP.roundTrips.structBegin name) (Takes.bind hrecord ?_)
  exact hP.roundTrips.structEnd.bind_pure

theorem fieldValue_of_ne {α : Type} {type : TType} {reader : Reader β α} {id : Int16} {f : StructField β}
    (h : f.id ≠ id) : fieldValue type reader id f = none := if_neg fun h' => h h'.1

theorem takes_skipField {f : StructField β} (hf : P.Valid d f) (s : σ) :
    (P.skipField d f.type s).Takes f.body s := hf.skips.bind_pure (f := fun _ => s)

/-- A case sets its component to the value of the field, if the field has one. -/
theorem takes_readCase {α : Type} {type : TType} {reader : Reader β α} {f : StructField β} (hf : P.Valid d f)
    (hv : f.type = type → ∃ a, reader.Takes f.body a) (set : α → σ) (old : α) :
    (P.readCase d type reader set f.type (set old)).Takes f.body (set ((fieldValue type reader f.id f).getD old)) := by
  unfold readCase fieldValue
  by_cases ht : f.type = type
  · obtain ⟨a, ha⟩ := hv ht
    rw [if_pos ht, if_pos ⟨rfl, ht⟩, ha.read_self]
    exact ha.bind_pure
  · rw [if_neg ht, if_neg fun h => ht h.2, Option.getD_none]
    exact takes_skipField hf (set old)

theorem local_skipField (hP : P.Lawful) (ftype : TType) (s : σ) : Local (P.skipField d ftype s) :=
  (hP.streams.skip d ftype).bind fun _ => local_pure s

theorem local_readCase (hP : P.Lawful) {α : Type} {type : TType} {reader : Reader β α} (hr : Local reader) (set : α → σ)
    (ftype : TType) (s : σ) : Local (P.readCase d type reader set ftype s) :=
  Local.ite (hr.bind fun _ => local_pure _) (local_skipField hP ftype s)

theorem valid_string (hP : P.Lawful) (hd : d < recursionLimit) {s : String} {w : List β}
    (h : P.writeString s = some w) (name : String) (id : Int16) : P.Valid d ⟨name, .string, id, w⟩ where
  type := by simp
  string := fun _ => ⟨s, hP.roundTrips.string s w h⟩
  i32 := fun h => by cases h
  skips := hP.roundTrips.skipString d s w hd h

theorem valid_i32 (hP : P.Lawful) (hd : d < recursionLimit) (n : Int32) (name : String) (id : Int16) :
    P.Valid d ⟨name, .i32, id, P.writeI32 n⟩ where
  type := by simp
  string := fun h => by cases h
  i32 := fun _ => ⟨n, hP.roundTrips.i32 n⟩
  skips := hP.roundTrips.skipI32 d n hd

theorem local_readStruct (hP : P.Lawful) (h : ∀ ftype fid s, Local (switch ftype fid s)) (s : σ) :
    Local (P.readStruct switch s) := by
  refine hP.streams.structBegin.bind fun _ => Local.bind ?_ fun s => hP.streams.structEnd.bind fun _ => local_pure s
  exact local_record (local_nextField hP) (advances_nextField hP)
    (fun t s => (h t.1 t.2 s).bind fun s => hP.streams.fieldEnd.bind fun _ => local_pure s) s

end TProtocol

end Thrift
