import KVStore.Lib.Protocol
import KVStore.Lib.Register
import KVStore.Store

/-!
# The structs on the wire

The generated `read` and `write` of `Result` and of the structs that carry the arguments and the result of a call, over
any protocol.  A struct is read field by field: a field counts if it has a known number and the type that goes with
it, the last one of a number wins, what is absent keeps its value, and everything else is skipped.  So a reader takes
back what was written, and accepts the structs of other versions of the service.  `d` is the number of levels that are
being read, the struct included.
-/

namespace KVStore

open Thrift Reader TProtocol

variable {β : Type} (P : TProtocol β)

/-! ### `Result` -/

/-- `Result` as it is read: the number of `error` need not be that of an enumerator. -/
structure WireResult where
  value : String := ""
  error : Int32 := 0
  errortext : String := ""
  deriving DecidableEq, Repr

def Result.wire (r : Result) : WireResult := ⟨r.value, Int32.ofNat r.error.toNat, r.errortext⟩

/-- A `Result` that has been read, if the number of its `error` is that of an enumerator. -/
def WireResult.result (w : WireResult) : Option Result :=
  ([ErrorCode.kSuccess, .kKeyNotFound, .kError].find? fun e => Int32.ofNat e.toNat = w.error).map fun e =>
    { value := w.value, error := e, errortext := w.errortext }

theorem WireResult.result_wire (r : Result) : r.wire.result = some r := by
  obtain ⟨value, error, errortext⟩ := r
  cases error <;> rfl

/-- `Result::write` -/
def Result.write (r : Result) : Option (List β) := do
  let value ← P.writeString r.value
  let errortext ← P.writeString r.errortext
  pure (P.writeStructBegin "Result" ++
    P.writeFieldBegin "value" .string 1 ++ value ++ P.writeFieldEnd ++
    P.writeFieldBegin "error" .i32 2 ++ P.writeI32 (Int32.ofNat r.error.toNat) ++ P.writeFieldEnd ++
    P.writeFieldBegin "errortext" .string 3 ++ errortext ++ P.writeFieldEnd ++
    P.writeFieldStop ++ P.writeStructEnd)

namespace WireResult

def switch (d : Nat) (ftype : TType) (fid : Int16) (r : WireResult) : Reader β WireResult :=
  if fid = 1 then P.readCase d .string P.readString (fun value => { r with value := value }) ftype r
  else if fid = 2 then P.readCase d .i32 P.readI32 (fun error => { r with error := error }) ftype r
  else if fid = 3 then P.readCase d .string P.readString (fun errortext => { r with errortext := errortext }) ftype r
  else P.skipField d ftype r

/-- `Result::read`, into the `Result` that is there. -/
def read (d : Nat) (r : WireResult) : Reader β WireResult := P.readStruct (switch P d) r

/-- What a field does to a `Result`. -/
def update (f : StructField β) (r : WireResult) : WireResult where
  value := (P.stringField 1 f).getD r.value
  error := (P.i32Field 2 f).getD r.error
  errortext := (P.stringField 3 f).getD r.errortext

end WireResult

/-! ### The arguments -/

structure KvsetArgs where
  key : String := ""
  value : String := ""
  deriving DecidableEq, Repr

namespace KvsetArgs

/-- `KVStore_kvset_pargs::write` -/
def write (a : KvsetArgs) : Option (List β) := do
  let key ← P.writeString a.key
  let value ← P.writeString a.value
  pure (P.writeStructBegin "KVStore_kvset_pargs" ++
    P.writeFieldBegin "key" .string 1 ++ key ++ P.writeFieldEnd ++
    P.writeFieldBegin "value" .string 2 ++ value ++ P.writeFieldEnd ++
    P.writeFieldStop ++ P.writeStructEnd)

def switch (ftype : TType) (fid : Int16) (a : KvsetArgs) : Reader β KvsetArgs :=
  if fid = 1 then P.readCase 1 .string P.readString (fun key => { a with key := key }) ftype a
  else if fid = 2 then P.readCase 1 .string P.readString (fun value => { a with value := value }) ftype a
  else P.skipField 1 ftype a

/-- `KVStore_kvset_args::read` -/
def read : Reader β KvsetArgs := P.readStruct (switch P) {}

def update (f : StructField β) (a : KvsetArgs) : KvsetArgs where
  key := (P.stringField 1 f).getD a.key
  value := (P.stringField 2 f).getD a.value

end KvsetArgs

/-- The arguments of `kvget` and of `kvdelete`. -/
structure KeyArgs where
  key : String := ""
  deriving DecidableEq, Repr

namespace KeyArgs

def write (name : String) (a : KeyArgs) : Option (List β) := do
  let key ← P.writeString a.key
  pure (P.writeStructBegin name ++
    P.writeFieldBegin "key" .string 1 ++ key ++ P.writeFieldEnd ++
    P.writeFieldStop ++ P.writeStructEnd)

def switch (ftype : TType) (fid : Int16) (a : KeyArgs) : Reader β KeyArgs :=
  if fid = 1 then P.readCase 1 .string P.readString (fun key => { a with key := key }) ftype a
  else P.skipField 1 ftype a

def read : Reader β KeyArgs := P.readStruct (switch P) {}

def update (f : StructField β) (a : KeyArgs) : KeyArgs where
  key := (P.stringField 1 f).getD a.key

end KeyArgs

def KvgetArgs.read : Reader β KeyArgs := KeyArgs.read P

def KvdeleteArgs.read : Reader β KeyArgs := KeyArgs.read P

/-- `KVStore_kvget_pargs::write` -/
def KvgetArgs.write (a : KeyArgs) : Option (List β) := a.write P "KVStore_kvget_pargs"

/-- `KVStore_kvdelete_pargs::write` -/
def KvdeleteArgs.write (a : KeyArgs) : Option (List β) := a.write P "KVStore_kvdelete_pargs"

/-! ### The result of a call -/

/-- The `presult` of a client: the `Result` that the caller gave, and whether it has been set. -/
structure CallResult where
  success : WireResult
  isset : Bool := false
  deriving DecidableEq, Repr

namespace CallResult

/-- The `write` of a `result` whose `success` is set; `name` is `KVStore_kvset_result` and so on. -/
def write (name : String) (success : Result) : Option (List β) := do
  let success ← success.write P
  pure (P.writeStructBegin name ++
    P.writeFieldBegin "success" .struct 0 ++ success ++ P.writeFieldEnd ++
    P.writeFieldStop ++ P.writeStructEnd)

def switch (ftype : TType) (fid : Int16) (r : CallResult) : Reader β CallResult :=
  if fid = 0 then
    P.readCase 1 .struct (r.success.read P 2) (fun success => { success := success, isset := true }) ftype r
  else P.skipField 1 ftype r

/-- The `read` of a `presult`. -/
def read (success : WireResult) : Reader β CallResult := P.readStruct (switch P) { success := success }

end CallResult

/-! ### Any fields, in any order -/

section Read

variable {P}

theorem WireResult.takes_switch {d : Nat} {f : StructField β} (hf : P.Valid d f) (r : WireResult) :
    (switch P d f.type f.id r).Takes f.body (update P f r) := by
  have hnone : ∀ id, f.id ≠ id → P.stringField id f = none ∧ P.i32Field id f = none :=
    fun id h => ⟨fieldValue_of_ne h, fieldValue_of_ne h⟩
  unfold switch update
  by_cases h1 : f.id = 1
  · rw [if_pos h1, (hnone 2 (by rw [h1]; decide)).2, (hnone 3 (by rw [h1]; decide)).1]
    have h := takes_readCase hf hf.string (fun value => { r with value := value }) r.value
    rwa [h1] at h
  by_cases h2 : f.id = 2
  · rw [if_neg h1, if_pos h2, (hnone 1 h1).1, (hnone 3 (by rw [h2]; decide)).1]
    have h := takes_readCase hf hf.i32 (fun error => { r with error := error }) r.error
    rwa [h2] at h
  by_cases h3 : f.id = 3
  · rw [if_neg h1, if_neg h2, if_pos h3, (hnone 1 h1).1, (hnone 2 h2).2]
    have h := takes_readCase hf hf.string (fun errortext => { r with errortext := errortext }) r.errortext
    rwa [h3] at h
  · rw [if_neg h1, if_neg h2, if_neg h3, (hnone 1 h1).1, (hnone 2 h2).2, (hnone 3 h3).1]
    exact takes_skipField hf r

/-- Each component is that of the last field for it, or what it was. -/
theorem WireResult.takes_read (hP : P.Lawful) {d : Nat} {fs : List (StructField β)} (h : ∀ f ∈ fs, P.Valid d f)
    (name : String) (r : WireResult) : (r.read P d).Takes (P.structText name fs)
      { value := (Register.last (P.stringField 1) fs).getD r.value
        error := (Register.last (P.i32Field 2) fs).getD r.error
        errortext := (Register.last (P.stringField 3) fs).getD r.errortext } := by
  have hfold := takes_readStruct hP (update P)
    (fun f hf => ⟨(h f hf).type, fun s => takes_switch (h f hf) s⟩) name r
  have hview : fs.foldl (fun r f => update P f r) r =
      { value := (Register.last (P.stringField 1) fs).getD r.value
        error := (Register.last (P.i32Field 2) fs).getD r.error
        errortext := (Register.last (P.stringField 3) fs).getD r.errortext } := by
    rw [← Register.foldl_view (fun r f => update P f r) WireResult.value _ fun _ _ => rfl,
      ← Register.foldl_view (fun r f => update P f r) WireResult.error _ fun _ _ => rfl,
      ← Register.foldl_view (fun r f => update P f r) WireResult.errortext _ fun _ _ => rfl]
  rw [hview] at hfold
  exact hfold

theorem KvsetArgs.takes_switch {f : StructField β} (hf : P.Valid 1 f) (a : KvsetArgs) :
    (switch P f.type f.id a).Takes f.body (update P f a) := by
  have hnone : ∀ id, f.id ≠ id → P.stringField id f = none := fun id h => fieldValue_of_ne h
  unfold switch update
  by_cases h1 : f.id = 1
  · rw [if_pos h1, hnone 2 (by rw [h1]; decide)]
    have h := takes_readCase hf hf.string (fun key => { a with key := key }) a.key
    rwa [h1] at h
  by_cases h2 : f.id = 2
  · rw [if_neg h1, if_pos h2, hnone 1 h1]
    have h := takes_readCase hf hf.string (fun value => { a with value := value }) a.value
    rwa [h2] at h
  · rw [if_neg h1, if_neg h2, hnone 1 h1, hnone 2 h2]
    exact takes_skipField hf a

theorem KvsetArgs.takes_read (hP : P.Lawful) {fs : List (StructField β)} (h : ∀ f ∈ fs, P.Valid 1 f) (name : String) :
    (read P).Takes (P.structText name fs)
      { key := (Register.last (P.stringField 1) fs).getD ""
        value := (Register.last (P.stringField 2) fs).getD "" } := by
  have hfold := takes_readStruct hP (update P)
    (fun f hf => ⟨(h f hf).type, fun s => takes_switch (h f hf) s⟩) name {}
  have hview : fs.foldl (fun a f => update P f a) {} =
      { key := (Register.last (P.stringField 1) fs).getD ""
        value := (Register.last (P.stringField 2) fs).getD "" } := by
    rw [← Register.foldl_view (fun a f => update P f a) KvsetArgs.key _ (fun _ _ => rfl) {},
      ← Register.foldl_view (fun a f => update P f a) KvsetArgs.value _ (fun _ _ => rfl) {}]
  rw [hview] at hfold
  exact hfold

theorem KeyArgs.takes_switch {f : StructField β} (hf : P.Valid 1 f) (a : KeyArgs) :
    (switch P f.type f.id a).Takes f.body (update P f a) := by
  unfold switch update
  by_cases h1 : f.id = 1
  · rw [if_pos h1]
    have h := takes_readCase hf hf.string (fun key => { a with key := key }) a.key
    rwa [h1] at h
  · rw [if_neg h1, show P.stringField 1 f = none from fieldValue_of_ne h1]
    exact takes_skipField hf a

theorem KeyArgs.takes_read (hP : P.Lawful) {fs : List (StructField β)} (h : ∀ f ∈ fs, P.Valid 1 f) (name : String) :
    (read P).Takes (P.structText name fs) { key := (Register.last (P.stringField 1) fs).getD "" } := by
  have hfold := takes_readStruct hP (update P)
    (fun f hf => ⟨(h f hf).type, fun s => takes_switch (h f hf) s⟩) name {}
  have hview : fs.foldl (fun a f => update P f a) {} =
      { key := (Register.last (P.stringField 1) fs).getD "" } := by
    rw [← Register.foldl_view (fun a f => update P f a) KeyArgs.key _ (fun _ _ => rfl) {}]
  rw [hview] at hfold
  exact hfold

end Read

/-! ### What was written -/

section RoundTrip

variable {P} (hP : P.Lawful)
include hP

/-- A `Result` is read back as it is, into whatever `Result` is there. -/
theorem takes_result {d : Nat} (hd : d < recursionLimit) {r : Result} {w : List β} (h : r.write P = some w)
    (old : WireResult) : (old.read P d).Takes w r.wire := by
  obtain ⟨value, hv, h⟩ := Option.bind_eq_some_iff.1 h
  obtain ⟨errortext, ht, h⟩ := Option.bind_eq_some_iff.1 h
  obtain rfl := Option.some.inj h
  have hvr := (hP.roundTrips.string _ _ hv).read_self
  have her := (hP.roundTrips.i32 (Int32.ofNat r.error.toNat)).read_self
  have htr := (hP.roundTrips.string _ _ ht).read_self
  let fs : List (StructField β) := [⟨"value", .string, 1, value⟩,
    ⟨"error", .i32, 2, P.writeI32 (Int32.ofNat r.error.toNat)⟩, ⟨"errortext", .string, 3, errortext⟩]
  have hfs : ∀ f ∈ fs, P.Valid d f := by
    simp only [fs, List.forall_mem_cons]
    exact ⟨valid_string hP hd hv _ _, valid_i32 hP hd _ _ _, valid_string hP hd ht _ _, by simp⟩
  have hvalue : Register.last (P.stringField 1) fs = some r.value := by
    simp [fs, Register.last, stringField, fieldValue, hvr]
  have herror : Register.last (P.i32Field 2) fs = some (Int32.ofNat r.error.toNat) := by
    simp [fs, Register.last, i32Field, fieldValue, her]
  have hetext : Register.last (P.stringField 3) fs = some r.errortext := by
    simp [fs, Register.last, stringField, fieldValue, htr]
  have hread := WireResult.takes_read hP hfs "Result" old
  rw [hvalue, herror, hetext] at hread
  simpa [fs, structText, fieldText, Result.wire] using hread

theorem takes_kvsetArgs {a : KvsetArgs} {w : List β} (h : a.write P = some w) : (KvsetArgs.read P).Takes w a := by
  obtain ⟨key, hk, h⟩ := Option.bind_eq_some_iff.1 h
  obtain ⟨value, hv, h⟩ := Option.bind_eq_some_iff.1 h
  obtain rfl := Option.some.inj h
  have hkr := (hP.roundTrips.string _ _ hk).read_self
  have hvr := (hP.roundTrips.string _ _ hv).read_self
  let fs : List (StructField β) := [⟨"key", .string, 1, key⟩, ⟨"value", .string, 2, value⟩]
  have hfs : ∀ f ∈ fs, P.Valid 1 f := by
    simp only [fs, List.forall_mem_cons]
    exact ⟨valid_string hP (by decide) hk _ _, valid_string hP (by decide) hv _ _, by simp⟩
  have hkey : Register.last (P.stringField 1) fs = some a.key := by
    simp [fs, Register.last, stringField, fieldValue, hkr]
  have hvalue : Register.last (P.stringField 2) fs = some a.value := by
    simp [fs, Register.last, stringField, fieldValue, hvr]
  have hread := KvsetArgs.takes_read hP hfs "KVStore_kvset_pargs"
  rw [hkey, hvalue] at hread
  simpa [fs, structText, fieldText] using hread

theorem takes_keyArgs {name : String} {a : KeyArgs} {w : List β} (h : a.write P name = some w) :
    (KeyArgs.read P).Takes w a := by
  obtain ⟨key, hk, h⟩ := Option.bind_eq_some_iff.1 h
  obtain rfl := Option.some.inj h
  have hkr := (hP.roundTrips.string _ _ hk).read_self
  let fs : List (StructField β) := [⟨"key", .string, 1, key⟩]
  have hfs : ∀ f ∈ fs, P.Valid 1 f := by
    simp only [fs, List.forall_mem_cons]
    exact ⟨valid_string hP (by decide) hk _ _, by simp⟩
  have hkey : Register.last (P.stringField 1) fs = some a.key := by
    simp [fs, Register.last, stringField, fieldValue, hkr]
  have hread := KeyArgs.takes_read hP hfs name
  rw [hkey] at hread
  simpa [fs, structText, fieldText] using hread

/-- The client gets the `Result` of the server, and nothing of the one it gave. -/
theorem takes_callResult {name : String} {r : Result} {w : List β} (h : CallResult.write P name r = some w)
    (old : WireResult) : (CallResult.read P old).Takes w { success := r.wire, isset := true } := by
  obtain ⟨success, hs, h⟩ := Option.bind_eq_some_iff.1 h
  obtain rfl := Option.some.inj h
  let f : StructField β := ⟨"success", .struct, 0, success⟩
  have hswitch : ∀ c, (CallResult.switch P f.type f.id c).Takes f.body { success := r.wire, isset := true } := by
    intro c
    unfold CallResult.switch readCase
    rw [if_pos rfl, if_pos rfl]
    exact (takes_result hP (by decide) hs c.success).bind_pure
  have hfs : ∀ g ∈ [f], g.type ≠ .stop ∧
      ∀ c, (CallResult.switch P g.type g.id c).Takes g.body { success := r.wire, isset := true } := by
    intro g hg
    obtain rfl := List.mem_singleton.1 hg
    exact ⟨TType.noConfusion, hswitch⟩
  have hread := takes_readStruct hP (fun _ _ => CallResult.mk r.wire true) hfs name (CallResult.mk old false)
  simpa [f, structText, fieldText, CallResult.read] using hread

end RoundTrip

/-! ### Readers read from the front -/

section Local

variable {P} (hP : P.Lawful)
include hP

theorem WireResult.local_read (d : Nat) (r : WireResult) : Local (r.read P d) := by
  refine local_readStruct hP (fun ftype fid r => ?_) r
  unfold switch
  exact Local.ite (local_readCase hP hP.streams.string _ _ _) (Local.ite (local_readCase hP hP.streams.i32 _ _ _)
    (Local.ite (local_readCase hP hP.streams.string _ _ _) (local_skipField hP ftype r)))

theorem KvsetArgs.local_read : Local (read P) := by
  refine local_readStruct hP (fun ftype fid a => ?_) _
  unfold switch
  exact Local.ite (local_readCase hP hP.streams.string _ _ _)
    (Local.ite (local_readCase hP hP.streams.string _ _ _) (local_skipField hP ftype a))

theorem KeyArgs.local_read : Local (read P) := by
  refine local_readStruct hP (fun ftype fid a => ?_) _
  unfold switch
  exact Local.ite (local_readCase hP hP.streams.string _ _ _) (local_skipField hP ftype a)

theorem CallResult.local_read (success : WireResult) : Local (read P success) := by
  refine local_readStruct hP (fun ftype fid r => ?_) _
  unfold switch
  exact Local.ite (local_readCase hP (WireResult.local_read hP 2 r.success) _ _ _) (local_skipField hP ftype r)

end Local

end KVStore
