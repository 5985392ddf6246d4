import KVStore.Lib.Register
import KVStore.Store

/-!
# The events of the consistency test

`consistency_test` logs one record `events` for each request it sends.  `Shape` lists the forms a slot of its table
can have, and `latest` is the value that a key was last set to in a part of the table.
-/

namespace KVStore

namespace ConsistencyTest

def set : String := "[-set]"
def get : String := "[-get]"
def key1 : String := "[abc]"
def key2 : String := "[xzy]"
def value1 : String := "[123]"
def value2 : String := "[789]"

/-- `struct events`; the slots of a fresh table are value-initialised. -/
structure Events where
  threadId : Nat := 0
  sequenceNumber : Nat := 0
  operation : String := ""
  parameters : List String := []
  response : Result := {}
  deriving DecidableEq, Repr

namespace Events

variable (e : Events)

/-- A logged `kvset`. -/
def IsSet (k v : String) : Prop := e.operation = ConsistencyTest.set ∧ e.parameters = [k, v]

/-- A logged `kvget`. -/
def IsGet (k : String) : Prop := e.operation = ConsistencyTest.get ∧ e.parameters = [k]

/-- A `kvget` that was answered with `kKeyNotFound`. -/
def NotFound : Prop := e.operation = ConsistencyTest.get ∧ e.response.error = .kKeyNotFound

instance (k v : String) : Decidable (e.IsSet k v) := inferInstanceAs (Decidable (_ ∧ _))
instance (k : String) : Decidable (e.IsGet k) := inferInstanceAs (Decidable (_ ∧ _))
instance : Decidable e.NotFound := inferInstanceAs (Decidable (_ ∧ _))

/-- The event of a request. -/
inductive Logged : Prop
  | set (k v : String) : e.IsSet k v → Logged
  | get (k : String) : e.IsGet k → Logged

/-- A slot of the table: an event, or unfilled. -/
inductive Shape : Prop
  | logged : e.Logged → Shape
  | unfilled : e.operation = "" → Shape

/-- The value that the event sets `k` to. -/
def setOn (k : String) : Option String :=
  if e.operation = ConsistencyTest.set ∧ e.parameters[0]? = some k then e.parameters[1]? else none

variable {e}

theorem IsSet.setOn {k v : String} (h : e.IsSet k v) (k' : String) :
    e.setOn k' = if k = k' then some v else none := by
  simp [Events.setOn, h.1, h.2]

theorem setOn_of_ne (h : e.operation ≠ ConsistencyTest.set) (k : String) : e.setOn k = none := by
  simp [setOn, h]

theorem get_ne_set : ConsistencyTest.get ≠ ConsistencyTest.set := by decide

theorem IsGet.setOn {k : String} (h : e.IsGet k) (k' : String) : e.setOn k' = none :=
  setOn_of_ne (h.1 ▸ get_ne_set) k'

theorem IsGet.notFound_iff {k : String} (h : e.IsGet k) : e.NotFound ↔ e.response.error = .kKeyNotFound := by
  simp [NotFound, h.1]

end Events

/-- The value of the latest set on `k`. -/
def latest (k : String) (table : List Events) : Option String := Register.last (fun e => e.setOn k) table

end ConsistencyTest

end KVStore
