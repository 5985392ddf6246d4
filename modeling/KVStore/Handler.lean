import KVStore.Lib.Throws
import KVStore.Store
import Mathlib.Data.List.Basic

/-!
# The handlers of `kvserver` and `kvserver_consistent`, and the processor

The handlers run in a monad with the server's memory and exceptions; memory written before an exception stays
written.  The exceptions come from a `Faults` value: it says which of the operations that may allocate throw when
they are reached.  The two programs have the same bodies; `kvserver_consistent` takes `lck` around those of `kvset`
and `kvget`, not around that of `kvdelete`.
-/

namespace KVStore

/-- The operations of a handler that throw when reached. -/
structure Faults where
  /-- creating an entry in `operator[]` -/
  create : Bool := false
  /-- assigning the value string to the entry -/
  assign : Bool := false
  /-- copying the entry into `_return.value` -/
  copy : Bool := false
  /-- assigning `_return.errortext` -/
  errortext : Bool := false
  deriving DecidableEq, Repr

/-- A request as the server meets it: what is asked and what will throw. -/
structure Call where
  request : Request
  faults : Faults := {}
  deriving DecidableEq, Repr

/-- The globals of the server.  `kvserver` has no `lck`: its handlers do not touch the field. -/
structure Server where
  sharedKvstore : Store := Store.empty
  lck : Bool := false

/-- The memory of one handler call: the globals and the out parameter `_return`. -/
structure Memory extends Server where
  ret : Result := {}

/-- Why a handler does not run to its end: an exception, or `lck.lock()` that never returns. -/
inductive Stop where
  | thrown | blocked
  deriving DecidableEq, Repr

abbrev Handler := Throws Stop Memory

namespace Handler

def throwIf (b : Bool) : Handler Unit := if b then throw .thrown else pure ()

/-- `shared_kvstore[key]` -/
def locate (f : Faults) (key : String) : Handler Unit := do
  let m ← get
  throwIf (f.create && (m.sharedKvstore key).isNone)
  set { m with sharedKvstore := m.sharedKvstore.locate key }

/-- `(the entry of key) = value` -/
def assign (f : Faults) (key value : String) : Handler Unit := do
  throwIf f.assign
  modify fun m => { m with sharedKvstore := m.sharedKvstore.assign key value }

/-- `_return.value = (the entry of key)` -/
def copy (f : Faults) (key : String) : Handler Unit := do
  throwIf f.copy
  modify fun m => { m with ret.value := m.sharedKvstore.value key }

def erase (key : String) : Handler Unit :=
  modify fun m => { m with sharedKvstore := m.sharedKvstore.erase key }

def setError (error : ErrorCode) : Handler Unit := modify fun m => { m with ret.error := error }

def setErrortext (f : Faults) (text : String) : Handler Unit := do
  throwIf f.errortext
  modify fun m => { m with ret.errortext := text }

/-- `lck.lock()` -/
def lock : Handler Unit := do
  let m ← get
  if m.lck then throw .blocked else set { m with lck := true }

/-- `lck.unlock()` -/
def unlock : Handler Unit := modify fun m => { m with lck := false }

/-- The `try`/`catch` of `kvset`. -/
def setBody (f : Faults) (key value : String) : Handler Unit :=
  tryCatch
    (do locate f key
        assign f key value
        setError .kSuccess)
    fun _ => do
      setError .kError
      setErrortext f "Server could not store value"

/-- The `try`/`catch` of `kvget`. -/
def getBody (f : Faults) (key : String) : Handler Unit :=
  tryCatch
    (do locate f key
        copy f key
        if (← get).ret.value ≠ "" then setError .kSuccess else setError .kKeyNotFound)
    fun _ => setError .kKeyNotFound

/-- The `try`/`catch` of `kvdelete`; the count that `erase` returns is dropped. -/
def deleteBody (key : String) : Handler Unit :=
  tryCatch
    (do erase key
        setError .kSuccess)
    fun _ => setError .kKeyNotFound

end Handler

open Handler

namespace Kvserver

def kvset (f : Faults) (key value : String) : Handler Unit := setBody f key value
def kvget (f : Faults) (key : String) : Handler Unit := getBody f key
def kvdelete (key : String) : Handler Unit := deleteBody key

end Kvserver

namespace KvserverConsistent

def kvset (f : Faults) (key value : String) : Handler Unit := do
  lock
  setBody f key value
  unlock

def kvget (f : Faults) (key : String) : Handler Unit := do
  lock
  getBody f key
  unlock

def kvdelete (key : String) : Handler Unit := deleteBody key

end KvserverConsistent

/-- The two server programs. -/
inductive Program where
  | kvserver | kvserverConsistent
  deriving DecidableEq, Repr

/-- The handler a program runs for a request. -/
def Program.handler : Program → Faults → Request → Handler Unit
  | .kvserver, f, .kvset key value => Kvserver.kvset f key value
  | .kvserver, f, .kvget key => Kvserver.kvget f key
  | .kvserver, _, .kvdelete key => Kvserver.kvdelete key
  | .kvserverConsistent, f, .kvset key value => KvserverConsistent.kvset f key value
  | .kvserverConsistent, f, .kvget key => KvserverConsistent.kvget f key
  | .kvserverConsistent, _, .kvdelete key => KvserverConsistent.kvdelete key

/-- What the client gets: a `T_REPLY`, a `T_EXCEPTION` message, or nothing at all. -/
inductive Reply where
  | reply (r : Result)
  | exception
  | hang
  deriving DecidableEq, Repr

/-- `process_kvset`, `process_kvget`, `process_kvdelete`: the handler runs on a fresh `Result`; what it throws
becomes an error message. -/
def process (h : Handler Unit) (s : Server) : Reply × Server :=
  match h.exec { s with } with
  | (.ok (), m) => (.reply m.ret, m.toServer)
  | (.error .thrown, m) => (.exception, m.toServer)
  | (.error .blocked, m) => (.hang, m.toServer)

def Program.handle (p : Program) (s : Server) (c : Call) : Reply × Server :=
  process (p.handler c.faults c.request) s

/-- The server after a sequence of calls. -/
def Program.after (p : Program) (s : Server) (calls : List Call) : Server :=
  calls.foldl (fun s c => (p.handle s c).2) s

/-- The replies to a sequence of calls. -/
def Program.replies (p : Program) : Server → List Call → List Reply
  | _, [] => []
  | s, c :: calls => (p.handle s c).1 :: p.replies (p.handle s c).2 calls

theorem Program.replies_append (p : Program) (s : Server) (xs ys : List Call) :
    p.replies s (xs ++ ys) = p.replies s xs ++ p.replies (p.after s xs) ys := by
  induction xs generalizing s with
  | nil => rfl
  | cons c xs ih => simp only [List.cons_append, replies, ih]; rfl

theorem Program.length_replies (p : Program) (s : Server) (xs : List Call) :
    (p.replies s xs).length = xs.length := by
  induction xs generalizing s with
  | nil => rfl
  | cons c xs ih => simp only [replies, List.length_cons, ih]

/-- The reply to one call of a sequence depends on the calls before it only. -/
theorem Program.getElem?_replies (p : Program) (s : Server) (pre post : List Call) (c : Call) :
    (p.replies s (pre ++ c :: post))[pre.length]? = some (p.handle (p.after s pre) c).1 := by
  rw [replies_append, List.getElem?_append_right (Nat.le_of_eq (p.length_replies s pre)), length_replies, Nat.sub_self]
  rfl

end KVStore
