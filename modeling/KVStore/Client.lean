import KVStore.Lib.Throws
import KVStore.Lib.Words
import KVStore.Store
import Mathlib.Data.List.Induction
import Mathlib.Logic.Function.Basic

/-!
# The interactive clients

One iteration of the loop of `kvclient_1` and `kvclient_2`, which have the same code: the line is split into tokens,
and three tests, none of which excludes the others, look for `-set`, `-get` and `-del` among them.  The server is a
parameter: `rpc` says what a call does to it, and whether it is answered or ends in a `TException`.
-/

namespace KVStore

namespace Client

/-- Why an iteration does not run to its end: `exit(code)`, a `TException`, or an access to `tokens` outside the
vector. -/
inductive Stop where
  | exit (code : Nat)
  | exception
  | outOfRange
  deriving DecidableEq, Repr

/-- The server, and what the client has done: its calls, the names of its output streams with what it writes to them,
and its lines on the standard output. -/
structure Session (σ : Type) where
  server : σ
  calls : List Request := []
  files : List (String × String) := []
  output : List String := []

abbrev Loop (σ : Type) := Throws Stop (Session σ)

/-! ### The tokens of a line -/

/-- `isspace` in the C locale. -/
def isSpace (c : Char) : Bool := c ∈ [' ', '\t', '\n', '\x0b', '\x0c', '\r']

/-- A token: a word without its apostrophes. -/
def token (word : List Char) : String := String.ofList (word.filter fun c => c ≠ '\'')

def tokenize (line : String) : List String := (Words.words isSpace line.toList).map token

/-! ### The body of the loop -/

section Body

variable {σ : Type}

/-- `tokens[i]` -/
def tokenAt (tokens : List String) (i : Nat) : Loop σ String :=
  match tokens[i]? with
  | some t => pure t
  | none => throw .outOfRange

/-- `std::cout << line << std::endl` -/
def print (line : String) : Loop σ Unit := modify fun m => { m with output := m.output ++ [line] }

/-- A `std::ofstream`, and what is written to it.  Whether it could open its file is not tested. -/
def writeFile (filename content : String) : Loop σ Unit :=
  modify fun m => { m with files := m.files ++ [(filename, content)] }

variable (rpc : σ → Request → Option Result × σ)

/-- The session after a call. -/
def Session.called (m : Session σ) (r : Request) : Session σ :=
  { m with server := (rpc m.server r).2, calls := m.calls ++ [r] }

/-- `client.kvset`, `client.kvget`, `client.kvdelete` -/
def call (r : Request) : Loop σ Result := do
  let m ← get
  set (m.called rpc r)
  match (rpc m.server r).1 with
  | some res => pure res
  | none => throw .exception

/-- Find and perform -set if available. -/
def performSet (tokens : List String) : Loop σ Unit := do
  if "-set" ∈ tokens then
    let key ← tokenAt tokens 1
    let value ← tokenAt tokens 2
    print key
    print value
    let res ← call rpc (.kvset key value)
    print res.printTo

/-- Find and perform -get if available. -/
def performGet (tokens : List String) : Loop σ Unit := do
  if "-get" ∈ tokens then
    let key ← tokenAt tokens 1
    let filename ← tokenAt tokens 2
    print key
    print filename
    let res ← call rpc (.kvget key)
    print res.printTo
    if res.error = .kSuccess then
      writeFile filename (res.value ++ "\n")

/-- Find and perform -del if available. -/
def performDel (tokens : List String) : Loop σ Unit := do
  if (← tokenAt tokens 0) = "-del" then
    let key ← tokenAt tokens 1
    print key
    let res ← call rpc (.kvdelete key)
    print res.printTo

/-- The `try` block. -/
def perform (tokens : List String) : Loop σ Unit := do
  performSet rpc tokens
  performGet rpc tokens
  performDel rpc tokens

/-- The iteration for one line. -/
def iteration (line : String) : Loop σ Unit := do
  let tokens := tokenize line
  modify fun m => { m with
    output := m.output ++ tokens.mapIdx fun n t => toString n ++ ": \"" ++ t ++ "\"" }
  tryCatch (perform rpc tokens) fun
    | .exception => throw (.exit 1)
    | stop => throw stop

/-- How the iteration for a line ends, and the session it leaves. -/
def run (s : σ) (line : String) : Except Stop Unit × Session σ := Throws.exec (iteration rpc line) { server := s }

end Body

/-! ### The files of a session -/

section Disk

variable {σ : Type} (opens : String → Bool) (old : String → Option String)

/-- A stream that can open its file replaces what was in it; one that cannot leaves everything as it is. -/
def writeDisk (disk : String → Option String) (file : String × String) : String → Option String :=
  if opens file.1 then Function.update disk file.1 (some file.2) else disk

/-- The files after the session, from those before it. -/
def Session.disk (m : Session σ) : String → Option String := m.files.foldl (writeDisk opens) old

/-- What is written to a name last. -/
def lastText (name : String) (files : List (String × String)) : Option String :=
  (files.reverse.find? fun file => file.1 = name).map Prod.snd

theorem disk_eq (m : Session σ) (name : String) :
    m.disk opens old name = if opens name then (lastText name m.files).or (old name) else old name := by
  unfold Session.disk
  induction m.files using List.reverseRecOn with
  | nil => simp [lastText]
  | append_singleton files file ih =>
    rw [List.foldl_append, List.foldl_cons, List.foldl_nil, writeDisk]
    by_cases hf : file.1 = name
    · subst hf
      by_cases ho : opens file.1
      · simp [ho, lastText]
      · rw [if_neg ho, ih, if_neg ho, if_neg ho]
    · have hlast : lastText name (files ++ [file]) = lastText name files := by simp [lastText, hf]
      rw [hlast, ← ih]
      split
      · exact Function.update_of_ne (Ne.symm hf) _ _
      · rfl

end Disk

end Client

end KVStore
