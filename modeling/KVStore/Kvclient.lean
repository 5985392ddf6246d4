import KVStore.Jobs

/-!
# The one-shot client

`kvclient` takes its command from the arguments of the program.  All flags are looked for with `find`, and the
operands are the arguments that follow the flag.  `connects` says whether a connection to a host and a port can be
opened.

Its blocks do jobs as those of the interactive clients do (`does_performArgs`); they differ in the operands they read,
and in the place where `-del` may stand.
-/

namespace KVStore

namespace Kvclient

open Client Throws

/-! ### The endpoint -/

/-- `s.substr(0, s.find(":"))` -/
def host (s : String) : String := String.ofList (s.toList.takeWhile fun c => c ≠ ':')

/-- `s.substr(s.find(":") + 1)`: without a colon `npos + 1` is 0, and the whole string is taken. -/
def strPort (s : String) : String :=
  String.ofList (if ':' ∈ s.toList then (s.toList.dropWhile fun c => c ≠ ':').tail else s.toList)

/-- The sign of a number and what follows it. -/
def sign : List Char → Bool × List Char
  | '-' :: s => (true, s)
  | '+' :: s => (false, s)
  | s => (false, s)

/-- `convert >> port` for a `port` that is 0: an `int`, cut to its range, or 0 if there is no number. -/
def toPort (s : String) : Int :=
  let (negative, digits) := sign (s.toList.dropWhile isSpace)
  let n : Nat := (digits.takeWhile Char.isDigit).foldl (fun n c => 10 * n + (c.toNat - '0'.toNat)) 0
  if negative then max (-(n : Int)) (-2147483648) else min (n : Int) 2147483647

/-! ### The program -/

section Main

variable {σ : Type} (rpc : σ → Request → Option Result × σ) (connects : String → Int → Bool)

/-- Find and perform -set if available. -/
def performSet (args : List String) : Loop σ Unit := do
  let j := args.idxOf "-set"
  if "-set" ∈ args then
    let key ← tokenAt args (j + 1)
    let value ← tokenAt args (j + 2)
    let res ← call rpc (.kvset key value)
    print key
    print value
    print res.printTo

/-- Find and perform -get if available. -/
def performGet (args : List String) : Loop σ Unit := do
  let l := args.idxOf "-get"
  if "-get" ∈ args then
    let key ← tokenAt args (l + 1)
    let filename ← tokenAt args (l + 2)
    print key
    print filename
    let res ← call rpc (.kvget key)
    print res.printTo
    if res.error = .kSuccess then
      writeFile filename (res.value ++ "\n")

/-- Find and perform -del if available. -/
def performDel (args : List String) : Loop σ Unit := do
  let k := args.idxOf "-del"
  if "-del" ∈ args then
    let key ← tokenAt args (k + 1)
    print key
    let res ← call rpc (.kvdelete key)
    print res.printTo

/-- `transport->open()` -/
def openTransport (server : String) (port : Int) : Loop σ Unit :=
  if connects server port then pure () else throw .exception

/-- What follows `transport->open()` in the `try` block. -/
def performArgs (args : List String) : Loop σ Unit := do
  performSet rpc args
  performGet rpc args
  performDel rpc args

/-- `catch (TException& tx)` -/
def catchException : Client.Stop → Loop σ Unit
  | .exception => throw (.exit 1)
  | stop => throw stop

def main (program : String) (args : List String) : Loop σ Unit := do
  print (program ++ " has " ++ toString args.length ++ " arguments.")
  modify fun m => { m with
    output := m.output ++ args.mapIdx fun n a => toString n ++ ": \"" ++ a ++ "\"" }
  let n := args.idxOf "-server"
  let endpoint ← tokenAt args (n + 1)
  let server := host endpoint
  let port := toPort (strPort endpoint)
  print server
  print (toString port)
  tryCatch (do
    openTransport connects server port
    performArgs rpc args) catchException
  throw (.exit 0)

/-- How the program ends on a server `s`, and the session it leaves. -/
def run (s : σ) (program : String) (args : List String) : Except Client.Stop Unit × Session σ :=
  exec (main rpc connects program args) { server := s }

end Main

/-! ### The jobs of the arguments -/

/-- The argument `i` places after the first `flag`. -/
def follows (flag : String) (i : Nat) (args : List String) : Option String := args[args.idxOf flag + i]?

/-- The job of a flag with two operands. -/
def flagJobs (flag : String) (job : String → String → Job) (args : List String) : List Job :=
  if flag ∈ args then [jobOf job (follows flag 1 args) (follows flag 2 args)] else []

def setJobs : List String → List Job := flagJobs "-set" .set

def getJobs : List String → List Job := flagJobs "-get" .get

def delJobs (args : List String) : List Job := if "-del" ∈ args then [delOf (follows "-del" 1 args)] else []

def jobs (args : List String) : List Job := setJobs args ++ getJobs args ++ delJobs args

section Does

variable {σ : Type} {rpc : σ → Request → Option Result × σ} (args : List String)

theorem does_flagJobs (flag : String) {job : String → String → Job} {body : String → String → Loop σ Unit}
    (hbody : ∀ x y, Does rpc (body x y) [job x y]) :
    Does rpc (if flag ∈ args then do
        let x ← tokenAt args (args.idxOf flag + 1)
        let y ← tokenAt args (args.idxOf flag + 2)
        body x y
      else pure ()) (flagJobs flag job args) := by
  refine .ite ?_
  cases h1 : follows flag 1 args with
  | none => exact .tokenAt_none h1 _
  | some x =>
    refine .tokenAt_some h1 ?_
    cases h2 : follows flag 2 args with
    | none => exact .tokenAt_none h2 _
    | some y => exact .tokenAt_some h2 (hbody x y)

theorem does_performSet : Does rpc (performSet rpc args) (setJobs args) := by
  refine does_flagJobs args "-set" fun key value => ?_
  -- the operands are printed after the call
  refine .call rfl (fun res m => ⟨m.output ++ [key] ++ [value] ++ [res.printTo], ?_⟩) rfl
  simp [exec_bind, print, Job.written]

theorem does_performGet : Does rpc (performGet rpc args) (getJobs args) :=
  does_flagJobs args "-get" fun key filename => (Job.get key filename).does_run

theorem does_performDel : Does rpc (performDel rpc args) (delJobs args) := by
  refine .ite ?_
  cases h1 : follows "-del" 1 args with
  | none => exact .tokenAt_none h1 _
  | some key => exact .tokenAt_some h1 (Job.del key).does_run

/-- The blocks do the jobs of the arguments. -/
theorem does_performArgs : Does rpc (performArgs rpc args) (jobs args) := by
  have h : Does rpc (performArgs rpc args) (setJobs args ++ (getJobs args ++ delJobs args)) :=
    (does_performSet args).bind ((does_performGet args).bind (does_performDel args))
  rw [jobs, List.append_assoc]
  exact h

end Does

/-! ### How the program ends -/

section Run

variable {σ : Type} (rpc : σ → Request → Option Result × σ) (connects : String → Int → Bool) (s : σ)
  (program : String) {args : List String}

/-- The program can open a connection to the server of the endpoint. -/
def Connected (endpoint : String) : Prop := connects (host endpoint) (toPort (strPort endpoint)) = true

/-- `exit(0)` after the `try` block. -/
def exitAfter : Except Client.Stop Unit → Except Client.Stop Unit
  | .ok _ => .error (.exit 0)
  | .error e => .error e

theorem exitAfter_eq_outOfRange_iff {o : Except Client.Stop Unit} :
    exitAfter o = .error .outOfRange ↔ o = .error .outOfRange := by
  cases o <;> simp [exitAfter]

theorem run_without_endpoint (h : follows "-server" 1 args = none) :
    (run rpc connects s program args).1 = .error .outOfRange := by
  unfold run main
  rw [exec_bind, print, exec_modify]
  dsimp only
  rw [exec_bind, exec_modify]
  dsimp only
  rw [exec_tokenAt_bind]
  rw [follows] at h
  rw [h]

/-- With an endpoint the program comes to its `try` block. -/
theorem run_of_endpoint {e : String} (h : follows "-server" 1 args = some e) :
    ∃ out, run rpc connects s program args = exec (do
        tryCatch (do
          openTransport connects (host e) (toPort (strPort e))
          performArgs rpc args) catchException
        throw (.exit 0)) { server := s, output := out } := by
  refine ⟨[] ++ [program ++ " has " ++ toString args.length ++ " arguments."] ++
    (args.mapIdx fun n a => toString n ++ ": \"" ++ a ++ "\"") ++ [host e] ++ [toString (toPort (strPort e))], ?_⟩
  unfold run main
  rw [exec_bind, print, exec_modify]
  dsimp only
  rw [exec_bind, exec_modify]
  dsimp only
  rw [exec_tokenAt_bind]
  rw [follows] at h
  rw [h]
  rfl

variable {connects}

theorem run_refused {e : String} (h : follows "-server" 1 args = some e) (hc : ¬Connected connects e) :
    (run rpc connects s program args).1 = .error (.exit 1) := by
  obtain ⟨out, hrun⟩ := run_of_endpoint rpc connects s program h
  have hopen : openTransport connects (host e) (toPort (strPort e)) = (throw .exception : Loop σ Unit) := if_neg hc
  rw [hrun, hopen]
  rfl

/-- A program that is connected does the jobs of its arguments. -/
theorem run_connected {e : String} (h : follows "-server" 1 args = some e) (hc : Connected connects e) :
    ∃ out, run rpc connects s program args =
      (exitAfter (caught (outcome rpc (jobs args) s).stop),
        { server := (outcome rpc (jobs args) s).server
          calls := (outcome rpc (jobs args) s).calls
          files := (outcome rpc (jobs args) s).files
          output := out }) := by
  obtain ⟨out, hrun⟩ := run_of_endpoint rpc connects s program h
  have hopen : openTransport connects (host e) (toPort (strPort e)) = (pure () : Loop σ Unit) := if_pos hc
  obtain ⟨out', hm⟩ := exec_catch (does_performArgs args) (h := catchException) (fun e m => by cases e <;> rfl)
    { server := s, output := out }
  refine ⟨out', ?_⟩
  rw [hrun, hopen, exec_bind]
  simp only [pure_bind]
  rw [hm]
  cases caught (outcome rpc (jobs args) s).stop <;> rfl

theorem inside_run {e : String} (h : follows "-server" 1 args = some e) (hc : Connected connects e) :
    (run rpc connects s program args).1 ≠ .error .outOfRange ↔ (outcome rpc (jobs args) s).Inside := by
  obtain ⟨out, hrun⟩ := run_connected rpc s program h hc
  rw [hrun]
  exact not_congr (exitAfter_eq_outOfRange_iff.trans caught_eq_outOfRange_iff)

end Run

end Kvclient

end KVStore
