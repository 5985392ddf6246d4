import KVStore.Commands
import KVStore.Contract
import KVStore.Kvclient
import KVStore.Lib.Binary
import KVStore.Rpc

/-!
# Sessions of the interactive clients

`kvclient_1` and `kvclient_2`, from their arguments to their end: they connect to the server of the `-server` argument,
and perform the lines of the standard input until one of them ends the program.  Such a session does the jobs of its
lines (`run_eq_outcome`), and as these need only the answers to their calls it is the same over a connection as on the
handlers (`sameOutcome_wireRpc`, `run_wireRpc`).  Lines that are commands issue one request each, in their order, and
the files that can be opened hold what was set (`commands_over_wire`).
-/

namespace KVStore

namespace Interactive

open Client Throws

section Main

variable {σ : Type} (rpc : σ → Request → Option Result × σ) (connects : String → Int → Bool)

/-- `while (true)`, on the lines of the standard input.  At their end `getline` leaves `str` empty, and the iteration
for the empty line is the last one. -/
def loop : List String → Loop σ Unit
  | [] => iteration rpc ""
  | line :: lines => do
    iteration rpc line
    loop lines

/-- `catch (TException& tx)` after `transport->open()` -/
def catchRefused : Client.Stop → Loop σ Unit
  | .exception => throw (.exit 2)
  | stop => throw stop

def main (program : String) (args lines : List String) : Loop σ Unit := do
  print (program ++ " has " ++ toString args.length ++ " arguments.")
  modify fun m => { m with
    output := m.output ++ args.mapIdx fun n a => toString n ++ ": \"" ++ a ++ "\"" }
  let n := args.idxOf "-server"
  let endpoint ← tokenAt args (n + 1)
  let server := Kvclient.host endpoint
  let port := Kvclient.toPort (Kvclient.strPort endpoint)
  print server
  print (toString port)
  tryCatch (Kvclient.openTransport connects server port) catchRefused
  loop rpc lines

/-- How the program ends on a server `s` and an input, and the session it leaves. -/
def run (s : σ) (program : String) (args lines : List String) : Except Client.Stop Unit × Session σ :=
  exec (main rpc connects program args lines) { server := s }

/-- The jobs of an input.  The last iteration finds no token. -/
def inputJobs (lines : List String) : List Job := lines.flatMap (fun line => jobs (tokenize line)) ++ [.outside]

end Main

/-! ### The loop does the jobs of its lines -/

section Loop

variable {σ : Type} (rpc : σ → Request → Option Result × σ)

/-- The program has the outcome of the jobs, but that an exception ends it with `exit(1)`; the rest is output. -/
def Ends (x : Loop σ Unit) (js : List Job) : Prop :=
  ∀ m, ∃ out, exec x m = (caught (outcome rpc js m.server).stop,
    { server := (outcome rpc js m.server).server
      calls := m.calls ++ (outcome rpc js m.server).calls
      files := m.files ++ (outcome rpc js m.server).files
      output := out })

theorem ends_iteration (line : String) : Ends rpc (iteration rpc line) (jobs (tokenize line)) := by
  intro m
  have hp : Does rpc (perform rpc (tokenize line)) (jobs (tokenize line)) := does_perform (tokenize line)
  rw [iteration, exec_bind_ok (exec_modify _ _)]
  exact exec_catch hp (fun e m => by cases e <;> rfl) _

variable {rpc} in
theorem Ends.bind {x y : Loop σ Unit} {js ks : List Job} (hx : Ends rpc x js) (hy : Ends rpc y ks) :
    Ends rpc (x >>= fun _ => y) (js ++ ks) := by
  intro m
  obtain ⟨out, hm⟩ := hx m
  rw [exec_bind, hm, outcome_append]
  cases h : (outcome rpc js m.server).next with
  | none =>
    rw [Outcome.andThen_of_next_eq_none h]
    cases hstop : (outcome rpc js m.server).stop with
    | ok u => simp [Outcome.next, hstop] at h
    | error e =>
      refine ⟨out, ?_⟩
      cases e <;> rfl
  | some s =>
    obtain ⟨hstop, rfl⟩ := Outcome.next_eq_some_iff.1 h
    rw [Outcome.andThen_of_next h, hstop]
    obtain ⟨out', hm'⟩ := hy { server := (outcome rpc js m.server).server
                               calls := m.calls ++ (outcome rpc js m.server).calls
                               files := m.files ++ (outcome rpc js m.server).files
                               output := out }
    exact ⟨out', by rw [← List.append_assoc, ← List.append_assoc]; exact hm'⟩

theorem jobs_tokenize_empty : jobs (tokenize "") = [.outside] := by
  rw [tokenize, String.toList_empty, Words.words_nil]
  rfl

theorem ends_loop (lines : List String) : Ends rpc (loop rpc lines) (inputJobs lines) := by
  induction lines with
  | nil =>
    have h := ends_iteration rpc ""
    rw [jobs_tokenize_empty] at h
    exact h
  | cons line lines ih =>
    have h := (ends_iteration rpc line).bind ih
    rw [inputJobs, List.flatMap_cons, List.append_assoc]
    exact h

end Loop

/-! ### How a session ends -/

section Run

variable {σ : Type} (rpc : σ → Request → Option Result × σ) (connects : String → Int → Bool) {args : List String}
  (s : σ) (program : String) (lines : List String)

open Kvclient (follows Connected)

theorem run_without_endpoint (h : follows "-server" 1 args = none) :
    ∃ out, run rpc connects s program args lines = (.error .outOfRange, { server := s, output := out }) := by
  refine ⟨[] ++ [program ++ " has " ++ toString args.length ++ " arguments."] ++
    (args.mapIdx fun n a => toString n ++ ": \"" ++ a ++ "\""), ?_⟩
  unfold run main
  rw [exec_bind, print, exec_modify]
  dsimp only
  rw [exec_bind, exec_modify]
  dsimp only
  rw [exec_tokenAt_bind]
  rw [follows] at h
  rw [h]

/-- With an endpoint the program tries to connect. -/
theorem run_of_endpoint {e : String} (h : follows "-server" 1 args = some e) :
    ∃ out, run rpc connects s program args lines = exec (do
        tryCatch (Kvclient.openTransport connects (Kvclient.host e) (Kvclient.toPort (Kvclient.strPort e)))
          catchRefused
        loop rpc lines) { server := s, output := out } := by
  refine ⟨[] ++ [program ++ " has " ++ toString args.length ++ " arguments."] ++
    (args.mapIdx fun n a => toString n ++ ": \"" ++ a ++ "\"") ++ [Kvclient.host e] ++
    [toString (Kvclient.toPort (Kvclient.strPort e))], ?_⟩
  unfold run main
  rw [exec_bind, print, exec_modify]
  dsimp only
  rw [exec_bind, exec_modify]
  dsimp only
  rw [exec_tokenAt_bind]
  rw [follows] at h
  rw [h]
  rfl

theorem run_refused {e : String} (h : follows "-server" 1 args = some e) (hc : ¬Connected connects e) :
    ∃ out, run rpc connects s program args lines = (.error (.exit 2), { server := s, output := out }) := by
  obtain ⟨out, hrun⟩ := run_of_endpoint rpc connects s program lines h
  have hopen : Kvclient.openTransport connects (Kvclient.host e) (Kvclient.toPort (Kvclient.strPort e)) =
      (throw .exception : Loop σ Unit) := if_neg hc
  refine ⟨out, ?_⟩
  rw [hrun, hopen]
  rfl

/-- A program that is connected does the jobs of its input. -/
theorem run_eq_outcome {e : String} (h : follows "-server" 1 args = some e) (hc : Connected connects e) :
    ∃ out, run rpc connects s program args lines =
      (caught (outcome rpc (inputJobs lines) s).stop,
        { server := (outcome rpc (inputJobs lines) s).server
          calls := (outcome rpc (inputJobs lines) s).calls
          files := (outcome rpc (inputJobs lines) s).files
          output := out }) := by
  obtain ⟨out, hrun⟩ := run_of_endpoint rpc connects s program lines h
  have hopen : Kvclient.openTransport connects (Kvclient.host e) (Kvclient.toPort (Kvclient.strPort e)) =
      (pure () : Loop σ Unit) := if_pos hc
  obtain ⟨out', hm⟩ := ends_loop rpc lines { server := s, output := out }
  refine ⟨out', ?_⟩
  rw [hrun, hopen]
  exact hm

variable {rpc}

end Run

/-! ### Servers that answer alike -/

section Simulates

variable {σ τ : Type} (R : σ → τ → Prop)

/-- Two outcomes that differ in the server only. -/
structure SameOutcome (o : Outcome σ) (o' : Outcome τ) : Prop where
  stop : o.stop = o'.stop
  server : R o.server o'.server
  calls : o.calls = o'.calls
  files : o.files = o'.files

/-- Two servers answer the request alike, and stay related. -/
def AnswersAlike (rpc : σ → Request → Option Result × σ) (rpc' : τ → Request → Option Result × τ) (r : Request) :
    Prop :=
  ∀ s t, R s t → (rpc s r).1 = (rpc' t r).1 ∧ R (rpc s r).2 (rpc' t r).2

variable {R} {rpc : σ → Request → Option Result × σ} {rpc' : τ → Request → Option Result × τ}

/-- The jobs need only the answers to their calls. -/
theorem sameOutcome {js : List Job} (h : ∀ j ∈ js, ∀ r, j.request = some r → AnswersAlike R rpc rpc' r) {s : σ}
    {t : τ} (hst : R s t) : SameOutcome R (outcome rpc js s) (outcome rpc' js t) := by
  induction js generalizing s t with
  | nil => exact ⟨rfl, hst, rfl, rfl⟩
  | cons j js ih =>
    obtain ⟨hj, h⟩ := List.forall_mem_cons.1 h
    cases hr : j.request with
    | none =>
      have hs : outcome rpc (j :: js) s = ⟨.error .outOfRange, s, [], []⟩ := by
        rw [outcome, Job.outcome, hr]
        rfl
      have ht : outcome rpc' (j :: js) t = ⟨.error .outOfRange, t, [], []⟩ := by
        rw [outcome, Job.outcome, hr]
        rfl
      rw [hs, ht]
      exact ⟨rfl, hst, rfl, rfl⟩
    | some r =>
      obtain ⟨ha, hst'⟩ := hj r hr s t hst
      cases hs : (rpc s r).1 with
      | none =>
        rw [outcome_cons_of_failed hr hs, outcome_cons_of_failed hr (ha.symm.trans hs)]
        exact ⟨rfl, hst', rfl, rfl⟩
      | some res =>
        have hrest := ih h hst'
        rw [outcome_cons_of_answered hr hs, outcome_cons_of_answered hr (ha.symm.trans hs)]
        exact ⟨hrest.stop, hrest.server, congrArg (r :: ·) hrest.calls, congrArg (_ ++ ·) hrest.files⟩

end Simulates

/-! ### Clients over a connection -/

section Wire

open Thrift

variable {β : Type} (P : TProtocol β) (p : Program) (what : String) (D : TDispatchProcessor β)

/-- A server program as the client meets it over a connection when no operation throws: `client.kvset`,
`client.kvget`, `client.kvdelete`.  As in `serverRpc`, a call that is not answered is `none`. -/
def wireRpc (m : Link β) (r : Request) : Option Result × Link β :=
  match exec (KVStoreClient.call P p what D {} { request := r }) m with
  | (.ok (.ok w), m') => (w.result, m')
  | (_, m') => (none, m')

/-- Nothing is on its way, and the server can serve. -/
structure Idle (m : Link β) (s : Server) : Prop where
  link : m = ⟨[], [], s⟩
  sendable : s.Sendable
  unlocked : s.lck = false

variable {P p what D}

theorem serverRpc_eq {s : Server} (hl : s.lck = false) (r : Request) :
    serverRpc p s r = (some (answer s.sharedKvstore r), { s with sharedKvstore := effect s.sharedKvstore r }) := by
  rw [serverRpc, p.handle_eq hl (by cases r <;> rfl)]

/-- A call over an idle connection is a call of the handler. -/
theorem answersAlike_wireRpc (hP : P.Lawful) (hD : D.Lawful P) (hw : Sendable what) {r : Request} (hr : r.Sendable) :
    AnswersAlike Idle (wireRpc P p what D) (serverRpc p) r := by
  rintro m s ⟨rfl, hs, hl⟩
  have hh : p.handle s { request := r } =
      (.reply (answer s.sharedKvstore r), { s with sharedKvstore := effect s.sharedKvstore r }) :=
    p.handle_eq hl (by cases r <;> rfl)
  have hready : p.Ready s := fun _ => hl
  have hne : (p.handle s { request := r }).1 ≠ .hang := by simp [hh]
  obtain ⟨x, hx, hcall⟩ := exec_call (c := { request := r }) hP hD hw hs hready hr hne {}
  have hs' := hs.handle hready (c := { request := r }) hr
  rw [hh] at hx hcall hs'
  obtain rfl := Option.some.inj hx
  rw [wireRpc, hcall, serverRpc_eq hl]
  exact ⟨WireResult.result_wire _, rfl, hs', hl⟩

/-- The calls of the jobs can be sent. -/
def SendableJobs (js : List Job) : Prop := ∀ j ∈ js, ∀ r, j.request = some r → r.Sendable

theorem sameOutcome_wireRpc (hP : P.Lawful) (hD : D.Lawful P) (hw : Sendable what) {s : Server} (hs : s.Sendable)
    (hl : s.lck = false) {js : List Job} (hjs : SendableJobs js) :
    SameOutcome Idle (outcome (wireRpc P p what D) js ⟨[], [], s⟩) (outcome (serverRpc p) js s) :=
  sameOutcome (fun j hj r hr => answersAlike_wireRpc hP hD hw (hjs j hj r hr)) ⟨rfl, hs, hl⟩

/-- Two sessions that differ in the server and the standard output only. -/
structure SameSession {σ τ : Type} (R : σ → τ → Prop) (x : Except Client.Stop Unit × Session σ)
    (y : Except Client.Stop Unit × Session τ) : Prop where
  stop : x.1 = y.1
  server : R x.2.server y.2.server
  calls : x.2.calls = y.2.calls
  files : x.2.files = y.2.files

/-- An interactive client over a connection does what it does with the handlers. -/
theorem run_wireRpc (hP : P.Lawful) (hD : D.Lawful P) (hw : Sendable what) {s : Server} (hs : s.Sendable)
    (hl : s.lck = false) (connects : String → Int → Bool) (program : String) (args : List String)
    {lines : List String} (hj : SendableJobs (inputJobs lines)) :
    SameSession Idle (run (wireRpc P p what D) connects ⟨[], [], s⟩ program args lines)
      (run (serverRpc p) connects s program args lines) := by
  have hi : Idle (⟨[], [], s⟩ : Link β) s := ⟨rfl, hs, hl⟩
  cases h : Kvclient.follows "-server" 1 args with
  | none =>
    obtain ⟨out, hrun⟩ := run_without_endpoint (wireRpc P p what D) connects ⟨[], [], s⟩ program lines h
    obtain ⟨out', hrun'⟩ := run_without_endpoint (serverRpc p) connects s program lines h
    rw [hrun, hrun']
    exact ⟨rfl, hi, rfl, rfl⟩
  | some e =>
    by_cases hc : Kvclient.Connected connects e
    · obtain ⟨out, hrun⟩ := run_eq_outcome (wireRpc P p what D) connects ⟨[], [], s⟩ program lines h hc
      obtain ⟨out', hrun'⟩ := run_eq_outcome (serverRpc p) connects s program lines h hc
      have hsame := sameOutcome_wireRpc (p := p) hP hD hw hs hl hj
      rw [hrun, hrun']
      exact ⟨congrArg caught hsame.stop, hsame.server, hsame.calls, hsame.files⟩
    · obtain ⟨out, hrun⟩ := run_refused (wireRpc P p what D) connects ⟨[], [], s⟩ program lines h hc
      obtain ⟨out', hrun'⟩ := run_refused (serverRpc p) connects s program lines h hc
      rw [hrun, hrun']
      exact ⟨rfl, hi, rfl, rfl⟩

theorem run_wireRpc_hi_bye :
    SameSession (Idle : Link UInt8 → Server → Prop)
      (run (wireRpc Binary.protocol .kvserver "std::bad_alloc" (.ofProtocol Binary.protocol)) (fun _ _ => true)
        ⟨[], [], {}⟩ "kvclient_1" ["-server", "localhost:9090"] [setLine "hi" "bye"])
      (run (serverRpc .kvserver) (fun _ _ => true) {} "kvclient_1" ["-server", "localhost:9090"]
        [setLine "hi" "bye"]) := by
  have hjobs : inputJobs [setLine "hi" "bye"] = [.set "hi" "bye", .outside] := by
    rw [inputJobs, List.flatMap_singleton, tokenize_setLine (by decide) (by decide)]
    decide
  have hj : SendableJobs (inputJobs [setLine "hi" "bye"]) := by
    rw [hjobs]
    intro j hj r hr
    rcases List.mem_pair.1 hj with rfl | rfl
    · obtain rfl := Option.some.inj hr
      decide
    · cases hr
  exact run_wireRpc Binary.lawful TDispatchProcessor.lawful_ofProtocol (by decide) (s := {})
    (fun _ => (by decide : Thrift.Sendable "")) rfl (fun _ _ => true) "kvclient_1" ["-server", "localhost:9090"] hj

/-- So does the one-shot client. -/
theorem kvclient_run_wireRpc (hP : P.Lawful) (hD : D.Lawful P) (hw : Sendable what) {s : Server} (hs : s.Sendable)
    (hl : s.lck = false) {connects : String → Int → Bool} (program : String) {args : List String} {e : String}
    (h : Kvclient.follows "-server" 1 args = some e) (hc : Kvclient.Connected connects e)
    (hj : SendableJobs (Kvclient.jobs args)) :
    SameSession Idle (Kvclient.run (wireRpc P p what D) connects ⟨[], [], s⟩ program args)
      (Kvclient.run (serverRpc p) connects s program args) := by
  obtain ⟨out, hrun⟩ := Kvclient.run_connected (wireRpc P p what D) ⟨[], [], s⟩ program h hc
  obtain ⟨out', hrun'⟩ := Kvclient.run_connected (serverRpc p) s program h hc
  have hsame := sameOutcome_wireRpc (p := p) hP hD hw hs hl hj
  rw [hrun, hrun']
  exact ⟨congrArg (fun o => Kvclient.exitAfter (caught o)) hsame.stop, hsame.server, hsame.calls, hsame.files⟩

theorem kvclient_run_wireRpc_hi_bye :
    SameSession (Idle : Link UInt8 → Server → Prop)
      (Kvclient.run (wireRpc Binary.protocol .kvserver "std::bad_alloc" (.ofProtocol Binary.protocol)) (fun _ _ => true)
        ⟨[], [], {}⟩ "kvclient" ["-server", "localhost:9090", "-set", "hi", "bye"])
      (Kvclient.run (serverRpc .kvserver) (fun _ _ => true) {} "kvclient"
        ["-server", "localhost:9090", "-set", "hi", "bye"]) := by
  have hjobs : Kvclient.jobs ["-server", "localhost:9090", "-set", "hi", "bye"] = [.set "hi" "bye"] := by decide
  have hj : SendableJobs (Kvclient.jobs ["-server", "localhost:9090", "-set", "hi", "bye"]) := by
    rw [hjobs]
    intro j hj r hr
    obtain rfl := List.mem_singleton.1 hj
    obtain rfl := Option.some.inj hr
    decide
  exact kvclient_run_wireRpc Binary.lawful TDispatchProcessor.lawful_ofProtocol (by decide) (s := {})
    (fun _ => (by decide : Thrift.Sendable "")) rfl "kvclient"
    (by decide : Kvclient.follows "-server" 1 ["-server", "localhost:9090", "-set", "hi", "bye"] =
      some "localhost:9090") rfl hj

end Wire

/-! ### Inputs of commands -/

inductive Command where
  | set (key value : String)
  | get (key filename : String)
  | del (key : String)
  deriving DecidableEq, Repr

namespace Command

def line : Command → String
  | .set key value => setLine key value
  | .get key filename => getLine key filename
  | .del key => delLine key

def request : Command → Request
  | .set key value => .kvset key value
  | .get key _ => .kvget key
  | .del key => .kvdelete key

/-- The job that the command is meant to do. -/
def job : Command → Job
  | .set key value => .set key value
  | .get key filename => .get key filename
  | .del key => .del key

/-- The operands have no white space and no apostrophe, and none is a flag that another block looks for. -/
def Plain : Command → Prop
  | .set key value => Operand key ∧ Operand value ∧ key ≠ "-get" ∧ value ≠ "-get"
  | .get key filename => Operand key ∧ Operand filename ∧ key ≠ "-set" ∧ filename ≠ "-set"
  | .del key => Operand key ∧ key ≠ "-set" ∧ key ≠ "-get"

instance : (c : Command) → Decidable c.Plain
  | .set _ _ => inferInstanceAs (Decidable (_ ∧ _))
  | .get _ _ => inferInstanceAs (Decidable (_ ∧ _))
  | .del _ => inferInstanceAs (Decidable (_ ∧ _))

/-- What the command writes to a file when its key reads as `v`. -/
def file (v : String) : Command → List (String × String)
  | .get _ filename => if v = "" then [] else [(filename, v ++ "\n")]
  | _ => []

theorem jobs_line {c : Command} (hc : c.Plain) : jobs (tokenize c.line) = [c.job] := by
  cases c with
  | set key value =>
    obtain ⟨hk, hv, h1, h2⟩ := hc
    rw [line, tokenize_setLine hk hv, jobs_set, if_neg (not_or.2 ⟨h1, h2⟩)]
    rfl
  | get key filename =>
    obtain ⟨hk, hf, h1, h2⟩ := hc
    rw [line, tokenize_getLine hk hf, jobs_get, if_neg (not_or.2 ⟨h1, h2⟩)]
    rfl
  | del key =>
    obtain ⟨hk, h1, h2⟩ := hc
    rw [line, tokenize_delLine hk, jobs_del, if_neg (not_or.2 ⟨h1, h2⟩)]
    rfl

theorem request_job (c : Command) : c.job.request = some c.request := by cases c <;> rfl

theorem written_job (c : Command) (m : Store) :
    c.job.written (some (answer m c.request)) = c.file (m.value c.request.key) := by
  cases c with
  | set key value => rfl
  | del key => rfl
  | get key filename =>
    by_cases h : m.value key = ""
    · simp [job, request, Job.written, file, answer, h, Request.key]
    · simp [job, request, Job.written, file, answer, h, Request.key]

end Command

theorem inputJobs_lines {cs : List Command} (hcs : ∀ c ∈ cs, c.Plain) :
    inputJobs (cs.map Command.line) = cs.map Command.job ++ [.outside] := by
  have h : ∀ c ∈ cs, jobs (tokenize c.line) = [c.job] := fun c hc => Command.jobs_line (hcs c hc)
  rw [inputJobs, List.flatMap_map, List.flatMap_congr h, ← List.map_eq_flatMap]

/-- The value that the last write to `k` has left, if there is one, else `v`. -/
def reads (k v : String) (reqs : List Request) : String := ((lastWrite k reqs).map Request.newValue).getD v

/-- The files that commands write after the requests `reqs`, on a server where the keys read as `old` before: each
`-get` writes what was last set before it, unless this is the empty string. -/
def filesOf (old : String → String) : List Request → List Command → List (String × String)
  | _, [] => []
  | reqs, c :: cs =>
    c.file (reads c.request.key (old c.request.key) reqs) ++ filesOf old (reqs ++ [c.request]) cs

section Commands

variable {p : Program}

theorem outcome_commands (m : Store) {s : Server} (hl : s.lck = false) (reqs : List Request) (cs : List Command)
    (hs : s.sharedKvstore = reqs.foldl effect m) :
    outcome (serverRpc p) (cs.map Command.job ++ [.outside]) s =
      ⟨.error .outOfRange, { s with sharedKvstore := (cs.map Command.request).foldl effect s.sharedKvstore },
        cs.map Command.request, filesOf m.value reqs cs⟩ := by
  induction cs generalizing s reqs with
  | nil =>
    rw [List.map_nil, List.nil_append, outcome_singleton]
    rfl
  | cons c cs ih =>
    have hr := serverRpc_eq (p := p) hl c.request
    have ih := ih (s := { s with sharedKvstore := effect s.sharedKvstore c.request }) hl (reqs ++ [c.request])
      (by rw [List.foldl_append, ← hs]; rfl)
    rw [List.map_cons, List.cons_append, outcome_cons_of_answered c.request_job (congrArg Prod.fst hr), hr, ih,
      Command.written_job, hs, value_foldl_effect]
    rfl

/-- An input of commands issues their requests in their order, and the files get what was set: over any protocol, from
any server that is not locked, also one that other clients have used.  A file that cannot be opened stays as it is. -/
theorem commands_over_wire {β : Type} (P : Thrift.TProtocol β) (hP : P.Lawful) (D : TDispatchProcessor β)
    (hD : D.Lawful P) (p : Program) (what : String) (hw : Thrift.Sendable what) (s : Server) (hs : s.Sendable)
    (hl : s.lck = false) (connects : String → Int → Bool) (program : String) (args : List String) (e : String)
    (h : Kvclient.follows "-server" 1 args = some e) (hc : Kvclient.Connected connects e) (cs : List Command)
    (hcs : ∀ c ∈ cs, c.Plain ∧ c.request.Sendable) :
    ∃ m, run (wireRpc P p what D) connects ⟨[], [], s⟩ program args (cs.map Command.line) = (.error .outOfRange, m) ∧
      m.server = ⟨[], [], { s with sharedKvstore := (cs.map Command.request).foldl effect s.sharedKvstore }⟩ ∧
      m.calls = cs.map Command.request ∧ m.files = filesOf s.sharedKvstore.value [] cs ∧
      ∀ opens old name, m.disk opens old name =
        if opens name then (lastText name (filesOf s.sharedKvstore.value [] cs)).or (old name) else old name := by
  have hjobs := inputJobs_lines fun c hc => (hcs c hc).1
  have hsend : SendableJobs (inputJobs (cs.map Command.line)) := by
    intro j hj r hr
    rw [hjobs, List.mem_append, List.mem_map, List.mem_singleton] at hj
    rcases hj with ⟨c, hc, rfl⟩ | rfl
    · rw [c.request_job] at hr
      obtain rfl := Option.some.inj hr
      exact (hcs c hc).2
    · cases hr
  obtain ⟨out, hrun⟩ :=
    run_eq_outcome (wireRpc P p what D) connects ⟨[], [], s⟩ program (cs.map Command.line) h hc
  have hsame := sameOutcome_wireRpc (p := p) hP hD hw hs hl hsend
  have ho := outcome_commands (p := p) s.sharedKvstore hl [] cs rfl
  rw [← hjobs] at ho
  rw [ho] at hsame
  rw [hsame.stop, hsame.calls, hsame.files, hsame.server.link] at hrun
  exact ⟨_, hrun, rfl, rfl, rfl, fun opens old name => disk_eq opens old _ name⟩

/-- A key is stored, fetched to a file, deleted, and fetched again; then another is fetched to a name that cannot be
opened. -/
theorem commands_over_wire_hi_bye :
    ∃ m, run (wireRpc Thrift.Binary.protocol .kvserverConsistent "std::bad_alloc"
          (.ofProtocol Thrift.Binary.protocol)) (fun _ _ => true) ⟨[], [], {}⟩ "kvclient_1"
        ["-server", "localhost:9090"]
        (([.set "hi" "bye", .get "hi" "out", .del "hi", .get "hi" "out", .set "lo" "bye", .get "lo" "none/out"] :
          List Command).map Command.line) = (.error .outOfRange, m) ∧
      m.calls = [.kvset "hi" "bye", .kvget "hi", .kvdelete "hi", .kvget "hi", .kvset "lo" "bye", .kvget "lo"] ∧
      m.disk (fun name => name != "none/out") (fun _ => none) "out" = some "bye\n" ∧
      m.disk (fun name => name != "none/out") (fun _ => none) "none/out" = none := by
  obtain ⟨m, hrun, _, hcalls, _, hdisk⟩ := commands_over_wire Thrift.Binary.protocol Thrift.Binary.lawful
    (.ofProtocol Thrift.Binary.protocol) TDispatchProcessor.lawful_ofProtocol .kvserverConsistent "std::bad_alloc"
    (by decide) {} (fun _ => (by decide : Thrift.Sendable "")) rfl (fun _ _ => true) "kvclient_1"
    ["-server", "localhost:9090"] "localhost:9090" (by decide) rfl
    [.set "hi" "bye", .get "hi" "out", .del "hi", .get "hi" "out", .set "lo" "bye", .get "lo" "none/out"] (by decide)
  refine ⟨m, hrun, hcalls, (hdisk _ _ _).trans ?_, (hdisk _ _ _).trans ?_⟩ <;> decide

end Commands

end Interactive

end KVStore
