import KVStore.Client

/-!
# The jobs of a command

The three blocks of the loop read the line as a list of jobs (`jobs`), which they do one after another until one of
them fails (`exec_perform`).  `outcome` is what a list of jobs comes to when the lines on the standard output are left
out; a program `Does` the jobs if it has this outcome, and programs that do their jobs can be put together
(`Does.bind`).  The iteration for a line does the jobs of its tokens (`run_eq_outcome`).
-/

namespace KVStore

namespace Client

open Throws

/-- What a block does when its flag is found; `outside` is the access to a token that is not there. -/
inductive Job where
  | set (key value : String)
  | get (key filename : String)
  | del (key : String)
  | outside
  deriving DecidableEq, Repr

/-- The job of a flag that is looked for among all tokens; its operands are read at fixed positions. -/
def flagJobs (flag : String) (job : String → String → Job) (tokens : List String) : List Job :=
  if flag ∈ tokens then
    match tokens[1]?, tokens[2]? with
    | some x, some y => [job x y]
    | _, _ => [.outside]
  else []

def setJobs : List String → List Job := flagJobs "-set" .set

def getJobs : List String → List Job := flagJobs "-get" .get

/-- `-del` is looked for at the first position only. -/
def delJobs (tokens : List String) : List Job :=
  match tokens[0]? with
  | none => [.outside]
  | some t =>
    if t = "-del" then
      match tokens[1]? with
      | some key => [.del key]
      | none => [.outside]
    else []

def jobs (tokens : List String) : List Job := setJobs tokens ++ getJobs tokens ++ delJobs tokens

section Run

variable {σ : Type} (rpc : σ → Request → Option Result × σ)

def Job.run : Job → Loop σ Unit
  | .set key value => do
    print key
    print value
    let res ← call rpc (.kvset key value)
    print res.printTo
  | .get key filename => do
    print key
    print filename
    let res ← call rpc (.kvget key)
    print res.printTo
    if res.error = .kSuccess then
      writeFile filename (res.value ++ "\n")
  | .del key => do
    print key
    let res ← call rpc (.kvdelete key)
    print res.printTo
  | .outside => throw .outOfRange

/-- The jobs one after another. -/
def runJobs : List Job → Loop σ Unit
  | [] => pure ()
  | j :: js => do
    j.run rpc
    runJobs js

variable {rpc} {tokens : List String}

theorem exec_tokenAt_bind {β : Type} (i : Nat) (f : String → Loop σ β) (m : Session σ) :
    exec (tokenAt tokens i >>= f) m = match tokens[i]? with
      | some t => exec (f t) m
      | none => (.error .outOfRange, m) := by
  rw [exec_bind, tokenAt]
  cases tokens[i]? <;> rfl

theorem exec_runJobs_append (js ks : List Job) (m : Session σ) :
    exec (runJobs rpc (js ++ ks)) m = exec (runJobs rpc js >>= fun _ => runJobs rpc ks) m := by
  induction js generalizing m with
  | nil => rfl
  | cons j js ih =>
    rw [List.cons_append, runJobs, runJobs, exec_bind, exec_bind, exec_bind]
    cases hj : exec (j.run rpc) m with
    | mk o m' =>
      cases o with
      | error e => rfl
      | ok u =>
        dsimp only
        rw [ih, exec_bind]

theorem exec_runJobs_singleton (j : Job) (m : Session σ) : exec (runJobs rpc [j]) m = exec (j.run rpc) m := by
  rw [runJobs, exec_bind]
  rcases exec (j.run rpc) m with ⟨_ | _, _⟩ <;> rfl

theorem exec_flagJobs (flag : String) (job : String → String → Job) (m : Session σ) :
    exec (do
      if flag ∈ tokens then
        let x ← tokenAt tokens 1
        let y ← tokenAt tokens 2
        (job x y).run rpc) m = exec (runJobs rpc (flagJobs flag job tokens)) m := by
  unfold flagJobs
  by_cases h : flag ∈ tokens
  · rw [if_pos h, if_pos h, exec_tokenAt_bind]
    cases h1 : tokens[1]? with
    | none => exact (exec_runJobs_singleton .outside m).symm
    | some x =>
      dsimp only
      rw [exec_tokenAt_bind]
      cases h2 : tokens[2]? with
      | none => exact (exec_runJobs_singleton .outside m).symm
      | some y => exact (exec_runJobs_singleton (job x y) m).symm
  · rw [if_neg h, if_neg h]
    rfl

theorem exec_performSet (m : Session σ) : exec (performSet rpc tokens) m = exec (runJobs rpc (setJobs tokens)) m :=
  exec_flagJobs "-set" .set m

theorem exec_performGet (m : Session σ) : exec (performGet rpc tokens) m = exec (runJobs rpc (getJobs tokens)) m :=
  exec_flagJobs "-get" .get m

theorem exec_performDel (m : Session σ) :
    exec (performDel rpc tokens) m = exec (runJobs rpc (delJobs tokens)) m := by
  unfold performDel delJobs
  rw [exec_tokenAt_bind]
  cases h0 : tokens[0]? with
  | none => exact (exec_runJobs_singleton .outside m).symm
  | some t =>
    dsimp only
    by_cases ht : t = "-del"
    · rw [if_pos ht, if_pos ht, exec_tokenAt_bind]
      cases h1 : tokens[1]? with
      | none => exact (exec_runJobs_singleton .outside m).symm
      | some key => exact (exec_runJobs_singleton (.del key) m).symm
    · rw [if_neg ht, if_neg ht]
      rfl

/-- The blocks do the jobs of the line. -/
theorem exec_perform (m : Session σ) : exec (perform rpc tokens) m = exec (runJobs rpc (jobs tokens)) m := by
  rw [jobs, List.append_assoc, exec_runJobs_append, perform, exec_bind, exec_bind, exec_performSet]
  cases exec (runJobs rpc (setJobs tokens)) m with
  | mk o m' =>
    cases o with
    | error e => rfl
    | ok u =>
      dsimp only
      rw [exec_runJobs_append, exec_bind, exec_bind, exec_performGet]
      cases exec (runJobs rpc (getJobs tokens)) m' with
      | mk o m'' =>
        cases o with
        | error e => rfl
        | ok u => exact exec_performDel m''

/-! ### The outcome of the jobs -/

def Job.request : Job → Option Request
  | .set key value => some (.kvset key value)
  | .get key _ => some (.kvget key)
  | .del key => some (.kvdelete key)
  | .outside => none

/-- The files that a job writes when its call is answered so. -/
def Job.written : Job → Option Result → List (String × String)
  | .get _ filename, some res => if res.error = .kSuccess then [(filename, res.value ++ "\n")] else []
  | _, _ => []

/-- How a job ends when its call is answered so. -/
def ended : Option Result → Except Stop Unit
  | some _ => .ok ()
  | none => .error .exception

/-- What a client comes to, but for its lines on the standard output. -/
structure Outcome (σ : Type) where
  stop : Except Stop Unit
  server : σ
  calls : List Request
  files : List (String × String)

namespace Outcome

def done (s : σ) : Outcome σ := ⟨.ok (), s, [], []⟩

/-- The server, if the client goes on. -/
def next (o : Outcome σ) : Option σ :=
  match o.stop with
  | .ok _ => some o.server
  | .error _ => none

def andThen (o : Outcome σ) (f : σ → Outcome σ) : Outcome σ :=
  match o.next with
  | some s => ⟨(f s).stop, (f s).server, o.calls ++ (f s).calls, o.files ++ (f s).files⟩
  | none => o

/-- Every token that was read is there. -/
def Inside (o : Outcome σ) : Prop := o.stop ≠ .error .outOfRange

theorem andThen_of_next {o : Outcome σ} {s : σ} (h : o.next = some s) (f : σ → Outcome σ) :
    o.andThen f = ⟨(f s).stop, (f s).server, o.calls ++ (f s).calls, o.files ++ (f s).files⟩ := by
  rw [andThen, h]

theorem andThen_of_next_eq_none {o : Outcome σ} (h : o.next = none) (f : σ → Outcome σ) : o.andThen f = o := by
  rw [andThen, h]

theorem next_eq_some_iff {o : Outcome σ} {s : σ} : o.next = some s ↔ o.stop = .ok () ∧ o.server = s := by
  unfold next
  cases o.stop <;> simp

theorem andThen_assoc (o : Outcome σ) (f g : σ → Outcome σ) :
    (o.andThen f).andThen g = o.andThen fun s => (f s).andThen g := by
  cases h : o.next with
  | none => rw [andThen_of_next_eq_none h, andThen_of_next_eq_none h, andThen_of_next_eq_none h]
  | some s =>
    rw [andThen_of_next h, andThen_of_next h]
    cases hf : (f s).next with
    | none =>
      have hn : Outcome.next ⟨(f s).stop, (f s).server, o.calls ++ (f s).calls, o.files ++ (f s).files⟩ = none := hf
      rw [andThen_of_next_eq_none hf, andThen_of_next_eq_none hn]
    | some t =>
      have hn : Outcome.next ⟨(f s).stop, (f s).server, o.calls ++ (f s).calls, o.files ++ (f s).files⟩ = some t := hf
      rw [andThen_of_next hf, andThen_of_next hn, List.append_assoc, List.append_assoc]

theorem inside_andThen {o : Outcome σ} {f : σ → Outcome σ} :
    (o.andThen f).Inside ↔ o.Inside ∧ ∀ s, o.next = some s → (f s).Inside := by
  cases h : o.next with
  | none => simp [andThen_of_next_eq_none h]
  | some s =>
    have ho : o.Inside := by simp [Inside, (next_eq_some_iff.1 h).1]
    rw [andThen_of_next h]
    exact ⟨fun hf => ⟨ho, fun t ht => Option.some.inj ht ▸ hf⟩, fun hf => hf.2 s rfl⟩

end Outcome

variable (rpc) in
def Job.outcome (j : Job) (s : σ) : Outcome σ :=
  match j.request with
  | some r => ⟨ended (rpc s r).1, (rpc s r).2, [r], j.written (rpc s r).1⟩
  | none => ⟨.error .outOfRange, s, [], []⟩

variable (rpc) in
/-- The jobs one after another, until one fails. -/
def outcome : List Job → σ → Outcome σ
  | [], s => .done s
  | j :: js, s => (j.outcome rpc s).andThen (outcome js)

theorem outcome_append (js ks : List Job) (s : σ) :
    outcome rpc (js ++ ks) s = (outcome rpc js s).andThen (outcome rpc ks) := by
  induction js generalizing s with
  | nil => rfl
  | cons j js ih =>
    rw [List.cons_append, outcome, outcome, Outcome.andThen_assoc]
    exact congrArg (Outcome.andThen _) (funext ih)

theorem outcome_singleton (j : Job) (s : σ) : outcome rpc [j] s = j.outcome rpc s := by
  rw [outcome]
  cases h : (j.outcome rpc s).next with
  | none => exact Outcome.andThen_of_next_eq_none h _
  | some t =>
    obtain ⟨hstop, rfl⟩ := Outcome.next_eq_some_iff.1 h
    rw [Outcome.andThen_of_next h, outcome, Outcome.done, List.append_nil, List.append_nil, ← hstop]

theorem Job.outcome_of_request {j : Job} {r : Request} (h : j.request = some r) (s : σ) :
    j.outcome rpc s = ⟨ended (rpc s r).1, (rpc s r).2, [r], j.written (rpc s r).1⟩ := by
  rw [Job.outcome, h]

/-- A first job whose call fails is the last one. -/
theorem outcome_cons_of_failed {j : Job} {r : Request} {s : σ} (hj : j.request = some r) (hr : (rpc s r).1 = none)
    (js : List Job) :
    outcome rpc (j :: js) s = ⟨.error .exception, (rpc s r).2, [r], j.written none⟩ := by
  rw [outcome, Job.outcome_of_request hj, hr]
  rfl

theorem outcome_cons_of_answered {j : Job} {r : Request} {res : Result} {s : σ} (hj : j.request = some r)
    (hr : (rpc s r).1 = some res) (js : List Job) :
    outcome rpc (j :: js) s = ⟨(outcome rpc js (rpc s r).2).stop, (outcome rpc js (rpc s r).2).server,
      r :: (outcome rpc js (rpc s r).2).calls, j.written (some res) ++ (outcome rpc js (rpc s r).2).files⟩ := by
  rw [outcome, Job.outcome_of_request hj, hr]
  rfl

theorem head?_calls_outcome {j : Job} {r : Request} (hj : j.request = some r) (js : List Job) (s : σ) :
    (outcome rpc (j :: js) s).calls.head? = some r := by
  cases hr : (rpc s r).1 with
  | none => rw [outcome_cons_of_failed hj hr, List.head?_cons]
  | some res => rw [outcome_cons_of_answered hj hr, List.head?_cons]

variable (rpc) in
/-- The server after the jobs, if all their calls are answered. -/
def serverAfter : List Job → σ → Option σ
  | [], s => some s
  | j :: js, s =>
    match j.request with
    | some r => if (rpc s r).1.isSome then serverAfter js (rpc s r).2 else none
    | none => none

theorem serverAfter_cons {j : Job} {r : Request} (hj : j.request = some r) (js : List Job) (s : σ) :
    serverAfter rpc (j :: js) s = if (rpc s r).1.isSome then serverAfter rpc js (rpc s r).2 else none := by
  rw [serverAfter, hj]

/-- Only the calls count. -/
theorem serverAfter_congr {js ks : List Job} (h : js.map Job.request = ks.map Job.request) (s : σ) :
    serverAfter rpc js s = serverAfter rpc ks s := by
  induction js generalizing ks s with
  | nil =>
    obtain rfl := List.map_eq_nil_iff.1 h.symm
    rfl
  | cons j js ih =>
    obtain ⟨k, ks, rfl, hk, h⟩ := List.map_eq_cons_iff.1 h.symm
    rw [serverAfter, serverAfter, hk]
    cases j.request with
    | none => rfl
    | some r =>
      dsimp only
      rw [ih h.symm]

theorem next_outcome (js : List Job) (s : σ) : (outcome rpc js s).next = serverAfter rpc js s := by
  induction js generalizing s with
  | nil => rfl
  | cons j js ih =>
    cases hj : j.request with
    | none =>
      rw [outcome, serverAfter, Job.outcome, hj]
      rfl
    | some r =>
      rw [serverAfter_cons hj]
      cases hr : (rpc s r).1 with
      | none =>
        rw [outcome_cons_of_failed hj hr]
        rfl
      | some res =>
        rw [outcome_cons_of_answered hj hr]
        exact ih (rpc s r).2

theorem inside_append {js ks : List Job} {s : σ} : (outcome rpc (js ++ ks) s).Inside ↔
    (outcome rpc js s).Inside ∧ ∀ t, serverAfter rpc js s = some t → (outcome rpc ks t).Inside := by
  rw [outcome_append, Outcome.inside_andThen, next_outcome]

theorem serverAfter_append (js ks : List Job) (s : σ) :
    serverAfter rpc (js ++ ks) s = (serverAfter rpc js s).bind (serverAfter rpc ks) := by
  rw [← next_outcome, ← next_outcome, outcome_append]
  cases h : (outcome rpc js s).next with
  | none => rw [Outcome.andThen_of_next_eq_none h, h, Option.bind_none]
  | some t =>
    rw [Outcome.andThen_of_next h, Option.bind_some, ← next_outcome]
    rfl

/-! ### Jobs whose operands are looked up -/

/-- The job of a flag, if its operands are there. -/
def jobOf (job : String → String → Job) : Option String → Option String → Job
  | some x, some y => job x y
  | _, _ => .outside

def delOf : Option String → Job
  | some key => .del key
  | none => .outside

theorem flagJobs_eq (flag : String) (job : String → String → Job) (tokens : List String) :
    flagJobs flag job tokens = if flag ∈ tokens then [jobOf job tokens[1]? tokens[2]?] else [] := by
  unfold flagJobs
  cases tokens[1]? with
  | none => rfl
  | some x => cases tokens[2]? <;> rfl

theorem delJobs_cons (t : String) (tokens : List String) :
    delJobs (t :: tokens) = if t = "-del" then [delOf tokens[0]?] else [] := by
  unfold delJobs
  cases tokens <;> rfl

theorem inside_nil (s : σ) : (outcome rpc [] s).Inside := by simp [outcome, Outcome.done, Outcome.Inside]

theorem inside_singleton {j : Job} {s : σ} : (outcome rpc [j] s).Inside ↔ j ≠ .outside := by
  rw [outcome_singleton, Job.outcome]
  unfold Outcome.Inside ended
  cases j with
  | outside => simp [Job.request]
  | set key value => cases h : (rpc s (.kvset key value)).1 <;> simp [Job.request, h]
  | get key filename => cases h : (rpc s (.kvget key)).1 <;> simp [Job.request, h]
  | del key => cases h : (rpc s (.kvdelete key)).1 <;> simp [Job.request, h]

theorem inside_jobOf {job : String → String → Job} (hjob : ∀ x y, job x y ≠ .outside) {x y : Option String}
    {s : σ} : (outcome rpc [jobOf job x y] s).Inside ↔ x.isSome ∧ y.isSome := by
  rw [inside_singleton]
  cases x with
  | none => simp [jobOf]
  | some x =>
    cases y with
    | none => simp [jobOf]
    | some y => simp [jobOf, hjob]

/-- Both operands are there. -/
theorem exists_of_inside_jobOf {job : String → String → Job} (hjob : ∀ x y, job x y ≠ .outside) {x y : Option String}
    {s : σ} (h : (outcome rpc [jobOf job x y] s).Inside) : ∃ a b, x = some a ∧ y = some b := by
  obtain ⟨hx, hy⟩ := (inside_jobOf hjob).1 h
  obtain ⟨a, ha⟩ := Option.isSome_iff_exists.1 hx
  obtain ⟨b, hb⟩ := Option.isSome_iff_exists.1 hy
  exact ⟨a, b, ha, hb⟩

theorem inside_delOf {x : Option String} {s : σ} : (outcome rpc [delOf x] s).Inside ↔ x.isSome := by
  rw [inside_singleton]
  cases x <;> simp [delOf]

theorem inside_ite {p : Prop} [Decidable p] {js : List Job} {s : σ} :
    (outcome rpc (if p then js else []) s).Inside ↔ (p → (outcome rpc js s).Inside) := by
  by_cases h : p
  · rw [if_pos h]
    exact ⟨fun hi _ => hi, fun hi => hi h⟩
  · rw [if_neg h]
    exact ⟨fun _ hp => absurd hp h, fun _ => inside_nil s⟩

/-! ### Programs that do jobs -/

variable (rpc) in
/-- The program has the outcome of the jobs; the rest is output. -/
def Does (x : Loop σ Unit) (js : List Job) : Prop :=
  ∀ m, ∃ out, exec x m = ((outcome rpc js m.server).stop,
    { server := (outcome rpc js m.server).server
      calls := m.calls ++ (outcome rpc js m.server).calls
      files := m.files ++ (outcome rpc js m.server).files
      output := out })

theorem Does.done : Does rpc (pure ()) [] := fun m => ⟨m.output, by simp [outcome, Outcome.done]⟩

theorem Does.bind {x y : Loop σ Unit} {js ks : List Job} (hx : Does rpc x js) (hy : Does rpc y ks) :
    Does rpc (x >>= fun _ => y) (js ++ ks) := by
  intro m
  obtain ⟨out, hm⟩ := hx m
  rw [exec_bind, hm, outcome_append]
  cases h : (outcome rpc js m.server).next with
  | none =>
    rw [Outcome.andThen_of_next_eq_none h]
    cases hstop : (outcome rpc js m.server).stop with
    | ok u => simp [Outcome.next, hstop] at h
    | error e => exact ⟨out, rfl⟩
  | some s =>
    obtain ⟨hstop, rfl⟩ := Outcome.next_eq_some_iff.1 h
    rw [Outcome.andThen_of_next h, hstop]
    obtain ⟨out', hm'⟩ := hy { server := (outcome rpc js m.server).server
                               calls := m.calls ++ (outcome rpc js m.server).calls
                               files := m.files ++ (outcome rpc js m.server).files
                               output := out }
    exact ⟨out', by rw [← List.append_assoc, ← List.append_assoc]; exact hm'⟩

theorem Does.ite {p : Prop} [Decidable p] {x : Loop σ Unit} {js : List Job} (hx : Does rpc x js) :
    Does rpc (if p then x else pure ()) (if p then js else []) := by
  by_cases h : p
  · rw [if_pos h, if_pos h]
    exact hx
  · rw [if_neg h, if_neg h]
    exact .done

/-- A line on the standard output is no job. -/
theorem Does.print (line : String) {x : Loop σ Unit} {js : List Job} (hx : Does rpc x js) :
    Does rpc (print line >>= fun _ => x) js := by
  intro m
  rw [exec_bind, Client.print, exec_modify]
  exact hx _

theorem Does.outside : Does rpc (throw .outOfRange) [.outside] := by
  intro m
  rw [outcome_singleton]
  exact ⟨m.output, by simp [Job.outcome, Job.request]⟩

theorem Does.tokenAt_some {i : Nat} {t : String} (ht : tokens[i]? = some t) {f : String → Loop σ Unit} {js : List Job}
    (hf : Does rpc (f t) js) : Does rpc (tokenAt tokens i >>= f) js := by
  intro m
  rw [exec_tokenAt_bind, ht]
  exact hf m

theorem Does.tokenAt_none {i : Nat} (ht : tokens[i]? = none) (f : String → Loop σ Unit) :
    Does rpc (tokenAt tokens i >>= f) [.outside] := by
  intro m
  rw [exec_tokenAt_bind, ht]
  exact Does.outside m

theorem exec_call (r : Request) (m : Session σ) :
    exec (call rpc r) m = match (rpc m.server r).1 with
      | some res => (.ok res, m.called rpc r)
      | none => (.error .exception, m.called rpc r) := by
  rw [call, exec_bind_ok (exec_get m), exec_bind_ok (exec_set m (m.called rpc r))]
  cases (rpc m.server r).1 <;> rfl

/-- A call, and what is done with its answer. -/
theorem Does.call {j : Job} {r : Request} (h : j.request = some r) {f : Result → Loop σ Unit}
    (hf : ∀ res m, ∃ out, exec (f res) m = (.ok (), { m with files := m.files ++ j.written (some res), output := out }))
    (hn : j.written none = []) : Does rpc (call rpc r >>= f) [j] := by
  intro m
  rw [outcome_singleton, Job.outcome_of_request h, exec_bind, exec_call]
  cases (rpc m.server r).1 with
  | none => exact ⟨m.output, by simp [Session.called, ended, hn]⟩
  | some res =>
    obtain ⟨out, hm⟩ := hf res (m.called rpc r)
    exact ⟨out, hm⟩

theorem Job.does_run (j : Job) : Does rpc (j.run rpc) [j] := by
  cases j with
  | set key value =>
    refine .print _ (.print _ (.call rfl (fun res m => ⟨m.output ++ [res.printTo], ?_⟩) rfl))
    simp [Client.print, Job.written]
  | get key filename =>
    refine .print _ (.print _ (.call rfl (fun res m => ⟨m.output ++ [res.printTo], ?_⟩) rfl))
    by_cases he : res.error = .kSuccess
    · simp [exec_bind, Client.print, writeFile, Job.written, he]
    · simp [Client.print, Job.written, he]
  | del key =>
    refine .print _ (.call rfl (fun res m => ⟨m.output ++ [res.printTo], ?_⟩) rfl)
    simp [Client.print, Job.written]
  | outside => exact .outside

theorem does_runJobs (js : List Job) : Does rpc (runJobs rpc js) js := by
  induction js with
  | nil => exact .done
  | cons j js ih => exact j.does_run.bind ih

theorem does_perform (tokens : List String) : Does rpc (perform rpc tokens) (jobs tokens) := fun m => by
  rw [exec_perform]
  exact does_runJobs (jobs tokens) m

/-- The `catch` block. -/
def caught : Except Stop Unit → Except Stop Unit
  | .error .exception => .error (.exit 1)
  | o => o

theorem caught_eq_outOfRange_iff {o : Except Stop Unit} : caught o = .error .outOfRange ↔ o = .error .outOfRange := by
  rcases o with e | u
  · cases e <;> simp [caught]
  · simp [caught]

/-- A `try` block that does jobs, and a `catch` block that ends the program at an exception. -/
theorem exec_catch {x : Loop σ Unit} {js : List Job} (hx : Does rpc x js) {h : Stop → Loop σ Unit}
    (hh : ∀ e m, exec (h e) m = (caught (.error e), m)) (m : Session σ) :
    ∃ out, exec (tryCatch x h) m = (caught (outcome rpc js m.server).stop,
      { server := (outcome rpc js m.server).server
        calls := m.calls ++ (outcome rpc js m.server).calls
        files := m.files ++ (outcome rpc js m.server).files
        output := out }) := by
  obtain ⟨out, hm⟩ := hx m
  refine ⟨out, ?_⟩
  rw [exec_tryCatch, hm]
  cases (outcome rpc js m.server).stop with
  | ok u => rfl
  | error e => exact hh e _

variable (rpc)

/-- An iteration does the jobs of its line. -/
theorem run_eq_outcome (s : σ) (line : String) : ∃ out, run rpc s line =
    (caught (outcome rpc (jobs (tokenize line)) s).stop,
      { server := (outcome rpc (jobs (tokenize line)) s).server
        calls := (outcome rpc (jobs (tokenize line)) s).calls
        files := (outcome rpc (jobs (tokenize line)) s).files
        output := out }) := by
  have hp : Does rpc (perform rpc (tokenize line)) (jobs (tokenize line)) := does_perform (tokenize line)
  rw [run, iteration, exec_bind_ok (exec_modify _ _)]
  exact exec_catch hp (fun e m => by cases e <;> rfl) _

theorem calls_run (s : σ) (line : String) :
    (run rpc s line).2.calls = (outcome rpc (jobs (tokenize line)) s).calls := by
  obtain ⟨out, hrun⟩ := run_eq_outcome rpc s line
  rw [hrun]

theorem files_run (s : σ) (line : String) :
    (run rpc s line).2.files = (outcome rpc (jobs (tokenize line)) s).files := by
  obtain ⟨out, hrun⟩ := run_eq_outcome rpc s line
  rw [hrun]

theorem inside_run (s : σ) (line : String) :
    (run rpc s line).1 ≠ .error .outOfRange ↔ (outcome rpc (jobs (tokenize line)) s).Inside := by
  obtain ⟨out, hrun⟩ := run_eq_outcome rpc s line
  rw [hrun]
  exact not_congr caught_eq_outOfRange_iff

end Run

end Client

end KVStore
