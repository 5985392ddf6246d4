import KVStore.Handler
import KVStore.Jobs

/-!
# What the commands of the interactive clients do

The documented commands have one job each, unless an operand is itself a flag that one of the tests finds
(`one_request_iff`).
-/

namespace KVStore

namespace Client

/-! ### The lines -/

/-- A string without white space and apostrophes. -/
def Operand (a : String) : Prop := ∀ c ∈ a.toList, isSpace c = false ∧ c ≠ '\''

instance (a : String) : Decidable (Operand a) :=
  List.decidableBAll (fun c => isSpace c = false ∧ c ≠ '\'') a.toList

def quote (a : String) : String := "'" ++ a ++ "'"

def setLine (a b : String) : String := " ".intercalate ["-set", quote a, quote b]
def getLine (a b : String) : String := " ".intercalate ["-get", quote a, quote b]
def delLine (a : String) : String := " ".intercalate ["-del", quote a]

theorem tokenize_intercalate {ws : List String}
    (h : ∀ w ∈ ws, w.toList ≠ [] ∧ ∀ c ∈ w.toList, isSpace c = false) :
    tokenize (" ".intercalate ws) = ws.map fun w => token w.toList := by
  have hblank : " ".toList = [' '] := rfl
  have hws : ∀ w ∈ ws.map String.toList, w ≠ [] ∧ ∀ c ∈ w, isSpace c = false := by
    intro w hw
    obtain ⟨v, hv, rfl⟩ := List.mem_map.1 hw
    exact h v hv
  rw [tokenize, String.toList_intercalate, hblank, Words.words_intercalate (by decide) hws, List.map_map]
  rfl

theorem Operand.filter_eq {a : String} (h : Operand a) : a.toList.filter (fun c => c ≠ '\'') = a.toList :=
  List.filter_eq_self.2 fun c hc => by simpa using (h c hc).2

theorem toList_quote (a : String) : (quote a).toList = '\'' :: (a.toList ++ ['\'']) := by
  rw [quote, String.toList_append, String.toList_append]
  rfl

theorem token_quote {a : String} (ha : Operand a) : token (quote a).toList = a := by
  rw [token, toList_quote, List.filter_cons_of_neg (by decide), List.filter_append, ha.filter_eq,
    List.filter_cons_of_neg (by decide), List.filter_nil, List.append_nil, String.ofList_toList]

theorem blank_free_quote {a : String} (ha : Operand a) :
    (quote a).toList ≠ [] ∧ ∀ c ∈ (quote a).toList, isSpace c = false := by
  rw [toList_quote]
  refine ⟨List.cons_ne_nil _ _, fun c hc => ?_⟩
  simp only [List.mem_cons, List.mem_append, List.not_mem_nil, or_false] at hc
  rcases hc with rfl | hc | rfl
  · decide
  · exact (ha c hc).1
  · decide

/-- A flag and its quoted operands are read as they are. -/
theorem tokenize_command {flag : String} (hf : Operand flag) (hne : flag.toList ≠ []) (as : List String)
    (h : ∀ a ∈ as, Operand a) : tokenize (" ".intercalate (flag :: as.map quote)) = flag :: as := by
  have hflag : token flag.toList = flag := by rw [token, hf.filter_eq, String.ofList_toList]
  have hquote : as.map (fun a => token (quote a).toList) = as := by
    conv => rhs; rw [← List.map_id as]
    exact List.map_congr_left fun a ha => token_quote (h a ha)
  rw [tokenize_intercalate, List.map_cons, hflag, List.map_map]
  · exact congrArg (flag :: ·) hquote
  · refine List.forall_mem_cons.2 ⟨⟨hne, fun c hc => (hf c hc).1⟩, fun w hw => ?_⟩
    obtain ⟨a, ha, rfl⟩ := List.mem_map.1 hw
    exact blank_free_quote (h a ha)

theorem jobs_set (a b : String) :
    jobs ["-set", a, b] = .set a b :: if a = "-get" ∨ b = "-get" then [.get a b] else [] := by
  have hdel : delJobs ["-set", a, b] = [] := rfl
  simp [jobs, hdel, setJobs, getJobs, flagJobs, eq_comm (a := "-get")]

theorem jobs_get (a b : String) :
    jobs ["-get", a, b] = (if a = "-set" ∨ b = "-set" then [.set a b] else []) ++ [.get a b] := by
  have hdel : delJobs ["-get", a, b] = [] := rfl
  simp [jobs, hdel, setJobs, getJobs, flagJobs, eq_comm (a := "-set")]

theorem jobs_del (a : String) :
    jobs ["-del", a] = (if a = "-set" ∨ a = "-get" then [.outside] else []) ++ [.del a] := by
  have hdel : delJobs ["-del", a] = [.del a] := rfl
  by_cases ha : a = "-set"
  · subst ha
    simp [jobs, hdel, setJobs, getJobs, flagJobs]
  · simp [jobs, hdel, setJobs, getJobs, flagJobs, ha, Ne.symm ha, eq_comm (a := "-get")]

/-- An iteration issues exactly the call `r`, reads no token outside the vector, and writes no file unless it is a
`kvget`. -/
structure OneRequest {σ : Type} (rpc : σ → Request → Option Result × σ) (s : σ) (line : String) (r : Request) :
    Prop where
  calls : (run rpc s line).2.calls = [r]
  files : (∀ key, r ≠ .kvget key) → (run rpc s line).2.files = []
  inside : (run rpc s line).1 ≠ .error .outOfRange

section OneRequest

variable {σ : Type} {rpc : σ → Request → Option Result × σ} {s : σ} {line : String}

/-- Nothing is done after the first job if there is none, or if the first one fails. -/
theorem oneRequest_of_first {j : Job} {js : List Job} {r : Request} (hj : j.request = some r)
    (h : jobs (tokenize line) = j :: js) (hor : (rpc s r).1 = none ∨ js = []) : OneRequest rpc s line r := by
  have ho : outcome rpc (j :: js) s = ⟨ended (rpc s r).1, (rpc s r).2, [r], j.written (rpc s r).1⟩ := by
    rcases hor with hr | rfl
    · rw [outcome_cons_of_failed hj hr, hr]
      rfl
    · rw [outcome_singleton, Job.outcome_of_request hj]
  refine ⟨by rw [calls_run, h, ho], fun hk => ?_, (inside_run rpc s line).2 ?_⟩
  · rw [files_run, h, ho]
    cases j with
    | set key value => rfl
    | get key filename => exact absurd (Option.some.inj hj).symm (hk key)
    | del key => rfl
    | outside => rfl
  · rw [h, ho]
    unfold Outcome.Inside ended
    cases (rpc s r).1 <;> simp

/-- The second job is done if the first one is answered. -/
theorem calls_of_two {j k : Job} {r q : Request} (hj : j.request = some r) (hk : k.request = some q)
    {res : Result} (hr : (rpc s r).1 = some res) : (outcome rpc [j, k] s).calls = [r, q] := by
  rw [outcome_cons_of_answered hj hr, outcome_singleton, Job.outcome_of_request hk]

theorem tokenize_setLine {a b : String} (ha : Operand a) (hb : Operand b) :
    tokenize (setLine a b) = ["-set", a, b] :=
  tokenize_command (by decide) (by decide) [a, b] (by simp [ha, hb])

theorem tokenize_getLine {a b : String} (ha : Operand a) (hb : Operand b) :
    tokenize (getLine a b) = ["-get", a, b] :=
  tokenize_command (by decide) (by decide) [a, b] (by simp [ha, hb])

theorem tokenize_delLine {a : String} (ha : Operand a) : tokenize (delLine a) = ["-del", a] :=
  tokenize_command (by decide) (by decide) [a] (by simp [ha])

theorem oneRequest_setLine_iff {a b : String} (ha : Operand a) (hb : Operand b) :
    OneRequest rpc s (setLine a b) (.kvset a b) ↔ (rpc s (.kvset a b)).1 = none ∨ a ≠ "-get" ∧ b ≠ "-get" := by
  have hjobs := jobs_set a b
  rw [← tokenize_setLine ha hb] at hjobs
  by_cases hf : a = "-get" ∨ b = "-get"
  · rw [if_pos hf] at hjobs
    cases hr : (rpc s (.kvset a b)).1 with
    | none => exact ⟨fun _ => Or.inl rfl, fun _ => oneRequest_of_first rfl hjobs (Or.inl hr)⟩
    | some res =>
      constructor
      · intro h
        have hc := h.calls
        rw [calls_run, hjobs, calls_of_two rfl rfl hr] at hc
        cases hc
      · intro h
        have hn := h.resolve_left (by simp)
        exact absurd hf (not_or.2 hn)
  · rw [if_neg hf] at hjobs
    exact ⟨fun _ => Or.inr (not_or.1 hf), fun _ => oneRequest_of_first rfl hjobs (Or.inr rfl)⟩

theorem oneRequest_getLine_iff {a b : String} (ha : Operand a) (hb : Operand b) :
    OneRequest rpc s (getLine a b) (.kvget a) ↔ a ≠ "-set" ∧ b ≠ "-set" := by
  have hjobs := jobs_get a b
  rw [← tokenize_getLine ha hb] at hjobs
  by_cases hf : a = "-set" ∨ b = "-set"
  · rw [if_pos hf, List.singleton_append] at hjobs
    refine ⟨fun h => ?_, fun h => absurd hf (not_or.2 h)⟩
    -- the operands are stored before they are fetched
    have hc := h.calls
    cases hr : (rpc s (.kvset a b)).1 with
    | none =>
      rw [(oneRequest_of_first rfl hjobs (Or.inl hr)).calls] at hc
      cases hc
    | some res =>
      rw [calls_run, hjobs, calls_of_two rfl rfl hr] at hc
      cases hc
  · rw [if_neg hf, List.nil_append] at hjobs
    exact ⟨fun _ => not_or.1 hf, fun _ => oneRequest_of_first rfl hjobs (Or.inr rfl)⟩

theorem oneRequest_delLine_iff {a : String} (ha : Operand a) :
    OneRequest rpc s (delLine a) (.kvdelete a) ↔ a ≠ "-set" ∧ a ≠ "-get" := by
  have hjobs := jobs_del a
  rw [← tokenize_delLine ha] at hjobs
  by_cases hf : a = "-set" ∨ a = "-get"
  · rw [if_pos hf, List.singleton_append] at hjobs
    refine ⟨fun h => ?_, fun h => absurd hf (not_or.2 h)⟩
    -- the block of the flag looks for a second operand
    have hc := h.calls
    rw [calls_run, hjobs] at hc
    cases hc
  · rw [if_neg hf, List.nil_append] at hjobs
    exact ⟨fun _ => not_or.1 hf, fun _ => oneRequest_of_first rfl hjobs (Or.inr rfl)⟩

/-- A set line issues one `kvset` iff that fails or no operand is `-get`; a get line one `kvget` iff no operand is
`-set`; a del line one `kvdelete` iff the operand is neither. -/
theorem one_request_iff (rpc : σ → Request → Option Result × σ) (s : σ) (a b : String) (ha : Operand a)
    (hb : Operand b) :
    (OneRequest rpc s (setLine a b) (.kvset a b) ↔ (rpc s (.kvset a b)).1 = none ∨ a ≠ "-get" ∧ b ≠ "-get") ∧
    (OneRequest rpc s (getLine a b) (.kvget a) ↔ a ≠ "-set" ∧ b ≠ "-set") ∧
    (OneRequest rpc s (delLine a) (.kvdelete a) ↔ a ≠ "-set" ∧ a ≠ "-get") :=
  ⟨oneRequest_setLine_iff ha hb, oneRequest_getLine_iff ha hb, oneRequest_delLine_iff ha⟩

end OneRequest

/-- A server program as the client meets it when no operation throws.  A call that is not answered, because its handler
has ended with an exception or hangs, is `none`. -/
def serverRpc (p : Program) (s : Server) (r : Request) : Option Result × Server :=
  match p.handle s { request := r } with
  | (.reply res, s') => (some res, s')
  | (_, s') => (none, s')

/-- The example of the documentation. -/
theorem one_request_hi_bye :
    (OneRequest (serverRpc .kvserver) {} (setLine "hi" "bye") (.kvset "hi" "bye") ↔
      (serverRpc .kvserver {} (.kvset "hi" "bye")).1 = none ∨ "hi" ≠ "-get" ∧ "bye" ≠ "-get") ∧
    (OneRequest (serverRpc .kvserver) {} (getLine "hi" "bye") (.kvget "hi") ↔ "hi" ≠ "-set" ∧ "bye" ≠ "-set") ∧
    (OneRequest (serverRpc .kvserver) {} (delLine "hi") (.kvdelete "hi") ↔ "hi" ≠ "-set" ∧ "hi" ≠ "-get") :=
  one_request_iff (serverRpc .kvserver) {} "hi" "bye" (by decide) (by decide)

/-- A key that is called `-get` is stored and then fetched; a key that is called `-set` is stored when it should be
fetched. -/
theorem flag_as_operand :
    (Operand "-get" ∧ Operand "bye" ∧
      ¬OneRequest (serverRpc .kvserver) {} (setLine "-get" "bye") (.kvset "-get" "bye")) ∧
    (Operand "-set" ∧ Operand "bye" ∧
      ¬OneRequest (serverRpc .kvserver) {} (getLine "-set" "bye") (.kvget "-set")) := by
  have hget : Operand "-get" := by decide
  have hset : Operand "-set" := by decide
  have hbye : Operand "bye" := by decide
  refine ⟨⟨hget, hbye, fun h => ?_⟩, hset, hbye, fun h => ?_⟩
  · rcases (oneRequest_setLine_iff hget hbye).1 h with hr | ⟨hne, _⟩
    · cases hr
    · exact hne rfl
  · exact ((oneRequest_getLine_iff hset hbye).1 h).1 rfl

end Client

end KVStore
