import KVStore.Bounds

/-!
# The one-shot client and the interactive clients

The same words as arguments of `kvclient` and as a line of an interactive client.  The blocks of the two are alike,
but `kvclient` takes the operands from behind the flag that it has found, the others from the second place and the
third, and finds `-del` at any place.  So the two agree on their calls and files iff the operands that they read are
the same as far as they come, and `-del` is the first word or not there (`clients_agree_iff`).
-/

namespace KVStore

namespace Kvclient

open Client (Outcome outcome serverAfter serverRpc Operand Job jobOf delOf tokenize)

/-- The same calls, and the same files. -/
def SameEffects {σ : Type} (o o' : Outcome σ) : Prop := o.calls = o'.calls ∧ o.files = o'.files

section Jobs

variable {σ : Type} {rpc : σ → Request → Option Result × σ} {s : σ}

/-- Two first jobs, and what follows them if they are answered. -/
theorem sameEffects_cons {j k : Job} {r q : Request} (hj : j.request = some r) (hk : k.request = some q)
    (hlen : ∀ reply, (j.written reply).length = (k.written reply).length) (js ks : List Job) :
    SameEffects (outcome rpc (j :: js) s) (outcome rpc (k :: ks) s) ↔
      (r = q ∧ j.written (rpc s r).1 = k.written (rpc s r).1) ∧
        ∀ t, serverAfter rpc [k] s = some t → SameEffects (outcome rpc js t) (outcome rpc ks t) := by
  by_cases hrq : r = q
  · subst hrq
    have hafter : serverAfter rpc [k] s = if (rpc s r).1.isSome then some (rpc s r).2 else none :=
      Client.serverAfter_cons hk [] s
    have hlen := hlen (rpc s r).1
    rw [hafter]
    cases hr : (rpc s r).1 with
    | none =>
      rw [Client.outcome_cons_of_failed hj hr, Client.outcome_cons_of_failed hk hr]
      exact ⟨fun h => ⟨⟨rfl, h.2⟩, fun t ht => by cases ht⟩, fun h => ⟨rfl, h.1.2⟩⟩
    | some res =>
      rw [hr] at hlen
      rw [Client.outcome_cons_of_answered hj hr, Client.outcome_cons_of_answered hk hr]
      constructor
      · intro h
        obtain ⟨hw, hf⟩ := List.append_inj h.2 hlen
        exact ⟨⟨rfl, hw⟩, fun t ht => Option.some.inj ht ▸ ⟨(List.cons.inj h.1).2, hf⟩⟩
      · intro h
        obtain ⟨hc, hf⟩ := h.2 _ rfl
        refine ⟨congrArg (r :: ·) hc, ?_⟩
        dsimp only
        rw [h.1.2, hf]
  · refine ⟨fun h => absurd ?_ hrq, fun h => absurd h.1.1 hrq⟩
    have hhead := congrArg List.head? h.1
    rw [Client.head?_calls_outcome hj, Client.head?_calls_outcome hk] at hhead
    exact Option.some.inj hhead

/-- A flag with two operands that both clients look for among all words, and what follows it. -/
theorem sameEffects_flagJobs {flag : String} {job : String → String → Job} (req : String → String → Request)
    (hreq : ∀ x y, (job x y).request = some (req x y))
    (hlen : ∀ x y x' y' reply, ((job x y).written reply).length = ((job x' y').written reply).length)
    {w t : List String} (hmem : flag ∈ w ↔ flag ∈ t) {js ks : List Job}
    (hin : (outcome rpc (flagJobs flag job w ++ js) s).Inside)
    (hin' : (outcome rpc (Client.flagJobs flag job t ++ ks) s).Inside) {P : Prop}
    (hP : ∀ x y x' y', follows flag 1 w = some x → follows flag 2 w = some y → t[1]? = some x' → t[2]? = some y' →
      (req x y = req x' y' ∧
        (job x y).written (rpc s (req x y)).1 = (job x' y').written (rpc s (req x y)).1 ↔ P)) :
    SameEffects (outcome rpc (flagJobs flag job w ++ js) s) (outcome rpc (Client.flagJobs flag job t ++ ks) s) ↔
      (flag ∈ w → P) ∧ ∀ s', serverAfter rpc (Client.flagJobs flag job t) s = some s' →
        SameEffects (outcome rpc js s') (outcome rpc ks s') := by
  have hjob : ∀ x y, job x y ≠ .outside := by
    intro x y h
    have hr := hreq x y
    rw [h] at hr
    cases hr
  rw [Client.flagJobs_eq] at hin' ⊢
  unfold flagJobs at hin ⊢
  by_cases hf : flag ∈ w
  · rw [if_pos hf] at hin ⊢
    rw [if_pos (hmem.1 hf)] at hin' ⊢
    obtain ⟨x, y, hx, hy⟩ := Client.exists_of_inside_jobOf hjob (Client.inside_append.1 hin).1
    obtain ⟨x', y', hx', hy'⟩ := Client.exists_of_inside_jobOf hjob (Client.inside_append.1 hin').1
    have hsame := hP x y x' y' hx hy hx' hy'
    rw [hx, hy, hx', hy', List.singleton_append, List.singleton_append]
    show SameEffects (outcome rpc (job x y :: js) s) (outcome rpc (job x' y' :: ks) s) ↔ _
    rw [sameEffects_cons (hreq x y) (hreq x' y') (hlen x y x' y'), hsame]
    exact and_congr_left' ⟨fun h _ => h, fun h => h hf⟩
  · rw [if_neg hf, if_neg (fun h => hf (hmem.2 h))]
    exact ⟨fun h => ⟨fun h' => absurd h' hf, fun s' hs => Option.some.inj hs ▸ h⟩, fun h => h.2 s rfl⟩

theorem sameEffects_setJobs {w t : List String} (hmem : "-set" ∈ w ↔ "-set" ∈ t) {js ks : List Job}
    (hin : (outcome rpc (setJobs w ++ js) s).Inside) (hin' : (outcome rpc (Client.setJobs t ++ ks) s).Inside) :
    SameEffects (outcome rpc (setJobs w ++ js) s) (outcome rpc (Client.setJobs t ++ ks) s) ↔
      ("-set" ∈ w → follows "-set" 1 w = t[1]? ∧ follows "-set" 2 w = t[2]?) ∧
        ∀ s', serverAfter rpc (Client.setJobs t) s = some s' → SameEffects (outcome rpc js s') (outcome rpc ks s') := by
  refine sameEffects_flagJobs .kvset (fun _ _ => rfl) (fun _ _ _ _ _ => rfl) hmem hin hin' ?_
  intro x y x' y' hx hy hx' hy'
  rw [hx, hy, hx', hy']
  simp [Job.written]

/-- The key is fetched from the server `s`. -/
def Fetched (rpc : σ → Request → Option Result × σ) (s : σ) (key : Option String) : Prop :=
  ∃ k res, key = some k ∧ (rpc s (.kvget k)).1 = some res ∧ res.error = .kSuccess

private theorem length_written_get (x y x' y' : String) (reply : Option Result) :
    ((Job.get x y).written reply).length = ((Job.get x' y').written reply).length := by
  cases reply with
  | none => rfl
  | some res => by_cases he : res.error = .kSuccess <;> simp [Job.written, he]

/-- The same file is written, or the answer has no value to write. -/
private theorem written_get_eq_iff {x y x' y' : String} {reply : Option Result} :
    (Job.get x y).written reply = (Job.get x' y').written reply ↔
      ∀ res, reply = some res → res.error = .kSuccess → y = y' := by
  cases reply with
  | none => simp [Job.written]
  | some res => by_cases he : res.error = .kSuccess <;> simp [Job.written, he]

private theorem fetched_some_iff {k : String} :
    Fetched rpc s (some k) ↔ ∃ res, (rpc s (.kvget k)).1 = some res ∧ res.error = .kSuccess := by
  simp [Fetched]

theorem sameEffects_getJobs {w t : List String} (hmem : "-get" ∈ w ↔ "-get" ∈ t) {js ks : List Job}
    (hin : (outcome rpc (getJobs w ++ js) s).Inside) (hin' : (outcome rpc (Client.getJobs t ++ ks) s).Inside) :
    SameEffects (outcome rpc (getJobs w ++ js) s) (outcome rpc (Client.getJobs t ++ ks) s) ↔
      ("-get" ∈ w → follows "-get" 1 w = t[1]? ∧ (Fetched rpc s t[1]? → follows "-get" 2 w = t[2]?)) ∧
        ∀ s', serverAfter rpc (Client.getJobs t) s = some s' → SameEffects (outcome rpc js s') (outcome rpc ks s') := by
  refine sameEffects_flagJobs (fun key _ => .kvget key) (fun _ _ => rfl) length_written_get hmem hin hin' ?_
  intro x y x' y' hx hy hx' hy'
  rw [hx, hy, hx', hy', written_get_eq_iff, fetched_some_iff]
  constructor
  · intro h
    obtain ⟨hkey, hfile⟩ := h
    obtain rfl := Request.kvget.inj hkey
    refine ⟨rfl, fun hf => ?_⟩
    obtain ⟨res, hr, he⟩ := hf
    exact congrArg some (hfile res hr he)
  · intro h
    obtain ⟨hkey, hfile⟩ := h
    obtain rfl := Option.some.inj hkey
    exact ⟨rfl, fun res hr he => Option.some.inj (hfile ⟨res, hr, he⟩)⟩

theorem sameEffects_del_iff {key key' : String} :
    SameEffects (outcome rpc [.del key] s) (outcome rpc [.del key'] s) ↔ key = key' := by
  have hj : ∀ k, (Job.del k).request = some (.kvdelete k) := fun _ => rfl
  rw [sameEffects_cons (hj key) (hj key') fun _ => rfl]
  constructor
  · intro h
    exact Request.kvdelete.inj h.1.1
  · intro h
    obtain rfl := h
    exact ⟨⟨rfl, rfl⟩, fun _ _ => ⟨rfl, rfl⟩⟩

/-- A call is seen. -/
private theorem not_sameEffects_nil {j : Job} {r : Request} (hj : j.request = some r) (js : List Job) :
    ¬SameEffects (outcome rpc (j :: js) s) (outcome rpc [] s) := by
  intro h
  have hhead := congrArg List.head? h.1
  rw [Client.head?_calls_outcome hj] at hhead
  cases hhead

theorem sameEffects_delJobs {w t : List String} (hsub : ∀ a ∈ t, a ∈ w)
    (hin : (outcome rpc (delJobs w) s).Inside) (hin' : (outcome rpc (Client.delJobs t) s).Inside) :
    SameEffects (outcome rpc (delJobs w) s) (outcome rpc (Client.delJobs t) s) ↔
      ("-del" ∈ w → t[0]? = some "-del" ∧ follows "-del" 1 w = t[1]?) := by
  cases t with
  | nil => exact absurd rfl (Client.inside_singleton.1 hin')
  | cons t₀ t =>
    rw [Client.delJobs_cons] at hin' ⊢
    unfold delJobs at hin ⊢
    by_cases hd : "-del" ∈ w
    · rw [if_pos hd] at hin ⊢
      obtain ⟨key, hkey⟩ := Option.isSome_iff_exists.1 (Client.inside_delOf.1 hin)
      rw [hkey]
      by_cases ht : t₀ = "-del"
      · rw [if_pos ht] at hin' ⊢
        obtain ⟨key', hkey'⟩ := Option.isSome_iff_exists.1 (Client.inside_delOf.1 hin')
        have hkeys : (t₀ :: t)[1]? = some key' := hkey'
        rw [hkey', hkeys, ht]
        refine sameEffects_del_iff.trans ⟨fun h _ => ⟨rfl, congrArg some h⟩, fun h => Option.some.inj (h hd).2⟩
      · rw [if_neg ht]
        exact ⟨fun h => absurd h (not_sameEffects_nil rfl []), fun h => absurd (Option.some.inj (h hd).1) ht⟩
    · have ht : t₀ ≠ "-del" := fun h => hd (h ▸ hsub t₀ List.mem_cons_self)
      rw [if_neg hd, if_neg ht]
      exact ⟨fun _ h => absurd h hd, fun _ => ⟨rfl, rfl⟩⟩

/-! ### The two clients on the same words -/

/-- The words that a line keeps. -/
def nonempty (w : List String) : List String := w.filter fun a => a ≠ ""

/-- As far as the two programs come, they read the same operands; the file name counts if the key is fetched. -/
structure SameOperands (rpc : σ → Request → Option Result × σ) (s : σ) (w t : List String) : Prop where
  set : "-set" ∈ w → follows "-set" 1 w = t[1]? ∧ follows "-set" 2 w = t[2]?
  get : ∀ s', serverAfter rpc (Client.setJobs t) s = some s' → "-get" ∈ w →
    follows "-get" 1 w = t[1]? ∧ (Fetched rpc s' t[1]? → follows "-get" 2 w = t[2]?)
  del : (serverAfter rpc (Client.setJobs t ++ Client.getJobs t) s).isSome → "-del" ∈ w →
    t[0]? = some "-del" ∧ follows "-del" 1 w = t[1]?

private theorem setJobs_eq {w t : List String} (hmem : "-set" ∈ w ↔ "-set" ∈ t)
    (h : "-set" ∈ w → follows "-set" 1 w = t[1]? ∧ follows "-set" 2 w = t[2]?) :
    setJobs w = Client.setJobs t := by
  rw [Client.setJobs, Client.flagJobs_eq, setJobs, flagJobs]
  by_cases hs : "-set" ∈ w
  · rw [if_pos hs, if_pos (hmem.1 hs), (h hs).1, (h hs).2]
  · rw [if_neg hs, if_neg fun h => hs (hmem.2 h)]

/-- The server does not see the file name. -/
private theorem serverAfter_getJobs {w t : List String} (hmem : "-get" ∈ w ↔ "-get" ∈ t)
    (hin : (outcome rpc (getJobs w) s).Inside) (hin' : (outcome rpc (Client.getJobs t) s).Inside)
    (h : "-get" ∈ w → follows "-get" 1 w = t[1]?) :
    serverAfter rpc (getJobs w) s = serverAfter rpc (Client.getJobs t) s := by
  have hjob : ∀ x y, Job.get x y ≠ .outside := fun _ _ h => by cases h
  rw [Client.getJobs, Client.flagJobs_eq] at hin' ⊢
  unfold getJobs flagJobs at hin ⊢
  by_cases hg : "-get" ∈ w
  · rw [if_pos hg] at hin ⊢
    rw [if_pos (hmem.1 hg)] at hin' ⊢
    obtain ⟨x, y, _, hy⟩ := Client.exists_of_inside_jobOf hjob hin
    obtain ⟨x', y', hx', hy'⟩ := Client.exists_of_inside_jobOf hjob hin'
    rw [h hg, hx', hy, hy']
    exact Client.serverAfter_congr rfl s
  · rw [if_neg hg, if_neg fun h => hg (hmem.2 h)]

private theorem sameEffects_rest_iff {w t : List String} (hsub : ∀ a ∈ t, a ∈ w) (hmem : "-get" ∈ w ↔ "-get" ∈ t)
    (hin : (outcome rpc (getJobs w ++ delJobs w) s).Inside)
    (hin' : (outcome rpc (Client.getJobs t ++ Client.delJobs t) s).Inside) :
    SameEffects (outcome rpc (getJobs w ++ delJobs w) s) (outcome rpc (Client.getJobs t ++ Client.delJobs t) s) ↔
      ("-get" ∈ w → follows "-get" 1 w = t[1]? ∧ (Fetched rpc s t[1]? → follows "-get" 2 w = t[2]?)) ∧
        ((serverAfter rpc (Client.getJobs t) s).isSome → "-del" ∈ w →
          t[0]? = some "-del" ∧ follows "-del" 1 w = t[1]?) := by
  rw [sameEffects_getJobs hmem hin hin']
  refine and_congr_right fun hget => ?_
  obtain ⟨hinG, hinD⟩ := Client.inside_append.1 hin
  obtain ⟨hinG', hinD'⟩ := Client.inside_append.1 hin'
  rw [serverAfter_getJobs hmem hinG hinG' fun h => (hget h).1] at hinD
  constructor
  · intro h hsome
    obtain ⟨s', hs'⟩ := Option.isSome_iff_exists.1 hsome
    exact (sameEffects_delJobs hsub (hinD s' hs') (hinD' s' hs')).1 (h s' hs')
  · intro h s' hs'
    exact (sameEffects_delJobs hsub (hinD s' hs') (hinD' s' hs')).2 (h (by rw [hs']; rfl))

/-- The two lists of jobs have the same effects iff their operands are the same. -/
theorem sameEffects_jobs_iff {w t : List String} (hsub : ∀ a ∈ t, a ∈ w) (hset : "-set" ∈ w → "-set" ∈ t)
    (hget : "-get" ∈ w → "-get" ∈ t) (hin : (outcome rpc (jobs w) s).Inside)
    (hin' : (outcome rpc (Client.jobs t) s).Inside) :
    SameEffects (outcome rpc (jobs w) s) (outcome rpc (Client.jobs t) s) ↔ SameOperands rpc s w t := by
  have hmemS : "-set" ∈ w ↔ "-set" ∈ t := ⟨hset, hsub _⟩
  have hmemG : "-get" ∈ w ↔ "-get" ∈ t := ⟨hget, hsub _⟩
  rw [jobs, List.append_assoc] at hin ⊢
  rw [Client.jobs, List.append_assoc] at hin' ⊢
  rw [sameEffects_setJobs hmemS hin hin']
  obtain ⟨_, hinR⟩ := Client.inside_append.1 hin
  obtain ⟨_, hinR'⟩ := Client.inside_append.1 hin'
  constructor
  · intro h
    obtain ⟨hs, hrest⟩ := h
    rw [setJobs_eq hmemS hs] at hinR
    refine ⟨hs, fun s' hs' => ?_, fun hsome => ?_⟩
    · exact ((sameEffects_rest_iff hsub hmemG (hinR s' hs') (hinR' s' hs')).1 (hrest s' hs')).1
    · rw [Client.serverAfter_append] at hsome
      obtain ⟨s', hs'⟩ : ∃ s', serverAfter rpc (Client.setJobs t) s = some s' := by
        cases hs' : serverAfter rpc (Client.setJobs t) s with
        | none => simp [hs'] at hsome
        | some s' => exact ⟨s', rfl⟩
      rw [hs', Option.bind_some] at hsome
      exact ((sameEffects_rest_iff hsub hmemG (hinR s' hs') (hinR' s' hs')).1 (hrest s' hs')).2 hsome
  · intro h
    rw [setJobs_eq hmemS h.set] at hinR
    refine ⟨h.set, fun s' hs' => ?_⟩
    refine (sameEffects_rest_iff hsub hmemG (hinR s' hs') (hinR' s' hs')).2 ⟨h.get s' hs', fun hsome => h.del ?_⟩
    rw [Client.serverAfter_append, hs', Option.bind_some]
    exact hsome

end Jobs

/-! ### The two programs -/

/-- The arguments `-server endpoint` and the words. -/
def argsOf (endpoint : String) (w : List String) : List String := "-server" :: endpoint :: w

/-- `kvclient` and one iteration of an interactive client issue the same calls and write the same files. -/
structure Agree {σ : Type} (rpc : σ → Request → Option Result × σ) (connects : String → Int → Bool) (s : σ)
    (program endpoint : String) (w : List String) : Prop where
  calls : (run rpc connects s program (argsOf endpoint w)).2.calls = (Client.run rpc s (" ".intercalate w)).2.calls
  files : (run rpc connects s program (argsOf endpoint w)).2.files = (Client.run rpc s (" ".intercalate w)).2.files

theorem tokenize_words {w : List String} (hw : ∀ a ∈ w, Operand a) : tokenize (" ".intercalate w) = nonempty w := by
  have hblank : " ".toList = [' '] := rfl
  have hsep : ∀ v ∈ w.map String.toList, ∀ c ∈ v, Client.isSpace c = false := by
    intro v hv c hc
    obtain ⟨a, ha, rfl⟩ := List.mem_map.1 hv
    exact (hw a ha c hc).1
  have htoken : ∀ a ∈ w, Client.token a.toList = a := by
    intro a ha
    rw [Client.token, (hw a ha).filter_eq, String.ofList_toList]
  rw [tokenize, String.toList_intercalate, hblank, Words.words_intercalate_filter (by decide) hsep, List.filter_map,
    List.map_map, nonempty]
  have hempty : ((fun v : List Char => !v.isEmpty) ∘ String.toList) = fun a : String => decide (a ≠ "") := by
    funext a
    rw [Bool.eq_iff_iff]
    simp
  rw [hempty]
  conv => rhs; rw [← List.map_id (w.filter fun a => a ≠ "")]
  exact List.map_congr_left fun a ha => htoken a (List.mem_of_mem_filter ha)

private theorem follows_argsOf {flag endpoint : String} (hs : flag ≠ "-server") (he : flag ≠ endpoint) (i : Nat)
    (w : List String) : follows flag i (argsOf endpoint w) = follows flag i w := by
  unfold follows argsOf
  rw [List.idxOf_cons_ne _ hs.symm, List.idxOf_cons_ne _ he.symm, Nat.succ_add, Nat.succ_add,
    List.getElem?_cons_succ, List.getElem?_cons_succ]

private theorem mem_argsOf {flag endpoint : String} (hs : flag ≠ "-server") (he : flag ≠ endpoint) (w : List String) :
    flag ∈ argsOf endpoint w ↔ flag ∈ w := by
  simp [argsOf, hs, he]

theorem jobs_argsOf {endpoint : String} (h : ':' ∈ endpoint.toList) (w : List String) :
    jobs (argsOf endpoint w) = jobs w := by
  have hne : ∀ flag : String, ':' ∉ flag.toList → flag ≠ endpoint := fun flag hf he => hf (he ▸ h)
  have hset := hne "-set" (by decide)
  have hget := hne "-get" (by decide)
  have hdel := hne "-del" (by decide)
  simp only [jobs, setJobs, getJobs, delJobs, flagJobs]
  rw [follows_argsOf (by decide) hset, follows_argsOf (by decide) hset, follows_argsOf (by decide) hget,
    follows_argsOf (by decide) hget, follows_argsOf (by decide) hdel]
  have hmem : ∀ flag : String, flag ≠ "-server" → flag ≠ endpoint → (flag ∈ argsOf endpoint w) = (flag ∈ w) :=
    fun flag hs he => propext (mem_argsOf hs he w)
  simp only [hmem _ (by decide) hset, hmem _ (by decide) hget, hmem _ (by decide) hdel]

section Agree

variable {σ : Type} {rpc : σ → Request → Option Result × σ} {connects : String → Int → Bool} {s : σ}
  {program endpoint : String} {w : List String}

private theorem follows_server : follows "-server" 1 (argsOf endpoint w) = some endpoint := rfl

theorem agree_iff_sameEffects (he : ':' ∈ endpoint.toList) (hw : ∀ a ∈ w, Operand a)
    (hc : Connected connects endpoint) : Agree rpc connects s program endpoint w ↔
      SameEffects (outcome rpc (jobs w) s) (outcome rpc (Client.jobs (nonempty w)) s) := by
  obtain ⟨out, hrun⟩ := run_connected rpc s program (follows_server (w := w)) hc
  rw [jobs_argsOf he] at hrun
  have hcalls := Client.calls_run rpc s (" ".intercalate w)
  have hfiles := Client.files_run rpc s (" ".intercalate w)
  rw [tokenize_words hw] at hcalls hfiles
  constructor
  · intro h
    have hc' := h.calls
    have hf' := h.files
    rw [hrun, hcalls] at hc'
    rw [hrun, hfiles] at hf'
    exact ⟨hc', hf'⟩
  · intro h
    exact ⟨by rw [hrun, hcalls, h.1], by rw [hrun, hfiles, h.2]⟩

theorem inside_run_argsOf (he : ':' ∈ endpoint.toList) (hc : Connected connects endpoint) :
    (run rpc connects s program (argsOf endpoint w)).1 ≠ .error .outOfRange ↔ (outcome rpc (jobs w) s).Inside := by
  rw [inside_run rpc s program follows_server hc, jobs_argsOf he]

theorem inside_run_words (hw : ∀ a ∈ w, Operand a) : (Client.run rpc s (" ".intercalate w)).1 ≠ .error .outOfRange ↔
    (outcome rpc (Client.jobs (nonempty w)) s).Inside := by
  rw [Client.inside_run, tokenize_words hw]

end Agree

/-- For words without white space and apostrophes, and as long as neither program leaves its words, the two agree iff
they read the same operands as far as they come. -/
theorem clients_agree_iff {σ : Type} (rpc : σ → Request → Option Result × σ) (connects : String → Int → Bool) (s : σ)
    (program hostName portNo : String) (w : List String) (hw : ∀ a ∈ w, Operand a)
    (hc : Connected connects (hostName ++ ":" ++ portNo))
    (hin : (run rpc connects s program (argsOf (hostName ++ ":" ++ portNo) w)).1 ≠ .error .outOfRange)
    (hin' : (Client.run rpc s (" ".intercalate w)).1 ≠ .error .outOfRange) :
    Agree rpc connects s program (hostName ++ ":" ++ portNo) w ↔ SameOperands rpc s w (nonempty w) := by
  have he : ':' ∈ (hostName ++ ":" ++ portNo).toList := by simp
  have hsub : ∀ a ∈ nonempty w, a ∈ w := fun a ha => List.mem_of_mem_filter ha
  have hkept : ∀ flag : String, flag ≠ "" → flag ∈ w → flag ∈ nonempty w := fun flag hne h =>
    List.mem_filter.2 ⟨h, by simpa using hne⟩
  rw [agree_iff_sameEffects he hw hc]
  exact sameEffects_jobs_iff hsub (hkept "-set" (by decide)) (hkept "-get" (by decide))
    ((inside_run_argsOf he hc).1 hin) ((inside_run_words hw).1 hin')

/-- The example of the documentation. -/
theorem clients_agree_set :
    Agree (serverRpc .kvserver) (fun _ _ => true) {} "./kvclient" ("localhost" ++ ":" ++ "9090")
        ["-set", "hi", "bye"] ↔
      SameOperands (serverRpc .kvserver) {} ["-set", "hi", "bye"] (nonempty ["-set", "hi", "bye"]) := by
  have hw : ∀ a ∈ ["-set", "hi", "bye"], Operand a := by decide
  have hc : Connected (fun _ _ => true) ("localhost" ++ ":" ++ "9090") := rfl
  refine clients_agree_iff (serverRpc .kvserver) (fun _ _ => true) {} "./kvclient" "localhost" "9090"
    ["-set", "hi", "bye"] hw hc ?_ ?_
  · exact (inside_run_argsOf (by decide) hc).2 (inside_jobs_iff.2 ⟨by decide, fun _ => by decide, fun _ => by decide⟩)
  · exact (inside_run_words hw).2 (Client.inside_jobs_iff.2 ⟨by decide, by decide, by decide⟩)

/-- After a store, `kvclient` writes what it has fetched to the file it was told, an interactive client to a file that
is named as the stored value. -/
theorem clients_disagree :
    (∀ a ∈ ["-set", "hi", "bye", "-get", "hi", "out"], Operand a ∧ a ≠ "-server") ∧
    (run (serverRpc .kvserver) (fun _ _ => true) {} "./kvclient"
      (argsOf "localhost:9090" ["-set", "hi", "bye", "-get", "hi", "out"])).1 ≠ .error .outOfRange ∧
    (Client.run (serverRpc .kvserver) {}
      (" ".intercalate ["-set", "hi", "bye", "-get", "hi", "out"])).1 ≠ .error .outOfRange ∧
    ¬Agree (serverRpc .kvserver) (fun _ _ => true) {} "./kvclient" "localhost:9090"
      ["-set", "hi", "bye", "-get", "hi", "out"] := by
  have hw : ∀ a ∈ ["-set", "hi", "bye", "-get", "hi", "out"], Operand a := by decide
  have he : ':' ∈ "localhost:9090".toList := by decide
  have hc : Connected (fun _ _ => true) "localhost:9090" := rfl
  refine ⟨by decide, (inside_run_argsOf he hc).2 ?_, (inside_run_words hw).2 ?_, fun h => ?_⟩
  · exact inside_jobs_iff.2 ⟨by decide, fun _ => by decide, fun _ => by decide⟩
  · exact Client.inside_jobs_iff.2 ⟨by decide, by decide, by decide⟩
  · have hfiles := ((agree_iff_sameEffects he hw hc).1 h).2
    exact absurd hfiles (by decide)

end Kvclient

end KVStore
