import KVStore.Checker
import KVStore.Contract

/-!
# What the verdicts of `consistency_test` say

* The exit code is decided by the gets that found nothing and the stale gets on `key_2` (`exact_verdict`).
* `exit(0)` says that every get found a value and that those on `key_2` are consistent (`accepted_gets`); the gets
  on `key_1` are not checked (`stale_key1_accepted`).
* `exit(2)` does not say that there is no consistency error: the first pass exits on any get that found nothing,
  also on one after a set (`lost_key_exits_two`).  It says so when the server has executed the requests on each key in
  the order of their numbers (`exit_two_benign`).
-/

namespace KVStore

namespace ConsistencyTest

theorem Events.Logged.shapes {table : List Events} (h : ∀ e ∈ table, e.Logged) : ∀ e ∈ table, e.Shape :=
  fun e he => .logged (h e he)

/-- The event of `kvset(k, v)`. -/
def setEvent (n : Nat) (k v : String) : Events :=
  { sequenceNumber := n, operation := set, parameters := [k, v] }

/-- The event of a `kvget(k)` that found `v`. -/
def foundEvent (n : Nat) (k v : String) : Events :=
  { sequenceNumber := n, operation := get, parameters := [k], response := { value := v } }

/-- The event of a `kvget(k)` that found nothing. -/
def notFoundEvent (n : Nat) (k : String) : Events :=
  { sequenceNumber := n, operation := get, parameters := [k], response := { error := .kKeyNotFound } }

theorem logged_setEvent (n : Nat) (k v : String) : (setEvent n k v).Logged := .set k v ⟨rfl, rfl⟩

theorem logged_foundEvent (n : Nat) (k v : String) : (foundEvent n k v).Logged := .get k ⟨rfl, rfl⟩

theorem logged_notFoundEvent (n : Nat) (k : String) : (notFoundEvent n k).Logged := .get k ⟨rfl, rfl⟩

/-! ### The exit codes -/

/-- The passes end with 2 if some get found nothing, otherwise with 1 if some get on `key_2` is stale, otherwise with
0; the third pass completes whenever the second does. -/
theorem exact_verdict (table : List Events) (h : ∀ e ∈ table, e.Shape) :
    ((∃ e ∈ table, e.NotFound) → exitCode table = some 2) ∧
    ((∀ e ∈ table, ¬e.NotFound) → Stale table → exitCode table = some 1) ∧
    ((∀ e ∈ table, ¬e.NotFound) → ¬Stale table → exitCode table = some 0) ∧
    ∀ v w, table.foldlM firstPass {} = .ok v → table.foldlM secondPass v = .ok w →
      ∃ u, table.foldlM thirdPass { w with lastUpdatedValue := value1 } = .ok u := by
  refine ⟨fun h2 => ?_, fun hn hs => ?_, fun hn hs => ?_, fun v w hv hw => ?_⟩
  · obtain ⟨e, he, hn⟩ := h2
    rcases exitCode_cases h with ⟨hc, _⟩ | ⟨_, hn', _⟩ | ⟨_, hn', _⟩
    · exact hc
    · exact absurd hn (hn' e he)
    · exact absurd hn (hn' e he)
  · rcases exitCode_cases h with ⟨_, e, he, hn'⟩ | ⟨hc, _⟩ | ⟨_, _, hs'⟩
    · exact absurd hn' (hn e he)
    · exact hc
    · exact absurd hs hs'
  · rcases exitCode_cases h with ⟨_, e, he, hn'⟩ | ⟨_, _, hs'⟩ | ⟨hc, _⟩
    · exact absurd hn' (hn e he)
    · exact absurd hs' hs
    · exact hc
  · obtain ⟨_, rfl⟩ := firstPass_foldlM.1 hv
    have hs := first_second_eq_none_iff.1
      ((EarlyExit.foldlM_eq_ok_iff fun e he v => secondPass_eq (h e he) v).1 hw).1
    exact ⟨_, (EarlyExit.foldlM_eq_ok_iff fun e he v => thirdPass_eq (h e he) v).2 ⟨first_third_eq_none hs _, rfl⟩⟩

/-- A set, a get and an unfilled slot. -/
def readBack : List Events := [setEvent 0 key2 value2, foundEvent 1 key2 value2, {}]

theorem exact_verdict_readBack :
    ((∃ e ∈ readBack, e.NotFound) → exitCode readBack = some 2) ∧
    ((∀ e ∈ readBack, ¬e.NotFound) → Stale readBack → exitCode readBack = some 1) ∧
    ((∀ e ∈ readBack, ¬e.NotFound) → ¬Stale readBack → exitCode readBack = some 0) ∧
    ∀ v w, readBack.foldlM firstPass {} = .ok v → readBack.foldlM secondPass v = .ok w →
      ∃ u, readBack.foldlM thirdPass { w with lastUpdatedValue := value1 } = .ok u :=
  exact_verdict readBack fun e he => by
    simp only [readBack, List.mem_cons, List.not_mem_nil, or_false] at he
    rcases he with rfl | rfl | rfl
    · exact .logged (logged_setEvent _ _ _)
    · exact .logged (logged_foundEvent _ _ _)
    · exact .unfilled rfl

/-! ### `exit(0)` -/

/-- Every get returned the value of the latest set on its key. -/
def Consistent (table : List Events) : Prop :=
  ∀ pre e post k, table = pre ++ e :: post → e.IsGet k → latest k pre = some e.response.value

/-- If the passes end with `exit(0)`, every get found a value, and every get on `key_2` returned that of the latest
set on `key_2`, or `""` if there is none. -/
theorem accepted_gets (table : List Events) (h : ∀ e ∈ table, e.Logged) (h0 : exitCode table = some 0) :
    (∀ e ∈ table, ¬e.NotFound) ∧
      ∀ pre e post, table = pre ++ e :: post → e.IsGet key2 → e.response.value = (latest key2 pre).getD "" := by
  rcases exitCode_cases (Events.Logged.shapes h) with ⟨h2, _⟩ | ⟨h1, _⟩ | ⟨_, hn, hs⟩
  · rw [h0] at h2
    cases h2
  · rw [h0] at h1
    cases h1
  · refine ⟨hn, fun pre e post he hg => ?_⟩
    by_contra hv
    exact hs ⟨pre, e, post, he, hg, hv⟩

/-- A get on `key_2` that returns what was set. -/
theorem accepted_read_back :
    (∀ e ∈ [setEvent 0 key2 value1, foundEvent 1 key2 value1], ¬e.NotFound) ∧
      ∀ pre e post, [setEvent 0 key2 value1, foundEvent 1 key2 value1] = pre ++ e :: post → e.IsGet key2 →
        e.response.value = (latest key2 pre).getD "" :=
  accepted_gets _ (by simp [logged_setEvent, logged_foundEvent]) (by decide)

/-- A stale get on `key_1`, and a get of `""` from a `key_2` that was never set, are accepted. -/
theorem stale_key1_accepted :
    ((∀ e ∈ [setEvent 0 key1 value1, foundEvent 1 key1 value2], e.Logged) ∧
      exitCode [setEvent 0 key1 value1, foundEvent 1 key1 value2] = some 0 ∧
      ¬Consistent [setEvent 0 key1 value1, foundEvent 1 key1 value2]) ∧
    ((∀ e ∈ [foundEvent 0 key2 ""], e.Logged) ∧ exitCode [foundEvent 0 key2 ""] = some 0 ∧
      ¬Consistent [foundEvent 0 key2 ""]) := by
  refine ⟨⟨by simp [logged_setEvent, logged_foundEvent], by decide, fun h => ?_⟩,
    by simp [logged_foundEvent], by decide, fun h => ?_⟩
  · exact absurd (h [setEvent 0 key1 value1] (foundEvent 1 key1 value2) [] key1 rfl ⟨rfl, rfl⟩) (by decide)
  · exact absurd (h [] (foundEvent 0 key2 "") [] key2 rfl ⟨rfl, rfl⟩) (by decide)

/-! ### `exit(2)` -/

/-- No get is a consistency error: one that found nothing has no earlier set on its key, any other one returned the
value of the latest set on its key. -/
def Benign (table : List Events) : Prop :=
  ∀ pre e post k, table = pre ++ e :: post → e.IsGet k →
    (e.NotFound → latest k pre = none) ∧ (¬e.NotFound → latest k pre = some e.response.value)

/-- Some get was fetching a value that does not exist yet. -/
def TooEarly (table : List Events) : Prop :=
  ∃ pre e post k, table = pre ++ e :: post ∧ e.IsGet k ∧ latest k pre = none

/-- The request that was logged. -/
def Events.request (e : Events) : Request :=
  if e.operation = set then .kvset (e.parameters.getD 0 "") (e.parameters.getD 1 "")
  else .kvget (e.parameters.getD 0 "")

/-- The program, with the requests executed one after another on the empty store, gives the responses. -/
def Answers (p : Program) (order : List Events) : Prop :=
  p.replies {} (quiet (order.map Events.request)) = order.map fun e => .reply e.response

/-- The table comes from one of the servers, which has executed the requests in some order; those on one key in the
order of their numbers.  No value was empty. -/
structure InNumberOrder (table : List Events) : Prop where
  values : ∀ e ∈ table, ∀ k, ¬e.IsSet k ""
  executed : ∃ p order, order.Perm table ∧
    (∀ k, order.filter (fun e => e.request.key = k) = table.filter fun e => e.request.key = k) ∧ Answers p order

/-- An event as the servers answer it. -/
inductive Events.Served (e : Events) : Prop
  | set (k v : String) : e.IsSet k v → v ≠ "" → e.response = {} → Served e
  | found (k v : String) : e.IsGet k → v ≠ "" → e.response = { value := v } → Served e
  | notFound (k : String) : e.IsGet k → e.response = { error := .kKeyNotFound } → Served e

variable {e : Events} {table order : List Events} {k v : String}

theorem Events.IsSet.request (h : e.IsSet k v) : e.request = .kvset k v := by
  simp [Events.request, h.1, h.2]

theorem Events.IsGet.request (h : e.IsGet k) : e.request = .kvget k := by
  simp [Events.request, h.1, h.2, Events.get_ne_set]

theorem Events.Logged.newValue (h : e.Logged) (k : String) :
    (if e.request.writes k then some e.request else none).map Request.newValue = e.setOn k := by
  cases h with
  | set k' v h => by_cases hk : k' = k <;> simp [h.request, h.setOn, Request.writes, Request.newValue, hk]
  | get k' h => simp [h.request, h.setOn, Request.writes]

/-- What a key reads as after the requests of some events. -/
theorem value_foldl_request (h : ∀ e ∈ order, e.Logged) (k : String) :
    ((order.map Events.request).foldl effect Store.empty).value k = (latest k order).getD "" := by
  rw [value_foldl_effect, lastWrite, ← Register.last_map]
  congr 1
  apply Register.last_eq_of_map_eq
  rw [List.map_map]
  exact List.map_congr_left fun e he => (h e he).newValue k

/-- Only the events on `k` matter for what it was set to. -/
theorem latest_filter (h : ∀ e ∈ order, e.Logged) (k : String) :
    latest k (order.filter fun e => e.request.key = k) = latest k order := by
  induction order with
  | nil => rfl
  | cons e order ih =>
    obtain ⟨he, h⟩ := List.forall_mem_cons.1 h
    have hcons : ∀ l, latest k (e :: l) = (latest k l).or (e.setOn k) := fun l => Register.last_cons _ _ l
    by_cases hk : e.request.key = k
    · rw [List.filter_cons_of_pos (by simpa using hk), hcons, hcons, ih h]
    · have hset : e.setOn k = none := by
        cases he with
        | set k' v he =>
          have hk : ¬k' = k := by rwa [he.request] at hk
          rw [he.setOn, if_neg hk]
        | get k' he => exact he.setOn k
      rw [List.filter_cons_of_neg (by simpa using hk), hcons, hset, Option.or_none, ih h]

/-- In an execution every response is the answer in the store of its moment. -/
theorem answers_iff {p : Program} : Answers p order ↔ ∀ pre e post, order = pre ++ e :: post →
    e.response = answer ((pre.map Events.request).foldl effect Store.empty) e.request := by
  constructor
  · rintro h pre e post rfl
    have hreply := getElem?_replies_quiet p (pre.map Events.request) (post.map Events.request) e.request
    rw [← List.map_cons, ← List.map_append, h, List.length_map] at hreply
    simpa using hreply
  · intro h
    apply List.ext_getElem
    · simp [Program.length_replies, quiet]
    intro n h1 h2
    have hn : n < order.length := by simpa using h2
    have horder : order = order.take n ++ order[n] :: order.drop (n + 1) := by
      rw [List.getElem_cons_drop, List.take_append_drop]
    have hreply := getElem?_replies_quiet p ((order.take n).map Events.request)
      ((order.drop (n + 1)).map Events.request) order[n].request
    rw [← List.map_cons, ← List.map_append, ← horder, List.length_map, List.length_take_of_le (Nat.le_of_lt hn),
      ← h _ _ _ horder] at hreply
    rw [List.getElem_map]
    exact (List.getElem?_eq_some_iff.1 hreply).2

/-- A get of the table has the answer that the sets on its key with smaller numbers make. -/
theorem InNumberOrder.response (hn : InNumberOrder table) (h : ∀ e ∈ table, e.Logged) {pre post : List Events}
    (he : table = pre ++ e :: post) (hg : e.IsGet k) :
    e.response = { value := (latest k pre).getD ""
                   error := if (latest k pre).getD "" ≠ "" then .kSuccess else .kKeyNotFound } := by
  subst he
  obtain ⟨p, order, hperm, hkey, hans⟩ := hn.executed
  -- `e` in the order of the execution, with the events on its key before it
  have hsplit := hkey k
  rw [List.filter_append, List.filter_cons_of_pos (by simp [hg.request, Request.key])] at hsplit
  obtain ⟨left, right, rfl, hleft, hright⟩ := List.filter_eq_append_iff.1 hsplit
  obtain ⟨gap, rest, rfl, hgap, _⟩ := List.filter_eq_cons_iff.1 hright
  have hlogged : ∀ x ∈ left ++ gap, x.Logged := fun x hx => h x (hperm.mem_iff.1 (by
    rw [← List.append_assoc]
    exact List.mem_append_left _ hx))
  have hlatest : latest k (left ++ gap) = latest k pre := by
    rw [← latest_filter hlogged, List.filter_append, hleft, List.filter_eq_nil_iff.2 hgap, List.append_nil,
      latest_filter fun x hx => h x (List.mem_append_left _ hx)]
  have hresponse := answers_iff.1 hans (left ++ gap) e rest (List.append_assoc _ _ _).symm
  rwa [hg.request, answer, value_foldl_request hlogged, hlatest] at hresponse

theorem InNumberOrder.latest_ne_empty (hn : InNumberOrder table) (h : ∀ e ∈ table, e.Logged) {pre post : List Events}
    (he : table = pre ++ post) : latest k pre ≠ some "" := by
  intro hl
  obtain ⟨a, x, b, rfl, hx, _⟩ := Register.last_eq_some_iff.1 hl
  have hm : x ∈ table := by simp [he]
  cases h x hm with
  | set k' v hs =>
    rw [hs.setOn] at hx
    obtain ⟨rfl, rfl⟩ : k' = k ∧ v = "" := by simpa using hx
    exact hn.values x hm k' hs
  | get k' hs => cases (hs.setOn k).symm.trans hx

theorem InNumberOrder.notFound_iff (hn : InNumberOrder table) (h : ∀ e ∈ table, e.Logged) {pre post : List Events}
    (he : table = pre ++ e :: post) (hg : e.IsGet k) : e.NotFound ↔ latest k pre = none := by
  have hne := hn.latest_ne_empty h he (k := k)
  rw [hg.notFound_iff, hn.response h he hg]
  cases hl : latest k pre with
  | none => simp
  | some v =>
    have hv : v ≠ "" := fun hv => hne (hv ▸ hl)
    simp [hv]

theorem InNumberOrder.benign (hn : InNumberOrder table) (h : ∀ e ∈ table, e.Logged) : Benign table := by
  intro pre e post k he hg
  refine ⟨(hn.notFound_iff h he hg).1, fun hfound => ?_⟩
  rw [hn.notFound_iff h he hg] at hfound
  obtain ⟨v, hl⟩ := Option.ne_none_iff_exists'.1 hfound
  rw [hn.response h he hg, hl]
  rfl

/-- Requests that were answered like this may have been executed as they are numbered. -/
theorem inNumberOrder_of_served (hs : ∀ e ∈ table, e.Served) (hb : Benign table) : InNumberOrder table := by
  have h : ∀ e ∈ table, e.Logged := fun e he => by
    cases hs e he with
    | set k v hset _ _ => exact .set k v hset
    | found k v hg _ _ => exact .get k hg
    | notFound k hg _ => exact .get k hg
  refine ⟨fun e he k hempty => ?_, .kvserver, table, .refl _, fun _ => rfl, answers_iff.2 fun pre e post he => ?_⟩
  · cases hs e he with
    | set k' v hset hv _ => exact hv (List.cons.inj (List.cons.inj (hset.2.symm.trans hempty.2)).2).1
    | found k' v hg _ _ => exact Events.get_ne_set (hg.1.symm.trans hempty.1)
    | notFound k' hg _ => exact Events.get_ne_set (hg.1.symm.trans hempty.1)
  · have hpre : ∀ x ∈ pre, x.Logged := fun x hx => h x (by simp [he, hx])
    cases hs e (by simp [he]) with
    | set k v hset _ hr => rw [hset.request, hr]; rfl
    | found k v hg hv hr =>
      have hl := (hb pre e post k he hg).2 (by simp [hg.notFound_iff, hr])
      rw [hg.request, answer, value_foldl_request hpre, hl, hr]
      simp [hv]
    | notFound k hg hr =>
      have hl := (hb pre e post k he hg).1 (by simp [hg.notFound_iff, hr])
      rw [hg.request, answer, value_foldl_request hpre, hl, hr]
      rfl

/-- If the requests of a table were executed in the order of their numbers, `exit(2)` says that there is no consistency
error, and that some get was fetching a value that does not exist yet.  If the responses are such as the servers give,
it says the former of no other table. -/
theorem exit_two_benign (table : List Events) (h : ∀ e ∈ table, e.Logged) :
    (InNumberOrder table → (exitCode table = some 2 → Benign table) ∧ (exitCode table = some 2 ↔ TooEarly table)) ∧
    ((∀ e ∈ table, e.Served) → exitCode table = some 2 → Benign table → InNumberOrder table) := by
  refine ⟨fun hn => ⟨fun _ => hn.benign h, ?_⟩, fun hs _ hb => inNumberOrder_of_served hs hb⟩
  rw [exitCode_eq_two_iff (Events.Logged.shapes h)]
  constructor
  · rintro ⟨e, hm, he⟩
    obtain ⟨pre, post, rfl⟩ := List.append_of_mem hm
    cases h e hm with
    | set k v hs => exact absurd (he.1.symm.trans hs.1) Events.get_ne_set
    | get k hg => exact ⟨pre, e, post, k, rfl, hg, (hn.notFound_iff h rfl hg).1 he⟩
  · rintro ⟨pre, e, post, k, rfl, hg, hl⟩
    exact ⟨e, by simp, (hn.notFound_iff h rfl hg).2 hl⟩

/-- A get before the set on its key, while another key is set and read; the server has taken the other key first. -/
def earlyGet : List Events :=
  [notFoundEvent 0 key1, setEvent 1 key2 value2, setEvent 2 key1 value1, foundEvent 3 key2 value2]

theorem exit_two_benign_earlyGet : exitCode earlyGet = some 2 ∧ Benign earlyGet ∧ TooEarly earlyGet := by
  have hlogged : ∀ e ∈ earlyGet, e.Logged := by
    simp [earlyGet, logged_setEvent, logged_foundEvent, logged_notFoundEvent]
  have hn : InNumberOrder earlyGet := by
    refine ⟨?_, .kvserverConsistent,
      [setEvent 1 key2 value2, foundEvent 3 key2 value2, notFoundEvent 0 key1, setEvent 2 key1 value1], by decide,
      fun k => ?_, by unfold Answers; decide⟩
    · simp [earlyGet, Events.IsSet, setEvent, foundEvent, notFoundEvent, value1, value2]
    · by_cases h1 : key1 = k
      · subst h1
        decide
      by_cases h2 : key2 = k
      · subst h2
        decide
      simp [earlyGet, Events.request, setEvent, foundEvent, notFoundEvent, Request.key, h1, h2, Events.get_ne_set]
  have h2 : exitCode earlyGet = some 2 := by decide
  obtain ⟨hb, hearly⟩ := (exit_two_benign earlyGet hlogged).1 hn
  exact ⟨h2, hb h2, hearly.1 h2⟩

/-- A key that is lost after its set, and a stale get beside an early one, end in `exit(2)`. -/
theorem lost_key_exits_two :
    ((∀ e ∈ [setEvent 0 key1 value1, notFoundEvent 1 key1], e.Logged) ∧
      ¬(exitCode [setEvent 0 key1 value1, notFoundEvent 1 key1] = some 2 →
        Benign [setEvent 0 key1 value1, notFoundEvent 1 key1])) ∧
    ((∀ e ∈ [notFoundEvent 0 key2, setEvent 1 key1 value1, foundEvent 2 key1 value2], e.Logged) ∧
      ¬(exitCode [notFoundEvent 0 key2, setEvent 1 key1 value1, foundEvent 2 key1 value2] = some 2 →
        Benign [notFoundEvent 0 key2, setEvent 1 key1 value1, foundEvent 2 key1 value2])) := by
  refine ⟨⟨by simp [logged_setEvent, logged_notFoundEvent], fun h => ?_⟩,
    by simp [logged_setEvent, logged_notFoundEvent, logged_foundEvent], fun h => ?_⟩
  · have hlost := (h (by decide) [setEvent 0 key1 value1] (notFoundEvent 1 key1) [] key1 rfl ⟨rfl, rfl⟩).1
    exact absurd (hlost ⟨rfl, rfl⟩) (by decide)
  · have hstale := (h (by decide) [notFoundEvent 0 key2, setEvent 1 key1 value1] (foundEvent 2 key1 value2) [] key1 rfl
      ⟨rfl, rfl⟩).2
    exact absurd (hstale (by decide)) (by decide)

end ConsistencyTest

end KVStore
