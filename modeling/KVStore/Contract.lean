import KVStore.Lib.Register
import KVStore.TotalMap

/-!
# The contract of the service, over whole runs

The comments of `kvstore.thrift` speak of key-value pairs that exist or not.  Over a sequence of requests this is
`lastWrite`: the pair of `k` exists when the last `kvset` or `kvdelete` on `k` is a `kvset` (`exists_pair_iff`).

* `kvget` infers the existence from the value, so it meets its contract except after `kvset(k, "")`
  (`kvget_contract_iff`).
* `kvdelete` drops the count that `erase` returns, so it meets its contract only on pairs that exist
  (`kvdelete_contract_iff`).
-/

namespace KVStore

/-- The requests that write the entry of `k`. -/
def Request.writes (k : String) : Request → Bool
  | .kvset key _ => key = k
  | .kvget _ => false
  | .kvdelete key => key = k

/-- The last `kvset` or `kvdelete` on `k`. -/
def lastWrite (k : String) (reqs : List Request) : Option Request :=
  Register.last (fun r => if r.writes k then some r else none) reqs

/-- A key-value pair for `k` exists: some `kvset` on `k` has not been followed by a `kvdelete` on `k`. -/
def ExistsPair (k : String) (reqs : List Request) : Prop :=
  ∃ pre v post, reqs = pre ++ .kvset k v :: post ∧ .kvdelete k ∉ post

/-- A sequence of requests in which no operation throws. -/
def quiet (reqs : List Request) : List Call := reqs.map fun r => { request := r }

/-- The value a request leaves in the entry it writes. -/
def Request.newValue : Request → String
  | .kvset _ value => value
  | _ => ""

theorem lastWrite_eq_some_iff {k : String} {reqs : List Request} {r : Request} :
    lastWrite k reqs = some r ↔
      ∃ pre post, reqs = pre ++ r :: post ∧ r.writes k ∧ ∀ y ∈ post, y.writes k = false := by
  rw [lastWrite, Register.last_eq_some_iff]
  constructor
  · intro h
    obtain ⟨pre, x, post, rfl, hx, hn⟩ := h
    obtain ⟨hw, hxr⟩ := Option.ite_none_right_eq_some.1 hx
    obtain rfl := Option.some.inj hxr
    exact ⟨pre, post, rfl, hw, fun y hy => by simpa using hn y hy⟩
  · intro h
    obtain ⟨pre, post, rfl, hw, hn⟩ := h
    exact ⟨pre, r, post, rfl, by rw [if_pos hw], fun y hy => by simp [hn y hy]⟩

theorem writes_iff {k : String} {r : Request} : r.writes k ↔ (∃ v, r = .kvset k v) ∨ r = .kvdelete k := by
  cases r <;> simp [Request.writes]

theorem exists_pair_iff {k : String} {reqs : List Request} :
    ExistsPair k reqs ↔ ∃ v, lastWrite k reqs = some (.kvset k v) := by
  constructor
  · intro h
    obtain ⟨pre, v, post, rfl, hn⟩ := h
    have e : lastWrite k (pre ++ .kvset k v :: post) = (lastWrite k post).or (some (.kvset k v)) := by
      rw [lastWrite, List.append_cons, Register.last_append,
        Register.last_concat_of_eq_some (b := .kvset k v) (by simp [Request.writes])]
      rfl
    cases h : lastWrite k post with
    | none => exact ⟨v, by rw [e, h]; rfl⟩
    | some r =>
      obtain ⟨a, b, rfl, hw, _⟩ := lastWrite_eq_some_iff.1 h
      rcases writes_iff.1 hw with ⟨w, rfl⟩ | rfl
      · exact ⟨w, by rw [e, h]; rfl⟩
      · exact absurd (by simp) hn
  · intro h
    obtain ⟨v, h⟩ := h
    obtain ⟨pre, post, rfl, _, hn⟩ := lastWrite_eq_some_iff.1 h
    refine ⟨pre, v, post, rfl, fun hm => ?_⟩
    simpa [Request.writes] using hn _ hm

/-! ### The state and the replies of a quiet run -/

theorem after_quiet (p : Program) {s : Server} (hl : s.lck = false) (reqs : List Request) :
    p.after s (quiet reqs) = { s with sharedKvstore := reqs.foldl effect s.sharedKvstore } := by
  induction reqs generalizing s with
  | nil => rfl
  | cons r reqs ih =>
    have h : p.handle s { request := r } = (.reply (answer s.sharedKvstore r),
        { s with sharedKvstore := effect s.sharedKvstore r }) :=
      p.handle_eq hl (by cases r <;> rfl)
    show p.after (p.handle s { request := r }).2 (quiet reqs) = _
    rw [h, ih (s := { s with sharedKvstore := effect s.sharedKvstore r }) hl]
    rfl

/-- The reply to a request of a quiet run from the empty store. -/
theorem getElem?_replies_quiet (p : Program) (pre post : List Request) (r : Request) :
    (p.replies {} (quiet (pre ++ r :: post)))[pre.length]? =
      some (.reply (answer (pre.foldl effect Store.empty) r)) := by
  have h := p.getElem?_replies {} (quiet pre) (quiet post) { request := r }
  rw [after_quiet p rfl, p.handle_eq rfl (by cases r <;> rfl)] at h
  simpa [quiet] using h

/-- What a key reads as after a sequence of requests: the value of its last write. -/
theorem value_foldl_effect (k : String) (m : Store) (reqs : List Request) :
    (reqs.foldl effect m).value k = ((lastWrite k reqs).map Request.newValue).getD (m.value k) := by
  have h := Register.foldl_view effect (fun m => m.value k)
    (fun r => (if r.writes k then some r else none).map Request.newValue) (fun m r => ?_) m reqs
  · rw [h, Register.last_map]; rfl
  · show (effect m r).value k = _
    rw [value_effect]
    cases r with
    | kvset key value =>
      by_cases hk : k = key
      · subst hk; simp [TotalMap.effect, Request.writes, Request.newValue]
      · simp [TotalMap.effect, Request.writes, hk, Ne.symm hk]
    | kvget key => rfl
    | kvdelete key =>
      by_cases hk : k = key
      · subst hk; simp [TotalMap.effect, Request.writes, Request.newValue]
      · simp [TotalMap.effect, Request.writes, hk, Ne.symm hk]

/-! ### `kvget` -/

/-- What the contract asks of the reply to `kvget(k)` after the requests `pre`. -/
def GetMeets (pre : List Request) (k : String) (reply : Reply) : Prop :=
  (∀ v, (∃ r, reply = .reply r ∧ r.error = .kSuccess ∧ r.value = v) ↔ lastWrite k pre = some (.kvset k v)) ∧
  ((∃ r, reply = .reply r ∧ r.error = .kKeyNotFound) ↔
    lastWrite k pre = none ∨ lastWrite k pre = some (.kvdelete k))

/-- Every `kvget` of a run from the empty store meets the contract. -/
def KvgetContract (p : Program) (reqs : List Request) : Prop :=
  ∀ pre k post, reqs = pre ++ .kvget k :: post →
    ∃ reply, (p.replies {} (quiet reqs))[pre.length]? = some reply ∧ GetMeets pre k reply

theorem getMeets_iff (pre : List Request) (k : String) :
    GetMeets pre k (.reply (answer (pre.foldl effect Store.empty) (.kvget k))) ↔
      lastWrite k pre ≠ some (.kvset k "") := by
  have hv := value_foldl_effect k Store.empty pre
  simp only [GetMeets, answer, Reply.reply.injEq, exists_eq_left', hv]
  cases h : lastWrite k pre with
  | none => simp
  | some r =>
    obtain ⟨_, _, _, hw, _⟩ := lastWrite_eq_some_iff.1 h
    rcases writes_iff.1 hw with ⟨w, rfl⟩ | rfl
    · by_cases he : w = ""
      · simp [Request.newValue, he]
      · simp [Request.newValue, he]
    · simp [Request.newValue]

/-- A run meets the contract of `kvget` iff no `kvget` comes when the last write to its key set it to `""`. -/
theorem kvget_contract_iff (p : Program) (reqs : List Request) :
    KvgetContract p reqs ↔
      ∀ pre k post, reqs = pre ++ .kvget k :: post → lastWrite k pre ≠ some (.kvset k "") := by
  constructor
  · intro h pre k post e
    subst e
    obtain ⟨reply, hr, hm⟩ := h pre k post rfl
    rw [getElem?_replies_quiet, Option.some.injEq] at hr
    exact (getMeets_iff pre k).1 (hr ▸ hm)
  · intro h pre k post e
    subst e
    exact ⟨_, getElem?_replies_quiet p pre post _, (getMeets_iff pre k).2 (h pre k post rfl)⟩

/-- The empty string that was just set is answered with `kKeyNotFound`. -/
theorem kvget_denies_empty_value :
    ¬KvgetContract .kvserver [.kvset "hi" "", .kvget "hi"] ∧
    ¬KvgetContract .kvserverConsistent [.kvset "hi" "", .kvget "hi"] := by
  have h : ∀ p, ¬KvgetContract p [.kvset "hi" "", .kvget "hi"] := by
    intro p hc
    obtain ⟨reply, hr, hm⟩ := hc [.kvset "hi" ""] "hi" [] rfl
    rw [show [Request.kvset "hi" "", .kvget "hi"] = [.kvset "hi" ""] ++ .kvget "hi" :: [] from rfl,
      getElem?_replies_quiet, Option.some.injEq] at hr
    subst hr
    exact (getMeets_iff [.kvset "hi" ""] "hi").1 hm (by decide)
  exact ⟨h _, h _⟩

/-! ### `kvdelete` -/

/-- Every `kvdelete` of a run from the empty store meets the contract. -/
def KvdeleteContract (p : Program) (reqs : List Request) : Prop :=
  ∀ pre k post, reqs = pre ++ .kvdelete k :: post →
    ∃ r, (p.replies {} (quiet reqs))[pre.length]? = some (.reply r) ∧
      (r.error = .kSuccess ↔ ExistsPair k pre) ∧ (r.error = .kKeyNotFound ↔ ¬ExistsPair k pre)

/-- A run meets the contract of `kvdelete` iff every `kvdelete` comes when its pair exists. -/
theorem kvdelete_contract_iff (p : Program) (reqs : List Request) :
    KvdeleteContract p reqs ↔
      ∀ pre k post, reqs = pre ++ .kvdelete k :: post → ExistsPair k pre := by
  constructor
  · intro h pre k post e
    subst e
    obtain ⟨r, hr, hs, _⟩ := h pre k post rfl
    rw [getElem?_replies_quiet, Option.some.injEq, Reply.reply.injEq] at hr
    exact hs.1 (by rw [← hr]; rfl)
  · intro h pre k post e
    subst e
    have hp := h pre k post rfl
    exact ⟨_, getElem?_replies_quiet p pre post _, by simp [answer, hp], by simp [answer, hp]⟩

/-- A key that was never set is deleted with `kSuccess`. -/
theorem kvdelete_grants_missing_key :
    ¬KvdeleteContract .kvserver [.kvget "hi", .kvdelete "hi"] ∧
    ¬KvdeleteContract .kvserverConsistent [.kvget "hi", .kvdelete "hi"] := by
  have h : ∀ p, ¬KvdeleteContract p [.kvget "hi", .kvdelete "hi"] := by
    intro p hc
    obtain ⟨r, hr, hs, _⟩ := hc [.kvget "hi"] "hi" [] rfl
    rw [show [Request.kvget "hi", .kvdelete "hi"] = [.kvget "hi"] ++ .kvdelete "hi" :: [] from rfl,
      getElem?_replies_quiet, Option.some.injEq, Reply.reply.injEq] at hr
    obtain ⟨v, hv⟩ := exists_pair_iff.1 (hs.1 (by rw [← hr]; rfl))
    rw [show lastWrite "hi" [.kvget "hi"] = none from rfl] at hv
    cases hv
  exact ⟨h _, h _⟩

end KVStore
