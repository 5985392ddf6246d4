import KVStore.Contract
import KVStore.Lib.Keyed

/-!
# The entries of the store

A request works on the entry of its key only, so the store is a machine with independent cells: the replies to the
requests on a key and the final entry of the key do not depend on the requests on other keys
(`keys_do_not_interfere`).

`kvget` uses `operator[]`, so it makes an entry for a key that has none.  The store holds what the clients have set
iff every `kvget` comes when its pair exists (`holds_what_was_set_iff`).
-/

namespace KVStore

/-- What a request does to the entry of its key. -/
def Request.onEntry : Request → Option String → Option String
  | .kvset _ value, _ => some value
  | .kvget _, entry => some (entry.getD "")
  | .kvdelete _, _ => none

/-- The answer to a request, from the entry of its key. -/
def Request.answerFrom : Request → Option String → Result
  | .kvset _ _, _ => {}
  | .kvget _, entry =>
    { value := entry.getD "", error := if entry.getD "" ≠ "" then .kSuccess else .kKeyNotFound }
  | .kvdelete _, _ => {}

theorem effect_eq_step (m : Store) (r : Request) : effect m r = Keyed.step Request.key Request.onEntry m r := by
  cases r with
  | kvset key value => rfl
  | kvdelete key => rfl
  | kvget key =>
    show m.locate key = Function.update m key (some ((m key).getD ""))
    unfold Store.locate
    cases h : m key with
    | none => rfl
    | some v => exact (Function.update_eq_self_iff.2 h.symm).symm

theorem answer_eq_answerFrom (m : Store) (r : Request) : answer m r = r.answerFrom (m r.key) := by
  cases r <;> rfl

theorem foldl_effect_eq (m : Store) (reqs : List Request) :
    reqs.foldl effect m = reqs.foldl (Keyed.step Request.key Request.onEntry) m :=
  congrArg (fun f => reqs.foldl f m) (funext fun m => funext fun r => effect_eq_step m r)

/-! ### Keys do not interfere -/

theorem replies_quiet (p : Program) (m : Store) (reqs : List Request) :
    p.replies { sharedKvstore := m } (quiet reqs) =
      (Keyed.outputs Request.key Request.onEntry Request.answerFrom m reqs).map .reply := by
  induction reqs generalizing m with
  | nil => rfl
  | cons r reqs ih =>
    have h : p.handle { sharedKvstore := m } { request := r } =
        (.reply (answer m r), { sharedKvstore := effect m r }) :=
      p.handle_eq rfl (by cases r <;> rfl)
    show (p.handle { sharedKvstore := m } { request := r }).1 ::
      p.replies (p.handle { sharedKvstore := m } { request := r }).2 (quiet reqs) = _
    rw [h, ih, Keyed.outputs, List.map_cons, answer_eq_answerFrom, effect_eq_step]

/-- From any store, the replies to the requests on `k` and the final entry of `k` are those of a run with these
requests alone. -/
theorem keys_do_not_interfere (p : Program) (m : Store) (reqs : List Request) (k : String) :
    Keyed.answersOn Request.key k reqs (p.replies { sharedKvstore := m } (quiet reqs)) =
        p.replies { sharedKvstore := m } (quiet (Keyed.on Request.key k reqs)) ∧
      (p.after { sharedKvstore := m } (quiet reqs)).sharedKvstore k =
        (p.after { sharedKvstore := m } (quiet (Keyed.on Request.key k reqs))).sharedKvstore k := by
  obtain ⟨hout, hcell⟩ := Keyed.run_on Request.key Request.onEntry Request.answerFrom k m reqs
  constructor
  · rw [replies_quiet, replies_quiet, Keyed.answersOn_map, hout]
  · rw [after_quiet p rfl, after_quiet p rfl, foldl_effect_eq, foldl_effect_eq]
    exact hcell

/-! ### Which keys are present -/

/-- In every state of a run from the empty store the keys present are those whose last write is a `kvset`, and no
`kvget` adds one. -/
structure HoldsWhatWasSet (p : Program) (reqs : List Request) : Prop where
  present : ∀ pre k, pre <+: reqs →
    (((p.after {} (quiet pre)).sharedKvstore k).isSome ↔ ∃ v, lastWrite k pre = some (.kvset k v))
  reads : ∀ pre key k, pre ++ [.kvget key] <+: reqs →
    ((p.after {} (quiet (pre ++ [.kvget key]))).sharedKvstore k).isSome →
      ((p.after {} (quiet pre)).sharedKvstore k).isSome

theorem lastWrite_concat (k : String) (reqs : List Request) (r : Request) :
    lastWrite k (reqs ++ [r]) = if r.writes k then some r else lastWrite k reqs := by
  rw [lastWrite, Register.last_concat]
  by_cases h : r.writes k
  · simp [h]
  · simp [h]
    rfl

theorem writes_of_ne {k : String} {r : Request} (h : r.key ≠ k) : r.writes k = false := by
  cases r with
  | kvset key value => exact decide_eq_false h
  | kvget key => rfl
  | kvdelete key => exact decide_eq_false h

theorem isSome_foldl_effect_iff {reqs : List Request}
    (h : ∀ pre k post, reqs = pre ++ .kvget k :: post → ExistsPair k pre) (k : String) :
    ((reqs.foldl effect Store.empty) k).isSome ↔ ∃ v, lastWrite k reqs = some (.kvset k v) := by
  induction reqs using List.reverseRecOn with
  | nil => simp [Store.empty, lastWrite, Register.last]
  | append_singleton reqs r ih =>
    have ih := ih fun pre k post e => h pre k (post ++ [r]) (by rw [e]; simp)
    rw [List.foldl_append, List.foldl_cons, List.foldl_nil, effect_eq_step, lastWrite_concat]
    by_cases hk : r.key = k
    · rw [Keyed.step_self hk]
      cases r with
      | kvset key value =>
        obtain rfl : key = k := hk
        simp [Request.onEntry, Request.writes]
      | kvdelete key =>
        obtain rfl : key = k := hk
        simp [Request.onEntry, Request.writes]
      | kvget key =>
        -- the pair of the key exists, so its entry was there before
        obtain rfl : key = k := hk
        have hp := exists_pair_iff.1 (h reqs key [] rfl)
        simpa [Request.onEntry, Request.writes] using hp
    · rw [Keyed.step_of_ne hk, ih, writes_of_ne hk]
      rfl

/-- `kvget` leaves its key present. -/
theorem isSome_after_kvget (p : Program) (pre : List Request) (k : String) :
    ((p.after {} (quiet (pre ++ [.kvget k]))).sharedKvstore k).isSome := by
  rw [after_quiet p rfl, List.foldl_append]
  exact Store.isSome_locate _ k

/-- The keys present are those that were set last iff every `kvget` comes when its pair exists. -/
theorem holds_what_was_set_iff (p : Program) (reqs : List Request) :
    HoldsWhatWasSet p reqs ↔ ∀ pre k post, reqs = pre ++ .kvget k :: post → ExistsPair k pre := by
  constructor
  · intro h pre k post e
    have hpre : pre ++ [.kvget k] <+: reqs := ⟨post, by rw [e]; simp⟩
    obtain ⟨v, hv⟩ := (h.present _ k hpre).1 (isSome_after_kvget p pre k)
    rw [lastWrite_concat] at hv
    exact exists_pair_iff.2 ⟨v, hv⟩
  · intro h
    have hpresent : ∀ pre k, pre <+: reqs →
        (((p.after {} (quiet pre)).sharedKvstore k).isSome ↔ ∃ v, lastWrite k pre = some (.kvset k v)) := by
      intro pre k hpre
      obtain ⟨post, rfl⟩ := hpre
      rw [after_quiet p rfl]
      refine isSome_foldl_effect_iff (fun a k b e => ?_) k
      exact h a k (b ++ post) (by rw [e]; simp)
    refine ⟨hpresent, fun pre key k hpre hs => ?_⟩
    have hpre' : pre <+: reqs := (List.prefix_append pre _).trans hpre
    rw [hpresent _ k hpre, lastWrite_concat] at hs
    exact (hpresent pre k hpre').2 hs

/-- One `kvget` of a key that nobody has set makes an entry. -/
theorem kvget_grows_store :
    ¬HoldsWhatWasSet .kvserver [.kvget "hi"] ∧ ¬HoldsWhatWasSet .kvserverConsistent [.kvget "hi"] := by
  have h : ∀ p, ¬HoldsWhatWasSet p [.kvget "hi"] := by
    intro p hs
    obtain ⟨v, hv⟩ := (hs.present [.kvget "hi"] "hi" (List.prefix_refl _)).1 (isSome_after_kvget p [] "hi")
    cases hv
  exact ⟨h _, h _⟩

end KVStore
