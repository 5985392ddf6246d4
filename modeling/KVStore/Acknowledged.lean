import KVStore.Contract
import KVStore.Failures
import KVStore.LockLeak

/-!
# Acknowledged writes

What the answers tell a client about the store, in any run of either program, whatever throws and also when the lock
has leaked.  A write takes effect exactly if it is answered with `kSuccess` (`Handled.value`), so a key reads as its
last acknowledged write left it (`value_after`), and this is what a `kvget` gives (`kvget_reads_acknowledged`).
-/

namespace KVStore

/-- The handlers of `kvserver` do not know the lock. -/
def Program.Ready (p : Program) (s : Server) : Prop := p = .kvserver → s.lck = false

/-- What a call has written to `k`, as the client knows from its reply. -/
def acknowledged (k : String) (x : Call × Reply) : Option String :=
  if x.2.error = some .kSuccess ∧ x.1.request.writes k then some x.1.request.newValue else none

/-- The value that the last acknowledged write has left in `k`. -/
def lastAcknowledged (p : Program) (k : String) (s : Server) (calls : List Call) : Option String :=
  Register.last (acknowledged k) (calls.zip (p.replies s calls))

/-! ### One call -/

/-- The ways a call can go. -/
inductive Handled (s : Server) (c : Call) : Reply → Server → Prop
  | done : Handled s c (.reply (answer s.sharedKvstore c.request))
      { s with sharedKvstore := effect s.sharedKvstore c.request }
  | denied (key : String) : c.request = .kvget key → c.faults.breaks s.sharedKvstore c.request →
      Handled s c (.reply { error := .kKeyNotFound })
        { s with sharedKvstore := afterBreak c.faults s.sharedKvstore key }
  | failed (key value : String) : c.request = .kvset key value →
      Handled s c (.reply { error := .kError, errortext := "Server could not store value" })
        { s with sharedKvstore := afterBreak c.faults s.sharedKvstore key }
  /-- the lock may have leaked -/
  | thrown (key value : String) (lck : Bool) : c.request = .kvset key value →
      Handled s c .exception { sharedKvstore := afterBreak c.faults s.sharedKvstore key, lck := lck }
  | hang : s.lck → Handled s c .hang s

theorem handled_of_unlocked (p : Program) {s : Server} (hl : s.lck = false) (c : Call) :
    Handled s c (p.handle s c).1 (p.handle s c).2 := by
  cases hb : c.faults.breaks s.sharedKvstore c.request with
  | false =>
    rw [p.handle_eq hl hb]
    exact .done
  | true =>
    obtain ⟨r, f⟩ := c
    cases r with
    | kvset key value =>
      rw [p.handle_kvset_of_breaks hl hb]
      cases he : f.errortext with
      | true => exact .thrown key value _ rfl
      | false =>
        have h := Handled.failed (s := s) (c := ⟨.kvset key value, f⟩) key value rfl
        simpa [hl] using h
    | kvget key =>
      rw [p.handle_kvget_of_breaks hl hb]
      exact .denied key rfl hb
    | kvdelete key => exact absurd hb Bool.false_ne_true

theorem handled {p : Program} {s : Server} (hs : p.Ready s) (c : Call) :
    Handled s c (p.handle s c).1 (p.handle s c).2 := by
  by_cases hl : s.lck = true
  · cases p with
    | kvserver =>
      rw [hs rfl] at hl
      cases hl
    | kvserverConsistent =>
      obtain ⟨r, f⟩ := c
      cases r with
      | kvset key value =>
        rw [handle_of_locked hl (by simp)]
        exact .hang hl
      | kvget key =>
        rw [handle_of_locked hl (by simp)]
        exact .hang hl
      | kvdelete key => exact .done
  · exact handled_of_unlocked p (by simpa using hl) c

theorem Program.Ready.handle {p : Program} {s : Server} (hs : p.Ready s) (c : Call) : p.Ready (p.handle s c).2 := by
  intro hp
  subst hp
  exact (step_simulates (hs rfl) c).1

private theorem acknowledged_of_error_ne {k : String} {c : Call} {reply : Reply}
    (h : reply.error ≠ some .kSuccess) : acknowledged k (c, reply) = none := if_neg fun h' => h h'.1

private theorem acknowledged_answer (m : Store) (k : String) (c : Call) :
    acknowledged k (c, .reply (answer m c.request)) =
      if c.request.writes k then some c.request.newValue else none := by
  obtain ⟨r, f⟩ := c
  cases r with
  | kvset key value => simp [acknowledged, answer, Reply.error]
  | kvget key => simp [acknowledged, Request.writes]
  | kvdelete key => simp [acknowledged, answer, Reply.error]

private theorem value_effect_apply (m : Store) (r : Request) (k : String) :
    (effect m r).value k = (if r.writes k then some r.newValue else none).getD (m.value k) := by
  have h := value_foldl_effect k m [r]
  rw [List.foldl_cons, List.foldl_nil, lastWrite, Register.last_cons] at h
  rw [h]
  by_cases hw : r.writes k
  · simp [Register.last, hw]
  · simp [Register.last, hw]

/-- A call changes what a key reads as exactly as its reply says. -/
theorem Handled.value {s s' : Server} {c : Call} {reply : Reply} (h : Handled s c reply s') (k : String) :
    s'.sharedKvstore.value k = (acknowledged k (c, reply)).getD (s.sharedKvstore.value k) := by
  cases h with
  | done => rw [acknowledged_answer, value_effect_apply]
  | denied key hr _ =>
    rw [acknowledged_of_error_ne (by simp [Reply.error])]
    exact congrFun (value_afterBreak c.faults s.sharedKvstore key) k
  | failed key value hr =>
    rw [acknowledged_of_error_ne (by simp [Reply.error])]
    exact congrFun (value_afterBreak c.faults s.sharedKvstore key) k
  | thrown key value lck hr =>
    rw [acknowledged_of_error_ne (by simp [Reply.error])]
    exact congrFun (value_afterBreak c.faults s.sharedKvstore key) k
  | hang _ =>
    rw [acknowledged_of_error_ne (by simp [Reply.error])]
    rfl

/-- What a reply holds: the value of the key that was asked for, or nothing. -/
theorem Handled.texts {s s' : Server} {c : Call} {res : Result} (h : Handled s c (.reply res) s') :
    (res.value = "" ∨ res.value = s.sharedKvstore.value c.request.key) ∧
    (res.errortext = "" ∨ res.errortext = "Server could not store value") := by
  cases h with
  | done =>
    obtain ⟨r, f⟩ := c
    cases r with
    | kvset key value => exact ⟨Or.inl rfl, Or.inl rfl⟩
    | kvget key => exact ⟨Or.inr rfl, Or.inl rfl⟩
    | kvdelete key => exact ⟨Or.inl rfl, Or.inl rfl⟩
  | denied key _ _ => exact ⟨Or.inl rfl, Or.inl rfl⟩
  | failed key value _ => exact ⟨Or.inl rfl, Or.inr rfl⟩

/-- The answer to a `kvget`. -/
theorem Handled.kvget {s s' : Server} {key : String} {f : Faults} {res : Result}
    (h : Handled s ⟨.kvget key, f⟩ (.reply res) s') :
    (res.error = .kSuccess ∧ res.value = s.sharedKvstore.value key ∧ res.value ≠ "") ∨
      (res.error = .kKeyNotFound ∧ res.value = "" ∧
        (s.sharedKvstore.value key = "" ∨ f.breaks s.sharedKvstore (.kvget key))) := by
  cases h with
  | done =>
    by_cases hv : s.sharedKvstore.value key = ""
    · exact Or.inr ⟨by simp [answer, hv], hv, Or.inl hv⟩
    · exact Or.inl ⟨by simp [answer, hv], rfl, hv⟩
  | denied _ _ hb => exact Or.inr ⟨rfl, rfl, Or.inr hb⟩
  | failed key value hr => cases hr

/-! ### Whole runs -/

theorem Program.Ready.after {p : Program} {s : Server} (hs : p.Ready s) (calls : List Call) :
    p.Ready (p.after s calls) := by
  induction calls generalizing s with
  | nil => exact hs
  | cons c calls ih => exact ih (hs.handle c)

/-- After a run a key reads as its last acknowledged write has left it. -/
theorem value_after {p : Program} {s : Server} (hs : p.Ready s) (calls : List Call) (k : String) :
    (p.after s calls).sharedKvstore.value k = (lastAcknowledged p k s calls).getD (s.sharedKvstore.value k) := by
  induction calls generalizing s with
  | nil => rfl
  | cons c calls ih =>
    have hlast : lastAcknowledged p k s (c :: calls) =
        (lastAcknowledged p k (p.handle s c).2 calls).or (acknowledged k (c, (p.handle s c).1)) :=
      Register.last_cons _ _ _
    have hrest := ih (hs.handle c)
    rw [(handled hs c).value] at hrest
    rw [hlast]
    refine hrest.trans ?_
    cases lastAcknowledged p k (p.handle s c).2 calls <;> rfl

/-- A `kvget` that succeeds gives what the last acknowledged write to its key has set; one that denies the key comes
when nothing is set, or when its `try` block throws; it gives no other answer. -/
theorem kvget_reads_acknowledged (p : Program) (pre post : List Call) (k : String) (f : Faults) (res : Result)
    (h : (p.replies {} (pre ++ ⟨.kvget k, f⟩ :: post))[pre.length]? = some (.reply res)) :
    (res.error = .kSuccess ∧ lastAcknowledged p k {} pre = some res.value ∧ res.value ≠ "") ∨
      (res.error = .kKeyNotFound ∧ res.value = "" ∧
        ((lastAcknowledged p k {} pre).getD "" = "" ∨ f.breaks (p.after {} pre).sharedKvstore (.kvget k))) := by
  have hs : p.Ready {} := fun _ => rfl
  rw [Program.getElem?_replies, Option.some.injEq] at h
  have hh := handled (hs.after pre) ⟨.kvget k, f⟩
  rw [h] at hh
  have hv := value_after hs pre k
  rcases hh.kvget with ⟨h1, h2, h3⟩ | ⟨h1, h2, h3⟩
  · refine Or.inl ⟨h1, ?_, h3⟩
    rw [hv] at h2
    cases hl : lastAcknowledged p k {} pre with
    | none =>
      rw [hl] at h2
      exact absurd h2 h3
    | some v => rw [h2, hl]; rfl
  · rw [hv] at h3
    exact Or.inr ⟨h1, h2, h3⟩

/-- The second write fails, so the first one is read. -/
theorem kvget_reads_acknowledged_hi_bye :
    lastAcknowledged .kvserverConsistent "hi" {} [⟨.kvset "hi" "bye", {}⟩, ⟨.kvset "hi" "gone", { assign := true }⟩] =
      some "bye" := by
  have h := kvget_reads_acknowledged .kvserverConsistent
    [⟨.kvset "hi" "bye", {}⟩, ⟨.kvset "hi" "gone", { assign := true }⟩] [] "hi" {} { value := "bye" } (by decide)
  rcases h with ⟨_, h, _⟩ | ⟨h, _⟩
  · exact h
  · cases h

end KVStore
