import KVStore.Handler

/-!
# What a call does

One equation for each way a call can go.  If no operation of its `try` block throws, the reply and the new store
are `answer` and `effect` in both programs (`Program.handle_eq`).  If one does, the store is `afterBreak`: at most
an empty entry of the key is new, and the `catch` block decides on the reply (`Program.handle_kvset_of_breaks`,
`Program.handle_kvget_of_breaks`).
-/

namespace KVStore

open Handler Throws

/-- The answer to a request in which nothing throws. -/
def answer (m : Store) : Request → Result
  | .kvset _ _ => {}
  | .kvget key =>
    { value := m.value key, error := if m.value key ≠ "" then .kSuccess else .kKeyNotFound }
  | .kvdelete _ => {}

/-- The effect of a request in which nothing throws. -/
def effect (m : Store) : Request → Store
  | .kvset key value => m.assign key value
  | .kvget key => m.locate key
  | .kvdelete key => m.erase key

/-- A throwing operation of the `try` block is reached. -/
def Faults.breaks (f : Faults) (m : Store) : Request → Bool
  | .kvset key _ => (f.create && (m key).isNone) || f.assign
  | .kvget key => (f.create && (m key).isNone) || f.copy
  | .kvdelete _ => false

/-- The store when the `try` block of a request on `key` throws. -/
def afterBreak (f : Faults) (m : Store) (key : String) : Store :=
  if f.create && (m key).isNone then m else m.locate key

/-! ### The bodies -/

private theorem exec_throwIf_bind (b : Bool) (g : Unit → Handler Unit) (m : Memory) :
    exec (throwIf b >>= g) m = if b then (.error .thrown, m) else exec (g ()) m := by
  cases b <;> rfl

private theorem exec_locate (f : Faults) (key : String) (m : Memory) :
    exec (locate f key) m =
      if f.create && (m.sharedKvstore key).isNone then (.error .thrown, m)
      else (.ok (), { m with sharedKvstore := m.sharedKvstore.locate key }) := by
  rw [locate, exec_bind_ok (exec_get m), exec_throwIf_bind, exec_set]

private theorem exec_assign (f : Faults) (key value : String) (m : Memory) :
    exec (assign f key value) m =
      if f.assign then (.error .thrown, m)
      else (.ok (), { m with sharedKvstore := m.sharedKvstore.assign key value }) := by
  rw [assign, exec_throwIf_bind, exec_modify]

private theorem exec_copy (f : Faults) (key : String) (m : Memory) :
    exec (copy f key) m =
      if f.copy then (.error .thrown, m)
      else (.ok (), { m with ret.value := m.sharedKvstore.value key }) := by
  rw [copy, exec_throwIf_bind, exec_modify]

theorem exec_setBody {f : Faults} {key value : String} {m : Memory}
    (h : f.breaks m.sharedKvstore (.kvset key value) = false) :
    exec (setBody f key value) m =
      (.ok (), { m with sharedKvstore := m.sharedKvstore.assign key value, ret.error := .kSuccess }) := by
  simp only [Faults.breaks, Bool.or_eq_false_iff] at h
  have h1 : exec (locate f key) m = (.ok (), { m with sharedKvstore := m.sharedKvstore.locate key }) := by
    rw [exec_locate, h.1]; rfl
  rw [setBody]
  apply exec_tryCatch_ok
  rw [exec_bind_ok h1, exec_bind, exec_assign, h.2]
  simp [setError]

theorem exec_setBody_of_breaks {f : Faults} {key value : String} {m : Memory}
    (h : f.breaks m.sharedKvstore (.kvset key value) = true) :
    exec (setBody f key value) m =
      if f.errortext then
        (.error .thrown, { m with
          sharedKvstore := afterBreak f m.sharedKvstore key, ret.error := .kError })
      else
        (.ok (), { m with
          sharedKvstore := afterBreak f m.sharedKvstore key
          ret.error := .kError
          ret.errortext := "Server could not store value" }) := by
  have h1 : exec (do locate f key; assign f key value; setError .kSuccess) m =
      (.error .thrown, { m with sharedKvstore := afterBreak f m.sharedKvstore key }) := by
    by_cases hc : f.create && (m.sharedKvstore key).isNone
    · rw [exec_bind, exec_locate, afterBreak, hc]
      rfl
    · have ha : f.assign = true := by simpa [Faults.breaks, hc] using h
      rw [exec_bind, exec_locate, afterBreak, if_neg hc, if_neg hc]
      dsimp only
      rw [exec_bind, exec_assign, if_pos ha]
  rw [setBody, exec_tryCatch_error h1, exec_bind, setError, exec_modify]
  dsimp only
  rw [setErrortext, exec_throwIf_bind, exec_modify]

theorem exec_getBody {f : Faults} {key : String} {m : Memory}
    (h : f.breaks m.sharedKvstore (.kvget key) = false) :
    exec (getBody f key) m =
      (.ok (), { m with
        sharedKvstore := m.sharedKvstore.locate key
        ret.value := m.sharedKvstore.value key
        ret.error := if m.sharedKvstore.value key ≠ "" then .kSuccess else .kKeyNotFound }) := by
  simp only [Faults.breaks, Bool.or_eq_false_iff] at h
  have h1 : exec (locate f key) m = (.ok (), { m with sharedKvstore := m.sharedKvstore.locate key }) := by
    rw [exec_locate, h.1]; rfl
  rw [getBody]
  apply exec_tryCatch_ok
  rw [exec_bind_ok h1, exec_bind, exec_copy, h.2]
  dsimp only
  rw [if_neg Bool.false_ne_true]
  dsimp only
  rw [exec_bind_ok (exec_get _), Store.value_locate]
  split <;> rfl

theorem exec_getBody_of_breaks {f : Faults} {key : String} {m : Memory}
    (h : f.breaks m.sharedKvstore (.kvget key) = true) :
    exec (getBody f key) m =
      (.ok (), { m with
        sharedKvstore := afterBreak f m.sharedKvstore key, ret.error := .kKeyNotFound }) := by
  have h1 : exec (do
        locate f key
        copy f key
        if (← get).ret.value ≠ "" then setError .kSuccess else setError .kKeyNotFound) m =
      (.error .thrown, { m with sharedKvstore := afterBreak f m.sharedKvstore key }) := by
    by_cases hc : f.create && (m.sharedKvstore key).isNone
    · rw [exec_bind, exec_locate, afterBreak, hc]
      rfl
    · have ha : f.copy = true := by simpa [Faults.breaks, hc] using h
      rw [exec_bind, exec_locate, afterBreak, if_neg hc, if_neg hc]
      dsimp only
      rw [exec_bind, exec_copy, if_pos ha]
  rw [getBody, exec_tryCatch_error h1, setError, exec_modify]

/-- A body between `lck.lock()` and `lck.unlock()`, the lock being free: an exception skips the unlock. -/
theorem exec_locked (b : Handler Unit) {m : Memory} (hl : m.lck = false) :
    exec (do lock; b; unlock) m = match exec b { m with lck := true } with
      | (.ok (), m') => (.ok (), { m' with lck := false })
      | (.error e, m') => (.error e, m') := by
  have h : exec lock m = (.ok (), { m with lck := true }) := by
    rw [lock, exec_bind_ok (exec_get m), if_neg (by simp [hl]), exec_set]
  rw [exec_bind_ok h, exec_bind]
  rcases exec b { m with lck := true } with ⟨_ | _, _⟩ <;> rfl

/-! ### Whole calls -/

/-- A call in which nothing throws, the lock being free. -/
theorem Program.handle_eq (p : Program) {s : Server} {c : Call} (hl : s.lck = false)
    (h : c.faults.breaks s.sharedKvstore c.request = false) :
    p.handle s c = (.reply (answer s.sharedKvstore c.request),
      { s with sharedKvstore := effect s.sharedKvstore c.request }) := by
  obtain ⟨m, l⟩ := s
  obtain ⟨r, f⟩ := c
  cases hl
  cases r with
  | kvset key value =>
    cases p with
    | kvserver =>
      simp only [handle, process, Program.handler, Kvserver.kvset]
      rw [exec_setBody h]; rfl
    | kvserverConsistent =>
      simp only [handle, process, Program.handler, KvserverConsistent.kvset]
      rw [exec_locked _ rfl, exec_setBody h]; rfl
  | kvget key =>
    cases p with
    | kvserver =>
      simp only [handle, process, Program.handler, Kvserver.kvget]
      rw [exec_getBody h]; rfl
    | kvserverConsistent =>
      simp only [handle, process, Program.handler, KvserverConsistent.kvget]
      rw [exec_locked _ rfl, exec_getBody h]; rfl
  | kvdelete key => cases p <;> rfl

/-- A `kvget` whose body throws answers `kKeyNotFound`. -/
theorem Program.handle_kvget_of_breaks (p : Program) {s : Server} {key : String} {f : Faults}
    (hl : s.lck = false) (h : f.breaks s.sharedKvstore (.kvget key) = true) :
    p.handle s ⟨.kvget key, f⟩ = (.reply { error := .kKeyNotFound },
      { s with sharedKvstore := afterBreak f s.sharedKvstore key }) := by
  obtain ⟨m, l⟩ := s
  cases hl
  cases p with
  | kvserver =>
    simp only [handle, process, Program.handler, Kvserver.kvget]
    rw [exec_getBody_of_breaks h]
  | kvserverConsistent =>
    simp only [handle, process, Program.handler, KvserverConsistent.kvget]
    rw [exec_locked _ rfl, exec_getBody_of_breaks h]

/-- A `kvset` whose body throws answers `kError`, unless the assignment of `errortext` throws too: then the
client gets an exception, and `kvserver_consistent` is left locked. -/
theorem Program.handle_kvset_of_breaks (p : Program) {s : Server} {key value : String} {f : Faults}
    (hl : s.lck = false) (h : f.breaks s.sharedKvstore (.kvset key value) = true) :
    p.handle s ⟨.kvset key value, f⟩ =
      (if f.errortext then .exception
        else .reply { error := .kError, errortext := "Server could not store value" },
        { sharedKvstore := afterBreak f s.sharedKvstore key
          lck := p = .kvserverConsistent ∧ f.errortext }) := by
  obtain ⟨m, l⟩ := s
  cases hl
  cases p with
  | kvserver =>
    simp only [handle, process, Program.handler, Kvserver.kvset]
    rw [exec_setBody_of_breaks h]
    cases f.errortext <;> rfl
  | kvserverConsistent =>
    simp only [handle, process, Program.handler, KvserverConsistent.kvset]
    rw [exec_locked _ rfl, exec_setBody_of_breaks h]
    cases f.errortext <;> rfl

end KVStore
