import KVStore.Lib.Machine
import KVStore.Outcomes

/-!
# Which calls leave `lck` held

`kvserver_consistent` unlocks by hand after the `catch` block.  The block of `kvset` assigns `errortext`, which may
throw as well: then the unlock is skipped (`lck_handle`).  So a run leaves the lock free after every call iff no
`kvset` meets an exception both in its `try` and in its `catch` block (`ends_unlocked_iff`), and once the lock has
leaked no `kvset` or `kvget` ever ends (`hang_of_leak`).
-/

namespace KVStore

open Handler Throws

/-- A program as a machine that takes calls. -/
def Program.step (p : Program) (s : Server) (c : Call) : Option Server := some (p.handle s c).2

/-- If the call ends, by returning or by an exception, it leaves `lck` free. -/
def EndsUnlocked (s : Server) (c : Call) : Prop :=
  (Program.kvserverConsistent.handle s c).1 ≠ .hang → (Program.kvserverConsistent.handle s c).2.lck = false

/-- A `kvset` that meets an exception in its `try` block and another one in its `catch` block. -/
def Leaks (s : Server) (c : Call) : Prop :=
  (∃ key value, c.request = .kvset key value) ∧ c.faults.breaks s.sharedKvstore c.request ∧ c.faults.errortext

/-- With the lock free a call of `kvserver_consistent` ends, and leaves the lock held iff it leaks it. -/
theorem lck_handle {s : Server} (hl : s.lck = false) (c : Call) :
    (Program.kvserverConsistent.handle s c).1 ≠ .hang ∧
    ((Program.kvserverConsistent.handle s c).2.lck = true ↔ Leaks s c) := by
  cases h : c.faults.breaks s.sharedKvstore c.request with
  | false =>
    rw [Program.handle_eq _ hl h]
    simp [Leaks, hl, h]
  | true =>
    obtain ⟨r, f⟩ := c
    cases r with
    | kvset key value =>
      rw [Program.handle_kvset_of_breaks _ hl h]
      cases he : f.errortext <;> simp [Leaks, h, he]
    | kvget key =>
      rw [Program.handle_kvget_of_breaks _ hl h]
      simp [Leaks, hl]
    | kvdelete key => exact absurd h Bool.false_ne_true

private theorem endsUnlocked_iff_not_leaks {s : Server} (hl : s.lck = false) (c : Call) :
    EndsUnlocked s c ↔ ¬Leaks s c := by
  obtain ⟨h1, h2⟩ := lck_handle hl c
  rw [EndsUnlocked, ← h2, Bool.not_eq_true]
  exact ⟨fun h => h h1, fun h _ => h⟩

private theorem along_endsUnlocked_iff {s : Server} (hl : s.lck = false) (calls : List Call) :
    Machine.Along Program.kvserverConsistent.step EndsUnlocked s calls ↔
      Machine.Along Program.kvserverConsistent.step (fun s c => ¬Leaks s c) s calls := by
  induction calls generalizing s with
  | nil => exact Iff.rfl
  | cons c calls ih =>
    simp only [Machine.Along, Program.step, Option.some.injEq, forall_eq', endsUnlocked_iff_not_leaks hl]
    -- as long as nothing leaks, each call starts with the lock free
    apply and_congr_right
    intro hc
    apply ih
    rwa [← (lck_handle hl c).2, Bool.not_eq_true] at hc

/-- From any store, every call of a run that ends leaves the lock free iff no `kvset` of the run throws both in
its `try` and in its `catch` block. -/
theorem ends_unlocked_iff (m : Store) (calls : List Call) :
    Machine.Along Program.kvserverConsistent.step EndsUnlocked { sharedKvstore := m } calls ↔
      Machine.Along Program.kvserverConsistent.step (fun s c => ¬Leaks s c) { sharedKvstore := m } calls :=
  along_endsUnlocked_iff rfl calls

/-- Memory runs out while the value is stored and again while the error text is. -/
theorem kvset_leaks_lock :
    ¬Machine.Along Program.kvserverConsistent.step EndsUnlocked {}
      [⟨.kvset "hi" "bye to everybody", { assign := true, errortext := true }⟩] := by
  rw [along_endsUnlocked_iff rfl]
  exact fun h => h.1 ⟨⟨"hi", "bye to everybody", rfl⟩, rfl, rfl⟩

/-! ### After a leak -/

/-- With the lock held, `kvset` and `kvget` hang. -/
theorem handle_of_locked {s : Server} (hl : s.lck = true) {c : Call} (hc : ∀ key, c.request ≠ .kvdelete key) :
    Program.kvserverConsistent.handle s c = (.hang, s) := by
  obtain ⟨m, l⟩ := s
  obtain ⟨r, f⟩ := c
  cases hl
  cases r with
  | kvset key value => rfl
  | kvget key => rfl
  | kvdelete key => exact absurd rfl (hc key)

/-- A lock that is held stays so. -/
theorem lck_handle_of_locked {s : Server} (hl : s.lck = true) (c : Call) :
    (Program.kvserverConsistent.handle s c).2.lck = true := by
  obtain ⟨r, f⟩ := c
  cases r with
  | kvdelete key => exact hl
  | kvset key value => rw [handle_of_locked hl (by simp)]; exact hl
  | kvget key => rw [handle_of_locked hl (by simp)]; exact hl

private theorem lck_after_of_locked {s : Server} (hl : s.lck = true) (calls : List Call) :
    (Program.kvserverConsistent.after s calls).lck = true := by
  induction calls generalizing s with
  | nil => exact hl
  | cons c calls ih => exact ih (s := (Program.kvserverConsistent.handle s c).2) (lck_handle_of_locked hl c)

/-- A call that ends with an exception leaves the lock held. -/
theorem locked_of_exception {s : Server} {c : Call} (h : (Program.kvserverConsistent.handle s c).1 = .exception) :
    (Program.kvserverConsistent.handle s c).2.lck = true := by
  cases hl : s.lck with
  | true => exact lck_handle_of_locked hl c
  | false =>
    refine (lck_handle hl c).2.2 ?_
    cases hb : c.faults.breaks s.sharedKvstore c.request with
    | false => rw [Program.handle_eq _ hl hb] at h; cases h
    | true =>
      obtain ⟨r, f⟩ := c
      cases r with
      | kvset key value =>
        rw [Program.handle_kvset_of_breaks _ hl hb] at h
        cases he : f.errortext with
        | false => simp [he] at h
        | true => exact ⟨⟨key, value, rfl⟩, hb, he⟩
      | kvget key => rw [Program.handle_kvget_of_breaks _ hl hb] at h; cases h
      | kvdelete key => cases hb

/-- After a leak no `kvset` or `kvget` ends, whatever comes between. -/
theorem hang_of_leak {s : Server} (hl : s.lck = false) {c : Call} (h : Leaks s c) (between : List Call)
    {d : Call} (hd : ∀ key, d.request ≠ .kvdelete key) :
    (Program.kvserverConsistent.handle (Program.kvserverConsistent.after s (c :: between)) d).1 = .hang := by
  rw [handle_of_locked _ hd]
  exact lck_after_of_locked ((lck_handle hl c).2.2 h) between

end KVStore
