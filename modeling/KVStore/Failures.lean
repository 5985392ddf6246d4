import KVStore.Outcomes

/-!
# Requests that fail

What a client may conclude from the answer to a single request when operations of its handler throw.

* `shared_kvstore[key] = value` makes the entry before it assigns the string.  A `kvset` that reports `kError` has
  left the store alone unless the key was absent and the assignment threw (`kvset_atomic_iff`).
* The `catch` block of `kvget` answers `kKeyNotFound`, and so does its `try` block for an empty value.  The answers
  on a bound key are right iff its value is not empty and nothing throws (`kvget_honest_iff`).
-/

namespace KVStore

/-- The error code that a client gets. -/
def Reply.error : Reply → Option ErrorCode
  | .reply r => some r.error
  | .exception => none
  | .hang => none

theorem locate_eq_self_iff {m : Store} {key : String} : m.locate key = m ↔ (m key).isSome := by
  constructor
  · intro h
    rw [← h]
    exact Store.isSome_locate m key
  · exact fun h => if_pos h

/-- A `try` block that throws leaves the store alone iff the creation of the entry threw or the entry was there. -/
theorem afterBreak_eq_self_iff {f : Faults} {m : Store} {key : String} :
    afterBreak f m key = m ↔ f.create ∨ (m key).isSome := by
  unfold afterBreak
  cases hm : m key with
  | none =>
    by_cases hc : f.create
    · simp [hc]
    · simp [hc, locate_eq_self_iff, hm]
  | some v => simp [locate_eq_self_iff, hm]

/-! ### `kvset` -/

/-- If the `kvset` reports `kError`, the store is as before. -/
def KvsetAtomic (p : Program) (m : Store) (key value : String) (f : Faults) : Prop :=
  (p.handle { sharedKvstore := m } ⟨.kvset key value, f⟩).1.error = some .kError →
    (p.handle { sharedKvstore := m } ⟨.kvset key value, f⟩).2.sharedKvstore = m

/-- A failed `kvset` is atomic iff the key has an entry, or the creation of the entry throws, or the assignment does
not, or the error text cannot be assigned either and the client gets an exception. -/
theorem kvset_atomic_iff (p : Program) (m : Store) (key value : String) (f : Faults) :
    KvsetAtomic p m key value f ↔ (m key).isSome ∨ f.create ∨ f.assign = false ∨ f.errortext := by
  unfold KvsetAtomic
  cases hb : f.breaks m (.kvset key value) with
  | false =>
    -- nothing throws before the answer `kSuccess`
    rw [p.handle_eq rfl hb]
    have ha : f.assign = false := (Bool.or_eq_false_iff.1 hb).2
    simp [ha, answer, Reply.error]
  | true =>
    rw [p.handle_kvset_of_breaks rfl hb]
    cases ht : f.errortext with
    | true => simp [Reply.error]
    | false =>
      have hor : f.create ∨ (m key).isSome ↔ (m key).isSome ∨ f.create ∨ f.assign = false := by
        cases ha : f.assign with
        | true => simp [or_comm]
        | false =>
          have hc : f.create = true := by
            simp only [Faults.breaks, ha, Bool.or_false, Bool.and_eq_true] at hb
            exact hb.1
          simp [hc]
      simpa [Reply.error, afterBreak_eq_self_iff] using hor

/-- The key is new and its string cannot be assigned: the client is told `kError`, the key is in the store. -/
theorem failed_kvset_adds_key :
    ¬KvsetAtomic .kvserver Store.empty "hi" "bye to everybody" { assign := true } ∧
    ¬KvsetAtomic .kvserverConsistent Store.empty "hi" "bye to everybody" { assign := true } := by
  have h : ∀ p, ¬KvsetAtomic p Store.empty "hi" "bye to everybody" { assign := true } := by
    intro p hp
    have hb : Faults.breaks { assign := true } Store.empty (.kvset "hi" "bye to everybody") = true := rfl
    unfold KvsetAtomic at hp
    rw [p.handle_kvset_of_breaks rfl hb] at hp
    have hs : afterBreak { assign := true } Store.empty "hi" = Store.empty := hp rfl
    exact absurd (afterBreak_eq_self_iff.1 hs) (by decide)
  exact ⟨h _, h _⟩

/-! ### `kvget` -/

/-- The reply to a `kvget` says that the key is not bound. -/
def Denies (p : Program) (m : Store) (key : String) (f : Faults) : Prop :=
  (p.handle { sharedKvstore := m } ⟨.kvget key, f⟩).1.error = some .kKeyNotFound

/-- The reply to a `kvget` is a failure: `kError` or an exception. -/
def Fails (p : Program) (m : Store) (key : String) (f : Faults) : Prop :=
  (p.handle { sharedKvstore := m } ⟨.kvget key, f⟩).1 = .exception ∨
    (p.handle { sharedKvstore := m } ⟨.kvget key, f⟩).1.error = some .kError

/-- What the reply to a `kvget` has to say about the entry of the key. -/
structure KvgetHonest (p : Program) (m : Store) (key : String) (f : Faults) : Prop where
  bound : ∀ v, m key = some v → v ≠ "" → ¬Denies p m key f
  denied : Denies p m key f → m key = none
  failure : (m key).isSome → f.breaks m (.kvget key) → Fails p m key f

/-- `kvget` answers rightly iff the key is not bound, or its value is not empty and nothing in the `try` block
throws. -/
theorem kvget_honest_iff (p : Program) (m : Store) (key : String) (f : Faults) :
    KvgetHonest p m key f ↔ m key = none ∨ m.value key ≠ "" ∧ f.breaks m (.kvget key) = false := by
  cases hm : m key with
  | none => exact ⟨fun _ => Or.inl rfl, fun _ => ⟨by simp [hm], fun _ => hm, by simp [hm]⟩⟩
  | some v =>
    have hv : m.value key = v := by rw [Store.value, hm]; rfl
    cases hb : f.breaks m (.kvget key) with
    | true =>
      -- the `catch` block denies the key
      have hd : Denies p m key f := by rw [Denies, p.handle_kvget_of_breaks rfl hb]; rfl
      constructor
      · intro h
        rw [h.denied hd] at hm
        cases hm
      · simp
    | false =>
      have hd : Denies p m key f ↔ v = "" := by
        rw [Denies, p.handle_eq rfl hb]
        simp [answer, Reply.error, hv]
      rw [hv]
      constructor
      · intro h
        refine Or.inr ⟨fun he => ?_, rfl⟩
        rw [h.denied (hd.2 he)] at hm
        cases hm
      · intro h
        obtain ⟨hne, _⟩ := h.resolve_left (by simp)
        exact ⟨fun w hw hw' hd' => hne (hd.1 hd'), fun hd' => absurd (hd.1 hd') hne, by simp [hb]⟩

/-- The copy of a value that is in the store fails, and the client is told that there is none. -/
theorem kvget_denies_bound_key :
    ¬KvgetHonest .kvserver (Store.empty.assign "hi" "bye to everybody") "hi" { copy := true } ∧
    ¬KvgetHonest .kvserverConsistent (Store.empty.assign "hi" "bye to everybody") "hi" { copy := true } := by
  have h : ∀ p, ¬KvgetHonest p (Store.empty.assign "hi" "bye to everybody") "hi" { copy := true } := by
    intro p hp
    have hb : Faults.breaks { copy := true } (Store.empty.assign "hi" "bye to everybody") (.kvget "hi") = true := rfl
    exact hp.bound "bye to everybody" rfl (by decide) (by rw [Denies, p.handle_kvget_of_breaks rfl hb]; rfl)
  exact ⟨h _, h _⟩

end KVStore
