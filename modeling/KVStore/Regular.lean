import KVStore.Acknowledged
import KVStore.Throwing

/-!
# What concurrent clients read

`acknowledged` for any number of concurrent clients, in terms of real time: a call precedes another one if it is
answered before the other one is made.  A `kvget` that succeeds gives a value that was set, by a call that is not later
and that no acknowledged write separates from it; one that denies the key hides no acknowledged value, unless its own
`try` block throws (`kvget_regular`).
-/

namespace KVStore

open Linearizable

namespace Throwing

/-- The call number `i` has left `v` in `k`, or may have: it is a write, and its answer, if there is one, is
`kSuccess`. -/
def Wrote (h : List (Event Call Reply)) (i : Nat) (k v : String) : Prop :=
  ∃ c, .inv i c ∈ h ∧ c.request.writes k ∧ c.request.newValue = v ∧ ∀ x, .ret i x ∈ h → x.error = some .kSuccess

/-- The call number `i` was told that it has left `v` in `k`. -/
def Acknowledged (h : List (Event Call Reply)) (i : Nat) (k v : String) : Prop :=
  ∃ c x, .inv i c ∈ h ∧ c.request.writes k ∧ c.request.newValue = v ∧ .ret i x ∈ h ∧ x.error = some .kSuccess

/-! ### The order of the calls -/

/-- What a call of the order has written to `k`. -/
def written (k : String) (e : Entry Call Reply) : Option String := acknowledged k (e.op, e.res)

variable {h : List (Event Call Reply)} {order : List (Entry Call Reply)} {σ₀ σ : Server} {e : Entry Call Reply}
  {k v : String}

theorem written_eq_some_iff :
    written k e = some v ↔ e.res.error = some .kSuccess ∧ e.op.request.writes k ∧ e.op.request.newValue = v := by
  rw [written, acknowledged, Option.ite_none_right_eq_some, Option.some.injEq, and_assoc]

private theorem ready (σ : Server) : Program.kvserverConsistent.Ready σ := fun h => by cases h

/-- A key reads as the last acknowledged write of the order has left it. -/
theorem value_of_sequential (hs : Sequential whole σ₀ order σ) (k : String) :
    σ.sharedKvstore.value k = (Register.last (written k) order).getD (σ₀.sharedKvstore.value k) := by
  induction order generalizing σ₀ with
  | nil =>
    cases hs
    rfl
  | cons e order ih =>
    have hcall : (whole σ₀ e.op).2.sharedKvstore.value k = (written k e).getD (σ₀.sharedKvstore.value k) := by
      rw [written, ← hs.1]
      exact (handled (ready σ₀) e.op).value k
    rw [ih hs.2, hcall, Register.last_cons]
    cases Register.last (written k) order <;> rfl

theorem wrote_of_mem (hp : Points whole σ₀ h order σ) (he : e ∈ order) (hw : written k e = some v) :
    Wrote h e.id k v := by
  obtain ⟨herr, hwrites, hv⟩ := written_eq_some_iff.1 hw
  have hinv := hp.linearizes.invoked e he
  refine ⟨e.op, hinv, hwrites, hv, fun x hx => ?_⟩
  have heq := List.inj_on_of_nodup_map hp.linearizes.nodup (hp.mem hinv hx) he rfl
  rw [← herr, ← heq]

theorem Acknowledged.exists_mem {i : Nat} (ha : Acknowledged h i k v) (hp : Points whole σ₀ h order σ) :
    ∃ e ∈ order, e.id = i ∧ written k e = some v := by
  obtain ⟨c, x, hinv, hwrites, hv, hret, herr⟩ := ha
  exact ⟨_, hp.mem hinv hret, rfl, written_eq_some_iff.2 ⟨herr, hwrites, hv⟩⟩

/-! ### Whole runs -/

/-- In every run, whatever throws in it: a `kvget` that succeeds gives a value that was set by a call that did not come
after it, with no acknowledged write between them; one that denies the key throws in its `try` block, or every
acknowledged value that was set before it may have been overwritten or deleted since; it gives no other answer. -/
theorem kvget_regular {Conn : Type} [DecidableEq Conn] (acts : List (Conn × CallAct)) (s : Throwing Conn)
    (hs : Machine.exec step {} acts = some s) (id : Nat) (k : String) (f : Faults) (res : Result)
    (hinv : .inv id ⟨.kvget k, f⟩ ∈ history acts) (hret : .ret id (.reply res) ∈ history acts) :
    (res.error = .kSuccess ∧ res.value ≠ "" ∧
      ∃ i, Wrote (history acts) i k res.value ∧ ¬Precedes (history acts) id i ∧
        ∀ j v, Acknowledged (history acts) j k v →
          ¬(Precedes (history acts) i j ∧ Precedes (history acts) j id)) ∨
    (res.error = .kKeyNotFound ∧ res.value = "" ∧
      (f.create ∨ f.copy ∨
        ∀ i v, Acknowledged (history acts) i k v → v ≠ "" → Precedes (history acts) i id →
          ∃ j, Wrote (history acts) j k "" ∧ ¬Precedes (history acts) j i ∧ ¬Precedes (history acts) id j)) := by
  obtain ⟨_, order, _, he⟩ := explains hs
  have hp := he.points
  obtain ⟨pre, post, rfl⟩ := List.append_of_mem (hp.mem hinv hret)
  obtain ⟨u, hpre, hreply⟩ := sequential_split hp.sequential
  have hval : u.sharedKvstore.value k = (Register.last (written k) pre).getD "" := value_of_sequential hpre k
  have hcall : Handled u ⟨.kvget k, f⟩ (.reply res) (whole u ⟨.kvget k, f⟩).2 := by
    have h := handled (ready u) ⟨.kvget k, f⟩
    rwa [show (Program.kvserverConsistent.handle u ⟨.kvget k, f⟩).1 = .reply res from hreply] at h
  rcases hcall.kvget with ⟨herr, hv, hne⟩ | ⟨herr, hv, hdeny⟩
  · -- the last acknowledged write before it in the order
    have hlast : Register.last (written k) pre = some res.value := by
      rw [hval] at hv
      cases hl : Register.last (written k) pre with
      | none =>
        rw [hl] at hv
        exact absurd hv hne
      | some v => rw [hv, hl]; rfl
    obtain ⟨a, ha, hw, hnot, hbetween⟩ := hp.last_write (written k) hlast
    refine Or.inl ⟨herr, hne, a.id, wrote_of_mem hp (List.mem_append_left _ ha) hw, hnot, fun j v hj => ?_⟩
    obtain ⟨b, hb, rfl, hwb⟩ := hj.exists_mem hp
    exact hbetween b hb (by rw [hwb]; exact Option.some_ne_none v)
  · refine Or.inr ⟨herr, hv, ?_⟩
    rcases hdeny with hempty | hbreaks
    · refine Or.inr (Or.inr fun i v hi hne hprec => ?_)
      obtain ⟨a, ha, rfl, hwa⟩ := hi.exists_mem hp
      obtain ⟨b, hb, hlast, hwb, hnot⟩ :=
        hp.last_write_of_precedes (written k) ha (by rw [hwa]; exact Option.some_ne_none v) hprec
      obtain ⟨w, hw⟩ := Option.ne_none_iff_exists'.1 hwb
      rw [hval, hlast, hw] at hempty
      obtain rfl : w = "" := hempty
      exact ⟨b.id, wrote_of_mem hp (List.mem_append_left _ hb) hw, hnot, hp.not_precedes hb⟩
    · simp only [Faults.breaks, Bool.or_eq_true, Bool.and_eq_true] at hbreaks
      rcases hbreaks with ⟨hcreate, _⟩ | hcopy
      · exact Or.inl hcreate
      · exact Or.inr (Or.inl hcopy)

/-- A second `kvset` fails while the value of the first one is read. -/
theorem kvget_regular_hi_bye :
    ∃ i, Wrote (history [(true, .arrive ⟨.kvset "hi" "bye", {}⟩), (true, .advance), (true, .advance), (true, .advance),
      (true, .advance), (true, .advance), (true, .arrive ⟨.kvset "hi" "gone", { assign := true }⟩),
      (false, .arrive ⟨.kvget "hi", {}⟩), (true, .advance), (true, .advance), (true, .advance), (true, .advance),
      (true, .advance), (false, .advance), (false, .advance), (false, .advance), (false, .advance),
      (false, .advance)]) i "hi" "bye" := by
  have hsome : (Machine.exec step ({} : Throwing Bool) [(true, .arrive ⟨.kvset "hi" "bye", {}⟩), (true, .advance),
      (true, .advance), (true, .advance), (true, .advance), (true, .advance),
      (true, .arrive ⟨.kvset "hi" "gone", { assign := true }⟩),
      (false, .arrive ⟨.kvget "hi", {}⟩), (true, .advance), (true, .advance), (true, .advance), (true, .advance),
      (true, .advance), (false, .advance), (false, .advance), (false, .advance), (false, .advance),
      (false, .advance)]).isSome := by decide
  obtain ⟨s, hs⟩ := Option.isSome_iff_exists.1 hsome
  rcases kvget_regular _ s hs 2 "hi" {} { value := "bye" } (by decide) (by decide) with ⟨_, _, i, h, _⟩ | ⟨h, _⟩
  · exact ⟨i, h⟩
  · cases h

end Throwing

end KVStore
