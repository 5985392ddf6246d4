import KVStore.Outcomes

/-!
# What the server implements: a total map

The abstract server keeps a total map from keys to strings, `""` for a key that has no value.  Only `kvset` and
`kvdelete` change it, and `kvget` answers from the value alone.  The concrete store shows such a map, `Store.value`;
entries that `operator[]` made on the way cannot be told from absent ones.

`step_simulates` is the simulation for one call, with what happens when something throws; over a run it gives
`undisturbed_replies`: the calls in which nothing threw are answered as by the total map.
-/

namespace KVStore

/-- A value for every key. -/
abbrev TotalMap := String → String

namespace TotalMap

def effect (t : TotalMap) : Request → TotalMap
  | .kvset key value => Function.update t key value
  | .kvget _ => t
  | .kvdelete key => Function.update t key ""

def answer (t : TotalMap) : Request → Result
  | .kvset _ _ => { error := .kSuccess }
  | .kvget key => if t key ≠ "" then { value := t key, error := .kSuccess } else { error := .kKeyNotFound }
  | .kvdelete _ => { error := .kSuccess }

/-- The answers of the total map to a sequence of requests. -/
def answers : TotalMap → List Request → List Result
  | _, [] => []
  | t, r :: rs => t.answer r :: answers (t.effect r) rs

end TotalMap

theorem value_effect (m : Store) (r : Request) : (effect m r).value = TotalMap.effect m.value r := by
  cases r with
  | kvset key value => exact Store.value_assign m key value
  | kvget key => exact funext (Store.value_locate m key)
  | kvdelete key => exact Store.value_erase m key

theorem answer_eq (m : Store) (r : Request) : answer m r = TotalMap.answer m.value r := by
  cases r with
  | kvset key value => rfl
  | kvget key =>
    simp only [answer, TotalMap.answer]
    split
    · rfl
    · rename_i h; rw [not_not.1 h]
  | kvdelete key => rfl

theorem value_afterBreak (f : Faults) (m : Store) (key : String) : (afterBreak f m key).value = m.value := by
  unfold afterBreak
  split
  · rfl
  · exact funext (Store.value_locate m key)

/-- One call on `kvserver`: undisturbed it acts on the total map, disturbed it leaves the map as it was. -/
theorem step_simulates {s : Server} (hl : s.lck = false) (c : Call) :
    (Program.kvserver.handle s c).2.lck = false ∧
    ((c.faults.breaks s.sharedKvstore c.request = false ∧
        (Program.kvserver.handle s c).1 = .reply (TotalMap.answer s.sharedKvstore.value c.request) ∧
        (Program.kvserver.handle s c).2.sharedKvstore.value =
          TotalMap.effect s.sharedKvstore.value c.request) ∨
      (c.faults.breaks s.sharedKvstore c.request = true ∧
        (Program.kvserver.handle s c).2.sharedKvstore.value = s.sharedKvstore.value)) := by
  cases h : c.faults.breaks s.sharedKvstore c.request with
  | false =>
    rw [Program.handle_eq .kvserver hl h]
    refine ⟨hl, Or.inl ⟨rfl, ?_, value_effect _ _⟩⟩
    rw [answer_eq]
  | true =>
    obtain ⟨r, f⟩ := c
    cases r with
    | kvset key value =>
      rw [Program.handle_kvset_of_breaks .kvserver hl h]
      exact ⟨by simp, Or.inr ⟨rfl, value_afterBreak f _ key⟩⟩
    | kvget key =>
      rw [Program.handle_kvget_of_breaks .kvserver hl h]
      exact ⟨hl, Or.inr ⟨rfl, value_afterBreak f _ key⟩⟩
    | kvdelete key => exact absurd h Bool.false_ne_true

/-- The calls of a sequence in which nothing throws, each with its reply. -/
def Program.undisturbed (p : Program) : Server → List Call → List (Request × Reply)
  | _, [] => []
  | s, c :: calls =>
    if c.faults.breaks s.sharedKvstore c.request then p.undisturbed (p.handle s c).2 calls
    else (c.request, (p.handle s c).1) :: p.undisturbed (p.handle s c).2 calls

/-- They stand at the positions where nothing throws, in the store to which the calls before have led. -/
theorem undisturbed_eq (p : Program) (s : Server) (calls : List Call) :
    p.undisturbed s calls = (List.range calls.length).filterMap (fun i => do
      let c ← calls[i]?
      let reply ← (p.replies s calls)[i]?
      if c.faults.breaks (p.after s (calls.take i)).sharedKvstore c.request then none
      else some (c.request, reply)) := by
  induction calls generalizing s with
  | nil => rfl
  | cons c calls ih =>
    rw [List.length_cons, List.range_succ_eq_map, List.filterMap_cons, List.filterMap_map, Program.undisturbed, ih]
    by_cases hb : c.faults.breaks s.sharedKvstore c.request
    · simp only [hb, if_pos, Program.replies, Program.after, List.getElem?_cons_zero, List.take_zero, List.foldl_nil,
        Option.bind_eq_bind, Option.bind_some]
      rfl
    · simp only [hb, Program.replies, Program.after, List.getElem?_cons_zero, List.take_zero, List.foldl_nil,
        Option.bind_eq_bind, Option.bind_some, Bool.false_eq_true, if_false]
      rfl

private theorem undisturbed_from {s : Server} (hl : s.lck = false) (calls : List Call) :
    (Program.kvserver.undisturbed s calls).map Prod.snd =
      (TotalMap.answers s.sharedKvstore.value
        ((Program.kvserver.undisturbed s calls).map Prod.fst)).map .reply := by
  induction calls generalizing s with
  | nil => rfl
  | cons c calls ih =>
    obtain ⟨hl', ⟨hb, hr, hv⟩ | ⟨hb, hv⟩⟩ := step_simulates hl c
    · have e : Program.kvserver.undisturbed s (c :: calls) = (c.request, (Program.kvserver.handle s c).1) ::
          Program.kvserver.undisturbed (Program.kvserver.handle s c).2 calls := by
        rw [Program.undisturbed, hb]; rfl
      rw [e, List.map_cons, List.map_cons, TotalMap.answers, List.map_cons, ih hl', hv, hr]
    · have e : Program.kvserver.undisturbed s (c :: calls) =
          Program.kvserver.undisturbed (Program.kvserver.handle s c).2 calls := by
        rw [Program.undisturbed, hb]; rfl
      rw [e, ih hl', hv]

/-- The replies to the calls in which nothing threw are those of the total map that starts with `""` everywhere and
sees only these calls. -/
theorem undisturbed_replies (calls : List Call) :
    (Program.kvserver.undisturbed {} calls).map Prod.snd =
      (TotalMap.answers (fun _ => "") ((Program.kvserver.undisturbed {} calls).map Prod.fst)).map .reply :=
  undisturbed_from rfl calls

end KVStore
