import KVStore.LockLeak
import KVStore.Throwing
import Mathlib.Algebra.Order.BigOperators.Group.Finset
import Mathlib.Data.Fintype.Basic

/-!
# Which calls wait for ever

Without new calls the handlers come to a stop in a bounded number of steps (`work_step`).  Then every call that has
arrived is answered, unless the next step of a handler would use an erased entry, or the lock has leaked: a handler has
ended with an exception of its `catch` block (`answered_or_waiting`).  After such an answer no call that needs the lock
is answered any more (`never_answered_after_exception`).
-/

namespace KVStore

open Linearizable

/-- The steps that a handler needs at most. -/
def CallPhase.work : CallPhase → Nat
  | .idle => 0
  | .arrived _ ⟨.kvdelete _, _⟩ => 2
  | .arrived _ _ => 6
  | .locked _ _ => 5
  | .located _ _ => 4
  | .caught _ _ => 3
  | .accessed _ _ _ => 2
  | .finished _ _ _ => 1

namespace Throwing

variable {Conn : Type} [DecidableEq Conn] {s s' t : Throwing Conn} {d : Conn} {a : CallAct} {leaked : Bool}

/-- No handler can take a step. -/
def Stopped (s : Throwing Conn) : Prop := ∀ d, s.advance d = none

/-- The work that is left in all handlers. -/
def work [Fintype Conn] (s : Throwing Conn) : Nat := ∑ d, (s.handlers d).work

/-! ### One step -/

theorem Steps.work_lt (hs : Steps s d .advance s') : (s'.handlers d).work < (s.handlers d).work := by
  cases hs with
  | lock id c h hr _ =>
    rw [goto_handlers_self, h]
    obtain ⟨r, f⟩ := c
    cases r with
    | kvset key value | kvget key => exact Nat.lt_succ_self 5
    | kvdelete key => exact absurd rfl (hr key)
  | erase id key f h => simp [h, CallPhase.work]
  | createThrows id c h => simp [h, CallPhase.work]
  | locate id c h => simp [h, CallPhase.work]
  | accessThrows id c h => simp [h, CallPhase.work]
  | access id c h => simp [h, CallPhase.work]
  | leave id c h => simp [h, CallPhase.work]
  | recover id c h => simp [h, CallPhase.work]
  | unlock id c res h => simp [h, CallPhase.work]
  | reply id c reply h => simp [h, CallPhase.work]

theorem work_step [Fintype Conn] (hs : Steps s d .advance s') : work s' < work s := by
  refine Finset.sum_lt_sum (fun e _ => ?_) ⟨d, Finset.mem_univ d, hs.work_lt⟩
  by_cases hed : e = d
  · rw [hed]
    exact hs.work_lt.le
  · rw [hs.handlers_of_ne hed]

/-- Where a handler can be when it cannot take a step. -/
theorem waits_of_advance (h : s.advance d = none) :
    s.handlers d = .idle ∨ AtErased s d ∨
      s.lck ≠ none ∧ ∃ id c, s.handlers d = .arrived id c ∧ ∀ key, c.request ≠ .kvdelete key := by
  unfold advance at h
  cases hd : s.handlers d with
  | idle => exact Or.inl rfl
  | arrived id c =>
    rw [hd] at h
    obtain ⟨r, f⟩ := c
    cases r with
    | kvdelete key => cases h
    | kvset key value | kvget key =>
      all_goals
        dsimp only at h
        split at h
        · cases h
        · exact Or.inr (Or.inr ⟨‹_›, id, _, rfl, by simp⟩)
  | locked id c =>
    rw [hd] at h
    dsimp only at h
    split at h <;> cases h
  | located id c =>
    rw [hd] at h
    dsimp only at h
    split at h
    · exact Or.inr (Or.inl ⟨id, c, hd, by simpa using ‹(s.sharedKvstore c.request.key).isNone›⟩)
    · split at h <;> cases h
  | caught id c =>
    rw [hd] at h
    dsimp only at h
    split at h <;> cases h
  | accessed id c res | finished id c reply =>
    all_goals
      rw [hd] at h
      cases h

/-- A handler that cannot take a step waits for the lock, unless its next step would use an erased entry. -/
theorem Stopped.waits (hstop : Stopped s) (he : ∀ d, ¬AtErased s d) (d : Conn) : s.handlers d = .idle ∨
    s.lck ≠ none ∧ ∃ id c, s.handlers d = .arrived id c ∧ ∀ key, c.request ≠ .kvdelete key :=
  (waits_of_advance (hstop d)).imp_right fun h => h.resolve_left (he d)

/-! ### Answers with an exception -/

/-- Only a `kvset` that ends with an exception leaks the lock. -/
theorem exists_exception {order : List (Entry Call Reply)} {σ₀ σ : Server} (hs : Sequential whole σ₀ order σ)
    (h₀ : σ₀.lck = false) (h : σ.lck = true) :
    ∃ e ∈ order, e.res = .exception ∧ ∃ key value, e.op.request = .kvset key value := by
  induction order generalizing σ₀ with
  | nil =>
    cases hs
    rw [h₀] at h
    cases h
  | cons e order ih =>
    obtain ⟨hres, hs⟩ := hs
    cases hl : (whole σ₀ e.op).2.lck with
    | false =>
      obtain ⟨x, hx, h⟩ := ih hs hl
      exact ⟨x, List.mem_cons_of_mem e hx, h⟩
    | true =>
      obtain ⟨⟨key, value, hr⟩, hb, ht⟩ := (lck_handle h₀ e.op).2.1 hl
      refine ⟨e, List.mem_cons_self, ?_, key, value, hr⟩
      rw [← hres, whole_of_breaks h₀ (by simp [hr]) hb, Call.brokenReply, if_pos]
      rw [Call.catchThrows, hr]
      exact ht

theorem locked_of_sequential {order : List (Entry Call Reply)} {σ₀ σ : Server} (hs : Sequential whole σ₀ order σ)
    (hl : σ₀.lck = true) : σ.lck = true := by
  induction order generalizing σ₀ with
  | nil => exact hs ▸ hl
  | cons e order ih => exact ih hs.2 (lck_handle_of_locked hl e.op)

/-- Once a call of the order has ended with an exception, the lock is held. -/
theorem locked_of_mem {order : List (Entry Call Reply)} {σ₀ σ : Server} (hs : Sequential whole σ₀ order σ)
    {e : Entry Call Reply} (he : e ∈ order) (hres : e.res = .exception) : σ.lck = true := by
  induction order generalizing σ₀ with
  | nil => cases he
  | cons x order ih =>
    obtain ⟨hx, hs⟩ := hs
    rcases List.mem_cons.1 he with rfl | he
    · exact locked_of_sequential hs (locked_of_exception (hx.trans hres))
    · exact ih hs he

/-- No handler ends without a reply. -/
private theorem Steps.finished_ne_hang (hs : Steps s d a s') (hi : ∀ e id c, s.handlers e ≠ .finished id c .hang)
    (e : Conn) (id : Nat) (c : Call) : s'.handlers e ≠ .finished id c .hang := by
  by_cases hed : e = d
  · subst hed
    intro h
    cases hs <;> · rw [goto_handlers_self] at h; cases h
  · rw [hs.handlers_of_ne hed]
    exact hi e id c

private theorem ret_ne_hang {acts : List (Conn × CallAct)} (hs : Machine.exec step {} acts = some s) {id : Nat} :
    .ret id .hang ∉ history acts := by
  have hinv : (∀ e id c, s.handlers e ≠ .finished id c .hang) ∧ ∀ id, .ret id .hang ∉ [] ++ history acts := by
    refine Machine.exec_history_invariant (fun _ _ => True) observe
      (fun s h => (∀ e id c, s.handlers e ≠ .finished id c .hang) ∧ ∀ id, Event.ret id Reply.hang ∉ h) ?_
      ⟨fun _ _ _ => CallPhase.noConfusion, fun _ => List.not_mem_nil⟩ (Machine.along_true _ acts) hs
    rintro s h ⟨d, a⟩ s' ⟨hph, hh⟩ - hs
    refine ⟨(steps_of_step hs).finished_ne_hang hph, fun id hm => ?_⟩
    rcases List.mem_append.1 hm with hm | hm
    · exact hh id hm
    · cases a with
      | arrive c => simp [observe] at hm
      | advance =>
        rw [observe] at hm
        split at hm
        · obtain ⟨rfl, rfl⟩ := Event.ret.inj (List.mem_singleton.1 hm)
          exact hph _ _ _ ‹_›
        · cases hm
  exact hinv.2 id

/-! ### Whole runs -/

/-- Without new calls the handlers take a bounded number of steps, in whatever order.  When none can take a step, every
call that has arrived is answered; or the next step of a handler would use an erased entry; or the lock has leaked: a
`kvset` was answered with an exception, and every handler is idle or waits for the lock with a `kvset` or `kvget`. -/
theorem answered_or_waiting [Fintype Conn] (acts rest : List (Conn × CallAct)) (s t : Throwing Conn)
    (hs : Machine.exec step {} acts = some s) (hr : ∀ x ∈ rest, x.2 = .advance)
    (ht : Machine.exec step s rest = some t) :
    rest.length ≤ work s ∧ (Stopped t →
      ((∀ d, t.handlers d = .idle) ∧
        ∀ id c, .inv id c ∈ history (acts ++ rest) → ∃ x, .ret id x ∈ history (acts ++ rest)) ∨
      (∃ d, t.AtErased d) ∨
      (∃ d, t.lck = some d) ∧
        (∃ id key value f, .inv id ⟨.kvset key value, f⟩ ∈ history (acts ++ rest) ∧
          .ret id .exception ∈ history (acts ++ rest)) ∧
        ∀ e, t.handlers e = .idle ∨ ∃ id c, t.handlers e = .arrived id c ∧ ∀ key, c.request ≠ .kvdelete key) := by
  have hlength := Machine.exec_length_add_le work (fun x : Conn × CallAct => x.2 = .advance)
    (fun u x u' hx hu => work_step (d := x.1) (steps_of_step (by rwa [← hx]))) hr ht
  refine ⟨Nat.le_of_add_right_le hlength, fun hstop => ?_⟩
  obtain ⟨o, order, hsim, he⟩ := explains (Machine.exec_append_eq_some.2 ⟨s, hs, ht⟩)
  by_cases hidle : ∀ d, t.handlers d = .idle
  · refine Or.inl ⟨hidle, fun id c hm => ?_⟩
    rcases he.accounted id c hm with h | ⟨d, hd⟩
    · exact h
    · rw [hsim.status, hidle d] at hd
      exact hd.elim
  by_cases herased : ∃ d, t.AtErased d
  · exact Or.inr (Or.inl herased)
  -- whoever is not idle waits for the lock, and nobody who has it can go on
  have hwaits := hstop.waits fun d h => herased ⟨d, h⟩
  have hlck : t.lck ≠ none := by
    intro hfree
    exact hidle fun d => (hwaits d).resolve_right fun h => h.1 hfree
  obtain ⟨d, hd⟩ := Option.ne_none_iff_exists'.1 hlck
  have hleaked : o.state.lck = true := by
    refine (hsim.related.lock.kept d hd).resolve_left fun h => ?_
    rcases hwaits d with h' | ⟨_, id, c, h', _⟩
    all_goals
      rw [h'] at h
      exact h
  obtain ⟨e, hm, hres, key, value, hreq⟩ := exists_exception he.points.sequential rfl hleaked
  refine Or.inr (Or.inr ⟨⟨d, hd⟩, ⟨e.id, key, value, e.op.faults, hreq ▸ he.points.linearizes.invoked e hm, ?_⟩,
    fun e => (hwaits e).imp_right And.right⟩)
  rcases he.effective e hm with h | ⟨b, hb⟩
  · rwa [hres] at h
  · -- a handler that is past its `try` block can go on
    rw [hsim.status] at hb
    rcases hwaits b with h' | ⟨_, _, _, h', _⟩
    all_goals
      rw [h'] at hb
      cases hb

/-- Of the two clients that have called while the lock leaked, the one with the `kvget` waits for ever. -/
theorem answered_or_waiting_leak :
    ∃ t, Machine.exec step ({} : Throwing (Fin 3)) (leakingRun ++ [(2, .advance)]) = some t ∧ Stopped t ∧
      (∃ d, t.lck = some d) ∧
      ∃ id key value f, .inv id ⟨.kvset key value, f⟩ ∈ history (leakingRun ++ [(2, .advance)]) ∧
        .ret id .exception ∈ history (leakingRun ++ [(2, .advance)]) := by
  have hview : (Machine.exec step ({} : Throwing (Fin 3)) (leakingRun ++ [(2, .advance)])).map (fun t =>
      ([0, 1, 2].map t.handlers, [0, 1, 2].all fun d => (t.advance d).isNone)) =
        some ([.idle, .arrived 1 ⟨.kvget "hi", {}⟩, .idle], true) := by decide
  obtain ⟨t, ht, hv⟩ := Option.map_eq_some_iff.1 hview
  obtain ⟨hphases, hnone⟩ := Prod.mk.inj hv
  obtain ⟨h0, h1, h2⟩ : t.handlers 0 = .idle ∧ t.handlers 1 = .arrived 1 ⟨.kvget "hi", {}⟩ ∧ t.handlers 2 = .idle := by
    simpa using hphases
  obtain ⟨a0, a1, a2⟩ : t.advance 0 = none ∧ t.advance 1 = none ∧ t.advance 2 = none := by simpa using hnone
  have hstop : Stopped t
    | 0 => a0
    | 1 => a1
    | 2 => a2
  obtain ⟨s, hs, hrest⟩ := Machine.exec_append_eq_some.1 ht
  refine ⟨t, ht, hstop, ?_⟩
  rcases (answered_or_waiting leakingRun [(2, .advance)] s t hs (by simp) hrest).2 hstop with
    ⟨hidle, _⟩ | ⟨d, id, c, hd, _⟩ | ⟨hlck, hexc, _⟩
  · cases h1.symm.trans (hidle 1)
  · match d with
    | 0 => cases h0.symm.trans hd
    | 1 => cases h1.symm.trans hd
    | 2 => cases h2.symm.trans hd
  · exact ⟨hlck, hexc⟩

/-- After an answer with an exception no new `kvset` or `kvget` is ever answered, whatever throws. -/
theorem never_answered_after_exception (acts : List (Conn × CallAct)) (s : Throwing Conn)
    (hs : Machine.exec step {} acts = some s) (i j : Nat) (c : Call)
    (hb : Before (history acts) (.ret i .exception) (.inv j c)) (hc : ∀ key, c.request ≠ .kvdelete key) (x : Reply) :
    .ret j x ∉ history acts := by
  intro hx
  obtain ⟨_, order, _, he⟩ := explains hs
  have hp := he.points
  obtain ⟨op, hi⟩ := hp.linearizes.completed i .exception hb.left_mem
  obtain ⟨pre, post, rfl⟩ := List.append_of_mem (hp.mem hb.right_mem hx)
  have hpre := hp.mem_of_precedes hi ⟨_, _, hb⟩
  obtain ⟨u, hu, hreply⟩ := sequential_split hp.sequential
  have hhang : (whole u c).1 = .hang := congrArg Prod.fst (handle_of_locked (locked_of_mem hu hpre rfl) hc)
  obtain rfl : x = .hang := hreply.symm.trans hhang
  exact ret_ne_hang hs hx

/-- The client that has got the exception tries to read the key. -/
theorem never_answered_after_exception_leak :
    (Machine.exec step ({} : Throwing (Fin 3))
        (leakingRun ++ [(2, .advance), (0, .arrive ⟨.kvget "hi", {}⟩)])).isSome ∧
      ∀ x, .ret 3 x ∉ history (leakingRun ++ [(2, .advance), (0, .arrive ⟨.kvget "hi", {}⟩)]) := by
  have hsome : (Machine.exec step ({} : Throwing (Fin 3))
      (leakingRun ++ [(2, .advance), (0, .arrive ⟨.kvget "hi", {}⟩)])).isSome := by decide
  obtain ⟨s, hs⟩ := Option.isSome_iff_exists.1 hsome
  exact ⟨hsome,
    never_answered_after_exception _ s hs 0 3 ⟨.kvget "hi", {}⟩ (by unfold Before; decide) (by simp)⟩

end Throwing

end KVStore
