import KVStore.Requests

/-!
# The race on `sequence_no`

`sequence_no++` is a read and a write-back.  If no thread reads the counter while another is between the two
(`Separate`), every number is handed out once (`Numbering`), and the scatter loop keeps every event in its place.
The first overlap gives two threads the same number; they keep it, and one of the two events is overwritten.  So
whole runs keep the events iff all their increments are separate (`intact_iff_separate`).
-/

namespace KVStore

namespace ConsistencyTest

/-- The number that a thread has read for the transaction it is performing. -/
def Stage.number : Stage → Option Nat
  | .incrementing _ n => some n
  | .numbered _ n => some n
  | .answered _ n _ => some n
  | _ => none

/-- The thread is between the read and the write-back of an increment. -/
def Stage.Incrementing : Stage → Prop
  | .incrementing _ _ => True
  | _ => False

/-- The numbers of a thread, in the order in which it has read them. -/
def Thread.numbers (th : Thread) : List Nat := th.log.map Events.sequenceNumber ++ th.stage.number.toList

theorem Thread.mem_numbers {th : Thread} {n : Nat} (h : th.stage.number = some n) : n ∈ th.numbers := by
  simp [numbers, h]

namespace World

variable {T : Nat} {σ : Type} {serve : σ → Request → Option (Result × σ)}

/-- The next step of the thread `i` reads `sequence_no`. -/
def Reads (w : World T σ) (i : Fin T) : Prop := (w.threads i).stage = .ready ∧ (w.threads i).todo ≠ []

/-- If the thread `i` reads `sequence_no` next, no thread is between its read and its write-back. -/
def Separate (w : World T σ) (i : Fin T) : Prop := w.Reads i → ∀ j, ¬(w.threads j).stage.Incrementing

/-- Every number below the counter, and the counter itself while it is being incremented, belongs to one thread. -/
structure Numbering (w : World T σ) : Prop where
  increasing : ∀ i, (w.threads i).numbers.Pairwise (· < ·)
  disjoint : ∀ i j n, n ∈ (w.threads i).numbers → n ∈ (w.threads j).numbers → i = j
  bound : ∀ i n, n ∈ (w.threads i).numbers →
    n < w.sequenceNo ∨ n = w.sequenceNo ∧ (w.threads i).stage.Incrementing
  current : ∀ i tx n, (w.threads i).stage = .incrementing tx n → n = w.sequenceNo
  complete : ∀ n, n < w.sequenceNo → ∃ i, n ∈ (w.threads i).numbers

/-- Only the read of `sequence_no` gives a number to a thread. -/
theorem Steps.numbers {w w' : World T σ} {i : Fin T} (h : Steps serve w i w') :
    (w.Reads i ∧ (w'.threads i).numbers = (w.threads i).numbers ++ [w.sequenceNo] ∧
      w'.sequenceNo = w.sequenceNo ∧ ∃ tx, (w'.threads i).stage = .incrementing tx w.sequenceNo) ∨
    (∃ tx n, (w.threads i).stage = .incrementing tx n ∧ (w'.threads i).stage = .numbered tx n ∧
      w'.sequenceNo = n + 1 ∧ (w'.threads i).numbers = (w.threads i).numbers) ∨
    (¬w.Reads i ∧ ¬(w.threads i).stage.Incrementing ∧ ¬(w'.threads i).stage.Incrementing ∧
      w'.sequenceNo = w.sequenceNo ∧ (w'.threads i).numbers = (w.threads i).numbers) := by
  cases h with
  | read tx todo log ht =>
    refine Or.inl ⟨by simp [Reads, ht], ?_, rfl, tx, ?_⟩
    · simp [Thread.numbers, Stage.number, ht]
    · simp
  | write tx n todo log ht =>
    refine Or.inr (Or.inl ⟨tx, n, by rw [ht], by simp, rfl, ?_⟩)
    simp [Thread.numbers, Stage.number, ht]
  | send tx n todo log res server ht hr =>
    refine Or.inr (Or.inr ⟨by simp [Reads, ht], by simp [Stage.Incrementing, ht],
      by simp [Stage.Incrementing], rfl, ?_⟩)
    simp [Thread.numbers, Stage.number, ht]
  | push tx n todo log res ht =>
    refine Or.inr (Or.inr ⟨by simp [Reads, ht], by simp [Stage.Incrementing, ht],
      by simp [Stage.Incrementing], rfl, ?_⟩)
    simp [Thread.numbers, Stage.number, ht, Transaction.event]
  | store log ht =>
    refine Or.inr (Or.inr ⟨by simp [Reads, ht], by simp [Stage.Incrementing, ht],
      by simp [Stage.Incrementing], rfl, ?_⟩)
    simp [Thread.numbers, Stage.number, ht]

/-- A thread keeps its numbers. -/
theorem Steps.mem_numbers {w w' : World T σ} {i j : Fin T} {n : Nat} (h : Steps serve w i w')
    (hn : n ∈ (w.threads j).numbers) : n ∈ (w'.threads j).numbers := by
  by_cases hj : j = i
  · subst hj
    rcases h.numbers with ⟨_, e, _⟩ | ⟨_, _, _, _, _, e⟩ | ⟨_, _, _, _, e⟩
    · rw [e]
      exact List.mem_append_left _ hn
    · rwa [e]
    · rwa [e]
  · rwa [h.threads_of_ne hj]

theorem numbering_start {R : Nat} (rand : Fin T → Fin R → Nat × Nat × Nat) (server : σ) :
    Numbering (World.start rand server) where
  increasing i := List.Pairwise.nil
  disjoint i j n h := by cases h
  bound i n h := by cases h
  current i tx n h := by cases h
  complete n h := absurd h (Nat.not_lt_zero n)

theorem incrementing_iff {s : Stage} : s.Incrementing ↔ ∃ tx n, s = .incrementing tx n := by
  cases s <;> simp [Stage.Incrementing]

section Step

variable {w w' : World T σ} {i : Fin T}

/-- A read while nobody is incrementing: the counter is larger than all numbers, and `i` gets it. -/
private theorem numbering_read (hi : Numbering w) (hs : Steps serve w i w')
    (hsep : ∀ j, ¬(w.threads j).stage.Incrementing)
    (hn : (w'.threads i).numbers = (w.threads i).numbers ++ [w.sequenceNo]) (hc : w'.sequenceNo = w.sequenceNo)
    {tx : Transaction} (hst : (w'.threads i).stage = .incrementing tx w.sequenceNo) : Numbering w' := by
  have hlt : ∀ j n, n ∈ (w.threads j).numbers → n < w.sequenceNo := fun j n hm =>
    (hi.bound j n hm).resolve_right fun hb => hsep j hb.2
  have hmem : ∀ j n, n ∈ (w'.threads j).numbers → n ∈ (w.threads j).numbers ∨ j = i ∧ n = w.sequenceNo := by
    intro j n hm
    by_cases hj : j = i
    · rw [hj, hn, List.mem_append, List.mem_singleton] at hm
      exact hm.imp (fun hm => hj ▸ hm) fun e => ⟨hj, e⟩
    · exact Or.inl (hs.threads_of_ne hj ▸ hm)
  refine ⟨fun j => ?_, fun j k n h1 h2 => ?_, fun j n hm => ?_, fun j tx' n hj' => ?_, fun n hlt' => ?_⟩
  · by_cases hj : j = i
    · rw [hj, hn, List.pairwise_append]
      refine ⟨hi.increasing i, List.pairwise_singleton _ _, fun a ha b hb => ?_⟩
      rw [List.mem_singleton.1 hb]
      exact hlt i a ha
    · rw [hs.threads_of_ne hj]
      exact hi.increasing j
  · rcases hmem j n h1 with h1 | ⟨rfl, e⟩
    · rcases hmem k n h2 with h2 | ⟨rfl, e⟩
      · exact hi.disjoint j k n h1 h2
      · exact absurd (hlt j n h1) (by omega)
    · rcases hmem k n h2 with h2 | ⟨rfl, _⟩
      · exact absurd (hlt k n h2) (by omega)
      · rfl
  · rw [hc]
    rcases hmem j n hm with hm | ⟨rfl, e⟩
    · exact Or.inl (hlt j n hm)
    · exact Or.inr ⟨e, by rw [hst]; trivial⟩
  · by_cases hj : j = i
    · subst hj
      rw [hst] at hj'
      rw [hc, ← (Stage.incrementing.inj hj').2]
    · rw [hs.threads_of_ne hj] at hj'
      exact absurd (incrementing_iff.2 ⟨tx', n, hj'⟩) (hsep j)
  · rw [hc] at hlt'
    obtain ⟨j, hj⟩ := hi.complete n hlt'
    exact ⟨j, hs.mem_numbers hj⟩

/-- A write-back: the number written is that of the counter, and nobody else is incrementing. -/
private theorem numbering_write (hi : Numbering w) (hs : Steps serve w i w') {tx : Transaction} {n : Nat}
    (hst : (w.threads i).stage = .incrementing tx n) (hst' : (w'.threads i).stage = .numbered tx n)
    (hc : w'.sequenceNo = n + 1) (hnum : ∀ j, (w'.threads j).numbers = (w.threads j).numbers) :
    Numbering w' := by
  obtain rfl := hi.current i tx n hst
  have hown : w.sequenceNo ∈ (w.threads i).numbers := Thread.mem_numbers (by rw [hst]; rfl)
  have honly : ∀ j, ¬(w'.threads j).stage.Incrementing := by
    intro j hj
    by_cases hji : j = i
    · rw [hji, hst'] at hj
      exact hj
    · rw [hs.threads_of_ne hji] at hj
      obtain ⟨tx', n', e⟩ := incrementing_iff.1 hj
      have hn' := hi.current j tx' n' e
      have hmem : w.sequenceNo ∈ (w.threads j).numbers := Thread.mem_numbers (by rw [e, hn']; rfl)
      exact hji (hi.disjoint j i _ hmem hown)
  refine ⟨fun j => ?_, fun j k n => ?_, fun j n hm => ?_, fun j tx' n hj => ?_, fun n hlt => ?_⟩
  · rw [hnum]
    exact hi.increasing j
  · rw [hnum, hnum]
    exact hi.disjoint j k n
  · rw [hnum] at hm
    rw [hc]
    rcases hi.bound j n hm with hb | ⟨hb, _⟩ <;> omega
  · exact absurd (incrementing_iff.2 ⟨tx', n, hj⟩) (honly j)
  · rw [hc] at hlt
    by_cases he : n = w.sequenceNo
    · exact ⟨i, by rw [hnum, he]; exact hown⟩
    · obtain ⟨j, hj⟩ := hi.complete n (by omega)
      exact ⟨j, by rwa [hnum]⟩

/-- Any other step leaves the counter and the numbers alone. -/
private theorem numbering_other (hi : Numbering w) (hs : Steps serve w i w')
    (hst : ¬(w.threads i).stage.Incrementing) (hst' : ¬(w'.threads i).stage.Incrementing)
    (hc : w'.sequenceNo = w.sequenceNo) (hnum : ∀ j, (w'.threads j).numbers = (w.threads j).numbers) :
    Numbering w' := by
  refine ⟨fun j => ?_, fun j k n => ?_, fun j n hm => ?_, fun j tx' n hj => ?_, fun n hlt => ?_⟩
  · rw [hnum]
    exact hi.increasing j
  · rw [hnum, hnum]
    exact hi.disjoint j k n
  · rw [hnum] at hm
    rw [hc]
    refine (hi.bound j n hm).imp id fun ⟨e, hb⟩ => ⟨e, ?_⟩
    by_cases hj : j = i
    · exact absurd (hj ▸ hb) hst
    · rwa [hs.threads_of_ne hj]
  · by_cases hji : j = i
    · exact absurd (incrementing_iff.2 ⟨tx', n, hji ▸ hj⟩) hst'
    · rw [hs.threads_of_ne hji] at hj
      rw [hc]
      exact hi.current j tx' n hj
  · rw [hc] at hlt
    obtain ⟨j, hj⟩ := hi.complete n hlt
    exact ⟨j, by rwa [hnum]⟩

theorem Numbering.step (hi : Numbering w) (hsep : Separate w i) (h : w.step serve i = some w') :
    Numbering w' := by
  have hs := steps_of_step h
  have hall : (w'.threads i).numbers = (w.threads i).numbers →
      ∀ j, (w'.threads j).numbers = (w.threads j).numbers := by
    intro hn j
    by_cases hj : j = i
    · rw [hj, hn]
    · rw [hs.threads_of_ne hj]
  rcases hs.numbers with ⟨hr, hn, hc, tx, hst⟩ | ⟨tx, n, hst, hst', hc, hn⟩ | ⟨_, hst, hst', hc, hn⟩
  · exact numbering_read hi hs (hsep hr) hn hc hst
  · exact numbering_write hi hs hst hst' hc (hall hn)
  · exact numbering_other hi hs hst hst' hc (hall hn)

end Step

/-! ### Whole runs -/

variable {R : Nat} {rand : Fin T → Fin R → Nat × Nat × Nat}

theorem numbers_of_finished {w : World T σ} (hf : w.Finished) (i : Fin T) :
    (w.threads i).numbers = (w.threads i).log.map Events.sequenceNumber := by
  rw [Thread.numbers, hf i]
  exact List.append_nil _

private theorem perm_range_sequenceNo {w : World T σ} (hi : Numbering w) (hl : LogInv rand w) (hf : w.Finished) :
    (w.bigTable.flatten.map Events.sequenceNumber).Perm (List.range w.sequenceNo) := by
  have hnd : (w.bigTable.flatten.map Events.sequenceNumber).Nodup := by
    refine (hl.nodup_iff hf).2 ⟨fun i => ?_, fun i j hij n h1 h2 => hij (hi.disjoint i j n ?_ ?_)⟩
    · rw [← numbers_of_finished hf]
      exact (hi.increasing i).imp Nat.ne_of_lt
    · rwa [numbers_of_finished hf]
    · rwa [numbers_of_finished hf]
  apply (List.perm_ext_iff_of_nodup hnd List.nodup_range).2
  intro n
  rw [List.mem_range]
  constructor
  · intro h
    obtain ⟨e, he, rfl⟩ := List.mem_map.1 h
    obtain ⟨i, he⟩ := (hl.mem_flatten hf).1 he
    have hn := List.mem_map_of_mem (f := Events.sequenceNumber) he
    rw [← numbers_of_finished hf] at hn
    rcases hi.bound i _ hn with h | ⟨_, h⟩
    · exact h
    · rw [hf i] at h
      exact h.elim
  · intro h
    obtain ⟨i, hn⟩ := hi.complete n h
    rw [numbers_of_finished hf] at hn
    obtain ⟨e, he, rfl⟩ := List.mem_map.1 hn
    exact List.mem_map_of_mem ((hl.mem_flatten hf).2 ⟨i, he⟩)

theorem Numbering.sequenceNo_eq {w : World T σ} (hi : Numbering w) (hl : LogInv rand w) (hf : w.Finished) :
    w.sequenceNo = T * R := by
  have hlen := (perm_range_sequenceNo hi hl hf).length_eq
  rw [List.length_map, hl.length_flatten hf, List.length_range] at hlen
  exact hlen.symm

/-- The numbers in `bigTable` are those from `0` to `T * R`. -/
theorem Numbering.perm_range {w : World T σ} (hi : Numbering w) (hl : LogInv rand w) (hf : w.Finished) :
    (w.bigTable.flatten.map Events.sequenceNumber).Perm (List.range (T * R)) :=
  hi.sequenceNo_eq hl hf ▸ perm_range_sequenceNo hi hl hf

/-- `sortedBigTable` holds every logged event, each once, and those of each log in their order. -/
def Intact (T R : Nat) (bigTable : List (List Events)) : Prop :=
  ∃ table, sortedBigTable T R bigTable = some table ∧ table.Nodup ∧ table.Perm bigTable.flatten ∧
    ∀ log ∈ bigTable, log.Sublist table

/-- After a run with separate increments the scatter loop sorts the events by their numbers. -/
theorem Numbering.sorted {w : World T σ} (hi : Numbering w) (hl : LogInv rand w) (hf : w.Finished) :
    ∃ table, sortedBigTable T R w.bigTable = some table ∧ table.Perm w.bigTable.flatten ∧
      table.map Events.sequenceNumber = List.range (T * R) := by
  have hlen : (List.replicate (T * R) ({} : Events)).length = T * R := List.length_replicate
  have h := hi.perm_range hl hf
  rw [← hlen] at h
  obtain ⟨table, ht, hp, hm⟩ := Scatter.scatter_perm h
  rw [hlen] at hm
  exact ⟨table, (sortedBigTable_eq T R w.bigTable).trans ht, hp, hm⟩

theorem Numbering.intact {w : World T σ} (hi : Numbering w) (hl : LogInv rand w) (hf : w.Finished) :
    Intact T R w.bigTable := by
  obtain ⟨table, ht, hp, hm⟩ := hi.sorted hl hf
  refine ⟨table, ht, List.Nodup.of_map _ (hm ▸ List.nodup_range), hp, fun log hlog => ?_⟩
  refine Scatter.sublist_of_map_key hm (fun e he => hp.mem_iff.2 (List.mem_flatten.2 ⟨log, hlog, he⟩)) ?_
  rcases hl.mem_bigTable hf hlog with rfl | ⟨i, rfl⟩
  · exact List.Pairwise.nil
  · rw [← numbers_of_finished hf]
    exact hi.increasing i

/-- Two threads with the same number lose an event. -/
theorem not_intact_of_shared {w : World T σ} (hl : LogInv rand w) (hf : w.Finished) {i j : Fin T} {n : Nat}
    (hij : i ≠ j) (h1 : n ∈ (w.threads i).numbers) (h2 : n ∈ (w.threads j).numbers) :
    ¬Intact T R w.bigTable := by
  intro h
  obtain ⟨table, ht, _, hp, _⟩ := h
  rw [sortedBigTable_eq] at ht
  have hblank : ({} : Events) ∉ w.bigTable.flatten := by
    intro h
    obtain ⟨k, hk⟩ := (hl.mem_flatten hf).1 h
    cases (hl.logged hk).1 with
    | set _ _ h => exact absurd h.1 (by decide)
    | get _ h => exact absurd h.1 (by decide)
  have hm := Scatter.map_key_of_perm ht hblank hp
  have hnd : (w.bigTable.flatten.map Events.sequenceNumber).Nodup :=
    (hp.map Events.sequenceNumber).nodup_iff.1 (hm ▸ List.nodup_range)
  rw [numbers_of_finished hf] at h1 h2
  exact ((hl.nodup_iff hf).1 hnd).2 i j hij h1 h2

theorem logInv_of_exec {server : σ} {sched : List (Fin T)} {w : World T σ}
    (h : Machine.exec (step serve) (start rand server) sched = some w) : LogInv rand w :=
  Machine.exec_invariant (LogInv rand) (fun _ _ _ hi hs => hi.step hs) (logInv_start rand server) h

theorem numbering_of_exec {server : σ} {sched : List (Fin T)} {w : World T σ}
    (hsep : Machine.Along (step serve) Separate (start rand server) sched)
    (h : Machine.exec (step serve) (start rand server) sched = some w) : Numbering w :=
  Machine.exec_invariant_of_along Separate Numbering (fun _ _ _ hi hs hw => hi.step hs hw)
    (numbering_start rand server) hsep h

/-- The first read that overlaps an increment gives two threads the same number, and they keep it. -/
theorem shared_of_not_separate {server : σ} {sched : List (Fin T)} {w : World T σ}
    (hsep : ¬Machine.Along (step serve) Separate (start rand server) sched)
    (h : Machine.exec (step serve) (start rand server) sched = some w) :
    ∃ i j n, i ≠ j ∧ n ∈ (w.threads i).numbers ∧ n ∈ (w.threads j).numbers := by
  obtain ⟨pre, i, post, u, rfl, hu, hpre, hi⟩ := Machine.exists_first_of_not_along h hsep
  -- up to the first overlap the numbers are in order, so the thread `j` holds the value of the counter
  have hnum := numbering_of_exec hpre hu
  unfold Separate at hi
  push Not at hi
  obtain ⟨hr, j, hj⟩ := hi
  obtain ⟨tx, n, hst⟩ := incrementing_iff.1 hj
  have hne : i ≠ j := by
    rintro rfl
    rw [hr.1] at hst
    cases hst
  obtain ⟨v, hv, hrest⟩ := Machine.exec_append_eq_some.1 h
  obtain rfl : v = u := Option.some.inj (hv.symm.trans hu)
  obtain ⟨v', hs, hrest⟩ := Machine.exec_cons_eq_some.1 hrest
  have hs' := steps_of_step hs
  have hown : n ∈ (v.threads j).numbers := Thread.mem_numbers (by rw [hst]; rfl)
  have hread : n ∈ (v'.threads i).numbers := by
    rcases hs'.numbers with ⟨_, e, _⟩ | ⟨_, _, e, _⟩ | ⟨hr', _⟩
    · rw [e, hnum.current j tx n hst]
      simp
    · rw [hr.1] at e
      cases e
    · exact absurd hr hr'
  refine ⟨i, j, n, hne, ?_⟩
  exact Machine.exec_invariant (fun w => n ∈ (w.threads i).numbers ∧ n ∈ (w.threads j).numbers)
    (fun _ _ _ hw hs => ⟨(steps_of_step hs).mem_numbers hw.1, (steps_of_step hs).mem_numbers hw.2⟩)
    ⟨hread, hs'.mem_numbers hown⟩ hrest

/-- A run of the threads to their end keeps every event in its place iff no thread reads `sequence_no` while another
is between its read and its write-back. -/
theorem intact_iff_separate (serve : σ → Request → Option (Result × σ)) (server : σ)
    (rand : Fin T → Fin R → Nat × Nat × Nat) (sched : List (Fin T)) (w : World T σ)
    (h : Machine.exec (step serve) (start rand server) sched = some w) (hf : w.Finished) :
    Intact T R w.bigTable ↔ Machine.Along (step serve) Separate (start rand server) sched := by
  have hl := logInv_of_exec h
  constructor
  · intro hi
    by_contra hsep
    obtain ⟨i, j, n, hij, h1, h2⟩ := shared_of_not_separate hsep h
    exact not_intact_of_shared hl hf hij h1 h2 hi
  · intro hsep
    exact (numbering_of_exec hsep h).intact hl hf

/-- A server that answers everything with `kSuccess`. -/
def always (_ : Unit) (_ : Request) : Option (Result × Unit) := some ({}, ())

/-- `T` threads that draw nothing but `kvset(key_1, value_1)`, one transaction each. -/
def oneSet (T : Nat) : World T Unit := start (R := 1) (fun _ _ => (0, 0, 0)) ()

/-- Two threads in turn that each set and then get, one after the other at the counter. -/
def apart (a b : Fin 2) : List (Fin 2) := [a, a, b, b, a, b, b, a, b, b, a, a, b, a, a, b, a, b]

theorem intact_apart :
    ∃ w, Machine.exec (step always) (start (setThenGet 2) ()) (apart 0 1) = some w ∧
      (Intact 2 2 w.bigTable ↔ Machine.Along (step always) Separate (start (setThenGet 2) ()) (apart 0 1)) := by
  have h : (Machine.exec (step always) (start (setThenGet 2) ()) (apart 0 1)).any (fun w => decide w.Finished) =
      true := by decide
  obtain ⟨w, hw, hf⟩ := (Option.any_eq_true _ _).1 h
  exact ⟨w, hw, intact_iff_separate always () _ _ w hw (of_decide_eq_true hf)⟩

/-- Two threads read `0` before one of them writes `1` back: one of the two events is lost. -/
theorem overlap_loses_event :
    ∃ w, Machine.exec (step always) (oneSet 2) [0, 1, 0, 0, 0, 0, 1, 1, 1, 1] = some w ∧ w.Finished ∧
      ¬Intact 2 1 w.bigTable := by
  -- the events of the two threads, both with the number `0`
  have h : (Machine.exec (step always) (oneSet 2) [0, 1, 0, 0, 0, 0, 1, 1, 1, 1]).any (fun w =>
      decide (w.Finished ∧ w.bigTable = [[(Transaction.draw (0, 0, 0)).event 0 0 {}],
        [(Transaction.draw (0, 0, 0)).event 1 0 {}], [], []])) = true := by
    decide
  obtain ⟨w, hw, h⟩ := (Option.any_eq_true _ _).1 h
  obtain ⟨hf, hb⟩ := of_decide_eq_true h
  refine ⟨w, hw, hf, ?_⟩
  rw [hb]
  intro h
  obtain ⟨table, ht, _, hp, _⟩ := h
  obtain rfl : [(Transaction.draw (0, 0, 0)).event 1 0 {}, {}] = table := Option.some.inj ht
  have hblank := hp.mem_iff.1 (List.mem_cons_of_mem _ (List.mem_singleton_self ({} : Events)))
  exact absurd hblank (by decide)

end World

end ConsistencyTest

end KVStore
