import KVStore.Race
import Mathlib.Algebra.BigOperators.Group.Finset.Basic
import Mathlib.Data.Fintype.BigOperators

/-!
# What racing increments leave of the numbers

A write-back that comes late sets `sequence_no` back, so numbers are handed out again.  But a thread writes back the
successor of a number that it has read itself: the numbers read so far contain the predecessor of each of them, and
that of the counter (`Contiguous`).  So the scatter loop stays inside the table in every run, and fills its slots
from the first one on (`scatter_in_bounds`).
-/

namespace KVStore

namespace ConsistencyTest

namespace World

variable {T : Nat} {σ : Type} {serve : σ → Request → Option (Result × σ)}

/-- Some thread has read the number `n`. -/
def Held (w : World T σ) (n : Nat) : Prop := ∃ i, n ∈ (w.threads i).numbers

instance (w : World T σ) (i : Fin T) : Decidable (w.Reads i) := inferInstanceAs (Decidable (_ ∧ _))
instance (w : World T σ) (n : Nat) : Decidable (w.Held n) := inferInstanceAs (Decidable (∃ _, _))

/-- The predecessors of the numbers read so far, and that of the counter, have been read too. -/
structure Contiguous (w : World T σ) : Prop where
  closed : ∀ n, w.Held (n + 1) → w.Held n
  counter : ∀ n, w.sequenceNo = n + 1 → w.Held n

section Step

variable {w w' : World T σ} {i : Fin T}

theorem Steps.numbers_eq (h : Steps serve w i w') :
    (w'.threads i).numbers = (w.threads i).numbers ++ if w.Reads i then [w.sequenceNo] else [] := by
  rcases h.numbers with ⟨hr, e, _⟩ | ⟨tx, n, hst, _, _, e⟩ | ⟨hr, _, _, _, e⟩
  · rw [if_pos hr, e]
  · have hr : ¬w.Reads i := by
      intro hr
      rw [hr.1] at hst
      cases hst
    rw [if_neg hr, e, List.append_nil]
  · rw [if_neg hr, e, List.append_nil]

/-- A read adds the value of the counter to the numbers, other steps add none. -/
theorem Steps.held_iff (h : Steps serve w i w') (n : Nat) :
    w'.Held n ↔ w.Held n ∨ w.Reads i ∧ n = w.sequenceNo := by
  constructor
  · intro hn
    obtain ⟨j, hj⟩ := hn
    by_cases hji : j = i
    · rw [hji, h.numbers_eq, List.mem_append] at hj
      rcases hj with hj | hj
      · exact Or.inl ⟨i, hj⟩
      · split at hj
        · exact Or.inr ⟨‹_›, List.mem_singleton.1 hj⟩
        · cases hj
    · exact Or.inl ⟨j, h.threads_of_ne hji ▸ hj⟩
  · intro hn
    rcases hn with ⟨j, hj⟩ | ⟨hr, rfl⟩
    · exact ⟨j, h.mem_numbers hj⟩
    · exact ⟨i, by rw [h.numbers_eq, if_pos hr]; simp⟩

/-- The counter stays, or is set to the successor of a number that has been read. -/
theorem Steps.sequenceNo_cases (h : Steps serve w i w') :
    w'.sequenceNo = w.sequenceNo ∨ ∃ n, w'.sequenceNo = n + 1 ∧ w.Held n := by
  rcases h.numbers with ⟨_, _, hc, _⟩ | ⟨tx, n, hst, _, hc, _⟩ | ⟨_, _, _, hc, _⟩
  · exact Or.inl hc
  · exact Or.inr ⟨n, hc, i, Thread.mem_numbers (by rw [hst]; rfl)⟩
  · exact Or.inl hc

theorem Contiguous.step (hi : Contiguous w) (h : w.step serve i = some w') : Contiguous w' := by
  have hs := steps_of_step h
  refine ⟨fun n hn => ?_, fun n hn => ?_⟩
  · rw [hs.held_iff]
    rcases (hs.held_iff _).1 hn with hn | ⟨_, hn⟩
    · exact Or.inl (hi.closed n hn)
    · exact Or.inl (hi.counter n hn.symm)
  · rw [hs.held_iff]
    rcases hs.sequenceNo_cases with hc | ⟨m, hc, hm⟩
    · exact Or.inl (hi.counter n (by rw [← hc, hn]))
    · obtain rfl : n = m := by omega
      exact Or.inl hm

end Step

theorem contiguous_start {R : Nat} (rand : Fin T → Fin R → Nat × Nat × Nat) (server : σ) :
    Contiguous (start rand server) where
  closed n h := by
    obtain ⟨i, hi⟩ := h
    cases hi
  counter n h := by cases h

/-! ### Whole runs -/

variable {R : Nat} {rand : Fin T → Fin R → Nat × Nat × Nat}

theorem contiguous_of_exec {server : σ} {sched : List (Fin T)} {w : World T σ}
    (h : Machine.exec (step serve) (start rand server) sched = some w) : Contiguous w :=
  Machine.exec_invariant Contiguous (fun _ _ _ hi hs => hi.step hs) (contiguous_start rand server) h

/-- The numbers in `bigTable` are those that the threads have read. -/
theorem LogInv.recorded_iff {w : World T σ} (hl : LogInv rand w) (hf : w.Finished) (n : Nat) :
    n ∈ w.bigTable.flatten.map Events.sequenceNumber ↔ w.Held n := by
  rw [List.mem_map]
  constructor
  · intro h
    obtain ⟨e, he, rfl⟩ := h
    obtain ⟨i, hi⟩ := (hl.mem_flatten hf).1 he
    exact ⟨i, by rw [numbers_of_finished hf]; exact List.mem_map_of_mem hi⟩
  · intro h
    obtain ⟨i, hi⟩ := h
    rw [numbers_of_finished hf] at hi
    obtain ⟨e, he, rfl⟩ := List.mem_map.1 hi
    exact ⟨e, (hl.mem_flatten hf).2 ⟨i, he⟩, rfl⟩

/-- What the scatter loop makes of logs whose numbers are contiguous. -/
theorem Contiguous.fills {w : World T σ} (hc : Contiguous w) (hl : LogInv rand w) (hf : w.Finished) :
    ∃ m, m ≤ T * R ∧ (∀ n, n ∈ w.bigTable.flatten.map Events.sequenceNumber ↔ n < m) ∧
      ∃ table, sortedBigTable T R w.bigTable = some table ∧ table.length = T * R ∧
        (∀ i, i < m → ∃ e ∈ w.bigTable.flatten, table[i]? = some e ∧ e.sequenceNumber = i) ∧
        ∀ i, m ≤ i → i < T * R → table[i]? = some {} := by
  obtain ⟨m, hm, hseg⟩ := Scatter.exists_segment (l := w.bigTable.flatten.map Events.sequenceNumber) fun n hn =>
    (hl.recorded_iff hf n).2 (hc.closed n ((hl.recorded_iff hf _).1 hn))
  rw [List.length_map, hl.length_flatten hf] at hm
  obtain ⟨table, ht, hfill, hblank⟩ := Scatter.scatter_segment (d := ({} : Events)) hm hseg
  refine ⟨m, hm, hseg, table, (sortedBigTable_eq T R w.bigTable).trans ht, ?_, hfill, hblank⟩
  rw [Scatter.length_of_scatter ht, List.length_replicate]

/-- After any run of the threads to their end, the recorded numbers are those below some `m`, and the scatter loop
stays inside the table: it fills the slots below `m`, each with an event that carries its number, and no other. -/
theorem scatter_in_bounds (serve : σ → Request → Option (Result × σ)) (server : σ)
    (rand : Fin T → Fin R → Nat × Nat × Nat) (sched : List (Fin T)) (w : World T σ)
    (h : Machine.exec (step serve) (start rand server) sched = some w) (hf : w.Finished) :
    ∃ m, m ≤ T * R ∧ (∀ n, n ∈ w.bigTable.flatten.map Events.sequenceNumber ↔ n < m) ∧
      ∃ table, sortedBigTable T R w.bigTable = some table ∧ table.length = T * R ∧
        (∀ i, i < m → ∃ e ∈ w.bigTable.flatten, table[i]? = some e ∧ e.sequenceNumber = i) ∧
        ∀ i, m ≤ i → i < T * R → table[i]? = some {} :=
  (contiguous_of_exec h).fills (logInv_of_exec h) hf

/-- Two threads that both get the number `0`. -/
theorem overlap_in_bounds :
    ∃ w, Machine.exec (step always) (oneSet 2) [0, 1, 0, 0, 0, 0, 1, 1, 1, 1] = some w ∧
      ∃ m, m ≤ 2 * 1 ∧ (∀ n, n ∈ w.bigTable.flatten.map Events.sequenceNumber ↔ n < m) ∧
        ∃ table, sortedBigTable 2 1 w.bigTable = some table ∧ table.length = 2 * 1 ∧
          (∀ i, i < m → ∃ e ∈ w.bigTable.flatten, table[i]? = some e ∧ e.sequenceNumber = i) ∧
          ∀ i, m ≤ i → i < 2 * 1 → table[i]? = some {} := by
  have h : (Machine.exec (step always) (oneSet 2) [0, 1, 0, 0, 0, 0, 1, 1, 1, 1]).any
      (fun w => decide w.Finished) = true := by
    decide
  obtain ⟨w, hw, hf⟩ := (Option.any_eq_true _ _).1 h
  exact ⟨w, hw, scatter_in_bounds always () _ _ w hw (of_decide_eq_true hf)⟩

/-! ### How many numbers are lost -/

/-- The number that the thread `i` reads next, if it has been read before. -/
def repeated (w : World T σ) (i : Fin T) : List Nat :=
  if w.Reads i ∧ w.Held w.sequenceNo then [w.sequenceNo] else []

/-- The numbers that the threads have read so far. -/
def heldNumbers (w : World T σ) : Finset Nat := Finset.univ.biUnion fun i => (w.threads i).numbers.toFinset

theorem mem_heldNumbers {w : World T σ} {n : Nat} : n ∈ w.heldNumbers ↔ w.Held n := by
  simp [heldNumbers, Held]

/-- How often the threads have read `sequence_no`. -/
def reads (w : World T σ) : Nat := ∑ i, (w.threads i).numbers.length

theorem Steps.reads_eq {w w' : World T σ} {i : Fin T} (h : Steps serve w i w') :
    w'.reads = w.reads + if w.Reads i then 1 else 0 := by
  have hlen : ∀ j, (w'.threads j).numbers.length =
      (w.threads j).numbers.length + if j = i then (if w.Reads i then 1 else 0) else 0 := by
    intro j
    by_cases hj : j = i
    · rw [hj, h.numbers_eq, List.length_append, if_pos rfl]
      split <;> rfl
    · rw [h.threads_of_ne hj, if_neg hj, Nat.add_zero]
  simp only [reads, hlen, Finset.sum_add_distrib, Finset.sum_ite_eq', Finset.mem_univ, if_true]

/-- A read gives a new number or repeats one. -/
theorem Steps.card_heldNumbers {w w' : World T σ} {i : Fin T} (h : Steps serve w i w') :
    w'.heldNumbers.card + (repeated w i).length = w.heldNumbers.card + if w.Reads i then 1 else 0 := by
  have hmem : ∀ n, n ∈ w'.heldNumbers ↔ n ∈ w.heldNumbers ∨ w.Reads i ∧ n = w.sequenceNo := by
    intro n
    rw [mem_heldNumbers, mem_heldNumbers, h.held_iff]
  by_cases hr : w.Reads i
  · have hins : w'.heldNumbers = insert w.sequenceNo w.heldNumbers := by
      ext n
      rw [hmem, Finset.mem_insert, or_comm]
      simp [hr]
    rw [hins, if_pos hr]
    by_cases hh : w.Held w.sequenceNo
    · rw [Finset.insert_eq_of_mem (mem_heldNumbers.2 hh), repeated, if_pos ⟨hr, hh⟩]
      rfl
    · rw [Finset.card_insert_of_notMem (fun hm => hh (mem_heldNumbers.1 hm)), repeated, if_neg fun hc => hh hc.2]
      rfl
  · have hsame : w'.heldNumbers = w.heldNumbers := by
      ext n
      rw [hmem]
      simp [hr]
    rw [hsame, repeated, if_neg (fun hc => hr hc.1), if_neg hr]
    rfl

theorem heldNumbers_start {R : Nat} (rand : Fin T → Fin R → Nat × Nat × Nat) (server : σ) :
    (start rand server).heldNumbers = ∅ := by
  refine Finset.eq_empty_of_forall_notMem fun n hn => ?_
  obtain ⟨i, hi⟩ := mem_heldNumbers.1 hn
  cases hi

/-- The reads of a run that did not repeat a number are as many as the numbers read. -/
theorem card_heldNumbers {R : Nat} {rand : Fin T → Fin R → Nat × Nat × Nat} {server : σ} {sched : List (Fin T)}
    {w : World T σ} (h : Machine.exec (step serve) (start rand server) sched = some w) :
    w.heldNumbers.card + (Machine.trace (step serve) repeated (start rand server) sched).length = w.reads := by
  refine Machine.exec_history_invariant (h := []) (fun _ _ => True) repeated
    (fun w h => w.heldNumbers.card + h.length = w.reads) ?_ ?_ (Machine.along_true _ _) h
  · intro w h i w' hi _ hs
    have hst := steps_of_step hs
    have hcard := hst.card_heldNumbers
    rw [hst.reads_eq, List.length_append, ← hi]
    omega
  · rw [heldNumbers_start]
    simp [reads, start, Thread.numbers, Stage.number]

/-- At the end of a run with `m` different numbers, the others have been lost. -/
theorem add_lost_eq {R : Nat} {rand : Fin T → Fin R → Nat × Nat × Nat} {server : σ} {sched : List (Fin T)}
    {w : World T σ} (h : Machine.exec (step serve) (start rand server) sched = some w) (hf : w.Finished) {m : Nat}
    (hm : ∀ n, n ∈ w.bigTable.flatten.map Events.sequenceNumber ↔ n < m) :
    m + (Machine.trace (step serve) repeated (start rand server) sched).length = T * R := by
  have hl := logInv_of_exec h
  have hcard : w.heldNumbers = Finset.range m := by
    ext n
    rw [mem_heldNumbers, ← hl.recorded_iff hf, hm, Finset.mem_range]
  have hreads : w.reads = T * R := by
    have hlen : ∀ i, (w.threads i).numbers.length = R := by
      intro i
      rw [numbers_of_finished hf, List.length_map, hl.length_log hf]
    simp [reads, hlen]
  rw [← hreads, ← card_heldNumbers h, hcard, Finset.card_range]

end World

end ConsistencyTest

end KVStore
