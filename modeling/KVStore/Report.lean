import KVStore.Checker
import KVStore.LostNumbers

/-!
# The report of `consistency_test`

Before the checks `main` prints the slots of `sortedBigTable`, all but the last 19.  A slot that no event was placed
in has no parameters, so the loop reads outside the vector when it meets one.  The blank slots are as many as the
reads of `sequence_no` that repeated a number, at the end of the table: the loop stays inside the vectors iff there
are at most 19 of them (`report_in_range_iff`).
-/

namespace KVStore

namespace ConsistencyTest

/-- The line about one slot. -/
def reportLine (e : Events) : Except Halt String := do
  let head := toString e.sequenceNumber ++ " - " ++ toString e.threadId ++ " - " ++ e.operation ++ " - "
  if e.operation = set then
    return head ++ (← param e 0) ++ " - " ++ (← param e 1) ++ " - " ++ e.response.printTo
  else
    return head ++ (← param e 0) ++ " - " ++ e.response.printTo

/-- The loop over `i < num_of_runs * num_of_threads - 19`. -/
def report (T R : Nat) (table : List Events) : Except Halt (List String) :=
  (List.range (T * R - 19)).mapM fun i =>
    match table[i]? with
    | some e => reportLine e
    | none => throw .outOfRange

theorem reportLine_of_logged {e : Events} (h : e.Logged) : ∃ line, reportLine e = .ok line := by
  unfold reportLine
  cases h with
  | set k v h =>
    rw [if_pos h.1, param, param, h.2]
    exact ⟨_, rfl⟩
  | get k h =>
    rw [if_neg (h.1 ▸ Events.get_ne_set), param, h.2]
    exact ⟨_, rfl⟩

/-- A slot that was not filled. -/
theorem reportLine_blank : reportLine {} = .error .outOfRange := rfl

namespace World

variable {T R : Nat} {σ : Type}

/-- After a run of the threads to their end, the loop stays inside the vectors of parameters iff at most 19 reads of
`sequence_no` gave a number that had been read before. -/
theorem report_in_range_iff (serve : σ → Request → Option (Result × σ)) (server : σ)
    (rand : Fin T → Fin R → Nat × Nat × Nat) (sched : List (Fin T)) (w : World T σ)
    (h : Machine.exec (step serve) (start rand server) sched = some w) (hf : w.Finished) :
    ∃ table, sortedBigTable T R w.bigTable = some table ∧
      ((∃ lines, report T R table = .ok lines) ↔
        (Machine.trace (step serve) repeated (start rand server) sched).length ≤ 19) := by
  have hl := logInv_of_exec h
  obtain ⟨m, hm, hseg, table, ht, _, hfill, hblank⟩ := (contiguous_of_exec h).fills hl hf
  refine ⟨table, ht, ?_⟩
  have hlost := add_lost_eq h hf hseg
  rw [report, EarlyExit.exists_mapM_ok_iff]
  constructor
  · intro hall
    by_contra hmany
    -- the first blank slot is one that the loop meets
    obtain ⟨line, hline⟩ := hall m (List.mem_range.2 (by omega))
    rw [hblank m (Nat.le_refl m) (by omega)] at hline
    exact absurd (reportLine_blank.symm.trans hline) (by simp)
  · intro hfew i hi
    have hi := List.mem_range.1 hi
    obtain ⟨e, he, hslot, _⟩ := hfill i (by omega)
    rw [hslot]
    obtain ⟨j, hj⟩ := (hl.mem_flatten hf).1 he
    exact reportLine_of_logged (hl.logged hj).1

/-- All threads read `sequence_no` before one of them writes it back. -/
def allAtOnce (T : Nat) : List (Fin T) := List.finRange T ++ (List.finRange T).flatMap (List.replicate 4)

/-- 21 threads, of which the last is late and gets the number `1`: 19 reads repeat a number, and both slots that the
loop visits are filled. -/
def lastApart : List (Fin 21) :=
  ((List.finRange 20).map Fin.castSucc) ++ ((List.finRange 20).map Fin.castSucc).flatMap (List.replicate 4) ++
    List.replicate 5 (Fin.last 20)

theorem overlap_reported :
    ∃ w, Machine.exec (step always) (oneSet 21) lastApart = some w ∧
      ∃ table, sortedBigTable 21 1 w.bigTable = some table ∧
        ((∃ lines, report 21 1 table = .ok lines) ↔
          (Machine.trace (step always) repeated (oneSet 21) lastApart).length ≤ 19) := by
  have h : (Machine.exec (step always) (oneSet 21) lastApart).any (fun w => decide w.Finished) = true := by
    decide +kernel
  obtain ⟨w, hw, hf⟩ := (Option.any_eq_true _ _).1 h
  exact ⟨w, hw, report_in_range_iff always () _ _ w hw (of_decide_eq_true hf)⟩

/-- 21 threads with one transaction each that all get the number `0`: the loop meets the blank slot `1`. -/
theorem overlap_not_reported :
    ∃ w, Machine.exec (step always) (oneSet 21) (allAtOnce 21) = some w ∧ w.Finished ∧
      ∃ table, sortedBigTable 21 1 w.bigTable = some table ∧ ¬∃ lines, report 21 1 table = .ok lines := by
  have h : (Machine.exec (step always) (oneSet 21) (allAtOnce 21)).any (fun w =>
      decide (w.Finished ∧
        (sortedBigTable 21 1 w.bigTable).any (fun table => (report 21 1 table).toOption.isNone) = true)) = true := by
    decide +kernel
  obtain ⟨w, hw, h⟩ := (Option.any_eq_true _ _).1 h
  obtain ⟨hf, h⟩ := of_decide_eq_true h
  obtain ⟨table, ht, h⟩ := (Option.any_eq_true _ _).1 h
  refine ⟨w, hw, hf, table, ht, fun hl => ?_⟩
  obtain ⟨lines, hl⟩ := hl
  rw [hl] at h
  cases h

end World

end ConsistencyTest

end KVStore
