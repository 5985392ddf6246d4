import Mathlib.Data.List.TakeWhile
import Mathlib.Tactic.Common

/-!
# Words between separators

`words sep s` reads `s` as a stream: each extraction skips the separators and takes what comes before the next one,
until nothing but separators is left.  A separator ends a word, so what stands before it and what stands after it are
read apart (`words_append_sep`); words put together with single separators are read back (`words_intercalate`).
-/

namespace Words

variable {α : Type} (sep : α → Bool)

/-- One extraction: the word, and what is left of the stream. -/
def extract (s : List α) : Option (List α × List α) :=
  match s.dropWhile sep with
  | [] => none
  | c :: s => some (c :: s.takeWhile fun d => !sep d, s.dropWhile fun d => !sep d)

variable {sep}

theorem length_of_extract {s w rest : List α} (h : extract sep s = some (w, rest)) : rest.length < s.length := by
  have hle := (List.dropWhile_sublist sep (l := s)).length_le
  unfold extract at h
  split at h
  · cases h
  · rename_i c s' hs
    obtain ⟨_, rfl⟩ := Prod.mk.inj (Option.some.inj h)
    have hle' := (List.dropWhile_sublist (fun d => !sep d) (l := s')).length_le
    rw [hs, List.length_cons] at hle
    omega

variable (sep) in
/-- The extractions until one fails. -/
def words (s : List α) : List (List α) :=
  match _h : extract sep s with
  | none => []
  | some (w, rest) => w :: words rest
termination_by s.length
decreasing_by exact length_of_extract _h

theorem words_of_extract {s w rest : List α} (h : extract sep s = some (w, rest)) :
    words sep s = w :: words sep rest := by
  rw [words]
  split
  · rename_i h'
    rw [h] at h'
    cases h'
  · rename_i w' rest' h'
    rw [h] at h'
    obtain ⟨rfl, rfl⟩ := Prod.mk.inj (Option.some.inj h')
    rfl

theorem words_of_extract_eq_none {s : List α} (h : extract sep s = none) : words sep s = [] := by
  rw [words]
  split
  · rfl
  · rename_i h'
    rw [h] at h'
    cases h'

theorem words_nil : words sep [] = [] := words_of_extract_eq_none rfl

/-- A word is read up to the next separator. -/
theorem extract_append {w rest : List α} (hw : w ≠ []) (hn : ∀ c ∈ w, sep c = false)
    (hr : rest = [] ∨ ∃ c s, rest = c :: s ∧ sep c = true) : extract sep (w ++ rest) = some (w, rest) := by
  obtain ⟨c, w, rfl⟩ := List.exists_cons_of_ne_nil hw
  obtain ⟨hc, hn⟩ := List.forall_mem_cons.1 hn
  have hkeep : ∀ d ∈ w, (!sep d) = true := fun d hd => by rw [hn d hd]; rfl
  have htake : (w ++ rest).takeWhile (fun d => !sep d) = w := by
    rw [List.takeWhile_append_of_pos hkeep]
    rcases hr with rfl | ⟨d, s, rfl, hd⟩
    · simp
    · simp [hd]
  have hdrop : (w ++ rest).dropWhile (fun d => !sep d) = rest := by
    rw [List.dropWhile_append_of_pos hkeep]
    rcases hr with rfl | ⟨d, s, rfl, hd⟩
    · rfl
    · simp [hd]
  rw [extract, List.cons_append, List.dropWhile_cons_of_neg (by simp [hc])]
  simp only [htake, hdrop]

theorem words_of_forall {w : List α} (hw : w ≠ []) (hn : ∀ c ∈ w, sep c = false) : words sep w = [w] := by
  have h := extract_append hw hn (Or.inl rfl)
  rw [List.append_nil] at h
  rw [words_of_extract h, words_nil]

/-- A separator before the first word is skipped. -/
theorem words_cons_sep {c : α} (hc : sep c = true) (s : List α) : words sep (c :: s) = words sep s := by
  have h : extract sep (c :: s) = extract sep s := by
    rw [extract, extract, List.dropWhile_cons_of_pos hc]
  cases hs : extract sep s with
  | none => rw [words_of_extract_eq_none hs, words_of_extract_eq_none (h.trans hs)]
  | some x => rw [words_of_extract hs, words_of_extract (h.trans hs)]

theorem extract_eq_none_iff {s : List α} : extract sep s = none ↔ ∀ c ∈ s, sep c = true := by
  rw [← List.dropWhile_eq_nil_iff]
  unfold extract
  split
  · simp [*]
  · simp [*]

theorem words_eq_nil_iff {s : List α} : words sep s = [] ↔ ∀ c ∈ s, sep c = true := by
  rw [← extract_eq_none_iff]
  cases h : extract sep s with
  | none => simp [words_of_extract_eq_none h]
  | some x => simp [words_of_extract h]

theorem takeWhile_append_cons {p : α → Bool} {c : α} (hc : p c = false) (u t : List α) :
    (u ++ c :: t).takeWhile p = u.takeWhile p := by
  induction u with
  | nil => simp [hc]
  | cons d u ih => rw [List.cons_append, List.takeWhile_cons, List.takeWhile_cons, ih]

theorem dropWhile_append_cons {p : α → Bool} {c : α} (hc : p c = false) (u t : List α) :
    (u ++ c :: t).dropWhile p = u.dropWhile p ++ c :: t := by
  induction u with
  | nil => simp [hc]
  | cons d u ih =>
    rw [List.cons_append, List.dropWhile_cons, List.dropWhile_cons, ih]
    split <;> rfl

/-- The first word ends before the separator, whatever follows. -/
theorem extract_append_sep {s w rest : List α} {c : α} (hc : sep c = true) (h : extract sep s = some (w, rest))
    (t : List α) : extract sep (s ++ c :: t) = some (w, rest ++ c :: t) := by
  unfold extract at h
  split at h
  · cases h
  · rename_i d u hs
    obtain ⟨rfl, rfl⟩ := Prod.mk.inj (Option.some.inj h)
    have hdrop : (s ++ c :: t).dropWhile sep = d :: (u ++ c :: t) := by
      rw [List.dropWhile_append, hs]
      rfl
    have hn : (fun d => !sep d) c = false := by simp [hc]
    unfold extract
    rw [hdrop]
    dsimp only
    rw [takeWhile_append_cons (p := fun d => !sep d) hn, dropWhile_append_cons (p := fun d => !sep d) hn]

/-- Separators before the first word are skipped. -/
theorem words_append_of_forall {s : List α} (hs : ∀ c ∈ s, sep c = true) (t : List α) :
    words sep (s ++ t) = words sep t := by
  induction s with
  | nil => rfl
  | cons c s ih =>
    obtain ⟨hc, hs⟩ := List.forall_mem_cons.1 hs
    rw [List.cons_append, words_cons_sep hc, ih hs]

/-- What stands before a separator and what stands after it are read apart. -/
theorem words_append_sep {c : α} (hc : sep c = true) (s t : List α) :
    words sep (s ++ c :: t) = words sep s ++ words sep t := by
  fun_induction words sep s with
  | case1 s h => rw [words_append_of_forall (extract_eq_none_iff.1 h), words_cons_sep hc, List.nil_append]
  | case2 s w rest h ih => rw [words_of_extract (extract_append_sep hc h t), ih, List.cons_append]

/-- The words of parts that are put together with one separator after each but the last. -/
theorem words_intercalate_eq_flatMap {c : α} (hc : sep c = true) (ws : List (List α)) :
    words sep ([c].intercalate ws) = ws.flatMap (words sep) := by
  induction ws with
  | nil => exact words_nil
  | cons w ws ih =>
    cases ws with
    | nil => rw [List.intercalate_singleton, List.flatMap_singleton]
    | cons w' ws =>
      rw [List.intercalate_cons_cons, List.append_assoc, List.singleton_append, words_append_sep hc, ih]
      exact List.flatMap_cons.symm

/-- Words are read back, but for the empty ones. -/
theorem words_intercalate_filter {c : α} (hc : sep c = true) {ws : List (List α)}
    (h : ∀ w ∈ ws, ∀ d ∈ w, sep d = false) :
    words sep ([c].intercalate ws) = ws.filter fun w => !w.isEmpty := by
  rw [words_intercalate_eq_flatMap hc]
  induction ws with
  | nil => rfl
  | cons w ws ih =>
    obtain ⟨hn, h⟩ := List.forall_mem_cons.1 h
    rw [List.flatMap_cons, ih h]
    by_cases hw : w = []
    · rw [hw, words_nil]
      rfl
    · rw [words_of_forall hw hn, List.filter_cons_of_pos (by simpa using hw), List.singleton_append]

/-- Words put together with one separator after each but the last. -/
theorem words_intercalate {c : α} (hc : sep c = true) {ws : List (List α)}
    (h : ∀ w ∈ ws, w ≠ [] ∧ ∀ d ∈ w, sep d = false) : words sep ([c].intercalate ws) = ws := by
  rw [words_intercalate_filter hc fun w hw => (h w hw).2]
  exact List.filter_eq_self.2 fun w hw => by simpa using (h w hw).1

end Words
