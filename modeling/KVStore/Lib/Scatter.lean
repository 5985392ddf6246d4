import KVStore.Lib.Machine
import KVStore.Lib.Register
import Mathlib.Data.List.Sort

/-!
# Placing records at their keys

`scatter key t xs` writes each record `x` of `xs` to the slot `key x` of the table `t`; it fails if there is no such
slot.  A slot holds the last record written to it (`getElem?_scatter`).  The table is a permutation of the records
iff their keys are the slots, each once (`scatter_perm`, `map_key_of_perm`); then it is sorted by key, and every
list of records with increasing keys is a sublist of it (`sublist_of_map_key`).
-/

namespace Scatter

variable {α : Type} (key : α → Nat)

/-- `t[key x] = x` -/
def place (t : List α) (x : α) : Option (List α) := if key x < t.length then some (t.set (key x) x) else none

def scatter (t xs : List α) : Option (List α) := Machine.exec (place key) t xs

variable {key}

theorem place_eq_some {t t' : List α} {x : α} :
    place key t x = some t' ↔ key x < t.length ∧ t' = t.set (key x) x := by
  rw [place, Option.ite_none_right_eq_some, Option.some.injEq, eq_comm (a := t')]

theorem length_of_scatter {t t' xs : List α} (h : scatter key t xs = some t') : t'.length = t.length :=
  Machine.exec_invariant (fun u => u.length = t.length)
    (fun u x u' hu hx => by rw [(place_eq_some.1 hx).2, List.length_set, hu]) rfl h

theorem exists_scatter_iff {t xs : List α} :
    (∃ t', scatter key t xs = some t') ↔ ∀ x ∈ xs, key x < t.length := by
  induction xs generalizing t with
  | nil => simp [scatter]
  | cons x xs ih =>
    simp only [scatter, Machine.exec_cons_eq_some, place_eq_some]
    constructor
    · intro h
      obtain ⟨t', _, ⟨hx, rfl⟩, h⟩ := h
      have := ih.1 ⟨t', h⟩
      rw [List.length_set] at this
      exact List.forall_mem_cons.2 ⟨hx, this⟩
    · intro h
      obtain ⟨hx, h⟩ := List.forall_mem_cons.1 h
      obtain ⟨t', h'⟩ := ih (t := t.set (key x) x) |>.2 (by rwa [List.length_set])
      exact ⟨t', _, ⟨hx, rfl⟩, h'⟩

/-- The record written last to the slot `i`. -/
def lastAt (key : α → Nat) (i : Nat) (xs : List α) : Option α :=
  Register.last (fun x => if key x = i then some x else none) xs

theorem lastAt_eq_some {i : Nat} {xs : List α} {x : α} (h : lastAt key i xs = some x) : x ∈ xs ∧ key x = i := by
  obtain ⟨pre, y, post, rfl, hy, _⟩ := Register.last_eq_some_iff.1 h
  obtain ⟨hk, hxy⟩ := Option.ite_none_right_eq_some.1 hy
  obtain rfl := Option.some.inj hxy
  exact ⟨by simp, hk⟩

theorem getElem?_scatter {t t' xs : List α} (h : scatter key t xs = some t') (i : Nat) :
    t'[i]? = (lastAt key i xs).or t[i]? := by
  induction xs using List.reverseRecOn generalizing t' with
  | nil => cases h; rfl
  | append_singleton xs x ih =>
    obtain ⟨u, hu, h⟩ := Machine.exec_append_eq_some.1 h
    obtain ⟨v, hv, h⟩ := Machine.exec_cons_eq_some.1 h
    obtain rfl : v = t' := Option.some.inj h
    obtain ⟨hx, rfl⟩ := place_eq_some.1 hv
    have ih := ih hu
    rw [lastAt, Register.last_concat]
    by_cases hk : key x = i
    · rw [if_pos hk, ← hk, List.getElem?_set_self hx]
      rfl
    · rw [if_neg hk, List.getElem?_set_ne hk, ih]
      rfl

/-- A slot that is the key of some record holds such a record. -/
theorem exists_slot {t t' xs : List α} (h : scatter key t xs = some t') {i : Nat} (hi : i ∈ xs.map key) :
    ∃ y ∈ xs, t'[i]? = some y ∧ key y = i := by
  obtain ⟨x, hx, hk⟩ := List.mem_map.1 hi
  cases hl : lastAt key i xs with
  | none =>
    have hn := Register.last_eq_none_iff.1 hl x hx
    rw [if_pos hk] at hn
    cases hn
  | some y =>
    obtain ⟨hy, hyk⟩ := lastAt_eq_some hl
    exact ⟨y, hy, by rw [getElem?_scatter h, hl, Option.some_or], hyk⟩

/-- Records whose keys are the slots, each once: the table is a permutation of them, sorted by key. -/
theorem scatter_perm {t xs : List α} (h : (xs.map key).Perm (List.range t.length)) :
    ∃ t', scatter key t xs = some t' ∧ t'.Perm xs ∧ t'.map key = List.range t.length := by
  have hlt : ∀ x ∈ xs, key x < t.length := fun x hx =>
    List.mem_range.1 (h.mem_iff.1 (List.mem_map_of_mem hx))
  obtain ⟨t', ht⟩ := exists_scatter_iff.2 hlt
  have hlen := length_of_scatter ht
  -- every slot is written, so it holds a record with its own key
  have hslot : ∀ i (hi : i < t'.length), t'[i] ∈ xs ∧ key t'[i] = i := by
    intro i hi
    obtain ⟨y, hy, hty, hk⟩ := exists_slot ht (h.mem_iff.2 (List.mem_range.2 (hlen ▸ hi)))
    rw [List.getElem?_eq_getElem hi] at hty
    rw [Option.some.inj hty]
    exact ⟨hy, hk⟩
  have hmap : t'.map key = List.range t.length := by
    apply List.ext_getElem
    · rw [List.length_map, List.length_range, hlen]
    · intro i h1 _
      rw [List.getElem_map, List.getElem_range, (hslot i _).2]
  refine ⟨t', ht, ?_, hmap⟩
  have hnd : t'.Nodup := List.Nodup.of_map key (hmap ▸ List.nodup_range)
  refine (List.subperm_of_subset hnd fun x hx => ?_).perm_of_length_le ?_
  · obtain ⟨i, hi, rfl⟩ := List.mem_iff_getElem.1 hx
    exact (hslot i hi).1
  · rw [hlen, ← List.length_map key, h.length_eq, List.length_range]

/-- Conversely, if the table holds exactly the records and no blank slot, their keys are the slots. -/
theorem map_key_of_perm {n : Nat} {d : α} {t' xs : List α} (h : scatter key (List.replicate n d) xs = some t')
    (hd : d ∉ xs) (hp : t'.Perm xs) : t'.map key = List.range n := by
  have hlen := length_of_scatter h
  rw [List.length_replicate] at hlen
  apply List.ext_getElem
  · rw [List.length_map, List.length_range, hlen]
  · intro i h1 h2
    rw [List.length_map] at h1
    rw [List.getElem_map, List.getElem_range]
    have hs := getElem?_scatter h i
    rw [List.getElem?_eq_getElem h1] at hs
    cases hl : lastAt key i xs with
    | none =>
      -- a slot that is not written would still be blank
      rw [hl, Option.none_or, List.getElem?_replicate, if_pos (hlen ▸ h1)] at hs
      exact absurd (hp.mem_iff.1 (Option.some.inj hs ▸ List.getElem_mem h1)) hd
    | some y =>
      rw [hl] at hs
      rw [Option.some.inj hs]
      exact (lastAt_eq_some hl).2

/-- In a table sorted by key, a record is at the index that is its key. -/
theorem key_of_getElem? {n i : Nat} {t : List α} {x : α} (h : t.map key = List.range n) (hx : t[i]? = some x) :
    key x = i := by
  have hk := congrArg (fun l => l[i]?) h
  simp only [List.getElem?_map, hx, Option.map_some] at hk
  obtain ⟨_, hi⟩ := List.getElem?_eq_some_iff.1 hk.symm
  rw [List.getElem_range] at hi
  exact hi.symm

/-- In a table sorted by key, records with increasing keys stand in their order. -/
theorem sublist_of_map_key {n : Nat} {t ys : List α} (ht : t.map key = List.range n) (hsub : ∀ y ∈ ys, y ∈ t)
    (hinc : (ys.map key).Pairwise (· < ·)) : ys.Sublist t := by
  have : Std.Antisymm fun x y : α => key x < key y := ⟨fun x y h h' => absurd h (Nat.lt_asymm h')⟩
  have hys : ys.Pairwise fun x y => key x < key y := List.pairwise_map.1 hinc
  have hts : t.Pairwise fun x y => key x < key y := by
    rw [← List.pairwise_map, ht]
    exact List.pairwise_lt_range
  have hnd : ys.Nodup := List.Nodup.of_map key (hinc.imp Nat.ne_of_lt)
  exact List.sublist_of_subperm_of_pairwise (List.subperm_of_subset hnd hsub) hys hts

/-- Records sorted by key from the first slot on are what the table holds, in whatever order they are placed. -/
theorem scatter_eq {t xs ys : List α} (h : ys.map key = List.range t.length) (hp : xs.Perm ys) :
    scatter key t xs = some ys := by
  obtain ⟨t', ht, hp', hm⟩ := scatter_perm (show (xs.map key).Perm (List.range t.length) from h ▸ hp.map key)
  have hinc : (ys.map key).Pairwise (· < ·) := h ▸ List.pairwise_lt_range
  have hsub := sublist_of_map_key hm (fun y hy => (hp'.trans hp).mem_iff.2 hy) hinc
  rw [ht, hsub.eq_of_length (hp'.trans hp).length_eq.symm]

/-- Sorting records into buckets by a number loses none. -/
theorem flatten_buckets_perm {f : α → Nat} {N : Nat} {xs : List α} (h : ∀ x ∈ xs, f x < N) :
    ((List.range N).map fun i => xs.filter fun x => f x = i).flatten.Perm xs := by
  induction N generalizing xs with
  | zero =>
    rw [List.eq_nil_iff_forall_not_mem.2 fun x hx => Nat.not_lt_zero _ (h x hx)]
    exact List.Perm.nil
  | succ N ih =>
    -- the records of the last bucket, and the others
    have hlow : ∀ i, i < N →
        (xs.filter fun x => f x = i) = (xs.filter fun x => !decide (f x = N)).filter fun x => f x = i := by
      intro i hi
      rw [List.filter_filter]
      refine List.filter_congr fun x _ => ?_
      by_cases hx : f x = i
      · simp [hx, Nat.ne_of_lt hi]
      · simp [hx]
    have hmap : ((List.range N).map fun i => xs.filter fun x => f x = i) =
        (List.range N).map fun i => (xs.filter fun x => !decide (f x = N)).filter fun x => f x = i :=
      List.map_congr_left fun i hi => hlow i (List.mem_range.1 hi)
    have hbound : ∀ x ∈ xs.filter (fun x => !decide (f x = N)), f x < N := by
      intro x hx
      obtain ⟨hx, hne⟩ := List.mem_filter.1 hx
      have hlt := h x hx
      have hne : f x ≠ N := by simpa using hne
      omega
    rw [List.range_succ, List.map_append, List.flatten_append, hmap]
    refine ((ih hbound).append_right _).trans (List.perm_append_comm.trans ?_)
    simpa using List.filter_append_perm (fun x => decide (f x = N)) xs

/-! ### Keys that form an initial segment -/

/-- Numbers that contain the predecessor of each of them are those below some `m`. -/
theorem exists_segment {l : List Nat} (h : ∀ n, n + 1 ∈ l → n ∈ l) : ∃ m, m ≤ l.length ∧ ∀ n, n ∈ l ↔ n < m := by
  have hlen : ∀ m, (∀ n, n < m → n ∈ l) → m ≤ l.length := by
    intro m hm
    have hsub := List.subperm_of_subset (List.nodup_range (n := m)) fun n hn => hm n (List.mem_range.1 hn)
    simpa using hsub.length_le
  have hout : ∃ m, m ∉ l := by
    by_contra hall
    push Not at hall
    have := hlen (l.length + 1) fun n _ => hall n
    omega
  have hdown : ∀ m k, m + k ∈ l → m ∈ l := by
    intro m k hk
    induction k with
    | zero => exact hk
    | succ k ih => exact ih (h (m + k) hk)
  have hlt : ∀ n, n < Nat.find hout → n ∈ l := fun n hn => not_not.1 (Nat.find_min hout hn)
  refine ⟨Nat.find hout, hlen _ hlt, fun n => ⟨fun hn => ?_, hlt n⟩⟩
  by_contra hge
  obtain ⟨k, rfl⟩ := Nat.exists_eq_add_of_le (Nat.not_lt.1 hge)
  exact Nat.find_spec hout (hdown _ k hn)

/-- Records whose keys are the numbers below `m`: the slots below `m` hold a record with their own key, the others
stay blank. -/
theorem scatter_segment {N m : Nat} {d : α} {xs : List α} (hm : m ≤ N) (h : ∀ n, n ∈ xs.map key ↔ n < m) :
    ∃ t', scatter key (List.replicate N d) xs = some t' ∧
      (∀ i, i < m → ∃ x ∈ xs, t'[i]? = some x ∧ key x = i) ∧ ∀ i, m ≤ i → i < N → t'[i]? = some d := by
  have hlt : ∀ x ∈ xs, key x < (List.replicate N d).length := by
    intro x hx
    rw [List.length_replicate]
    exact Nat.lt_of_lt_of_le ((h (key x)).1 (List.mem_map_of_mem hx)) hm
  obtain ⟨t', ht⟩ := exists_scatter_iff.2 hlt
  refine ⟨t', ht, fun i hi => exists_slot ht ((h i).2 hi), fun i hi hN => ?_⟩
  have hl : lastAt key i xs = none := by
    refine Register.last_eq_none_iff.2 fun x hx => if_neg fun hk => ?_
    have hxm := (h (key x)).1 (List.mem_map_of_mem hx)
    omega
  rw [getElem?_scatter ht, hl, Option.none_or, List.getElem?_replicate, if_pos hN]

end Scatter
