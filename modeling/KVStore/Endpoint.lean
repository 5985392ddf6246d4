import KVStore.Kvclient
import KVStore.Lib.Words

/-!
# The endpoint of a client

All programs take the server's address from one argument, `-server host:port`, with the same code.  The address is
taken apart at the first colon, and the port is read as an `int`; so an address is read back iff its host has no colon
and its port fits (`endpoint_iff`).
-/

namespace KVStore

namespace Kvclient

open Client

/-- `host:port` -/
def endpoint (h : String) (n : Nat) : String := h ++ ":" ++ toString n

theorem toList_endpoint (h : String) (n : Nat) :
    (endpoint h n).toList = h.toList ++ ':' :: Nat.toDigits 10 n := by
  rw [endpoint, String.toList_append, String.toList_append, Nat.toString_eq_repr, Nat.toList_repr, List.append_assoc]
  rfl

/-! ### Numbers -/

theorem isSpace_of_isDigit {c : Char} (h : c.isDigit = true) : isSpace c = false := by
  unfold isSpace
  rw [decide_eq_false_iff_not]
  intro hc
  simp only [List.mem_cons, List.not_mem_nil, or_false] at hc
  rcases hc with rfl | rfl | rfl | rfl | rfl | rfl <;> exact absurd h (by decide)

theorem sign_of_isDigit {c : Char} (h : c.isDigit = true) (s : List Char) : sign (c :: s) = (false, c :: s) := by
  unfold sign
  split
  · rename_i hs
    obtain ⟨rfl, _⟩ := List.cons.inj hs
    exact absurd h (by decide)
  · rename_i hs
    obtain ⟨rfl, _⟩ := List.cons.inj hs
    exact absurd h (by decide)
  · rfl

/-- A number is read as what it is, up to the largest `int`. -/
theorem toPort_ofList_toDigits (n : Nat) : toPort (String.ofList (Nat.toDigits 10 n)) = min (n : Int) 2147483647 := by
  have hdigit : ∀ c ∈ Nat.toDigits 10 n, c.isDigit = true := fun c hc =>
    Nat.isDigit_of_mem_toDigits (by decide) (by decide) hc
  obtain ⟨c, s, hcs⟩ := List.exists_cons_of_ne_nil (Nat.toDigits_ne_nil (n := n) (b := 10))
  have hc : c.isDigit = true := hdigit c (by simp [hcs])
  have hread : (Nat.toDigits 10 n).foldl (fun n c => 10 * n + (c.toNat - '0'.toNat)) 0 = n := by
    rw [← Nat.ofDigitChars_eq_foldl]
    exact Nat.ofDigitChars_ten_toDigits
  have htake : (Nat.toDigits 10 n).takeWhile Char.isDigit = Nat.toDigits 10 n := List.takeWhile_eq_self_iff.2 hdigit
  rw [hcs] at hread htake
  unfold toPort
  rw [String.toList_ofList, hcs, List.dropWhile_cons_of_neg (by simp [isSpace_of_isDigit hc]), sign_of_isDigit hc]
  dsimp only
  rw [htake, hread]
  rfl

/-! ### The two parts -/

private theorem forall_ne_colon {h : String} (hc : ':' ∉ h.toList) : ∀ c ∈ h.toList, decide (c ≠ ':') = true := by
  intro c hm
  refine decide_eq_true ?_
  rintro rfl
  exact hc hm

/-- The host ends at the first colon. -/
theorem host_endpoint_eq_iff (h : String) (n : Nat) : host (endpoint h n) = h ↔ ':' ∉ h.toList := by
  have htake : (h.toList ++ ':' :: Nat.toDigits 10 n).takeWhile (fun c => c ≠ ':') =
      h.toList.takeWhile fun c => c ≠ ':' := Words.takeWhile_append_cons (by decide) _ _
  rw [host, toList_endpoint, htake]
  constructor
  · intro hh hc
    have hall := List.takeWhile_eq_self_iff.1 ((String.toList_ofList).symm.trans (congrArg String.toList hh))
    exact absurd (hall ':' hc) (by decide)
  · intro hc
    rw [List.takeWhile_eq_self_iff.2 (forall_ne_colon hc), String.ofList_toList]

theorem strPort_endpoint {h : String} (hc : ':' ∉ h.toList) (n : Nat) :
    strPort (endpoint h n) = String.ofList (Nat.toDigits 10 n) := by
  rw [strPort, toList_endpoint, if_pos (by simp), List.dropWhile_append_of_pos (forall_ne_colon hc)]
  rfl

/-- The clients connect to the host and the port that were meant iff the host has no colon and the port is an `int`. -/
theorem endpoint_iff (h : String) (n : Nat) :
    (host (endpoint h n) = h ∧ toPort (strPort (endpoint h n)) = n) ↔ ':' ∉ h.toList ∧ n ≤ 2147483647 := by
  rw [host_endpoint_eq_iff]
  refine and_congr_right fun hc => ?_
  rw [strPort_endpoint hc, toPort_ofList_toDigits]
  omega

end Kvclient

end KVStore
