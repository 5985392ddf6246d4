import Mathlib.Logic.Function.Basic
import Mathlib.Tactic.Common

/-!
# The data of the service

The types of `kvstore.thrift` and the global map `shared_kvstore` with the three library operations the handlers
use on it.  `operator[]` is split in two: it creates the entry of the key if there is none (`locate`), and what is
read or written through the reference it returns is `value` and `assign`.
-/

namespace KVStore

inductive ErrorCode where
  | kSuccess | kKeyNotFound | kError
  deriving DecidableEq, Repr

/-- The number of an enumerator. -/
def ErrorCode.toNat : ErrorCode → Nat
  | .kSuccess => 0
  | .kKeyNotFound => 1
  | .kError => 2

/-- `Result`, with the defaults of its generated constructor. -/
structure Result where
  value : String := ""
  error : ErrorCode := .kSuccess
  errortext : String := ""
  deriving DecidableEq, Repr

def Result.printTo (r : Result) : String :=
  "Result(value=" ++ r.value ++ ", error=" ++ toString r.error.toNat ++ ", errortext=" ++ r.errortext ++ ")"

/-- A request of the service `KVStore`. -/
inductive Request where
  | kvset (key value : String)
  | kvget (key : String)
  | kvdelete (key : String)
  deriving DecidableEq, Repr

/-- The key a request is about. -/
def Request.key : Request → String
  | .kvset key _ => key
  | .kvget key => key
  | .kvdelete key => key

/-- `std::map<std::string, std::string>`. -/
abbrev Store := String → Option String

namespace Store

def empty : Store := fun _ => none

/-- The effect of `m[key]`: the entry of `key`, created with an empty string if there is none. -/
def locate (m : Store) (key : String) : Store :=
  if (m key).isSome then m else Function.update m key (some "")

/-- What is read through `m[key]` once the entry is there. -/
def value (m : Store) (key : String) : String := (m key).getD ""

def assign (m : Store) (key value : String) : Store := Function.update m key (some value)

def erase (m : Store) (key : String) : Store := Function.update m key none

@[simp] theorem value_empty (k : String) : empty.value k = "" := rfl

theorem isSome_locate (m : Store) (key : String) : (m.locate key key).isSome := by
  unfold locate
  split
  · assumption
  · simp

/-- The entry made by `operator[]` reads as the absent one does. -/
@[simp] theorem value_locate (m : Store) (key k : String) : (m.locate key).value k = m.value k := by
  unfold value locate
  split
  · rfl
  · rename_i h
    by_cases hk : k = key
    · subst hk
      simp at h
      simp [h]
    · rw [Function.update_of_ne hk]

@[simp] theorem assign_locate (m : Store) (key v : String) :
    (m.locate key).assign key v = m.assign key v := by
  unfold locate
  split
  · rfl
  · exact Function.update_idem _ _ _

theorem erase_locate_self (m : Store) (key : String) : (m.locate key).erase key = m.erase key := by
  unfold locate
  split
  · rfl
  · exact Function.update_idem _ _ _

theorem erase_locate_of_ne (m : Store) {key k : String} (h : k ≠ key) :
    (m.locate key).erase k = (m.erase k).locate key := by
  have hk : (m.erase k) key = m key := Function.update_of_ne (Ne.symm h) _ _
  unfold locate
  rw [hk]
  split
  · rfl
  · exact Function.update_comm (Ne.symm h) _ _ _

@[simp] theorem value_assign (m : Store) (key v : String) :
    (m.assign key v).value = Function.update m.value key v := by
  funext k
  by_cases h : k = key
  · subst h; simp [value, assign]
  · simp [value, assign, h]

@[simp] theorem value_erase (m : Store) (key : String) :
    (m.erase key).value = Function.update m.value key "" := by
  funext k
  by_cases h : k = key
  · subst h; simp [value, erase]
  · simp [value, erase, h]

end Store

end KVStore
