import KVStore.Commands
import KVStore.Kvclient

/-!
# Reads of tokens and arguments

The clients read operands at places that they do not check.  An iteration of the interactive loop stays inside its
tokens iff there are enough of them for the flags among them, and at least one; `kvclient` stays inside its arguments
iff each flag that it comes to is followed by its operands (`reads_inside_iff`).
-/

namespace KVStore

namespace Client

/-- There is a token, one after a `-del` that is the first, and three in all if `-set` or `-get` is among them. -/
structure Suffice (tokens : List String) : Prop where
  nonempty : tokens ≠ []
  del : tokens[0]? = some "-del" → 2 ≤ tokens.length
  pair : "-set" ∈ tokens ∨ "-get" ∈ tokens → 3 ≤ tokens.length

section Line

variable {σ : Type} {rpc : σ → Request → Option Result × σ} {s : σ} {tokens : List String}

theorem inside_flagJobs {flag : String} {job : String → String → Job} (hjob : ∀ x y, job x y ≠ .outside) :
    (outcome rpc (flagJobs flag job tokens) s).Inside ↔ (flag ∈ tokens → 3 ≤ tokens.length) := by
  rw [flagJobs_eq, inside_ite, inside_jobOf hjob]
  simp only [isSome_getElem?]
  constructor
  · intro hl h
    exact (hl h).2
  · intro hl h
    have := hl h
    omega

theorem inside_setJobs :
    (outcome rpc (setJobs tokens) s).Inside ↔ ("-set" ∈ tokens → 3 ≤ tokens.length) :=
  inside_flagJobs fun _ _ h => by cases h

theorem inside_getJobs :
    (outcome rpc (getJobs tokens) s).Inside ↔ ("-get" ∈ tokens → 3 ≤ tokens.length) :=
  inside_flagJobs fun _ _ h => by cases h

theorem inside_delJobs : (outcome rpc (delJobs tokens) s).Inside ↔
    tokens ≠ [] ∧ (tokens[0]? = some "-del" → 2 ≤ tokens.length) := by
  cases tokens with
  | nil => simp [delJobs, inside_singleton]
  | cons t tokens =>
    rw [delJobs_cons, inside_ite, inside_delOf]
    simp only [isSome_getElem?]
    simp [Nat.succ_le_iff]

/-- Whether an iteration stays inside its tokens does not depend on the server. -/
theorem inside_jobs_iff : (outcome rpc (jobs tokens) s).Inside ↔ Suffice tokens := by
  rw [jobs, inside_append, inside_append]
  constructor
  · intro h
    obtain ⟨⟨hset, hget⟩, hdel⟩ := h
    have hset := inside_setJobs.1 hset
    by_cases hs : "-set" ∈ tokens
    · have hlen := hset hs
      exact ⟨fun h => by simp [h] at hlen, fun _ => by omega, fun _ => hlen⟩
    · have hsnil : setJobs tokens = [] := (flagJobs_eq _ _ _).trans (if_neg hs)
      have hget := inside_getJobs.1 (hget s (by rw [hsnil]; rfl))
      by_cases hg : "-get" ∈ tokens
      · have hlen := hget hg
        exact ⟨fun h => by simp [h] at hlen, fun _ => by omega, fun _ => hlen⟩
      · -- neither flag is there, so the test for `-del` is reached
        have hgnil : getJobs tokens = [] := (flagJobs_eq _ _ _).trans (if_neg hg)
        obtain ⟨hne, hd⟩ := inside_delJobs.1 (hdel s (by rw [hsnil, hgnil]; rfl))
        exact ⟨hne, hd, fun h => absurd h (not_or.2 ⟨hs, hg⟩)⟩
  · intro h
    exact ⟨⟨inside_setJobs.2 fun hs => h.pair (Or.inl hs), fun _ _ => inside_getJobs.2 fun hg => h.pair (Or.inr hg)⟩,
      fun _ _ => inside_delJobs.2 ⟨h.nonempty, h.del⟩⟩

end Line

end Client

namespace Kvclient

open Client (serverRpc outcome serverAfter inside_append inside_ite inside_jobOf inside_delOf Job)

/-- The connection is opened. -/
def Opened (connects : String → Int → Bool) (args : List String) : Prop :=
  ∃ e, follows "-server" 1 args = some e ∧ Connected connects e

/-- `-server` is followed by the endpoint, and once the connection is open each flag that the calls before it let the
program come to is followed by its operands. -/
structure Suffice {σ : Type} (rpc : σ → Request → Option Result × σ) (connects : String → Int → Bool) (s : σ)
    (args : List String) : Prop where
  endpoint : args.idxOf "-server" + 1 < args.length
  set : Opened connects args → "-set" ∈ args → args.idxOf "-set" + 2 < args.length
  get : Opened connects args → (serverAfter rpc (setJobs args) s).isSome → "-get" ∈ args →
    args.idxOf "-get" + 2 < args.length
  del : Opened connects args → (serverAfter rpc (setJobs args ++ getJobs args) s).isSome → "-del" ∈ args →
    args.idxOf "-del" + 1 < args.length

section Args

variable {σ : Type} {rpc : σ → Request → Option Result × σ} {connects : String → Int → Bool} {s : σ}
  {program : String} {args : List String}

theorem isSome_follows (flag : String) (i : Nat) :
    (follows flag i args).isSome ↔ args.idxOf flag + i < args.length := by
  unfold follows
  simp only [isSome_getElem?]

theorem inside_flagJobs {flag : String} {job : String → String → Job} (hjob : ∀ x y, job x y ≠ .outside) :
    (outcome rpc (flagJobs flag job args) s).Inside ↔ (flag ∈ args → args.idxOf flag + 2 < args.length) := by
  unfold flagJobs
  rw [inside_ite, inside_jobOf hjob, isSome_follows, isSome_follows]
  constructor
  · intro hl h
    exact (hl h).2
  · intro hl h
    have := hl h
    omega

theorem inside_delJobs :
    (outcome rpc (delJobs args) s).Inside ↔ ("-del" ∈ args → args.idxOf "-del" + 1 < args.length) := by
  unfold delJobs
  rw [inside_ite, inside_delOf, isSome_follows]

theorem inside_jobs_iff : (outcome rpc (jobs args) s).Inside ↔
    ("-set" ∈ args → args.idxOf "-set" + 2 < args.length) ∧
    ((serverAfter rpc (setJobs args) s).isSome → "-get" ∈ args → args.idxOf "-get" + 2 < args.length) ∧
    ((serverAfter rpc (setJobs args ++ getJobs args) s).isSome → "-del" ∈ args →
      args.idxOf "-del" + 1 < args.length) := by
  have hset : (outcome rpc (setJobs args) s).Inside ↔ ("-set" ∈ args → args.idxOf "-set" + 2 < args.length) :=
    inside_flagJobs fun _ _ h => by cases h
  have hget : ∀ t, (outcome rpc (getJobs args) t).Inside ↔ ("-get" ∈ args → args.idxOf "-get" + 2 < args.length) :=
    fun t => inside_flagJobs fun _ _ h => by cases h
  rw [jobs, inside_append, inside_append, hset, and_assoc]
  simp only [hget, inside_delJobs, Option.isSome_iff_exists, forall_exists_index]

theorem inside_run_iff :
    (run rpc connects s program args).1 ≠ .error .outOfRange ↔ Suffice rpc connects s args := by
  cases he : follows "-server" 1 args with
  | none =>
    rw [run_without_endpoint rpc connects s program he]
    refine ⟨fun h => absurd rfl h, fun h => ?_⟩
    have hs := (isSome_follows "-server" 1).2 h.endpoint
    rw [he] at hs
    cases hs
  | some e =>
    have hend := (isSome_follows "-server" 1).1 (by rw [he]; rfl)
    by_cases hc : Connected connects e
    · have ho : Opened connects args := ⟨e, he, hc⟩
      rw [inside_run rpc s program he hc, inside_jobs_iff]
      constructor
      · intro h
        exact ⟨hend, fun _ => h.1, fun _ => h.2.1, fun _ => h.2.2⟩
      · intro h
        exact ⟨h.set ho, h.get ho, h.del ho⟩
    · have ho : ¬Opened connects args := by
        intro ho
        obtain ⟨e', he', hc'⟩ := ho
        rw [he] at he'
        exact hc (Option.some.inj he' ▸ hc')
      rw [run_refused rpc s program he hc]
      exact ⟨fun _ => ⟨hend, fun h => absurd h ho, fun h => absurd h ho, fun h => absurd h ho⟩, fun _ => by simp⟩

end Args

/-- An iteration for a line stays inside its tokens iff they suffice, and `kvclient` inside its arguments iff these
do. -/
theorem reads_inside_iff {σ : Type} (rpc : σ → Request → Option Result × σ) (connects : String → Int → Bool) (s : σ)
    (line program : String) (args : List String) :
    ((Client.run rpc s line).1 ≠ .error .outOfRange ↔ Client.Suffice (Client.tokenize line)) ∧
    ((run rpc connects s program args).1 ≠ .error .outOfRange ↔ Suffice rpc connects s args) :=
  ⟨(Client.inside_run rpc s line).trans Client.inside_jobs_iff, inside_run_iff⟩

/-- The end of the input leaves an empty line, which has no first token; without arguments there is no endpoint. -/
theorem reads_outside :
    (Client.run (serverRpc .kvserver) {} "").1 = .error .outOfRange ∧
    (run (serverRpc .kvserver) (fun _ _ => true) {} "./kvclient" []).1 = .error .outOfRange := by
  refine ⟨?_, run_without_endpoint _ _ _ _ rfl⟩
  by_contra h
  have hs := Client.inside_jobs_iff.1 ((Client.inside_run _ _ _).1 h)
  exact hs.nonempty (by rw [Client.tokenize]; exact congrArg _ Words.words_nil)

end Kvclient

end KVStore
