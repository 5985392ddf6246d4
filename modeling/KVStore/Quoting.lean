import KVStore.Commands

/-!
# Quoted operands

The interactive clients split a line at the white space first and take the apostrophes out of the pieces afterwards,
so the quotes of an operand do not keep it together.  A key and a value without apostrophes come back from the line
`-set 'k' 'v'` iff neither has white space in it (`quoted_round_trip_iff`).
-/

namespace KVStore

namespace Client

/-- What can stand between the quotes on one line. -/
def Quotable (a : String) : Prop := ∀ c ∈ a.toList, c ≠ '\'' ∧ c ≠ '\n'

instance (a : String) : Decidable (Quotable a) := List.decidableBAll (fun c => c ≠ '\'' ∧ c ≠ '\n') a.toList

def BlankFree (a : String) : Prop := ∀ c ∈ a.toList, isSpace c = false

/-- The line `-set 'k' 'v'` is read as its three tokens, and the pair of the first call is `k` and `v`. -/
structure RoundTrip {σ : Type} (rpc : σ → Request → Option Result × σ) (s : σ) (k v : String) : Prop where
  tokens : tokenize (setLine k v) = ["-set", k, v]
  stored : (run rpc s (setLine k v)).2.calls.head? = some (.kvset k v)

theorem Quotable.operand {a : String} (ha : Quotable a) (hb : BlankFree a) : Operand a :=
  fun c hc => ⟨hb c hc, (ha c hc).1⟩

/-! ### How many tokens there are -/

/-- A part with a character that is not white space has a word. -/
private theorem length_words_pos {s : List Char} {c : Char} (hs : c ∈ s) (hc : isSpace c = false) :
    0 < (Words.words isSpace s).length := by
  apply List.length_pos_iff.2
  intro h
  have hall := Words.words_eq_nil_iff.1 h c hs
  rw [hc] at hall
  cases hall

/-- The opening quote and the closing one are in different words if there is white space between them. -/
private theorem two_le_length_words_quote {a : String} (h : ¬BlankFree a) :
    2 ≤ (Words.words isSpace (quote a).toList).length := by
  unfold BlankFree at h
  push Not at h
  obtain ⟨c, hc, hsp⟩ := h
  have hsp : isSpace c = true := by simpa using hsp
  obtain ⟨x, y, hxy⟩ := List.append_of_mem hc
  have hquote : (quote a).toList = ('\'' :: x) ++ c :: (y ++ ['\'']) := by
    rw [toList_quote, hxy]
    simp
  have hopen : 0 < (Words.words isSpace ('\'' :: x)).length := length_words_pos List.mem_cons_self (by decide)
  have hclose : 0 < (Words.words isSpace (y ++ ['\''])).length :=
    length_words_pos (List.mem_append_right _ List.mem_cons_self) (by decide)
  rw [hquote, Words.words_append_sep hsp, List.length_append]
  omega

private theorem one_le_length_words_quote (a : String) : 1 ≤ (Words.words isSpace (quote a).toList).length := by
  rw [toList_quote]
  exact length_words_pos List.mem_cons_self (by decide)

theorem length_tokenize_setLine (k v : String) : (tokenize (setLine k v)).length =
    1 + (Words.words isSpace (quote k).toList).length + (Words.words isSpace (quote v).toList).length := by
  have hblank : " ".toList = [' '] := rfl
  have hset : Operand "-set" := by decide
  have hflag : Words.words isSpace "-set".toList = ["-set".toList] :=
    Words.words_of_forall (by decide) fun c hc => (hset c hc).1
  rw [tokenize, setLine, String.toList_intercalate, hblank, Words.words_intercalate_eq_flatMap (by decide)]
  simp only [List.map_cons, List.map_nil, List.flatMap_cons, List.flatMap_nil, hflag, List.length_map,
    List.length_append, List.length_singleton, List.length_nil]
  omega

/-! ### The round trip -/

section RoundTrip

variable {σ : Type} {rpc : σ → Request → Option Result × σ}

private theorem roundTrip_of_tokens {s : σ} {k v : String} (h : tokenize (setLine k v) = ["-set", k, v]) :
    RoundTrip rpc s k v := by
  refine ⟨h, ?_⟩
  rw [calls_run, h, jobs_set]
  exact head?_calls_outcome rfl _ s

/-- A key and a value without apostrophes and line ends are read back iff there is no white space in them. -/
theorem quoted_round_trip_iff (rpc : σ → Request → Option Result × σ) (s : σ) (k v : String) (hk : Quotable k)
    (hv : Quotable v) : RoundTrip rpc s k v ↔ BlankFree k ∧ BlankFree v := by
  constructor
  · intro h
    have hlen := length_tokenize_setLine k v
    rw [h.tokens] at hlen
    have hk1 := one_le_length_words_quote k
    have hv1 := one_le_length_words_quote v
    constructor
    · by_contra hb
      have hk2 := two_le_length_words_quote hb
      simp at hlen
      omega
    · by_contra hb
      have hv2 := two_le_length_words_quote hb
      simp at hlen
      omega
  · intro h
    exact roundTrip_of_tokens (tokenize_setLine (hk.operand h.1) (hv.operand h.2))

end RoundTrip

/-- Empty operands are read back. -/
theorem quoted_round_trip_empty :
    RoundTrip (serverRpc .kvserver) {} "hi" "" ↔ BlankFree "hi" ∧ BlankFree "" :=
  quoted_round_trip_iff (serverRpc .kvserver) {} "hi" "" (by decide) (by decide)

/-- A key of two words: the first one is stored, with the second one as its value. -/
theorem quoted_key_split :
    Quotable "my key" ∧ Quotable "bye" ∧ tokenize (setLine "my key" "bye") = ["-set", "my", "key", "bye"] ∧
      ¬RoundTrip (serverRpc .kvserver) {} "my key" "bye" := by
  have hline : setLine "my key" "bye" = " ".intercalate ["-set", "'my", "key'", "'bye'"] := by decide
  have htok : tokenize (setLine "my key" "bye") = ["-set", "my", "key", "bye"] := by
    rw [hline, tokenize_intercalate (by simp [isSpace])]
    decide
  refine ⟨by decide, by decide, htok, fun h => ?_⟩
  have ht := h.tokens
  rw [htok] at ht
  exact absurd ht (by decide)

end Client

end KVStore
