import WaveLayout.Proofs.Words
import WaveLayout.Verilog.Token

/-!
# Plain and ranged tokens

The ranged tokens of a line come from its plain tokens, each spread on its own
(`tokens_spread`): spreading puts blanks only beside delimiters, and no delimiter is a separator.
So a plain token without delimiters is also a ranged token, at the same place, and a ranged token
of a spread line is a lone delimiter or holds none (`mem_tokens_spread`).
-/

namespace WaveLayout.Verilog

open Text

/-! ## Classes of characters -/

theorem isBlank_eq_false_of_not_isSeparator {c : Char} (h : isSeparator c = false) :
    isBlank c = false := by
  simp only [isSeparator, Bool.or_eq_false_iff] at h
  exact h.1.1

theorem not_isSeparator_of_isRangeDelimiter {c : Char} (h : isRangeDelimiter c = true) :
    isSeparator c = false := by
  simp only [isRangeDelimiter, Bool.or_eq_true, beq_iff_eq] at h
  rcases h with (rfl | rfl) | rfl <;> decide

theorem not_isRangeDelimiter_of_isSeparator {c : Char} (h : isSeparator c = true) :
    isRangeDelimiter c = false := by
  cases hd : isRangeDelimiter c with
  | false => rfl
  | true => exact absurd h (by simp [not_isSeparator_of_isRangeDelimiter hd])

/-! ## Spreading -/

@[simp] theorem spread_append (s t : Text) : spread (s ++ t) = spread s ++ spread t :=
  List.flatMap_append

theorem spread_cons_of_not {c : Char} (h : isRangeDelimiter c = false) (s : Text) :
    spread (c :: s) = c :: spread s := by
  simp [spread, h]

theorem spread_cons {c : Char} (h : isRangeDelimiter c = true) (s : Text) :
    spread (c :: s) = ' ' :: c :: ' ' :: spread s := by
  simp [spread, h]

theorem spread_eq_self {s : Text} (h : ∀ c ∈ s, isRangeDelimiter c = false) : spread s = s := by
  induction s with
  | nil => rfl
  | cons c rest ih =>
    rw [spread_cons_of_not (h c List.mem_cons_self),
      ih fun d hd => h d (List.mem_cons_of_mem c hd)]

/-! ## Tokens -/

theorem tokens_append_cons {c : Char} (h : isSeparator c = true) (s t : Text) :
    tokens (s ++ c :: t) = tokens s ++ tokens t := wordsBy_append_cons h s t

theorem tokens_of_forall_not {s : Text} (hs : s ≠ []) (h : ∀ c ∈ s, isSeparator c = false) :
    tokens s = [s] := wordsBy_of_forall_not hs h

/-- A delimiter stands alone among the tokens of a spread line. -/
theorem tokens_spread_append_cons {c : Char} (h : isRangeDelimiter c = true) (s t : Text) :
    tokens (spread (s ++ c :: t)) = tokens (spread s) ++ [c] :: tokens (spread t) := by
  have hs : isSeparator ' ' = true := by decide
  have hc : tokens [c] = [[c]] := tokens_of_forall_not (List.cons_ne_nil c []) fun d hd => by
    rw [List.mem_singleton.1 hd]
    exact not_isSeparator_of_isRangeDelimiter h
  calc tokens (spread (s ++ c :: t))
      = tokens (spread s ++ ' ' :: ([c] ++ ' ' :: spread t)) := by
        rw [spread_append, spread_cons h]; rfl
    _ = tokens (spread s) ++ ([[c]] ++ tokens (spread t)) := by
        rw [tokens_append_cons hs, tokens_append_cons hs, hc]

/-- **Ranged tokens come from plain ones.** The tokens of a spread line are those of its plain
tokens, each spread on its own. -/
theorem tokens_spread (line : Text) :
    tokens (spread line) = (tokens line).flatMap fun token => tokens (spread token) := by
  induction line using runInduction isSeparator with
  | last run hr =>
    by_cases hne : run = []
    · rw [hne]; rfl
    · rw [tokens_of_forall_not hne hr, List.flatMap_singleton]
  | cut run c rest hr hc ihrun ih =>
    rw [spread_append, spread_cons_of_not (not_isRangeDelimiter_of_isSeparator hc),
      tokens_append_cons hc, tokens_append_cons hc, List.flatMap_append, ihrun, ih]

/-- A token of a spread line is a lone delimiter or holds no delimiter. -/
theorem mem_tokens_spread {line token : Text} (h : token ∈ tokens (spread line)) :
    (∃ c, isRangeDelimiter c = true ∧ token = [c]) ∨ ∀ c ∈ token, isRangeDelimiter c = false := by
  induction line using runInduction isRangeDelimiter with
  | last run hr =>
    rw [spread_eq_self hr] at h
    exact .inr fun c hc => hr c ((mem_wordsBy h).2 c hc).2
  | cut run c rest hr hc ihrun ih =>
    rw [tokens_spread_append_cons hc] at h
    rcases List.mem_append.1 h with h | h
    · exact ihrun h
    · rcases List.mem_cons.1 h with h | h
      · exact .inl ⟨c, hc, h⟩
      · exact ih h

/-! ## Ranged tokens -/

/-- A plain token without delimiters at the front of a line is also its first ranged token. -/
theorem head?_rangedTokens {line token : Text} (h : (tokens line).head? = some token)
    (hd : ∀ c ∈ token, isRangeDelimiter c = false) : (rangedTokens line).head? = some token := by
  unfold rangedTokens
  split
  · obtain ⟨rest, hr⟩ := List.head?_eq_some_iff.1 h
    have hm : token ∈ tokens line := hr ▸ List.mem_cons_self
    have htoken : tokens (spread token) = [token] := by
      rw [spread_eq_self hd]
      exact tokens_of_forall_not (mem_wordsBy hm).1 fun c hc => ((mem_wordsBy hm).2 c hc).1
    rw [tokens_spread, hr, List.flatMap_cons, htoken]
    rfl
  · exact h

/-- An opening bracket among the ranged tokens comes from the line, which is spread then. -/
theorem rangedTokens_eq_of_bracket_mem {line : Text} (h : ['['] ∈ rangedTokens line) :
    rangedTokens line = tokens (spread line) := by
  unfold rangedTokens at h ⊢
  split at h
  · next hb => rw [if_pos hb]
  · next hb => exact absurd ((mem_wordsBy h).2 '[' (List.mem_singleton.2 rfl)).2 hb

end WaveLayout.Verilog
