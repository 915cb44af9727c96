import Mathlib
import WaveLayout.Text.Blank
import WaveLayout.Text.Lines

/-!
# Words and lines of a text

**Words.** A separator cuts the words of a text in two (`wordsBy_append_cons`), and a text without
separators is one word or none (`wordsBy_of_forall_not`). The two equations determine the words of
every text. `runInduction` is the induction that goes with them: a text is a run without
separators, or such a run, a separator and a text.

What follows a text makes its last word longer and changes no other word
(`wordsBy_append_of_last`, `wordsBy_append_of_forall_not`). A gap of separators ends a word
(`wordsBy_append_gap`), and separators at either end of a text play no part.

**Trimming.** The trimmed text is the only part between two runs of the class that neither starts
nor ends in the class (`trimBy_eq_iff`).

**Lines.** A newline ends the first line of a text (`lines_append_newline`), and a text without
newline is one line or none. A text in which every line is ended by a newline is read back line by
line (`lines_flatMap_newline`), provided that no line holds a line break.
-/

namespace WaveLayout.Text

variable {p : Char → Bool}

theorem isBlank_eq_false_of_isAlphanum {c : Char} (h : c.isAlphanum = true) :
    isBlank c = false := by
  simp only [Char.isAlphanum, Char.isAlpha, Char.isUpper, Char.isLower, Char.isDigit,
    Bool.or_eq_true, Bool.and_eq_true, decide_eq_true_eq, ge_iff_le, UInt32.le_iff_toNat_le,
    Char.reduceVal, UInt32.reduceToNat] at h
  simp only [isBlank, Blank.ranges, List.any_cons, List.any_nil, Bool.or_false,
    Bool.or_eq_false_iff, Bool.and_eq_false_iff, decide_eq_false_iff_not, Char.toNat]
  omega

/-! ## Runs -/

/-- Induction along the runs of a text. The last run reaches to the end, and every other run is
cut off by a character of the class. -/
@[elab_as_elim]
theorem runInduction {motive : Text → Prop} (p : Char → Bool)
    (last : ∀ run : Text, (∀ c ∈ run, p c = false) → motive run)
    (cut : ∀ (run : Text) (c : Char) (rest : Text), (∀ d ∈ run, p d = false) → p c = true →
      motive run → motive rest → motive (run ++ c :: rest))
    (s : Text) : motive s := by
  -- The text is read character by character, so the run that is still open is carried along.
  suffices h : ∀ run : Text, (∀ c ∈ run, p c = false) → motive (run ++ s) from
    h [] fun c hc => absurd hc List.not_mem_nil
  induction s with
  | nil =>
    intro run hr
    rw [List.append_nil]
    exact last run hr
  | cons c rest ih =>
    intro run hr
    by_cases hc : p c
    · exact cut run c rest hr hc (last run hr) (ih [] fun d hd => absurd hd List.not_mem_nil)
    · rw [List.append_cons]
      refine ih (run ++ [c]) ?_
      intro d hd
      rcases List.mem_append.1 hd with hd | hd
      · exact hr d hd
      · rw [List.mem_singleton.1 hd]
        simpa using hc

theorem not_of_mem_head?_dropWhile {α : Type} {p : α → Bool} {xs : List α} {x : α}
    (h : x ∈ (xs.dropWhile p).head?) : p x = false := by
  have hhead := List.head?_dropWhile_not p xs
  rw [h] at hhead
  simpa using hhead

/-- What is taken and what is left: a part inside the class, and one that does not start in it. -/
theorem takeWhile_dropWhile_eq_iff {α : Type} {p : α → Bool} {xs front rest : List α} :
    (xs.takeWhile p = front ∧ xs.dropWhile p = rest) ↔
      xs = front ++ rest ∧ (∀ x ∈ front, p x = true) ∧ ∀ x ∈ rest.head?, p x = false := by
  constructor
  · rintro ⟨rfl, rfl⟩
    refine ⟨List.takeWhile_append_dropWhile.symm, ?_, ?_⟩
    · intro x hx
      exact List.mem_takeWhile_imp hx
    · intro x hx
      exact not_of_mem_head?_dropWhile hx
  · rintro ⟨rfl, hfront, hrest⟩
    rw [List.takeWhile_append_of_pos hfront, List.dropWhile_append_of_pos hfront]
    cases rest with
    | nil => simp
    | cons x rest => simp [hrest x rfl]

theorem takeWhile_eq_iff {α : Type} {p : α → Bool} {xs front : List α} :
    xs.takeWhile p = front ↔
      ∃ rest, xs = front ++ rest ∧ (∀ x ∈ front, p x = true) ∧ ∀ x ∈ rest.head?, p x = false := by
  simp only [← takeWhile_dropWhile_eq_iff, exists_and_left, exists_eq', and_true]

theorem dropWhile_eq_iff {α : Type} {p : α → Bool} {xs rest : List α} :
    xs.dropWhile p = rest ↔
      ∃ front, xs = front ++ rest ∧ (∀ x ∈ front, p x = true) ∧ ∀ x ∈ rest.head?, p x = false := by
  simp only [← takeWhile_dropWhile_eq_iff, exists_and_right, exists_eq', true_and]

/-! ## Words -/

/-- A separator cuts the words of a text in two. -/
theorem wordsBy_append_cons {c : Char} (hc : p c = true) (s t : Text) :
    wordsBy p (s ++ c :: t) = wordsBy p s ++ wordsBy p t := by
  unfold wordsBy
  rw [List.splitOnP_append_cons s t hc, List.filter_append]

theorem wordsBy_of_forall_not {s : Text} (hs : s ≠ []) (h : ∀ c ∈ s, p c = false) :
    wordsBy p s = [s] := by
  rw [wordsBy, List.splitOnP_eq_singleton h]
  simp [hs]

theorem wordsBy_of_run {s : Text} (h : ∀ c ∈ s, p c = false) :
    wordsBy p s = if s = [] then [] else [s] := by
  by_cases hs : s = []
  · rw [if_pos hs, hs]
    rfl
  · rw [if_neg hs, wordsBy_of_forall_not hs h]

/-- A word is not empty, holds no separator, and its characters come from the text. -/
theorem mem_wordsBy {s w : Text} (h : w ∈ wordsBy p s) :
    w ≠ [] ∧ ∀ c ∈ w, p c = false ∧ c ∈ s := by
  induction s using runInduction p with
  | last run hr =>
    rw [wordsBy_of_run hr] at h
    split at h
    · cases h
    · next hne =>
      obtain rfl := List.mem_singleton.1 h
      exact ⟨hne, fun c hc => ⟨hr c hc, hc⟩⟩
  | cut run c rest hr hc ihrun ih =>
    rw [wordsBy_append_cons hc, List.mem_append] at h
    rcases h with h | h
    · obtain ⟨hne, hw⟩ := ihrun h
      exact ⟨hne, fun d hd => ⟨(hw d hd).1, List.mem_append_left _ (hw d hd).2⟩⟩
    · obtain ⟨hne, hw⟩ := ih h
      exact ⟨hne, fun d hd =>
        ⟨(hw d hd).1, List.mem_append_right _ (List.mem_cons_of_mem c (hw d hd).2)⟩⟩

theorem wordsBy_concat {c : Char} (hc : p c = true) (s : Text) :
    wordsBy p (s ++ [c]) = wordsBy p s := by
  have hnil : wordsBy p [] = [] := rfl
  rw [wordsBy_append_cons hc, hnil, List.append_nil]

/-- A run without separators goes on up to the next separator. -/
theorem wordsBy_append_of_forall_not {s : Text} (hs : s ≠ []) (h : ∀ c ∈ s, p c = false)
    (t : Text) :
    wordsBy p (s ++ t) = (s ++ t.takeWhile (!p ·)) :: wordsBy p (t.dropWhile (!p ·)) := by
  have hrun : ∀ c ∈ s ++ t.takeWhile (!p ·), p c = false := by
    intro c hc
    rcases List.mem_append.1 hc with hc | hc
    · exact h c hc
    · simpa using List.mem_takeWhile_imp hc
  have hword : wordsBy p (s ++ t.takeWhile (!p ·)) = [s ++ t.takeWhile (!p ·)] :=
    wordsBy_of_forall_not (by simp [hs]) hrun
  have hsplit : s ++ t = (s ++ t.takeWhile (!p ·)) ++ t.dropWhile (!p ·) := by
    rw [List.append_assoc, List.takeWhile_append_dropWhile]
  cases hd : t.dropWhile (!p ·) with
  | nil =>
    rw [hsplit, hd, List.append_nil, hword]
    rfl
  | cons c rest =>
    have hc : p c = true := by
      simpa using not_of_mem_head?_dropWhile (p := (!p ·)) (by rw [hd]; rfl)
    rw [hsplit, hd, wordsBy_append_cons hc, hword, ← List.nil_append (c :: rest),
      wordsBy_append_cons hc]
    rfl

theorem wordsBy_cons {c : Char} (hc : p c = true) (s : Text) :
    wordsBy p (c :: s) = wordsBy p s := wordsBy_append_cons hc [] s

theorem wordsBy_append_of_forall {front : Text} (h : ∀ c ∈ front, p c = true) (s : Text) :
    wordsBy p (front ++ s) = wordsBy p s := by
  induction front with
  | nil => rfl
  | cons c rest ih =>
    rw [List.cons_append, wordsBy_cons (h c List.mem_cons_self),
      ih fun d hd => h d (List.mem_cons_of_mem c hd)]

theorem wordsBy_append_gap_append {gap : Text} (hgap : gap ≠ []) (hsep : ∀ c ∈ gap, p c = true)
    (s t : Text) : wordsBy p (s ++ (gap ++ t)) = wordsBy p s ++ wordsBy p t := by
  cases gap with
  | nil => exact absurd rfl hgap
  | cons c rest =>
    obtain ⟨hc, hrest⟩ := List.forall_mem_cons.1 hsep
    rw [List.cons_append, wordsBy_append_cons hc, wordsBy_append_of_forall hrest]

theorem wordsBy_append_gap {w gap : Text} (hw : w ≠ []) (hword : ∀ c ∈ w, p c = false)
    (hgap : gap ≠ []) (hsep : ∀ c ∈ gap, p c = true) (s : Text) :
    wordsBy p (w ++ (gap ++ s)) = w :: wordsBy p s := by
  rw [wordsBy_append_gap_append hgap hsep, wordsBy_of_forall_not hw hword]
  rfl

theorem wordsBy_append_of_forall_right {back : Text} (h : ∀ c ∈ back, p c = true) (s : Text) :
    wordsBy p (s ++ back) = wordsBy p s := by
  cases back with
  | nil => rw [List.append_nil]
  | cons c rest =>
    obtain ⟨hc, hrest⟩ := List.forall_mem_cons.1 h
    have hnil : wordsBy p (rest ++ []) = [] := wordsBy_append_of_forall hrest []
    rw [List.append_nil] at hnil
    rw [wordsBy_append_cons hc, hnil, List.append_nil]

theorem exists_of_head?_wordsBy {s w : Text} (h : (wordsBy p s).head? = some w) :
    ∃ front rest, s = front ++ (w ++ rest) ∧ ∀ c ∈ front, p c = true := by
  induction s with
  | nil => cases h
  | cons c s ih =>
    by_cases hc : p c = true
    · rw [wordsBy_cons hc] at h
      obtain ⟨front, rest, rfl, hfront⟩ := ih h
      exact ⟨c :: front, rest, rfl, List.forall_mem_cons.2 ⟨hc, hfront⟩⟩
    · have hword := wordsBy_append_of_forall_not (List.cons_ne_nil c []) (by simpa using hc) s
      rw [List.singleton_append] at hword
      rw [hword] at h
      obtain rfl := Option.some.inj h
      exact ⟨[], s.dropWhile (!p ·), by simp, by simp⟩

/-- A text closes some words and leaves a run open, whatever follows it. -/
theorem exists_open_run (p : Char → Bool) (s : Text) :
    ∃ closed run, (∀ c ∈ run, p c = false) ∧
      ∀ t, wordsBy p (s ++ t) = closed ++ wordsBy p (run ++ t) := by
  induction s using runInduction p with
  | last run hr => exact ⟨[], run, hr, fun t => rfl⟩
  | cut run c rest hr hc _ ih =>
    obtain ⟨closed, last, hlast, heq⟩ := ih
    refine ⟨wordsBy p run ++ closed, last, hlast, ?_⟩
    intro t
    rw [List.append_assoc, List.cons_append, wordsBy_append_cons hc, heq, List.append_assoc]

/-- Where the last word of a text starts, the words are cut, whatever follows. -/
theorem wordsBy_append_of_last {s w : Text} {ws : List Text} (hw : w ≠ [])
    (hsep : ∀ c ∈ w, p c = false) (h : wordsBy p (s ++ w) = ws ++ [w]) (t : Text) :
    wordsBy p (s ++ t) = ws ++ wordsBy p t := by
  obtain ⟨closed, run, hrun, heq⟩ := exists_open_run p s
  have hword : wordsBy p (run ++ w) = [run ++ w] := by
    refine wordsBy_of_forall_not (by simp [hw]) ?_
    intro c hc
    exact (List.mem_append.1 hc).elim (hrun c) (hsep c)
  rw [heq, hword] at h
  obtain ⟨hclosed, hlast⟩ := List.append_inj' h rfl
  have hnil : run = [] := by simpa using hlast
  rw [heq, hclosed, hnil, List.nil_append]

theorem mem_words {s w : Text} (h : w ∈ words s) : w ≠ [] ∧ ∀ c ∈ w, isBlank c = false :=
  ⟨(mem_wordsBy h).1, fun c hc => ((mem_wordsBy h).2 c hc).1⟩

theorem words_ofNat (n : Nat) : words (ofNat n) = [ofNat n] := by
  refine wordsBy_of_forall_not Nat.toDigits_ne_nil ?_
  intro c hc
  have hd : c.isDigit = true := Nat.isDigit_of_mem_toDigits (by decide) (by decide) hc
  exact isBlank_eq_false_of_isAlphanum (by simp [Char.isAlphanum, hd])

/-! ## Trimming -/

theorem trimBy_cons {c : Char} (hc : p c = true) (s : Text) :
    trimBy p (c :: s) = trimBy p s := by
  rw [trimBy, List.dropWhile_cons_of_pos hc, trimBy]

theorem trimBy_concat {c : Char} (hc : p c = true) (s : Text) :
    trimBy p (s ++ [c]) = trimBy p s := by
  unfold trimBy
  rw [List.dropWhile_append]
  by_cases hs : s.dropWhile p = []
  · simp [hs, hc]
  · simp [hs, hc]

/-- Trimming takes away what of the class stands at the two ends, and nothing else. -/
theorem trimBy_eq_iff {s t : Text} :
    trimBy p s = t ↔ ∃ front back, s = front ++ (t ++ back) ∧ (∀ c ∈ front, p c = true) ∧
      (∀ c ∈ back, p c = true) ∧ (∀ c ∈ t.head?, p c = false) ∧ ∀ c ∈ t.getLast?, p c = false := by
  constructor
  · rintro rfl
    obtain ⟨front, hs, hfront, hhead⟩ := dropWhile_eq_iff.1 (Eq.refl (s.dropWhile p))
    obtain ⟨back, hrest, hback, hlast⟩ :=
      dropWhile_eq_iff.1 (Eq.refl ((s.dropWhile p).reverse.dropWhile p))
    have htrim : s.dropWhile p = trimBy p s ++ back.reverse := by
      simpa [trimBy] using congrArg List.reverse hrest
    refine ⟨front, back.reverse, htrim ▸ hs, hfront, ?_, ?_, ?_⟩
    · intro c hc
      exact hback c (List.mem_reverse.1 hc)
    · intro c hc
      refine hhead c ?_
      rw [htrim, List.head?_append, hc]
      rfl
    · intro c hc
      refine hlast c ?_
      rwa [trimBy, List.getLast?_reverse] at hc
  · rintro ⟨front, back, rfl, hfront, hback, hhead, hlast⟩
    by_cases ht : t = []
    · subst ht
      have hall : ∀ c ∈ front ++ back, p c = true := List.forall_mem_append.2 ⟨hfront, hback⟩
      simp [trimBy, List.dropWhile_eq_nil_iff.2 hall]
    · have hfirst : (front ++ (t ++ back)).dropWhile p = t ++ back := by
        refine dropWhile_eq_iff.2 ⟨front, rfl, hfront, ?_⟩
        rwa [List.head?_append_of_ne_nil _ ht]
      have hsecond : (t ++ back).reverse.dropWhile p = t.reverse := by
        refine dropWhile_eq_iff.2 ⟨back.reverse, List.reverse_append, ?_, ?_⟩
        · intro c hc
          exact hback c (List.mem_reverse.1 hc)
        · rwa [List.head?_reverse]
      rw [trimBy, hfirst, hsecond, List.reverse_reverse]

theorem trimBy_eq_nil_iff {s : Text} : trimBy p s = [] ↔ ∀ c ∈ s, p c = true := by
  constructor
  · intro h
    obtain ⟨front, back, rfl, hfront, hback, -, -⟩ := trimBy_eq_iff.1 h
    exact List.forall_mem_append.2 ⟨hfront, hback⟩
  · intro h
    rw [trimBy, List.dropWhile_eq_nil_iff.2 h]
    rfl

theorem trimBy_eq_self {s : Text} (h : ∀ c ∈ s, p c = false) : trimBy p s = s := by
  refine trimBy_eq_iff.2 ⟨[], [], by simp, nofun, nofun, ?_, ?_⟩
  · intro c hc
    exact h c (List.mem_of_mem_head? hc)
  · intro c hc
    exact h c (List.mem_of_getLast? hc)

/-! ## Pieces -/

theorem not_mem_of_mem_splitOn {a : Char} {s piece : Text} (h : piece ∈ s.splitOn a) :
    a ∉ piece := by
  induction s using runInduction (· == a) with
  | last run hr =>
    have hrun : a ∉ run := fun ha => by simpa using hr a ha
    rw [List.splitOn_eq_singleton hrun, List.mem_singleton] at h
    rwa [h]
  | cut run c rest hr hc ihrun ih =>
    obtain rfl : c = a := by simpa using hc
    rw [List.splitOn_append_cons_self, List.mem_append] at h
    exact h.elim ihrun ih

/-! ## Lines -/

/-- The text holds no line break. -/
def IsUnbroken (s : Text) : Prop := ∀ c ∈ s, c ≠ '\n' ∧ c ≠ '\r'

instance (s : Text) : Decidable (IsUnbroken s) :=
  List.decidableBAll (fun c => c ≠ '\n' ∧ c ≠ '\r') s

theorem IsUnbroken.append {s t : Text} (hs : IsUnbroken s) (ht : IsUnbroken t) :
    IsUnbroken (s ++ t) := fun c hc => (List.mem_append.1 hc).elim (hs c) (ht c)

theorem isUnbroken_of_not_isBlank {s : Text} (h : ∀ c ∈ s, isBlank c = false) : IsUnbroken s := by
  intro c hc
  have hb := h c hc
  constructor <;> rintro rfl <;> exact absurd hb (by decide)

theorem lines_append_newline {line : Text} (h : '\n' ∉ line) (rest : Text) :
    lines (line ++ '\n' :: rest) = dropReturn line :: lines rest := by
  have hne : rest.splitOn '\n' ≠ [] := List.splitOn_ne_nil _ _
  rw [lines, List.splitOn_append_cons_self_of_not_mem h, lines]
  rw [List.dropLast_cons_of_ne_nil hne, List.getLast?_cons_of_ne_nil hne]
  rfl

/-- Behind a newline the lines start anew. -/
theorem lines_append_of_getLast? {front : Text} (h : front.getLast? = some '\n') (rest : Text) :
    lines (front ++ rest) = lines front ++ lines rest := by
  induction front using runInduction (· == '\n') with
  | last run hr => simpa using hr '\n' (List.mem_of_getLast? h)
  | cut run c after hr hc _ ih =>
    obtain rfl : c = '\n' := by simpa using hc
    have hrun : '\n' ∉ run := fun hm => by simpa using hr '\n' hm
    have hafter : lines (after ++ rest) = lines after ++ lines rest := by
      cases after with
      | nil => rfl
      | cons d after => exact ih (by simpa using h)
    rw [List.append_assoc, List.cons_append, lines_append_newline hrun, lines_append_newline hrun,
      hafter, List.cons_append]

theorem dropReturn_of_isUnbroken {line : Text} (h : IsUnbroken line) : dropReturn line = line :=
  if_neg fun hlast => (h '\r' (List.mem_of_getLast? hlast)).2 rfl

theorem lines_flatMap_newline {ls : List Text} (h : ∀ line ∈ ls, IsUnbroken line) :
    lines (ls.flatMap (· ++ ['\n'])) = ls := by
  induction ls with
  | nil => rfl
  | cons line rest ih =>
    obtain ⟨hline, hrest⟩ := List.forall_mem_cons.1 h
    have hnewline : '\n' ∉ line := fun hc => (hline '\n' hc).1 rfl
    rw [List.flatMap_cons, List.append_assoc, List.singleton_append,
      lines_append_newline hnewline, dropReturn_of_isUnbroken hline, ih hrest]

end WaveLayout.Text
