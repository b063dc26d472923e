/-
# The rows of a text

A text in the line format is a list of rows, the words of its lines.  Which rows these are is said
here without the functions that find them: how the lines of a text are divided (`Lined`), where a
comment cuts a line off (`Cut`), and how words stand between blanks (`Worded`).  Every text has its
rows and no others (`rows_iff`).
-/
import FairCycle.Automaton.Text
import Mathlib.Data.List.Forall2
import Mathlib.Data.List.TakeWhile

namespace FairCycle.Text

/-! ## 1. Lines -/

/-- A text and its lines.  A line feed ends a line, alone or behind a carriage return; what stands
behind the last line feed is a line of its own unless it is empty. -/
inductive Lined : List Char → List (List Char) → Prop
  | done : Lined [] []
  | last {line : List Char} (hsome : line ≠ []) (hline : '\n' ∉ line) : Lined line [line]
  | feed {line rest : List Char} {lines : List (List Char)} (hline : '\n' ∉ line)
      (hend : line.getLast? ≠ some '\r') (hrest : Lined rest lines) :
      Lined (line ++ '\n' :: rest) (line :: lines)
  | returnFeed {line rest : List Char} {lines : List (List Char)} (hline : '\n' ∉ line)
      (hrest : Lined rest lines) : Lined (line ++ '\r' :: '\n' :: rest) (line :: lines)

theorem splitOn_of_notMem {line : List Char} (h : '\n' ∉ line) : line.splitOn '\n' = [line] :=
  List.splitOnP_eq_singleton fun _ hc => beq_eq_false_iff_ne.mpr fun heq => h (heq ▸ hc)

theorem splitOn_feed {line : List Char} (h : '\n' ∉ line) (rest : List Char) :
    (line ++ '\n' :: rest).splitOn '\n' = line :: rest.splitOn '\n' := by
  refine List.splitOnP_append_cons_of_forall_mem (fun c hc => ?_) '\n' (by decide) rest
  exact beq_eq_false_iff_ne.mpr fun heq => h (heq ▸ hc)

theorem closeLines_feed {line : List Char} (h : '\n' ∉ line) (rest : List Char) :
    closeLines ((line ++ '\n' :: rest).splitOn '\n') =
      dropReturn line :: closeLines (rest.splitOn '\n') := by
  rw [splitOn_feed h]
  obtain ⟨next, others, heq⟩ :=
    List.exists_cons_of_ne_nil (List.splitOnP_ne_nil (· == '\n') rest)
  rw [List.splitOn, heq]
  rfl

theorem closeLines_of_lined {text : List Char} {lines : List (List Char)}
    (h : Lined text lines) : closeLines (text.splitOn '\n') = lines := by
  induction h with
  | done => rfl
  | last hsome hline =>
    rw [splitOn_of_notMem hline, closeLines, if_neg (by simpa using hsome)]
  | feed hline hend hrest ih =>
    rw [closeLines_feed hline, ih, dropReturn, if_neg hend]
  | @returnFeed line rest lines hline hrest ih =>
    have hline' : '\n' ∉ line ++ ['\r'] := by simpa using hline
    have hcut := closeLines_feed hline' rest
    rw [List.append_assoc, List.singleton_append] at hcut
    rw [hcut, ih, dropReturn, if_pos (by simp), List.dropLast_concat]

theorem lined_closeLines (text : List Char) : Lined text (closeLines (text.splitOn '\n')) := by
  -- what stands behind the first line feed is shorter
  induction hn : text.length using Nat.strongRecOn generalizing text with
  | ind n ih =>
    by_cases hfeed : '\n' ∈ text
    · obtain ⟨line, rest, rfl, hline⟩ := List.eq_append_cons_of_mem hfeed
      have hrest := ih rest.length (by simp [← hn]; omega) rest rfl
      rw [closeLines_feed hline, dropReturn]
      split
      · rename_i hend
        obtain ⟨start, rfl⟩ := List.getLast?_eq_some_iff.mp hend
        rw [List.dropLast_concat, List.append_assoc, List.singleton_append]
        exact .returnFeed (fun hmem => hline (List.mem_append_left _ hmem)) hrest
      · rename_i hend
        exact .feed hline hend hrest
    · rw [splitOn_of_notMem hfeed, closeLines]
      split
      · rename_i hempty
        obtain rfl := List.isEmpty_iff.mp hempty
        exact .done
      · rename_i hempty
        exact .last (fun hnil => hempty (List.isEmpty_iff.mpr hnil)) hfeed

/-- **Every text has its lines and no others.** -/
theorem lined_iff {text : String} {found : List (List Char)} :
    Lined text.toList found ↔ lines text = found :=
  ⟨closeLines_of_lined, fun h => h ▸ lined_closeLines _⟩

/-! ## 2. Comments -/

/-- A comment begins with a number sign, or with a backslash and an asterisk. -/
def Comment (rest : List Char) : Prop := ['#'] <+: rest ∨ ['\\', '*'] <+: rest

/-- What is kept of a line: all that stands before the first place where a comment begins. -/
structure Cut (line kept : List Char) : Prop where
  rest : ∃ rest, line = kept ++ rest ∧ (rest = [] ∨ Comment rest)
  first : ∀ before after, line = before ++ after → before.length < kept.length → ¬Comment after

theorem any_commentMarks {rest : List Char} :
    commentMarks.any (·.isPrefixOf rest) = true ↔ Comment rest := by
  simp [commentMarks, Comment]

theorem cut_cons {c : Char} {rest kept : List Char} (h : ¬Comment (c :: rest)) :
    Cut (c :: rest) kept ↔ ∃ kept', kept = c :: kept' ∧ Cut rest kept' := by
  constructor
  · rintro ⟨⟨tail, heq, htail⟩, hfirst⟩
    cases kept with
    | nil =>
      rw [List.nil_append] at heq
      subst heq
      rcases htail with htail | htail
      · exact absurd htail (List.cons_ne_nil c rest)
      · exact absurd htail h
    | cons d kept =>
      obtain ⟨rfl, rfl⟩ := List.cons.inj heq
      refine ⟨kept, rfl, ⟨tail, rfl, htail⟩, fun before after hsplit hlen => ?_⟩
      exact hfirst (c :: before) after (congrArg (c :: ·) hsplit) (Nat.succ_lt_succ hlen)
  · rintro ⟨kept, rfl, ⟨tail, rfl, htail⟩, hfirst⟩
    refine ⟨⟨tail, rfl, htail⟩, fun before after hsplit hlen => ?_⟩
    cases before with
    | nil =>
      rw [List.nil_append] at hsplit
      exact hsplit ▸ h
    | cons d before =>
      exact hfirst before after (List.cons.inj hsplit).2 (Nat.lt_of_succ_lt_succ hlen)

/-- **Every line is cut off at one place.** -/
theorem cut_iff {line kept : List Char} : Cut line kept ↔ cutAt commentMarks line = kept := by
  induction line generalizing kept with
  | nil =>
    constructor
    · rintro ⟨⟨rest, heq, -⟩, -⟩
      exact (List.nil_eq_append_iff.mp heq).1.symm
    · rintro rfl
      exact ⟨⟨[], rfl, .inl rfl⟩, fun _ _ _ hlen => absurd hlen (Nat.not_lt_zero _)⟩
  | cons c rest ih =>
    rw [cutAt]
    by_cases hc : Comment (c :: rest)
    · rw [if_pos (any_commentMarks.mpr hc)]
      constructor
      · rintro ⟨-, hfirst⟩
        cases kept with
        | nil => rfl
        | cons d kept => exact absurd hc (hfirst [] _ rfl (Nat.succ_pos _))
      · rintro rfl
        exact ⟨⟨c :: rest, rfl, .inr hc⟩, fun _ _ _ hlen => absurd hlen (Nat.not_lt_zero _)⟩
    · rw [if_neg (mt any_commentMarks.mp hc), cut_cons hc]
      constructor
      · rintro ⟨kept, rfl, hkept⟩
        rw [ih.mp hkept]
      · rintro rfl
        exact ⟨_, rfl, ih.mpr rfl⟩

/-! ## 3. Words -/

/-- A line and its words: characters that are not blank, as many in a row as there are. -/
inductive Worded : List Char → List String → Prop
  | blank {gap : List Char} (hgap : ∀ c ∈ gap, isBlank c = true) : Worded gap []
  | word {gap word rest : List Char} {words : List String} (hgap : ∀ c ∈ gap, isBlank c = true)
      (hsome : word ≠ []) (hword : ∀ c ∈ word, isBlank c = false)
      (hend : ∀ c ∈ rest.head?, isBlank c = true) (hrest : Worded rest words) :
      Worded (gap ++ (word ++ rest)) (String.ofList word :: words)

theorem words_gap {gap : List Char} (hgap : ∀ c ∈ gap, isBlank c = true) (rest : List Char) :
    words (gap ++ rest) = words rest := by
  induction gap with
  | nil => rfl
  | cons c gap ih =>
    have hc : isBlank c = true := hgap c List.mem_cons_self
    rw [← ih fun d hd => hgap d (List.mem_cons_of_mem c hd), List.cons_append, words,
      List.splitOnP_cons_eq_if_modifyHead, if_pos hc]
    rfl

theorem words_word {word rest : List Char} (hsome : word ≠ [])
    (hword : ∀ c ∈ word, isBlank c = false) (hend : ∀ c ∈ rest.head?, isBlank c = true) :
    words (word ++ rest) = String.ofList word :: words rest := by
  have hkeep : (!word.isEmpty) = true := by simpa using hsome
  cases rest with
  | nil =>
    rw [List.append_nil, words, List.splitOnP_eq_singleton hword, List.filter_cons, if_pos hkeep]
    rfl
  | cons c rest =>
    have hc : isBlank c = true := hend c rfl
    rw [words, List.splitOnP_append_cons_of_forall_mem hword c hc, List.filter_cons, if_pos hkeep,
      List.map_cons, words, List.splitOnP_cons_eq_if_modifyHead, if_pos hc]
    rfl

theorem worded_words (line : List Char) : Worded line (words line) := by
  -- what stands behind the first word is shorter
  induction hn : line.length using Nat.strongRecOn generalizing line with
  | ind n ih =>
    let body := line.dropWhile isBlank
    have hgap : ∀ c ∈ line.takeWhile isBlank, isBlank c = true := fun c hc =>
      List.mem_takeWhile_imp hc
    have hline : line = line.takeWhile isBlank ++ body := List.takeWhile_append_dropWhile.symm
    rw [hline, words_gap hgap]
    cases hbody : body with
    | nil =>
      rw [List.append_nil]
      exact .blank hgap
    | cons c tail =>
      have hc : isBlank c = false := by
        have := List.head?_dropWhile_not isBlank line
        rw [show line.dropWhile isBlank = c :: tail from hbody] at this
        simpa using this
      let word := (c :: tail).takeWhile (!isBlank ·)
      let rest := (c :: tail).dropWhile (!isBlank ·)
      have hsplit : c :: tail = word ++ rest := List.takeWhile_append_dropWhile.symm
      have hsome : word ≠ [] := by simp [word, hc]
      have hword : ∀ d ∈ word, isBlank d = false := fun d hd => by
        simpa using List.mem_takeWhile_imp hd
      have hend : ∀ d ∈ rest.head?, isBlank d = true := fun d hd => by
        have := List.head?_dropWhile_not (!isBlank ·) (c :: tail)
        rw [show ((c :: tail).dropWhile (!isBlank ·)).head? = some d from hd] at this
        simpa using this
      have hlen : rest.length < n := by
        have hpos := List.length_pos_iff.mpr hsome
        have := congrArg List.length hline
        have := congrArg List.length hsplit
        rw [hbody] at *
        simp only [List.length_append] at *
        omega
      rw [hsplit, words_word hsome hword hend]
      exact .word hgap hsome hword hend (ih _ hlen rest rfl)

/-- **Every line has its words and no others.** -/
theorem worded_iff {line : List Char} {found : List String} :
    Worded line found ↔ words line = found := by
  constructor
  · intro h
    induction h with
    | blank hgap =>
      have hnone := words_gap hgap []
      rwa [List.append_nil] at hnone
    | word hgap hsome hword hend hrest ih => rw [words_gap hgap, words_word hsome hword hend, ih]
  · rintro rfl
    exact worded_words line

/-! ## 4. Rows -/

/-- A text and its rows: the words of its lines, comments left out. -/
def Rows (text : String) (rows : List (List String)) : Prop :=
  ∃ lines, Lined text.toList lines ∧
    List.Forall₂ (fun line row => ∃ kept, Cut line kept ∧ Worded kept row) lines rows

/-- **Every text has its rows and no others.** -/
theorem rows_iff {text : String} {rows : List (List String)} :
    Rows text rows ↔ (lines text).map (fun line => words (cutAt commentMarks line)) = rows := by
  have hrow : ∀ line row, (∃ kept, Cut line kept ∧ Worded kept row) ↔
      words (cutAt commentMarks line) = row := by
    intro line row
    simp only [cut_iff, worded_iff, exists_eq_left']
  simp only [Rows, lined_iff, exists_eq_left', hrow]
  rw [← List.forall₂_map_left_iff (R := (· = ·)), List.forall₂_eq_eq_eq]

/-- The numbered words are the rows, numbered from one on. -/
theorem numberedWords_eq {text : String} {rows : List (List String)} (h : Rows text rows) :
    numberedWords commentMarks text = (rows.zipIdx 1).map Prod.swap := by
  rw [← rows_iff.mp h, numberedWords, List.zipIdx_map, List.map_map]
  rfl

end FairCycle.Text
