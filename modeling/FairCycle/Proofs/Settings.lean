/-
# What a text of settings means

A row of settings has two words: what is set, and the value.  There are three kinds of rows
(`Setting.Spelled`), and for every other row that is not blank there is one thing wrong with it
(`Setting.Flawed`).  A count is a decimal numeral (`Counts`), and a comment begins with a backslash
and an asterisk (`Clipped`).

A text is read if all its rows are right, and then each setting has the value of the last row that
sets it, or its default.  Otherwise the first row that is wrong is reported
(`Settings.parse_grammar`).
-/
import FairCycle.Config
import FairCycle.Proofs.Rows
import Mathlib.Data.List.Infix
import Mathlib.Data.Nat.Digits.Defs

namespace FairCycle

namespace Text

/-! ## 1. Numerals -/

/-- A word that writes a count: decimal digits, behind a plus sign or alone, and a number of
sixty-four bits. -/
structure Counts (word : String) (n : Nat) : Prop where
  digits : ∃ digits, (word.toList = digits ∨ word.toList = '+' :: digits) ∧ digits ≠ [] ∧
    (∀ c ∈ digits, c.isDigit = true) ∧
    n = Nat.ofDigits 10 (digits.reverse.map fun c => c.toNat - '0'.toNat)
  lt : n < 2 ^ 64

theorem ofDigits_reverse_cons (c : Char) (digits : List Char) :
    Nat.ofDigits 10 ((c :: digits).reverse.map fun c => c.toNat - '0'.toNat) =
      Nat.ofDigits 10 (digits.reverse.map fun c => c.toNat - '0'.toNat) +
        10 ^ digits.length * (c.toNat - '0'.toNat) := by
  simp [Nat.ofDigits_append]

/-- Reading digits behind a number that was read already. -/
theorem foldlM_digits (text : List Char) (start n : Nat) :
    text.foldlM (fun n c => if c.isDigit then some (10 * n + (c.toNat - '0'.toNat)) else none)
        start = some n ↔
      (∀ c ∈ text, c.isDigit = true) ∧
        n = 10 ^ text.length * start +
          Nat.ofDigits 10 (text.reverse.map fun c => c.toNat - '0'.toNat) := by
  induction text generalizing start with
  | nil =>
    constructor
    · intro h
      obtain rfl := Option.some.inj h
      simp
    · rintro ⟨-, rfl⟩
      simp
  | cons c text ih =>
    rw [List.foldlM_cons]
    by_cases hc : c.isDigit = true
    · rw [if_pos hc, Option.bind_eq_bind, Option.bind_some, ih, ofDigits_reverse_cons]
      have hpow : 10 ^ (text.length + 1) * start = 10 ^ text.length * (10 * start) := by ring
      simp only [List.forall_mem_cons, hc, true_and, List.length_cons, hpow, Nat.mul_add]
      constructor
      · rintro ⟨hall, rfl⟩
        exact ⟨hall, by ring⟩
      · rintro ⟨hall, rfl⟩
        exact ⟨hall, by ring⟩
    · simp [hc]

theorem digits?_eq_some_iff {text : List Char} {n : Nat} :
    digits? text = some n ↔ (∀ c ∈ text, c.isDigit = true) ∧
      n = Nat.ofDigits 10 (text.reverse.map fun c => c.toNat - '0'.toNat) := by
  rw [digits?, foldlM_digits, Nat.mul_zero, Nat.zero_add]

/-- A word of digits, with a sign or without, has these digits behind its sign. -/
theorem unsigned_eq {text digits : List Char} (hall : ∀ c ∈ digits, c.isDigit = true) :
    (text = digits ∨ text = '+' :: digits) ↔ unsigned text = digits := by
  unfold unsigned
  split
  · rename_i rest
    constructor
    · rintro (rfl | heq)
      · exact absurd (hall '+' List.mem_cons_self) (by decide)
      · exact (List.cons.inj heq).2
    · rintro rfl
      exact .inr rfl
  · rename_i hplain
    constructor
    · rintro (rfl | heq)
      · rfl
      · exact absurd heq (hplain digits)
    · exact .inl

/-- **A word is read as the count that it writes.** -/
theorem count?_eq_some_iff {word : String} {n : Nat} : count? word = some n ↔ Counts word n := by
  have hsize : UInt64.size = 2 ^ 64 := rfl
  unfold count?
  constructor
  · intro h
    simp only at h
    split at h
    · exact absurd h (by simp)
    · rename_i hsome
      obtain ⟨hdigits, hlt⟩ := Option.filter_eq_some_iff.mp h
      obtain ⟨hall, hn⟩ := digits?_eq_some_iff.mp hdigits
      refine ⟨⟨_, (unsigned_eq hall).mpr rfl, ?_, hall, hn⟩, ?_⟩
      · simpa using hsome
      · simpa [hsize] using hlt
  · rintro ⟨⟨digits, hword, hsome, hall, hn⟩, hlt⟩
    rw [unsigned_eq hall] at hword
    simp only [hword]
    rw [if_neg (by simpa using hsome), digits?_eq_some_iff.mpr ⟨hall, hn⟩]
    simpa [hsize] using hlt

theorem count?_eq_none_iff {word : String} : count? word = none ↔ ∀ n, ¬Counts word n := by
  simp only [← count?_eq_some_iff, Option.eq_none_iff_forall_ne_some]

/-! ## 2. Comments -/

/-- A line and what is kept of it: all of it, or what stands before the first comment mark. -/
inductive Clipped : List Char → List Char → Prop
  | whole {line : List Char} (hnone : ¬['\\', '*'] <:+: line) : Clipped line line
  | comment {kept rest : List Char} (hfirst : ¬['\\', '*'] <:+: kept ++ ['\\']) :
      Clipped (kept ++ '\\' :: '*' :: rest) kept

theorem any_settingsCommentMarks {rest : List Char} :
    settingsCommentMarks.any (·.isPrefixOf rest) = true ↔ ['\\', '*'] <+: rest := by
  simp [settingsCommentMarks]

theorem clipped_cutAt (line : List Char) : Clipped line (cutAt settingsCommentMarks line) := by
  induction line with
  | nil => exact .whole (by simp)
  | cons c rest ih =>
    rw [cutAt]
    by_cases hmark : ['\\', '*'] <+: c :: rest
    · rw [if_pos (any_settingsCommentMarks.mpr hmark)]
      obtain ⟨rest, heq⟩ := hmark
      rw [← heq]
      change Clipped ([] ++ '\\' :: '*' :: rest) []
      exact .comment (by decide)
    · rw [if_neg (mt any_settingsCommentMarks.mp hmark)]
      generalize cutAt settingsCommentMarks rest = kept at ih
      cases ih with
      | whole hnone =>
        refine .whole fun hinfix => ?_
        exact (List.infix_cons_iff.mp hinfix).elim hmark hnone
      | @comment kept rest hfirst =>
        change Clipped ((c :: kept) ++ '\\' :: '*' :: rest) (c :: kept)
        refine .comment fun hinfix => ?_
        refine (List.infix_cons_iff.mp hinfix).elim (fun hstart => hmark ?_) hfirst
        refine hstart.trans ⟨'*' :: rest, ?_⟩
        simp

/-- A line is clipped at one place only. -/
theorem Clipped.eq_cutAt {line kept : List Char} (h : Clipped line kept) :
    cutAt settingsCommentMarks line = kept := by
  cases h with
  | whole hnone =>
    refine cutAt_eq_self fun rest hrest mark hmark hprefix => hnone ?_
    obtain rfl : mark = ['\\', '*'] := by simpa [settingsCommentMarks] using hmark
    exact hprefix.isInfix.trans hrest.isInfix
  | @comment kept rest hfirst =>
    induction kept with
    | nil => simp [cutAt, settingsCommentMarks]
    | cons c kept ih =>
      rw [List.cons_append, List.infix_cons_iff, not_or] at hfirst
      have hmark : ¬['\\', '*'] <+: c :: (kept ++ '\\' :: '*' :: rest) := by
        intro hprefix
        refine hfirst.1 (List.prefix_of_prefix_length_le hprefix ⟨'*' :: rest, ?_⟩ ?_)
        · simp
        · simp
      rw [List.cons_append, cutAt, if_neg (mt any_settingsCommentMarks.mp hmark), ih hfirst.2]

/-- **Every line is clipped at one place.** -/
theorem clipped_iff {line kept : List Char} :
    Clipped line kept ↔ cutAt settingsCommentMarks line = kept :=
  ⟨Clipped.eq_cutAt, fun h => h ▸ clipped_cutAt line⟩

end Text

open Text

/-- A text of settings and its rows: the words of its lines, comments left out. -/
def Settings.Rows (text : String) (rows : List (List String)) : Prop :=
  ∃ lines, Lined text.toList lines ∧
    List.Forall₂ (fun line row => ∃ kept, Clipped line kept ∧ Worded kept row) lines rows

/-- **Every text has its rows and no others**, and these are what is read, line by line. -/
theorem Settings.rows_iff {text : String} {rows : List (List String)} :
    Settings.Rows text rows ↔
      (lines text).map (fun line => words (cutAt settingsCommentMarks line)) = rows := by
  have hrow : ∀ line row, (∃ kept, Clipped line kept ∧ Worded kept row) ↔
      words (cutAt settingsCommentMarks line) = row := by
    intro line row
    simp only [clipped_iff, worded_iff, exists_eq_left']
  simp only [Settings.Rows, lined_iff, exists_eq_left', hrow]
  rw [← List.forall₂_map_left_iff (R := (· = ·)), List.forall₂_eq_eq_eq]

namespace Setting

/-! ## 3. Rows and settings -/

/-- How a truth value is written. -/
def spelling (on : Bool) : String := if on then "TRUE" else "FALSE"

/-- The grammar of a row. -/
inductive Spelled : List String → Setting → Prop
  | workers {value : String} {count : Nat} (hvalue : Counts value count) (hsome : 1 ≤ count) :
      Spelled ["WORKERS", value] (.workers count)
  | counterexample (on : Bool) : Spelled ["COUNTEREXAMPLE", spelling on] (.counterexample on)
  | reduction (on : Bool) : Spelled ["POR", spelling on] (.reduction on)

/-- A row that asks for no workers. -/
def AsksForNone (row : List String) : Prop := ∃ value, row = ["WORKERS", value] ∧ Counts value 0

/-- What is wrong with a row that is neither blank nor spelled right. -/
inductive Flawed : List String → SettingFlaw → Prop
  | missingValue (directive : String) : Flawed [directive] (.missingValue directive)
  | trailing (directive value extra : String) (others : List String) :
      Flawed (directive :: value :: extra :: others) (.trailing extra directive value)
  | notANumber {value : String} (hvalue : ∀ n, ¬Counts value n) :
      Flawed ["WORKERS", value] (.notANumber value)
  | noWorkers {value : String} (hvalue : Counts value 0) : Flawed ["WORKERS", value] .noWorkers
  | notATruthValue {directive value : String}
      (hdirective : directive = "COUNTEREXAMPLE" ∨ directive = "POR")
      (hvalue : ∀ on, value ≠ spelling on) : Flawed [directive, value] (.notATruthValue value)
  | unknownDirective {directive : String} (value : String)
      (hdirective : directive ∉ ["WORKERS", "COUNTEREXAMPLE", "POR"]) :
      Flawed [directive, value] (.unknownDirective directive)

theorem truthValue_spelling (on : Bool) : truthValue (spelling on) = .ok on := by
  cases on <;> rfl

theorem truthValue_of_ne {value : String} (h : ∀ on, value ≠ spelling on) :
    truthValue value = .error (.notATruthValue value) := by
  unfold truthValue
  split
  · exact absurd rfl (h true)
  · exact absurd rfl (h false)
  · rfl

theorem workerCount_of_counts {value : String} {count : Nat} (h : Counts value count)
    (hsome : 1 ≤ count) : workerCount value = .ok count := by
  unfold workerCount
  rw [count?_eq_some_iff.mpr h]
  split
  · contradiction
  · rename_i hzero
    rw [Option.some.inj hzero] at hsome
    omega
  · rename_i hcount
    rw [Option.some.inj hcount]

theorem ofWords?_of_spelled {row : List String} {setting : Setting} (h : Spelled row setting) :
    ofWords? row = .ok (some setting) := by
  cases h with
  | workers hvalue hsome => simp [ofWords?, workerCount_of_counts hvalue hsome, Except.map]
  | counterexample on => simp [ofWords?, truthValue_spelling, Except.map]
  | reduction on => simp [ofWords?, truthValue_spelling, Except.map]

theorem ofWords?_of_flawed {row : List String} {flaw : SettingFlaw} (h : Flawed row flaw) :
    ofWords? row = .error flaw := by
  cases h with
  | missingValue directive => simp [ofWords?]
  | trailing directive value extra others => simp [ofWords?]
  | notANumber hvalue =>
    simp [ofWords?, workerCount, count?_eq_none_iff.mpr hvalue, Except.map]
  | noWorkers hvalue =>
    simp [ofWords?, workerCount, count?_eq_some_iff.mpr hvalue, Except.map]
  | notATruthValue hdirective hvalue =>
    rcases hdirective with rfl | rfl <;> simp [ofWords?, truthValue_of_ne hvalue, Except.map]
  | unknownDirective value hdirective =>
    simp only [List.mem_cons, List.not_mem_nil, or_false, not_or] at hdirective
    simp [ofWords?, hdirective]

theorem spelled_or_flawed_of_truth {directive value : String}
    (hdirective : directive = "COUNTEREXAMPLE" ∨ directive = "POR") :
    (∃ setting, Spelled [directive, value] setting) ∨ ∃ flaw, Flawed [directive, value] flaw := by
  by_cases hvalue : ∃ on, value = spelling on
  · obtain ⟨on, rfl⟩ := hvalue
    rcases hdirective with rfl | rfl
    · exact .inl ⟨_, .counterexample on⟩
    · exact .inl ⟨_, .reduction on⟩
  · exact .inr ⟨_, .notATruthValue hdirective (not_exists.mp hvalue)⟩

theorem spelled_or_flawed_of_workers (value : String) :
    (∃ setting, Spelled ["WORKERS", value] setting) ∨
      ∃ flaw, Flawed ["WORKERS", value] flaw := by
  by_cases hvalue : ∃ n, Counts value n
  · obtain ⟨n, hn⟩ := hvalue
    rcases Nat.eq_zero_or_pos n with rfl | hpos
    · exact .inr ⟨_, .noWorkers hn⟩
    · exact .inl ⟨_, .workers hn hpos⟩
  · exact .inr ⟨_, .notANumber (not_exists.mp hvalue)⟩

/-- **A row is blank, spelled right or flawed.** -/
theorem blank_or_spelled_or_flawed (row : List String) :
    row = [] ∨ (∃ setting, Spelled row setting) ∨ ∃ flaw, Flawed row flaw := by
  rcases row with - | ⟨directive, - | ⟨value, - | ⟨extra, others⟩⟩⟩
  · exact .inl rfl
  · exact .inr (.inr ⟨_, .missingValue directive⟩)
  · refine .inr ?_
    by_cases hknown : directive ∈ ["WORKERS", "COUNTEREXAMPLE", "POR"]
    · simp only [List.mem_cons, List.not_mem_nil, or_false] at hknown
      rcases hknown with rfl | hknown
      · exact spelled_or_flawed_of_workers value
      · exact spelled_or_flawed_of_truth hknown
    · exact .inr ⟨_, .unknownDirective value hknown⟩
  · exact .inr (.inr ⟨_, .trailing directive value extra others⟩)

namespace Flawed

variable {row : List String} {flaw : SettingFlaw}

theorem not_spelled (h : Flawed row flaw) (setting : Setting) : ¬Spelled row setting := by
  intro hspelled
  exact absurd ((ofWords?_of_spelled hspelled).symm.trans (ofWords?_of_flawed h)) (by simp)

theorem ne_nil (h : Flawed row flaw) : row ≠ [] := by
  cases h <;> simp

/-- A flaw is the lack of workers exactly if the row asks for none. -/
theorem asksForNone_iff (h : Flawed row flaw) : AsksForNone row ↔ flaw = .noWorkers := by
  constructor
  · rintro ⟨value, rfl, hvalue⟩
    have hzero := ofWords?_of_flawed (.noWorkers hvalue)
    exact Except.error.inj ((ofWords?_of_flawed h).symm.trans hzero)
  · rintro rfl
    cases h with
    | noWorkers hvalue => exact ⟨_, rfl, hvalue⟩

end Flawed

theorem error_of_ne {flaw : SettingFlaw} (h : flaw ≠ .noWorkers) (line : Nat) :
    ∃ message, flaw.error line = .malformed line message := by
  cases flaw with
  | noWorkers => exact absurd rfl h
  | _ => exact ⟨_, rfl⟩

/-- **Either all rows are right or there is a first one that is not.** -/
theorem all_spelled_or_flawed (rows : List (List String)) :
    (∃ settings, List.Forall₂ Spelled (rows.filter (· ≠ [])) settings) ∨
      ∃ before row after settings flaw, rows = before ++ row :: after ∧
        List.Forall₂ Spelled (before.filter (· ≠ [])) settings ∧ Flawed row flaw := by
  induction rows with
  | nil => exact .inl ⟨[], .nil⟩
  | cons row rows ih =>
    rcases blank_or_spelled_or_flawed row with rfl | ⟨setting, hrow⟩ | ⟨flaw, hflaw⟩
    · rcases ih with ⟨settings, hall⟩ | ⟨before, row, after, settings, flaw, rfl, hall, hflaw⟩
      · exact .inl ⟨settings, by simpa using hall⟩
      · exact .inr ⟨[] :: before, row, after, settings, flaw, rfl, by simpa using hall, hflaw⟩
    · have hsome : row ≠ [] := by cases hrow <;> simp
      rcases ih with ⟨settings, hall⟩ | ⟨before, row', after, settings, flaw, rfl, hall, hflaw⟩
      · refine .inl ⟨setting :: settings, ?_⟩
        rw [List.filter_cons_of_pos (by simpa using hsome)]
        exact .cons hrow hall
      · refine .inr ⟨row :: before, row', after, setting :: settings, flaw, rfl, ?_, hflaw⟩
        rw [List.filter_cons_of_pos (by simpa using hsome)]
        exact .cons hrow hall
    · exact .inr ⟨[], row, rows, [], flaw, rfl, .nil, hflaw⟩

theorem spelled_of_forall₂ {rows : List (List String)} {settings : List Setting}
    (h : List.Forall₂ Spelled (rows.filter (· ≠ [])) settings) :
    ∀ row ∈ rows, row ≠ [] → ∃ setting, Spelled row setting := by
  intro row hrow hsome
  obtain ⟨i, hi, heq⟩ := List.mem_iff_getElem.mp
    (List.mem_filter.mpr ⟨hrow, by simpa using hsome⟩ : row ∈ rows.filter (· ≠ []))
  have hspelled := h.get hi (h.length_eq ▸ hi)
  rw [List.get_eq_getElem, heq] at hspelled
  exact ⟨_, hspelled⟩

/-! ## 4. The last row counts -/

/-- The number of workers that a setting sets, if it does. -/
def workers? : Setting → Option Nat
  | .workers count => some count
  | _ => none

/-- Whether a setting asks for a counterexample, if it says so. -/
def counterexample? : Setting → Option Bool
  | .counterexample on => some on
  | _ => none

/-- Whether a setting switches the reduction on, if it says so. -/
def reduction? : Setting → Option Bool
  | .reduction on => some on
  | _ => none

end Setting

/-- What settings say that are made one after the other: the last one on a subject counts. -/
def Settings.ofList (settings : List Setting) : Settings where
  workers := (settings.filterMap Setting.workers?).getLast?
  counterexample := (settings.filterMap Setting.counterexample?).getLast?.getD true
  reduction := (settings.filterMap Setting.reduction?).getLast?.getD false

theorem Settings.foldl_set (settings : List Setting) :
    settings.foldl Settings.set {} = Settings.ofList settings := by
  induction settings using List.reverseRecOn with
  | nil => rfl
  | append_singleton settings setting ih =>
    rw [List.foldl_concat, ih]
    cases setting <;>
      simp [Settings.set, Settings.ofList, Setting.workers?, Setting.counterexample?,
        Setting.reduction?, List.filterMap_append]

/-! ## 5. Reading -/

namespace Settings

open Setting

theorem readLine_of_forall₂ {rows : List (List String)} {settings : List Setting}
    (h : List.Forall₂ Spelled (rows.filter (· ≠ [])) settings) (s : Settings) (number : Nat) :
    ((rows.zipIdx number).map Prod.swap).foldlM readLine s = .ok (settings.foldl set s) := by
  induction rows generalizing settings s number with
  | nil =>
    cases h
    rfl
  | cons row rows ih =>
    rw [List.zipIdx_cons, List.map_cons, List.foldlM_cons, Prod.swap_prod_mk]
    by_cases hrow : row = []
    · subst hrow
      exact ih (by simpa using h) s (number + 1)
    · rw [List.filter_cons_of_pos (by simpa using hrow)] at h
      cases h with
      | cons hspelled hrest =>
        rw [readLine, ofWords?_of_spelled hspelled]
        exact ih hrest _ (number + 1)

theorem readLine_of_flawed {before after : List (List String)} {row : List String}
    {settings : List Setting} {flaw : SettingFlaw}
    (hbefore : List.Forall₂ Spelled (before.filter (· ≠ [])) settings) (hrow : Flawed row flaw)
    (s : Settings) :
    (((before ++ row :: after).zipIdx 1).map Prod.swap).foldlM readLine s =
      .error (flaw.error (before.length + 1)) := by
  rw [List.zipIdx_append, List.map_append, List.foldlM_append, readLine_of_forall₂ hbefore]
  change (((row :: after).zipIdx (1 + before.length)).map Prod.swap).foldlM readLine
    (settings.foldl set s) = _
  rw [List.zipIdx_cons, List.map_cons, List.foldlM_cons, Prod.swap_prod_mk, readLine,
    ofWords?_of_flawed hrow, Nat.add_comm]
  rfl

theorem parse_of_rows {text : String} {rows : List (List String)} (h : Rows text rows) :
    parse text = ((rows.zipIdx 1).map Prod.swap).foldlM readLine {} := by
  rw [parse, ← rows_iff.mp h, numberedWords, List.zipIdx_map, List.map_map]
  rfl

/-- **A text of settings is read exactly if all its rows are spelled right.**  Then the last row on
a subject counts, and a subject without rows has its default.  Otherwise the first row that is wrong
is reported, as a lack of workers if it asks for none and as malformed in all other cases. -/
theorem parse_grammar (text : String) :
    ∃ rows, (∀ found, Rows text found ↔ found = rows) ∧
      ((∃ s, parse text = .ok s) ↔ ∀ row ∈ rows, row ≠ [] → ∃ setting, Spelled row setting) ∧
      (∀ s, parse text = .ok s →
        ∃ settings, List.Forall₂ Spelled (rows.filter (· ≠ [])) settings ∧
          ∀ processors, s.config processors =
            { workers := (settings.filterMap workers?).getLast?.getD processors
              counterexample := (settings.filterMap counterexample?).getLast?.getD true
              reduction := (settings.filterMap reduction?).getLast?.getD false }) ∧
      ∀ e, parse text = .error e →
        ∃ before row after, rows = before ++ row :: after ∧
          (∀ earlier ∈ before, earlier ≠ [] → ∃ setting, Spelled earlier setting) ∧
          row ≠ [] ∧ (∀ setting, ¬Spelled row setting) ∧
          (∃ flaw, Flawed row flaw ∧ e = flaw.error (before.length + 1)) ∧
          (e = .noWorkers (before.length + 1) ↔
            ∃ value, row = ["WORKERS", value] ∧ Counts value 0) ∧
          ((¬∃ value, row = ["WORKERS", value] ∧ Counts value 0) →
            ∃ message, e = .malformed (before.length + 1) message) := by
  obtain ⟨rows, hrows⟩ : ∃ rows, Rows text rows := ⟨_, rows_iff.mpr rfl⟩
  have hunique : ∀ found, Rows text found ↔ found = rows := by
    intro found
    rw [rows_iff, ← rows_iff.mp hrows, eq_comm]
  refine ⟨rows, hunique, ?_⟩
  rw [parse_of_rows hrows]
  rcases all_spelled_or_flawed rows with
    ⟨settings, hall⟩ | ⟨before, row, after, settings, flaw, rfl, hbefore, hflaw⟩
  · rw [readLine_of_forall₂ hall, foldl_set]
    refine ⟨⟨fun _ => spelled_of_forall₂ hall, fun _ => ⟨_, rfl⟩⟩, ?_, ?_⟩
    · rintro s hs
      obtain rfl := Except.ok.inj hs
      exact ⟨settings, hall, fun processors => rfl⟩
    · intro e he
      exact absurd he (by simp)
  · rw [readLine_of_flawed hbefore hflaw]
    have hnone : (AsksForNone row ↔ flaw = .noWorkers) := hflaw.asksForNone_iff
    refine ⟨⟨?_, ?_⟩, ?_, ?_⟩
    · rintro ⟨s, hs⟩
      exact absurd hs (by simp)
    · intro hall
      obtain ⟨setting, hspelled⟩ := hall row (by simp) hflaw.ne_nil
      exact absurd hspelled (hflaw.not_spelled setting)
    · intro s hs
      exact absurd hs (by simp)
    · intro e he
      obtain rfl := Except.error.inj he
      refine ⟨before, row, after, rfl, spelled_of_forall₂ hbefore, hflaw.ne_nil,
        hflaw.not_spelled, ⟨flaw, hflaw, rfl⟩, ?_, ?_⟩
      · change _ ↔ AsksForNone row
        rw [hnone]
        cases flaw <;> simp [SettingFlaw.error]
      · intro hother
        exact error_of_ne (mt hnone.mpr hother) _

end Settings

end FairCycle
