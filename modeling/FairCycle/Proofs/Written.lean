/-
# Rows that are written

Rows are written down a line for each, with one blank between words.  Such a text falls into the
rows that were written (`rows_ofRows`) if every word is one in which no comment begins (`Plain`); it
may end in a backslash or begin with an asterisk, since the blank behind it keeps a mark from
forming across two words (`comment_append_blank`).

There are as many such words as there are numbers (`numerals`).
-/
import FairCycle.Proofs.Rows
import Mathlib.Data.List.Infix
import Mathlib.Data.List.Nodup
import Mathlib.Data.List.Range
import Mathlib.Tactic.MkIffOfInductiveProp

namespace FairCycle.Text

/-! ## 1. Words that are written -/

/-- A name that can be written: a word in which no comment begins. -/
@[mk_iff]
structure Plain (name : String) : Prop where
  some : name ≠ ""
  blank : ∀ c ∈ name.toList, isBlank c = false
  sign : '#' ∉ name.toList
  star : ¬['\\', '*'] <:+: name.toList

-- through the characters of the name, not through all characters that there are
instance (name : String) : Decidable (Plain name) :=
  haveI : Decidable (∀ c ∈ name.toList, isBlank c = false) := List.decidableBAll _ _
  decidable_of_iff _ (plain_iff name).symm

theorem Plain.not_comment {name : String} (h : Plain name) {rest : List Char}
    (hrest : rest <:+ name.toList) : ¬Comment rest := by
  rintro (hsign | hstar)
  · exact h.sign (hrest.subset (hsign.subset List.mem_cons_self))
  · exact h.star (hstar.isInfix.trans hrest.isInfix)

/-- A comment that begins before a blank is whole before it. -/
theorem comment_append_blank {start rest : List Char} (hstart : start ≠ [])
    (h : Comment (start ++ ' ' :: rest)) : Comment start := by
  obtain ⟨c, start, rfl⟩ := List.exists_cons_of_ne_nil hstart
  simp only [Comment, List.cons_append, List.cons_prefix_cons, List.nil_prefix, and_true] at h ⊢
  rcases h with hsign | ⟨hc, hstar⟩
  · exact .inl hsign
  · refine .inr ⟨hc, ?_⟩
    cases start with
    | nil => exact absurd (List.cons_prefix_cons.mp hstar).1 (by decide)
    | cons d start =>
      obtain ⟨hd, -⟩ := List.cons_prefix_cons.mp hstar
      exact List.cons_prefix_cons.mpr ⟨hd, List.nil_prefix⟩

theorem not_comment_blank (rest : List Char) : ¬Comment (' ' :: rest) := by
  simp [Comment, List.cons_prefix_cons]

/-- The words of a row behind its first one, with a blank before each. -/
def trail (row : List String) : List Char := row.flatMap fun word => ' ' :: word.toList

theorem toList_intercalate_cons (word : String) (row : List String) :
    (" ".intercalate (word :: row)).toList = word.toList ++ trail row := by
  rw [String.toList_intercalate]
  induction row generalizing word with
  | nil => simp [trail]
  | cons next row ih =>
    rw [List.map_cons, List.map_cons, List.intercalate_cons_cons, ← List.map_cons, ih, trail,
      trail, List.flatMap_cons, List.append_assoc]
    rfl

/-- **No comment begins in a row of plain words.** -/
theorem not_comment_row {word : String} {row : List String} (hword : Plain word)
    (hrow : ∀ word ∈ row, Plain word) {rest : List Char}
    (hrest : rest <:+ word.toList ++ trail row) : ¬Comment rest := by
  induction row generalizing word with
  | nil =>
    rw [trail, List.flatMap_nil, List.append_nil] at hrest
    exact hword.not_comment hrest
  | cons next row ih =>
    have ih := ih (hrow next List.mem_cons_self) fun w hw => hrow w (List.mem_cons_of_mem _ hw)
    obtain ⟨before, hsplit⟩ := hrest
    rw [trail, List.flatMap_cons, List.cons_append] at hsplit
    rcases List.append_eq_append_iff.mp hsplit with ⟨start, hstart, rfl⟩ | ⟨gap, -, hgap⟩
    · by_cases hnil : start = []
      · rw [hnil]
        exact not_comment_blank _
      · exact fun h => hword.not_comment ⟨before, hstart.symm⟩ (comment_append_blank hnil h)
    · rcases List.suffix_cons_iff.mp ⟨gap, hgap.symm⟩ with rfl | hnext
      · exact not_comment_blank _
      · exact ih hnext

/-- **A row of plain words is kept whole.** -/
theorem cut_row {word : String} {row : List String} (hword : Plain word)
    (hrow : ∀ word ∈ row, Plain word) :
    Cut (word.toList ++ trail row) (word.toList ++ trail row) where
  rest := ⟨[], (List.append_nil _).symm, .inl rfl⟩
  first before _ hsplit _ := not_comment_row hword hrow ⟨before, hsplit.symm⟩

theorem head?_trail {row : List String} : ∀ c ∈ (trail row).head?, isBlank c = true := by
  cases row with
  | nil => exact fun c hc => absurd hc (by simp [trail])
  | cons word row =>
    intro c hc
    obtain rfl : ' ' = c := by simpa [trail] using hc
    decide

theorem worded_append {gap : List Char} {word : String} {row : List String}
    (hgap : ∀ c ∈ gap, isBlank c = true) (hword : Plain word) (hrow : Worded (trail row) row) :
    Worded (gap ++ (word.toList ++ trail row)) (word :: row) := by
  have hsome : word.toList ≠ [] := mt String.toList_eq_nil_iff.mp hword.some
  have hwords := Worded.word hgap hsome hword.blank head?_trail hrow
  rwa [String.ofList_toList] at hwords

theorem worded_trail {row : List String} (hrow : ∀ word ∈ row, Plain word) :
    Worded (trail row) row := by
  induction row with
  | nil => exact .blank fun c hc => absurd hc List.not_mem_nil
  | cons word row ih =>
    have hblank : ∀ c ∈ [' '], isBlank c = true := List.forall_mem_singleton.mpr (by decide)
    have hrest := ih fun w hw => hrow w (List.mem_cons_of_mem word hw)
    exact worded_append hblank (hrow word List.mem_cons_self) hrest

/-- **The words of a row that is written are those of the row.** -/
theorem worded_row {word : String} {row : List String} (hword : Plain word)
    (hrow : ∀ word ∈ row, Plain word) : Worded (word.toList ++ trail row) (word :: row) :=
  worded_append (fun _ hc => absurd hc List.not_mem_nil) hword (worded_trail hrow)

/-! ## 2. Rows that are written -/

/-- The text of some rows: one blank between words, and a line feed behind each row. -/
def ofRows (rows : List (List String)) : String :=
  String.join (rows.map fun row => " ".intercalate row ++ "\n")

/-- The only blank in a row of plain words is the one between them. -/
theorem eq_space_of_mem_row {word : String} {row : List String} (hword : Plain word)
    (hrow : ∀ word ∈ row, Plain word) {c : Char} (hc : c ∈ word.toList ++ trail row)
    (hblank : isBlank c = true) : c = ' ' := by
  have hinside : ∀ w, Plain w → c ∉ w.toList := fun w hw hmem =>
    absurd (hw.blank c hmem) (by simp [hblank])
  rcases List.mem_append.mp hc with hc | hc
  · exact absurd hc (hinside word hword)
  · obtain ⟨next, hnext, hc⟩ := List.mem_flatMap.mp hc
    exact (List.mem_cons.mp hc).resolve_right (hinside next (hrow next hnext))

theorem lined_ofRows {rows : List (List String)}
    (h : ∀ row ∈ rows, row ≠ [] ∧ ∀ word ∈ row, Plain word) :
    Lined (ofRows rows).toList (rows.map fun row => (" ".intercalate row).toList) := by
  rw [ofRows, String.toList_join, List.flatMap_map]
  induction rows with
  | nil => exact .done
  | cons row rows ih =>
    obtain ⟨⟨hsome, hplain⟩, hrows⟩ := List.forall_mem_cons.mp h
    obtain ⟨word, row, rfl⟩ := List.exists_cons_of_ne_nil hsome
    obtain ⟨hword, hothers⟩ := List.forall_mem_cons.mp hplain
    rw [List.flatMap_cons, String.toList_append, List.append_assoc, List.map_cons,
      toList_intercalate_cons]
    -- neither a line feed nor a carriage return is the blank between words
    refine .feed (fun hmem => ?_) (fun hend => ?_) (ih hrows)
    · exact absurd (eq_space_of_mem_row hword hothers hmem (by decide)) (by decide)
    · have hmem := List.mem_of_getLast? hend
      exact absurd (eq_space_of_mem_row hword hothers hmem (by decide)) (by decide)

/-- **The rows of a text that is written are those that were written.** -/
theorem rows_ofRows {rows : List (List String)}
    (h : ∀ row ∈ rows, row ≠ [] ∧ ∀ word ∈ row, Plain word) : Rows (ofRows rows) rows := by
  refine ⟨_, lined_ofRows h, ?_⟩
  rw [List.forall₂_map_left_iff, List.forall₂_same]
  intro row hrow
  obtain ⟨hsome, hplain⟩ := h row hrow
  obtain ⟨word, row, rfl⟩ := List.exists_cons_of_ne_nil hsome
  obtain ⟨hword, hothers⟩ := List.forall_mem_cons.mp hplain
  rw [toList_intercalate_cons]
  exact ⟨_, cut_row hword hothers, worded_row hword hothers⟩

/-! ## 3. As many words as one likes -/

theorem isBlank_of_isDigit {c : Char} (h : c.isDigit = true) : isBlank c = false := by
  obtain ⟨hlow, hhigh⟩ : 48 ≤ c.toNat ∧ c.toNat ≤ 57 := Char.isDigit_iff_toNat.mp h
  simp only [isBlank, blankRanges, List.any_cons, List.any_nil, Bool.or_false,
    Bool.or_eq_false_iff, Bool.and_eq_false_iff, decide_eq_false_iff_not]
  omega

/-- The digits of a number are a word in which no comment begins. -/
theorem plain_repr (n : Nat) : Plain n.repr := by
  have hdigit : ∀ c ∈ n.repr.toList, c.isDigit = true := fun c hc => by
    rw [Nat.repr_eq_ofList_toDigits, String.toList_ofList] at hc
    exact Nat.isDigit_of_mem_toDigits (by decide) (by decide) hc
  refine ⟨Nat.repr_ne_empty, fun c hc => isBlank_of_isDigit (hdigit c hc), fun hsign => ?_, ?_⟩
  · exact absurd (hdigit _ hsign) (by decide)
  · intro hstar
    exact absurd (hdigit _ (hstar.subset List.mem_cons_self)) (by decide)

/-- The first numbers, in digits. -/
def numerals (n : Nat) : List String := (List.range n).map Nat.repr

theorem length_numerals (n : Nat) : (numerals n).length = n := by simp [numerals]

theorem nodup_numerals (n : Nat) : (numerals n).Nodup := by
  refine List.nodup_range.map fun i j heq => ?_
  rw [Nat.repr_eq_ofList_toDigits, Nat.repr_eq_ofList_toDigits, String.ofList_inj] at heq
  rw [← @Nat.ofDigitChars_ten_toDigits i, heq, Nat.ofDigitChars_ten_toDigits]

theorem plain_numerals {n : Nat} {word : String} (h : word ∈ numerals n) : Plain word := by
  obtain ⟨k, -, rfl⟩ := List.mem_map.mp h
  exact plain_repr k

theorem repr_mem_numerals {n k : Nat} (h : k < n) : k.repr ∈ numerals n :=
  List.mem_map_of_mem (List.mem_range.mpr h)

theorem idxOf_numerals {n k : Nat} (h : k < n) : (numerals n).idxOf k.repr = k := by
  have hlt : k < (numerals n).length := by rwa [length_numerals]
  have hat : (numerals n)[k] = k.repr := by simp [numerals]
  rw [← hat, (nodup_numerals n).idxOf_getElem k hlt]

end FairCycle.Text
