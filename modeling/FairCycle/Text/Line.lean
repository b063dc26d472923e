/-
# Lines, comments and words

Both text formats of the library are read line by line.  A text is cut into `lines`, a line is
cut off at its first comment mark (`cutAt`), and what is left is split into `words`.

* `cutAt_eq_self`: a line in which no mark begins is kept whole.
-/
import FairCycle.Text.Blank

namespace FairCycle.Text

/-! ## 1. Lines -/

/-- A line without the carriage return that ends it, if one does. -/
def dropReturn (line : List Char) : List Char :=
  if line.getLast? = some '\r' then line.dropLast else line

/-- The lines that the pieces between line feeds stand for.  Every piece but the last was closed
by a line feed and gives up a carriage return before it; the last piece is a line of its own
only if it holds something. -/
def closeLines : List (List Char) → List (List Char)
  | [] => []
  | [last] => if last.isEmpty then [] else [last]
  | piece :: next :: others => dropReturn piece :: closeLines (next :: others)

/-- The lines of a text, without their ends. -/
def lines (text : String) : List (List Char) :=
  closeLines (text.toList.splitOn '\n')

/-! ## 2. Comments -/

/-- What stands before the first place at which one of the comment marks begins. -/
def cutAt (marks : List (List Char)) : List Char → List Char
  | [] => []
  | c :: rest =>
    if marks.any (·.isPrefixOf (c :: rest)) then [] else c :: cutAt marks rest

/-- A line in which no mark begins is kept whole. -/
theorem cutAt_eq_self {marks : List (List Char)} {line : List Char}
    (h : ∀ rest, rest <:+ line → ∀ mark ∈ marks, ¬mark <+: rest) :
    cutAt marks line = line := by
  induction line with
  | nil => rfl
  | cons c rest ih =>
    have hc : marks.any (·.isPrefixOf (c :: rest)) = false :=
      List.any_eq_false.mpr fun mark hm => by simpa using h _ List.suffix_rfl mark hm
    rw [cutAt, hc, ih fun rest' hr => h rest' (hr.trans (List.suffix_cons c rest))]
    rfl

/-! ## 3. Words -/

/-- The words of a line: its longest stretches without a blank. -/
def words (line : List Char) : List String :=
  ((line.splitOnP isBlank).filter (!·.isEmpty)).map String.ofList

/-- The lines of a text by number, counted from one, each as its words, comments left out. -/
def numberedWords (marks : List (List Char)) (text : String) : List (Nat × List String) :=
  ((lines text).zipIdx 1).map fun (line, number) => (number, words (cutAt marks line))

end FairCycle.Text
