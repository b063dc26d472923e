/-
# Blank characters

Words of the line formats are separated by blanks: the twenty-five code points that have the
Unicode property White_Space.  The four characters that core calls white space are among them, and
so are the vertical tabulators, the next-line control, the no-break spaces and the spaces of fixed
width.
-/
namespace FairCycle.Text

/-- The blanks as closed ranges of code points, in rising order. -/
def blankRanges : List (Nat × Nat) :=
  [(0x09, 0x0D), (0x20, 0x20), (0x85, 0x85), (0xA0, 0xA0), (0x1680, 0x1680), (0x2000, 0x200A),
    (0x2028, 0x2029), (0x202F, 0x202F), (0x205F, 0x205F), (0x3000, 0x3000)]

/-- A character is blank when its code point lies in one of the ranges. -/
def isBlank (c : Char) : Bool :=
  blankRanges.any fun (low, high) => low ≤ c.toNat && c.toNat ≤ high

/-- There are twenty-five blanks. -/
example : (blankRanges.map fun (low, high) => high + 1 - low).sum = 25 := by decide

end FairCycle.Text
