/-
# Decimal numerals

A count is written with decimal digits, after a plus sign if one likes, and fits in sixty-four
bits (`count?`).
-/
namespace FairCycle.Text

/-- The number that a list of decimal digits writes; `none` if another character is among them. -/
def digits? (text : List Char) : Option Nat :=
  text.foldlM (fun n c => if c.isDigit then some (10 * n + (c.toNat - '0'.toNat)) else none) 0

/-- The digits of a numeral, without the sign. -/
def unsigned : List Char → List Char
  | '+' :: rest => rest
  | text => text

/-- The count that a word writes.  There is at least one digit, no minus sign and nothing else,
and the number lies below `2 ^ 64`. -/
def count? (word : String) : Option Nat :=
  let body := unsigned word.toList
  if body.isEmpty then none
  else (digits? body).filter (· < UInt64.size)

example : count? "+007" = some 7 := by decide +kernel
example : count? "18446744073709551616" = none := by decide +kernel
example : count? "+" = none ∧ count? "-0" = none ∧ count? "++1" = none := by decide +kernel

end FairCycle.Text
