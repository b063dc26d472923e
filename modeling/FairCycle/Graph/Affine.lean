/-
# Affine graphs

The states of an affine graph are numbers.  Each of its steps takes `x` to `a * x + c` modulo a
fixed number, and the remainder of `x` by another number decides acceptance.  Nothing is stored,
so such a graph can be much larger than what a run explores.
-/
import Std.Data.TreeSet.Basic
import FairCycle.Fingerprint
import FairCycle.Graph

namespace FairCycle

/-- A graph of numbers. -/
structure Affine where
  modulus : Nat
  initial : Nat
  /-- The steps, as factor and summand. -/
  steps : List (Nat × Nat)
  /-- The number whose remainders decide acceptance. -/
  acceptModulus : Nat
  /-- The remainders of accepting states. -/
  acceptRemainders : Std.TreeSet Nat

namespace Affine

/-- The successors of a state; there is no remainder by zero. -/
def targets? (a : Affine) (x : Nat) : Option (List Nat) :=
  if a.modulus = 0 ∧ a.steps ≠ [] then none
  else some (a.steps.map fun (factor, summand) => (factor * x + summand) % a.modulus)

/-- Whether a state is accepting; there is no remainder by zero. -/
def accepting? (a : Affine) (x : Nat) : Option Bool :=
  if a.acceptModulus = 0 then none
  else some (a.acceptRemainders.contains (x % a.acceptModulus))

/-- The graph. -/
def graph (a : Affine) : Graph Nat Unit :=
  .ofFunctions a.initial a.targets? a.targets? a.accepting?
    (fun x => fingerprint (.word x.toUInt64)) toString

end Affine

end FairCycle
