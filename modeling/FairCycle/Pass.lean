/-
# Passes and errands

A run is made of passes, supersteps in which all workers take part at once, and of errands, for
which one ledger goes around the ring of workers.

Both are a `Task` in the checker.
-/
namespace FairCycle

/-- The supersteps, in which all workers take part at once. -/
inductive Pass where
  /-- Explore the reachable states and note which are accepting. -/
  | explore
  /-- Shrink the candidate set to its accepting states. -/
  | reset
  /-- Extend it by everything they reach, counting predecessors. -/
  | reach
  /-- Take out, one after the other, the candidates without predecessors in the set. -/
  | eliminate
  /-- Look for a way from one candidate back to itself. -/
  | search
  /-- Note parents from the cycle state on until the cycle closes. -/
  | trace
deriving DecidableEq

/-- The errands that go around the ring of workers. -/
inductive Errand where
  /-- Find the next accepting candidate that was not tried yet. -/
  | pickSeed
  /-- Follow one parent. -/
  | hop
deriving DecidableEq

/-- The name of a superstep in the log. -/
def Pass.text : Pass → String
  | .explore => "Initialise"
  | .reset => "Reset"
  | .reach => "Reachability"
  | .eliminate => "Elimination"
  | .search => "FindCycle"
  | .trace => "TraceCycle"

/-- The name of an errand in the log. -/
def Errand.text : Errand → String
  | .pickSeed => "PickSeed"
  | .hop => "ParentTrace"

end FairCycle
