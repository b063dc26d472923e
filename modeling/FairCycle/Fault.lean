/-
# Faults

A run that cannot go on stops with a `Fault`.  Most of them mean that the graph broke its promise
to answer equal questions equally; `Fault.isInvariantViolation` tells these from failures of the
surroundings.

The checker calls a fault a `CheckError`.
-/
import FairCycle.Handle
import FairCycle.Config

namespace FairCycle

/-- Why a check was given up. -/
inductive Fault where
  /-- A worker was offered a state that another worker owns. -/
  | notOwner (worker owner : Nat)
  /-- A state has more predecessors among the candidates than can be counted. -/
  | predecessorOverflow (state : Handle) (max : UInt32)
  /-- An edge was taken back that had never been counted. -/
  | predecessorUnderflow (state : Handle)
  /-- More accepting states were eliminated than there were. -/
  | eliminationOverflow (eliminated accepting : Nat)
  /-- There is no cycle to show. -/
  | noCounterexample
  /-- Accepting candidates are left, but none of them lies on a cycle. -/
  | missingCycle (remaining : Nat)
  /-- A chain of parents ended before its goal. -/
  | brokenParentChain (state : Handle)
  /-- A step of the trace is not an edge of the graph. -/
  | trailMismatch (source target : String)
  /-- A worker broke down. -/
  | workerLost (worker : Nat)
  /-- There was no usable configuration. -/
  | config (error : ConfigError)
  /-- Writing failed. -/
  | output (reason : String)
deriving DecidableEq

namespace Fault

/-- The wording of a fault. -/
def message : Fault → String
  | .notOwner worker owner => s!"worker {worker} cannot store a state owned by worker {owner}"
  | .predecessorOverflow state max =>
    s!"state {state.text} has more than {max} predecessors in the candidate set"
  | .predecessorUnderflow state => s!"predecessor count of state {state.text} dropped below zero"
  | .eliminationOverflow eliminated accepting =>
    s!"elimination removed {eliminated} accepting states out of {accepting}"
  | .noCounterexample => "no accepting cycle was found, there is no counterexample"
  | .missingCycle remaining =>
    s!"candidate set of {remaining} accepting states contains no accepting cycle"
  | .brokenParentChain state => s!"parent chain broken at state {state.text}"
  | .trailMismatch source target =>
    s!"state '{target}' is not a successor of '{source}' when replaying the trace"
  | .workerLost worker => s!"worker {worker} stopped responding"
  | .config error => error.message
  | .output reason => s!"I/O error: {reason}"

/-- Whether the fault shows a broken invariant rather than a failure of the surroundings. -/
def isInvariantViolation : Fault → Bool
  | .output _ | .config _ | .workerLost _ => false
  | _ => true

end Fault

/-- How a computation ends before its time. -/
inductive Stop where
  /-- A fault was reported. -/
  | fault (fault : Fault)
  /-- The computation broke down: a handle led nowhere, or the graph gave no answer. -/
  | crash
  /-- The workers were given no more turns. -/
  | outOfTurns
deriving DecidableEq

end FairCycle
