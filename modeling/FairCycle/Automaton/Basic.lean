/-
# Automata

An automaton is a graph whose states and edges are all written down.  States are numbered in the
order in which they were first mentioned; the edges of a state keep their order and are labelled
from one on.  The number of a state is also its fingerprint, so that `p` workers own the states
in turn.

Numbers and labels are words of thirty-two bits.  A state with more edges than there are labels has
edges to read (`Automaton.targets?`), but it cannot be expanded (`Automaton.edges?`).

In the checker an automaton is an `ExplicitGraph` and a number a `StateId`; `size`, `id?`, `name?`,
`targets?`, `edges?` and `accepting?` are its `len`, `id`, `name`, `edges`, `successors` and
`is_accepting`, and `none` stands for an access out of range or for a label that overflows.
-/
import FairCycle.Graph

namespace FairCycle

/-- A state of an automaton. -/
structure State where
  name : String
  /-- The targets of its edges, in order. -/
  targets : Array UInt32 := #[]
  accepting : Bool := false
deriving DecidableEq

/-- A graph that is written down. -/
structure Automaton where
  states : Array State
  initial : UInt32
deriving DecidableEq

/-- The place of the state with a name, if there is one. -/
def State.find? (states : Array State) (name : String) : Option Nat :=
  states.findIdx? (·.name == name)

namespace Automaton

/-- The number of states. -/
def size (a : Automaton) : Nat := a.states.size

/-- The number of the state with a name. -/
def id? (a : Automaton) (name : String) : Option UInt32 :=
  (State.find? a.states name).map Nat.toUInt32

/-- The state with a number. -/
def state? (a : Automaton) (id : UInt32) : Option State := a.states[id.toNat]?

/-- The name of a state. -/
def name? (a : Automaton) (id : UInt32) : Option String := (a.state? id).map (·.name)

/-- The targets of the edges of a state, in order. -/
def targets? (a : Automaton) (id : UInt32) : Option (List UInt32) :=
  (a.state? id).map (·.targets.toList)

/-- The edges to some targets, labelled from one on, as long as there are labels for them. -/
def labelled (targets : List UInt32) : Option (List (UInt32 × UInt32)) :=
  if targets.length < UInt32.size then
    some ((targets.zipIdx 1).map fun (target, label) => (target, label.toUInt32))
  else none

/-- The edges of a state: target and label. -/
def edges? (a : Automaton) (id : UInt32) : Option (List (UInt32 × UInt32)) :=
  (a.targets? id).bind labelled

/-- The successors of a state, edge by edge. -/
def successors? (a : Automaton) (id : UInt32) : Option (List UInt32) :=
  (a.edges? id).map fun edges => edges.map Prod.fst

/-- Whether a state is accepting. -/
def accepting? (a : Automaton) (id : UInt32) : Option Bool := (a.state? id).map (·.accepting)

/-- The fingerprint of a state. -/
def hash (id : UInt32) : UInt64 := id.toUInt64

/-- The automaton as a graph. -/
def graph (a : Automaton) : Graph UInt32 Unit :=
  .ofFunctions a.initial a.successors? a.successors? a.accepting? hash fun id =>
    (a.name? id).getD ""

end Automaton

end FairCycle
