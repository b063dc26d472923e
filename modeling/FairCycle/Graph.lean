/-
# Graphs

A graph is given by its initial state and by the answers to four questions about a state: its
successors in order, a reduced list of successors that is enough for the property at hand,
whether it is accepting, and its fingerprint.

Questions are asked of something that may remember: an answer is a step of a state monad over the
graph's memory, and a graph may fail to answer at all (`none`).  A graph that keeps its promises
answers equal questions equally and always; `Graph.ofFunctions` makes such a graph from plain
functions.

In the checker a graph implements `Graph`: `initial`, `successors`, `por_successors` (`reduced`),
`is_accepting`, `hash` and `show` (`describe`).
-/
namespace FairCycle

/-- A directed graph with accepting states, generated state by state. -/
structure Graph (N σ : Type) where
  /-- The initial state. -/
  initial : N
  /-- The successors of a state, in order. -/
  successors : N → StateM σ (Option (List N))
  /-- The successors that a reduced exploration follows. -/
  reduced : N → StateM σ (Option (List N))
  /-- Whether a state is accepting. -/
  accepting : N → StateM σ (Option Bool)
  /-- The fingerprint that decides which worker owns a state. -/
  hash : N → StateM σ UInt64
  /-- A one-line description of a state. -/
  describe : N → String

namespace Graph

variable {N σ : Type}

/-- The successors that a run expands a state by. -/
def expand (g : Graph N σ) (reduction : Bool) (node : N) : StateM σ (Option (List N)) :=
  if reduction then g.reduced node else g.successors node

/-- The graph of plain functions: it remembers nothing and always answers the same. -/
def ofFunctions (initial : N) (successors reduced : N → Option (List N))
    (accepting : N → Option Bool) (hash : N → UInt64) (describe : N → String) :
    Graph N Unit where
  initial := initial
  successors node := pure (successors node)
  reduced node := pure (reduced node)
  accepting node := pure (accepting node)
  hash node := pure (hash node)
  describe := describe

end Graph

end FairCycle
