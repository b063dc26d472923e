/-
# Handles

A stored state is named by a handle: the worker that owns it and its slot in that worker's table.
Handles are plain words, so a parent or a cycle state can be named across partitions.

The checker calls a handle a `StateRef`.
-/
namespace FairCycle

/-- The name of a stored state. -/
structure Handle where
  /-- The worker whose table holds the state. -/
  worker : UInt32
  /-- The state's slot in that table. -/
  slot : UInt32
deriving DecidableEq

namespace Handle

/-- The text of a handle. -/
def text (h : Handle) : String := s!"w{h.worker}:{h.slot}"

/-- Handles are ordered by worker, then by slot. -/
def le (a b : Handle) : Bool :=
  a.worker < b.worker || (a.worker == b.worker && a.slot ≤ b.slot)

/-- The handles of a list in rising order, each once. -/
def sorted (handles : List Handle) : List Handle :=
  (handles.mergeSort le).eraseDups

/-- The number that an accepting state hands on to its descendants in the search for early
cycles: its slot, counted from one.  The last slot of all has none. -/
def rank? (h : Handle) : Option UInt32 :=
  if h.slot = 0xffffffff then none else some (h.slot + 1)

end Handle

end FairCycle
