/-
# Events

A run keeps a log of what happened.  An event has a level, a message and named values; the
messages are worded in `Event.entry`.

These are the entries that the checker traces.
-/
import FairCycle.Fault
import FairCycle.Pass
import FairCycle.Text.Record

namespace FairCycle

/-- How much an event matters. -/
inductive Level where
  | info
  | debug
  | warn
  | trace
deriving DecidableEq

/-- A value that an event names. -/
inductive Value where
  | number (n : Nat)
  | truth (b : Bool)
  | text (s : String)
deriving DecidableEq

/-- What happened. -/
inductive Event where
  | started (workers : Nat) (reduction : Bool)
  | explored (size states transitions : Nat)
  | cycleInExploration (node : Option Handle)
  | reached (round : UInt32) (states seeds : Nat)
  | eliminated (round : UInt32) (size states : Nat)
  | decided (valid : Bool) (rounds : Nat)
  | searching (remaining : Nat)
  | trying (seed : Handle)
  | cycleFound (node : Option Handle)
  | built (stem loop : Nat)
  | seeded (pass : Pass) (worker count : Nat)
  | done (task : String) (worker stored expanded edges : Nat)
  | failed (task : String) (worker : Nat) (fault : Fault)
  | halted (worker : Nat)
  | forwarded (worker owner : Nat)
deriving DecidableEq

/-- An event as it stands in the log. -/
structure Entry where
  level : Level
  message : String
  values : List (String × Value)
deriving DecidableEq

/-- The text of an optional handle. -/
def handleText (h : Option Handle) : String := Text.optional (h.map Handle.text)

/-- The wording of an event. -/
def Event.entry : Event → Entry
  | .started workers reduction =>
    ⟨.info, "starting OWCTY", [("workers", .number workers), ("por", .truth reduction)]⟩
  | .explored size states transitions =>
    ⟨.info, s!"initialise: |S| = {size}",
      [("states", .number states), ("transitions", .number transitions)]⟩
  | .cycleInExploration node =>
    ⟨.info, "accepting cycle found during exploration", [("cycle_node", .text (handleText node))]⟩
  | .reached round states seeds =>
    ⟨.info, s!"reachability: |S| = {states}",
      [("iteration", .number round.toNat), ("seeds", .number seeds)]⟩
  | .eliminated round size states =>
    ⟨.info, s!"elimination: |S| = {size}",
      [("iteration", .number round.toNat), ("eliminated", .number states)]⟩
  | .decided valid rounds =>
    ⟨.info, "OWCTY done", [("valid", .truth valid), ("iterations", .number rounds)]⟩
  | .searching remaining =>
    ⟨.info, "searching the candidate set for an accepting cycle",
      [("remaining", .number remaining)]⟩
  | .trying seed => ⟨.debug, "trying cycle seed", [("seed", .text seed.text)]⟩
  | .cycleFound node =>
    ⟨.info, "accepting cycle found", [("cycle_node", .text (handleText node))]⟩
  | .built stem loop =>
    ⟨.info, "counterexample built", [("prefix", .number stem), ("cycle", .number loop)]⟩
  | .seeded pass worker count =>
    ⟨.debug, if pass = .reach then "reachability seeds" else "elimination seeds",
      [("worker", .number worker), ("seeds", .number count)]⟩
  | .done task worker stored expanded edges =>
    ⟨.debug, "task done",
      [("worker", .number worker), ("task", .text task), ("stored", .number stored),
        ("expanded", .number expanded), ("edges", .number edges)]⟩
  | .failed task worker fault =>
    ⟨.warn, "task failed",
      [("worker", .number worker), ("task", .text task), ("error", .text fault.message)]⟩
  | .halted worker => ⟨.trace, "local traversal terminated", [("worker", .number worker)]⟩
  | .forwarded worker owner =>
    ⟨.trace, "forwarding edge", [("worker", .number worker), ("owner", .number owner)]⟩

end FairCycle
