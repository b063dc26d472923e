/-
# Supersteps

A `Cluster` is the workers with what they share.  In a superstep all workers work on one pass at
once, taking turns in an order that nobody controls (`Cluster.drive`), until each of them has
come to the end.

The order of turns is a parameter, so that a statement about all orders is one about all functions
`Nat → Turn`.  `Turn.roundRobin` is the order in which workers come one after the other and take
their letters in the order of arrival.

In the checker a cluster is a `WorkerPool`, and a superstep is its `run`.
-/
import FairCycle.Cluster.Worker

namespace FairCycle

/-! ## 1. Turns -/

/-- Who takes a turn, and which sender's letter is taken in it, should one be. -/
structure Turn where
  worker : Nat
  pick : Nat := 0
deriving DecidableEq

/-- The workers come one after the other and take the oldest letter. -/
def Turn.roundRobin (time : Nat) : Turn := ⟨time, 0⟩

/-! ## 2. Clusters -/

/-- The workers and what they share. -/
structure Cluster (N σ : Type) [Ord N] where
  workers : Array (Worker N)
  commons : Commons N σ

namespace Cluster

variable {N σ : Type} [Ord N]

/-- A cluster of workers with empty tables. -/
def create [Std.TransOrd N] (peers : Nat) (memory : σ) : Cluster N σ where
  workers := Array.ofFn (n := peers) fun i => { id := i, desk := { table := .empty i peers } }
  commons := { memory := memory, inboxes := Array.replicate peers {} }

/-- The workers' tables. -/
def tables (c : Cluster N σ) : List (Table N) := c.workers.toList.map (·.desk.table)

/-- Write an event in the log. -/
def record (c : Cluster N σ) (e : Event) : Cluster N σ := { c with commons := c.commons.record e }

/-! ## 3. Supersteps -/

/-- Get ready for a superstep: all workers are active and have a fresh copy of the ledger. -/
def arm (c : Cluster N σ) (ledger : Ledger N) : Cluster N σ where
  workers := c.workers.map fun w =>
    { w with
      desk := { w.desk with ledger := ledger.share }
      stance := .waiting
      active := true
      halted := false
      fault := none }
  commons := { c.commons with pending := c.workers.size, aborted := false, reports := #[] }

/-- Whether every worker has come to the end of the superstep. -/
def isSettled (c : Cluster N σ) : Bool := c.workers.all (·.stance.isFinal)

/-- A worker without states, to stand in for one that is away. -/
def standIn [Std.TransOrd N] : Worker N := { id := 0, desk := { table := .empty 0 0 } }

/-- Take a worker out of its place and leave a stand-in there.  Nothing else refers to the worker
then, so that it can change its table in place; for that this has to stay a call of its own. -/
@[noinline] def takeOut [Std.TransOrd N] (workers : Array (Worker N)) (id : Nat)
    (h : id < workers.size) : Worker N × Array (Worker N) :=
  (workers[id], workers.set id standIn)

/-- One turn of one worker; the workers are counted around. -/
def turn [Std.TransOrd N] [Std.LawfulEqOrd N] (task : Task N σ) (turn : Turn) :
    Cluster N σ → Cluster N σ
  | ⟨workers, commons⟩ =>
    if h : turn.worker % workers.size < workers.size then
      let (w, others) := takeOut workers (turn.worker % workers.size) h
      let (w, commons) := w.turn task turn.pick commons
      ⟨others.setIfInBounds (turn.worker % workers.size) w, commons⟩
    else ⟨workers, commons⟩

/-- A turn replaces the worker that takes it, and nothing else among the workers. -/
theorem turn_eq [Std.TransOrd N] [Std.LawfulEqOrd N] (task : Task N σ) (turn : Turn)
    (c : Cluster N σ) :
    c.turn task turn =
      match c.workers[turn.worker % c.workers.size]? with
      | none => c
      | some w =>
        ⟨c.workers.setIfInBounds (turn.worker % c.workers.size)
            (w.turn task turn.pick c.commons).1,
          (w.turn task turn.pick c.commons).2⟩ := by
  obtain ⟨workers, commons⟩ := c
  by_cases h : turn.worker % workers.size < workers.size
  · simp [Cluster.turn, takeOut, h, Array.setIfInBounds]
    rfl
  · simp [Cluster.turn, h]

/-- Give the workers turns until all have come to the end of the superstep.  `left` is the number
of turns there are, `time` the number of those taken before. -/
def drive [Std.TransOrd N] [Std.LawfulEqOrd N] (task : Task N σ) (turns : Nat → Turn) :
    (left time : Nat) → Cluster N σ → Nat × Nat × Cluster N σ
  | 0, time, c => (0, time, c)
  | left + 1, time, c =>
    if c.isSettled then (left + 1, time, c)
    else drive task turns left (time + 1) (c.turn task (turns time))

/-- The fault reported first in this superstep. -/
def firstFault (c : Cluster N σ) : Option Fault :=
  c.commons.reports.toList.findSome? fun id => c.workers[id]?.bind (·.fault)

/-- The workers' copies of the ledger. -/
def parts (c : Cluster N σ) : List (Ledger N) := c.workers.toList.map (·.desk.ledger)

end Cluster

end FairCycle
