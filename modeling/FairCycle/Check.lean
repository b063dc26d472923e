/-
# Checking for accepting cycles

`check` decides whether a graph has an accepting cycle that can be reached from its initial state.
It keeps a set of candidates, states that may still lie on such a cycle, and shrinks it:

* **explore** goes through the reachable states once; the candidates are the accepting ones;
* a **round** resets the set to its accepting states, takes in everything they reach, counting
  for every candidate its predecessors in the set, and then eliminates, one after the other, the
  candidates without any;
* rounds follow each other until the number of accepting candidates no longer changes.

The property holds exactly when none is left.  The exploration may also run into a cycle itself:
then there are no rounds.  Otherwise, if a counterexample is wanted, a **search** tries the
accepting candidates one by one until it finds a way from one back to itself.  The **stem** of
the lasso is read off the first parents of the states, backwards from the cycle state; for its
**loop** a trace from the cycle state gives new parents to what it meets until it comes back.

In the checker the run is that of a `Driver`: `initialise` (`explore`), `reset`, `reachability`
(`reach`), `elimination` (`eliminate`) and the loop around them in `run`; the counterexample is made
by `build` with `find_cycle`, `linear` (`stem`), `lasso` (`loop`), `parent_trace` (`chain`) and
`successor_num`.  `checkInTurns` is `check_partitions` with the order of turns laid open.
-/
import FairCycle.Cluster.Ring
import FairCycle.Config
import FairCycle.Report

namespace FairCycle

/-! ## 1. Runs -/

/-- What a run is about. -/
structure Plan (N σ : Type) where
  graph : Graph N σ
  config : Config
  /-- The order in which workers take turns. -/
  turns : Nat → Turn

/-- The state of a run, as the master sees it. -/
structure Run (N σ : Type) [Ord N] where
  cluster : Cluster N σ
  ledger : Ledger N := {}
  /-- The edges generated in all supersteps; no chain of parents is longer.  Like the counters of
  the ledger this is a number without a bound, where the checker has a word (`explored_edges`). -/
  generated : Nat := 0
  /-- The number of turns taken. -/
  time : Nat := 0
  /-- The number of turns left. -/
  left : Nat

/-- Computations of the master. -/
abbrev RunM (N σ : Type) [Ord N] := ExceptT Stop (StateM (Run N σ))

namespace RunM

variable {N σ α : Type} [Ord N]

/-- Write an event in the log. -/
def record (e : Event) : RunM N σ Unit :=
  modify fun r => { r with cluster := r.cluster.record e }

/-- Write in the ledger. -/
def note (f : Ledger N → Ledger N) : RunM N σ Unit :=
  modify fun r => { r with ledger := f r.ledger }

/-- The ledger. -/
def ledger : RunM N σ (Ledger N) := return (← get).ledger

/-- End with a fault. -/
def fail (fault : Fault) : RunM N σ α := throw (.fault fault)

/-- Ask the graph for something that it may fail to give. -/
def demand (question : StateM σ (Option α)) : RunM N σ α := do
  let answer ← modifyGet fun r =>
    let (answer, memory) := question r.cluster.commons.memory
    let commons := { r.cluster.commons with memory := memory }
    (answer, { r with cluster := { r.cluster with commons := commons } })
  match answer with
  | some a => return a
  | none => throw .crash

end RunM

namespace Check

open RunM

variable {N σ : Type} [Ord N]

/-! ## 2. Driving the workers -/

section Driving

variable [Std.TransOrd N] [Std.LawfulEqOrd N]

/-- Let the workers go through a pass. -/
def driveWorkers (plan : Plan N σ) (pass : Pass) (r : Run N σ) : Run N σ :=
  let task : Task N σ := ⟨plan.graph, plan.config.reduction, pass⟩
  let (left, time, cluster) := (r.cluster.arm r.ledger).drive task plan.turns r.left r.time
  { r with cluster := cluster, time := time, left := left }

/-- The master's ledger after a pass. -/
def collect (r : Run N σ) : Run N σ :=
  let ledger := r.ledger.reduce r.cluster.parts
  { r with ledger := ledger, generated := r.generated + ledger.transitions }

/-- A superstep.  A worker that broke down outweighs faults, and of several faults the one
reported first counts. -/
def superstep (plan : Plan N σ) (pass : Pass) : RunM N σ Unit := do
  modify (driveWorkers plan pass)
  let cluster := (← get).cluster
  if !cluster.isSettled then throw .outOfTurns
  match cluster.commons.lost, cluster.firstFault with
  | some worker, _ => fail (.workerLost worker)
  | none, some fault => fail fault
  | none, none => modify collect

end Driving

/-- Send the ledger around the ring. -/
def ring (errand : Errand) : RunM N σ Unit := do
  let result ← modifyGet fun r =>
    let (result, cluster) := r.cluster.ring errand r.ledger
    (result, { r with cluster := cluster })
  match result with
  | .ok ledger => note fun _ => ledger
  | .error stop => throw stop

/-! ## 3. The verdict -/

section Verdict

variable [Std.TransOrd N] [Std.LawfulEqOrd N]

/-- Explore the graph.  Gives the figures of the exploration. -/
def explore (plan : Plan N σ) : RunM N σ Stats := do
  superstep plan .explore
  let l ← ledger
  record (.explored l.size l.states l.transitions)
  if l.cycleFound then record (.cycleInExploration l.cycleNode)
  return { states := l.states, transitions := l.transitions, accepting := l.size }

/-- Reset the candidates to the accepting ones; there are as many as before. -/
def reset (plan : Plan N σ) : RunM N σ Unit := do
  superstep plan .reset
  let l ← ledger
  if l.size ≠ l.oldSize then throw .crash

/-- Take in what the accepting candidates reach. -/
def reach (plan : Plan N σ) : RunM N σ Unit := do
  superstep plan .reach
  let l ← ledger
  record (.reached l.round l.states l.size)

/-- Eliminate candidates without predecessors.  Leaves the number of accepting ones that
remain. -/
def eliminate (plan : Plan N σ) : RunM N σ Unit := do
  let accepting := (← ledger).size
  superstep plan .eliminate
  let l ← ledger
  if accepting < l.size then fail (.eliminationOverflow l.size accepting)
  let remaining := accepting - l.size
  note fun l => { l with size := remaining }
  record (.eliminated l.round remaining l.states)

/-- One round. -/
def round (plan : Plan N σ) : RunM N σ Unit := do
  note fun l => { l with round := l.round + 1, oldSize := l.size }
  reset plan
  reach plan
  eliminate plan

/-- Rounds, until a round changes nothing or there is nothing left to change.  Gives their
number.  Every round but the last takes an accepting candidate away, so there are at most as many
as there were accepting candidates: `bound`. -/
def rounds (plan : Plan N σ) : (bound : Nat) → RunM N σ Nat
  | 0 => return 0
  | bound + 1 => do
    let l ← ledger
    if l.cycleFound || l.size == 0 then return 0
    else
      round plan
      let l ← ledger
      if l.oldSize = l.size then return 1 else return (← rounds plan bound) + 1

end Verdict

/-! ## 4. The counterexample -/

/-- Follow one parent.  Gives the state that the chase was at and the handle of its parent. -/
def hop (current : Handle) : RunM N σ (N × Option Handle) := do
  note fun l =>
    { l with chase := { l.chase with current := some current, moved := false, node := none } }
  ring .hop
  let chase := (← ledger).chase
  match chase.moved, chase.node with
  | true, some node =>
    note fun l => { l with chase := { l.chase with node := none } }
    return (node, chase.current)
  | _, _ => fail (.brokenParentChain current)

/-- Follow parents from a state up to `stop`, over at most `left` further states, and put the
states in front of those passed already.  A closed chase does not stop at the first state. -/
def chase (stop : Handle) (closed : Bool) (left : Nat) (current : Handle) (passed : List N) :
    RunM N σ (List N) := do
  let (node, parent) ← hop current
  if current = stop ∧ (closed = false ∨ passed ≠ []) then return node :: passed
  else
    match left, parent with
    | left + 1, some parent => chase stop closed left parent (node :: passed)
    | _, _ => fail (.brokenParentChain current)
termination_by structural left

/-- The states on the chain of parents from a state up to `stop`, in the order of the edges. -/
def chain (start stop : Handle) (closed : Bool) : RunM N σ (List N) := do
  chase stop closed ((← get).generated + 2) start []

/-- The state that the counterexample turns on. -/
def cycleNode : RunM N σ Handle := do
  match (← ledger).cycleNode with
  | some state => return state
  | none => fail .noCounterexample

/-- The path from the initial state to the cycle state. -/
def stem : RunM N σ (List N) := do
  let goal ← cycleNode
  match (← ledger).chase.initial with
  | some initial => chain goal initial false
  | none => fail (.brokenParentChain goal)

/-- The place of a state among the successors of another, counted from one. -/
def successorNumber [DecidableEq N] (g : Graph N σ) (source target : N) : RunM N σ Nat := do
  match (← demand (g.successors source)).idxOf? target with
  | some place => return place + 1
  | none => fail (.trailMismatch (g.describe source) (g.describe target))

section Counterexample

variable [Std.TransOrd N] [Std.LawfulEqOrd N]

/-- Try accepting candidates one after the other until a cycle through one is found.  No
candidate is tried twice, so `bound`, one more than the states stored, is never used up. -/
def search (plan : Plan N σ) (remaining : Nat) : (bound : Nat) → RunM N σ Unit
  | 0 => fail (.missingCycle remaining)
  | bound + 1 => do
    note fun l => { l with chase := { l.chase with seed := none } }
    ring .pickSeed
    match (← ledger).chase.seed with
    | none => fail (.missingCycle remaining)
    | some seed =>
      record (.trying seed)
      superstep plan .search
      let l ← ledger
      if l.cycleFound then record (.cycleFound l.cycleNode)
      else search plan remaining bound

/-- Find a cycle through one of the accepting candidates that are left. -/
def findCycle (plan : Plan N σ) : RunM N σ Unit := do
  let remaining := (← ledger).size
  if remaining = 0 then fail .noCounterexample
  record (.searching remaining)
  search plan remaining (((← get).cluster.tables.map Table.size).foldl (· + ·) 0 + 1)

/-- The cycle, from the cycle state back to itself. -/
def loop (plan : Plan N σ) : RunM N σ (List N) := do
  let goal ← cycleNode
  note fun l => { l with round := l.round + 1 }
  superstep plan .trace
  chain goal goal true

/-- Build the counterexample of a run whose property fails. -/
def counterexample [DecidableEq N] (plan : Plan N σ) : RunM N σ (Lasso N) := do
  if !(← ledger).cycleFound then findCycle plan
  let stem := (← stem).dropLast
  let loop ← loop plan
  let states := stem ++ loop
  let trail ← (states.zip states.tail).mapM fun (source, target) =>
    successorNumber plan.graph source target
  record (.built stem.length (loop.length - 1))
  return ⟨stem, loop, trail⟩

/-! ## 5. The whole check -/

/-- The run of a check. -/
def run [DecidableEq N] (plan : Plan N σ) : RunM N σ (Report N) := do
  record (.started plan.config.peers plan.config.reduction)
  let stats ← explore plan
  let rounds ← rounds plan (← ledger).size
  let l ← ledger
  let valid := !l.cycleFound && l.size == 0
  record (.decided valid rounds)
  let lasso ←
    if !valid && plan.config.counterexample then some <$> counterexample plan else pure none
  let perWorker := (← get).cluster.tables.map Table.size
  return {
    outcome := {
      holds := .ofBool valid
      explored := .ofBool !l.cycleFound
      evidence := if lasso.isSome then .cycle else .none
      stats := { stats with rounds := rounds, perWorker := perWorker } }
    lasso := lasso }

end Counterexample

end Check

/-- Check a graph, the workers taking turns in a given order and at most `limit` of them.  Gives
the report, or why there is none, and the state that the run ended in. -/
def checkInTurns {N σ : Type} [Ord N] [Std.TransOrd N] [Std.LawfulEqOrd N] [DecidableEq N]
    (graph : Graph N σ) (config : Config) (turns : Nat → Turn) (limit : Nat) (memory : σ) :
    Except Stop (Report N) × Run N σ :=
  Check.run ⟨graph, config, turns⟩
    { cluster := .create config.peers memory, left := limit }

/-- Check a graph, the workers taking turns one after the other. -/
def check {N σ : Type} [Ord N] [Std.TransOrd N] [Std.LawfulEqOrd N] [DecidableEq N]
    (graph : Graph N σ) (config : Config) (memory : σ) : Except Stop (Report N) × Run N σ :=
  checkInTurns graph config Turn.roundRobin (Nat.pow 2 62) memory

end FairCycle
