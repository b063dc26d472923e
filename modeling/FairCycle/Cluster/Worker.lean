/-
# Workers

In a pass every worker works through its own queue, sends edges whose targets belong to others to
their owners, and takes in what others send.  The pass is over when nobody has anything left to
do.  To know that, the workers share one counter, the active workers plus the letters on their
way: a letter is counted before it is sent and uncounted after it is queued, and a worker that
takes a letter while it is idle counts itself active first.

A worker's loop is cut into turns (`Worker.turn`) with at most one access to what the workers
share in each, so that a pass is a sequence of turns in whatever order the workers come to take
them.  Where a worker stands in its loop is its `Stance`:

    waiting   has not begun the pass
    ready     at the head of the loop: takes an edge off the queue, if it may and there is one
    routing   hands the successors of a state out, one a turn
    posting   has counted a letter and is about to send it
    listening looks into its inbox
    holding   has taken a letter: counts itself active if it is not
    queueing  queues the letter and uncounts it
    resting   found the inbox empty: uncounts itself if it is active
    testing   reads whether all is quiet
    dozing    waits a little for a letter
    leaving   saw that all is quiet: reports
    gone      has reported
    lost      broke down

The turns cut up what the checker does in `traverse`, with `step` (`handleEdge`), `expand`
(`expandState`, `route`) and `accept` (`holding`, `queueing`).  The commons are its `Termination`
and the inboxes of its `Mailbox`; a letter is an `Envelope`.
-/
import FairCycle.Cluster.Visit
import FairCycle.Event
import FairCycle.Queue

namespace FairCycle

open StepM

/-! ## 1. What workers hold and share -/

/-- An edge on its way to the owner of its target. -/
structure Letter (N : Type) where
  source : Handle
  target : N

/-- An edge to be handled; a seed of the pass comes from nowhere. -/
structure Edge (N : Type) where
  source : Option Handle
  target : N

/-- Where a worker stands in its loop. -/
inductive Stance (N : Type) where
  | waiting
  | ready
  | routing (source : Handle) (targets : List N)
  | posting (owner : Nat) (letter : Letter N) (targets : List N)
  | listening
  | holding (letter : Letter N)
  | queueing (letter : Letter N)
  | resting
  | testing
  | dozing
  | leaving
  | gone
  | lost

/-- Whether a worker has come to the end of the pass. -/
def Stance.isFinal {N : Type} : Stance N → Bool
  | .gone | .lost => true
  | _ => false

/-- What the workers share. -/
structure Commons (N σ : Type) where
  /-- The graph's memory. -/
  memory : σ
  /-- The active workers plus the letters on their way: an integer without bounds, where the checker
  has a signed word of the machine's width. -/
  pending : Int := 0
  /-- Whether the pass is to be broken off. -/
  aborted : Bool := false
  /-- The first worker that broke down. -/
  lost : Option Nat := none
  /-- The letters that have arrived, by worker. -/
  inboxes : Array (Queue (Letter N))
  /-- The workers that have reported in this pass, in order. -/
  reports : Array Nat := #[]
  /-- What has happened so far. -/
  log : Array Event := #[]

namespace Commons

variable {N σ : Type}

/-- Whether nobody has anything left to do, or waiting is no use. -/
def isQuiet (c : Commons N σ) : Bool := c.pending == 0 || c.lost.isSome

/-- Count one more active worker or letter. -/
def count (c : Commons N σ) : Commons N σ := { c with pending := c.pending + 1 }

/-- Count one active worker or letter less. -/
def settle (c : Commons N σ) : Commons N σ := { c with pending := c.pending - 1 }

/-- Write an event in the log. -/
def record (c : Commons N σ) (e : Event) : Commons N σ := { c with log := c.log.push e }

/-- Put a letter into a worker's inbox. -/
def deliver (c : Commons N σ) (worker : Nat) (letter : Letter N) : Commons N σ :=
  { c with inboxes := c.inboxes.modify worker (·.push letter) }

/-- Take a letter out of a worker's inbox: the oldest one of some sender.  `pick` says which
sender, by the place of one of its letters. -/
def receive (worker pick : Nat) (c : Commons N σ) : Option (Letter N) × Commons N σ :=
  match (c.inboxes[worker]?.getD {}).popLike? (·.source.worker) pick with
  | none => (none, c)
  | some (letter, inbox) =>
    (some letter, { c with inboxes := c.inboxes.setIfInBounds worker inbox })

/-- Note that a worker broke down; the first one is remembered, and the pass is broken off. -/
def lose (c : Commons N σ) (worker : Nat) : Commons N σ :=
  { c with lost := c.lost <|> some worker, aborted := true }

end Commons

/-- A worker. -/
structure Worker (N : Type) [Ord N] where
  /-- Its number. -/
  id : Nat
  /-- What it has before it. -/
  desk : Desk N
  /-- The edges it has to handle. -/
  queue : Queue (Edge N) := {}
  /-- The first slot that the cycle search has not considered as a seed. -/
  cursor : Nat := 0
  /-- Where it stands in its loop. -/
  stance : Stance N := .gone
  /-- Whether it counts as active. -/
  active : Bool := false
  /-- Whether it drops the rest of the pass. -/
  halted : Bool := false
  /-- The fault it has met. -/
  fault : Option Fault := none

/-- What the workers are to do: a pass over a graph. -/
structure Task (N σ : Type) where
  graph : Graph N σ
  /-- Whether states are expanded by the reduced successor lists. -/
  reduction : Bool
  pass : Pass

/-! ## 2. Handling an edge -/

/-- What comes of handling an edge. -/
inductive Progress (N : Type) where
  /-- On to the next one. -/
  | next
  /-- The rest of the pass is dropped. -/
  | halt
  /-- The successors of a state are to be handed out. -/
  | expand (source : Handle) (targets : List N)

section Handling

variable {N σ : Type} [Ord N]

/-- Generate the successors of a stored state. -/
def expandState (task : Task N σ) (state : Handle) : StepM N σ (Progress N) := do
  task.pass.onState task.graph state
  atDesk (Desk.note fun l => { l with states := l.states + 1 })
  let targets ← demand (task.graph.expand task.reduction (← atDesk (Desk.node state)))
  atDesk (Desk.note fun l => { l with transitions := l.transitions + targets.length })
  return .expand state targets

/-- Handle an edge: store its target, ask the pass what to do with it, and do so. -/
def handleEdge [Std.TransOrd N] [Std.LawfulEqOrd N] (task : Task N σ) (edge : Edge N) :
    StepM N σ (Progress N) := do
  let hash ← ask (task.graph.hash edge.target)
  let (target, fresh) ← atDesk (Desk.store edge.target hash)
  match ← atDesk (task.pass.onEdge edge.source target fresh) with
  | .terminate => return .halt
  | .forget => return .next
  | .follow => if fresh then expandState task target else return .next
  | .expand => expandState task target

end Handling

/-! ## 3. Turns -/

namespace Worker

variable {N σ : Type} [Ord N]

/-- Drop the rest of the pass. -/
def halt (w : Worker N) : Worker N := { w with halted := true, queue := {} }

/-- Go on in the loop. -/
def go (w : Worker N) (stance : Stance N) : Worker N := { w with stance := stance }

/-- Break down. -/
def breakDown (w : Worker N) : StateM (Commons N σ) (Worker N) := do
  modify (·.lose w.id)
  return w.go .lost

/-- Run a step over the desk and the graph's memory. -/
def runStep {α : Type} (w : Worker N) (step : StepM N σ α) :
    StateM (Commons N σ) (Except Stop α × Worker N) :=
  modifyGet fun c =>
    let (result, desk, memory) := step (w.desk, c.memory)
    ((result, { w with desk := desk }), { c with memory := memory })

/-- The events that go with the states a pass starts from. -/
def seedEvents (w : Worker N) (pass : Pass) (seeds : List N) : List Event :=
  match pass with
  | .reach | .eliminate => [.seeded pass w.id seeds.length]
  | _ => []

/-- Begin the pass. -/
def begin (task : Task N σ) (w : Worker N) : StateM (Commons N σ) (Worker N) := do
  match ← w.runStep (task.pass.start task.graph) with
  | (.error _, w) => w.breakDown
  | (.ok seeds, w) =>
    modify fun c => (w.seedEvents task.pass seeds).foldl Commons.record c
    return { w with queue := w.queue.append (seeds.map (⟨none, ·⟩)), stance := .ready }

/-- Take what came of handling an edge. -/
def takeUp (result : Except Stop (Progress N)) (w : Worker N) :
    StateM (Commons N σ) (Worker N) := do
  match result with
  | .ok .next => return w
  | .ok (.expand source targets) => return w.go (.routing source targets)
  | .ok .halt =>
    modify (·.record (.halted w.id))
    return w.halt
  | .error (.fault fault) =>
    modify fun c => { c with aborted := true }
    return { w.halt with fault := some fault }
  | .error .crash | .error .outOfTurns => w.breakDown

/-- The head of the loop: handle the next edge, or look for letters. -/
def proceed [Std.TransOrd N] [Std.LawfulEqOrd N] (task : Task N σ) (w : Worker N) :
    StateM (Commons N σ) (Worker N) := do
  let w := if !w.halted && (← get).aborted then w.halt else w
  match if w.halted then none else w.queue.pop? with
  | none => return w.go .listening
  | some (edge, queue) =>
    let (result, w) ← { w with queue := queue }.runStep (handleEdge task edge)
    takeUp result w

/-- Hand out the next successor: into the worker's own queue, or counted as a letter. -/
def route (task : Task N σ) (source : Handle) (targets : List N) (w : Worker N) :
    StateM (Commons N σ) (Worker N) := do
  match targets with
  | [] => return w.go .ready
  | target :: rest =>
    let hash ← modifyGet fun c =>
      let (hash, memory) := task.graph.hash target c.memory
      (hash, { c with memory := memory })
    let receiver := owner hash w.desk.table.peers
    if receiver = w.id then
      return { w with queue := w.queue.push ⟨some source, target⟩, stance := .routing source rest }
    else
      modify fun c => (c.record (.forwarded w.id receiver)).count
      return w.go (.posting receiver ⟨source, target⟩ rest)

/-- Look into the inbox, and go on to `otherwise` if it is empty. -/
def listen (pick : Nat) (otherwise : Stance N) (w : Worker N) :
    StateM (Commons N σ) (Worker N) := do
  match ← modifyGet (Commons.receive w.id pick) with
  | some letter => return w.go (.holding letter)
  | none => return w.go otherwise

/-- The events of a report. -/
def reportEvents (w : Worker N) (task : String) : List Event :=
  (w.fault.map (Event.failed task w.id)).toList ++
    [.done task w.id w.desk.table.size w.desk.ledger.states w.desk.ledger.transitions]

/-- Report to the master. -/
def report (task : Task N σ) (w : Worker N) : StateM (Commons N σ) (Worker N) := do
  modify fun c => (w.reportEvents task.pass.text).foldl Commons.record
    { c with reports := c.reports.push w.id }
  return w.go .gone

/-- One turn of a worker.  `pick` settles which sender's letter it takes, should it take one. -/
def turn [Std.TransOrd N] [Std.LawfulEqOrd N] (task : Task N σ) (pick : Nat) (w : Worker N) :
    StateM (Commons N σ) (Worker N) := do
  match w.stance with
  | .waiting => w.begin task
  | .ready => w.proceed task
  | .routing source targets => w.route task source targets
  | .posting receiver letter targets =>
    modify (·.deliver receiver letter)
    return w.go (.routing letter.source targets)
  | .listening => w.listen pick .resting
  | .holding letter =>
    if !w.active then modify Commons.count
    return { w with active := true, stance := .queueing letter }
  | .queueing letter =>
    modify Commons.settle
    let queue := if w.halted then w.queue else w.queue.push ⟨some letter.source, letter.target⟩
    return { w with queue := queue, stance := .ready }
  | .resting =>
    if w.active then modify Commons.settle
    return { w with active := false, stance := .testing }
  | .testing => return w.go (if (← get).isQuiet then .leaving else .dozing)
  | .dozing => w.listen pick .ready
  | .leaving => w.report task
  | .gone | .lost => return w

end Worker

end FairCycle
