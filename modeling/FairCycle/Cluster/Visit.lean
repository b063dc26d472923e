/-
# The rules of the passes

A worker takes edges off its queue one by one.  The rule of the pass says what to do with an edge
(`Pass.onEdge`), given the state it comes from, the stored state it leads to, and whether that
state is stored only now; seeds queued by the pass itself come from nowhere.

| `Action`    | what happens                                          |
|-------------|-------------------------------------------------------|
| `expand`    | the successors are generated, known state or not      |
| `follow`    | the successors are generated if the state is new      |
| `forget`    | nothing                                               |
| `terminate` | this worker stops for the rest of the pass            |

Before the successors of a state are generated the pass notes that it does so (`Pass.onState`).

The rules are the visitors of the checker, `Initialise`, `Reachability`, `Elimination`, `FindCycle`
and `TraceCycle`: `Pass.onEdge` is their `transition`, which answers with a `TransitionAction`, and
`Pass.onState` their `expansion`.  `handOn` is `propagate_map`, and a rank is given by `map_id`.
-/
import FairCycle.Cluster.Desk
import FairCycle.Pass

namespace FairCycle

open Desk StepM

/-- What to do with an edge. -/
inductive Action where
  | expand
  | follow
  | forget
  | terminate
deriving DecidableEq

variable {N σ : Type} [Ord N]

/-! ## 1. Exploration -/

/-- The rank of a state; running out of ranks breaks the worker down. -/
def rank (h : Handle) : DeskM N UInt32 :=
  match h.rank? with
  | some rank => pure rank
  | none => throw .crash

/-- The largest rank of an accepting state among a state and its known ancestors. -/
def carriedRank (source : Handle) : DeskM N UInt32 := do
  let m ← mark source
  if m.inF then return max m.ancestor (← rank source) else return m.ancestor

/-- Hand the largest rank of an accepting ancestor on along an edge.  Gives whether an accepting
state has got its own rank back, and so lies on a cycle. -/
def handOn (source target : Handle) : DeskM N Bool := do
  let carried ← carriedRank source
  if carried = 0 then return false
  else
    let m ← mark target
    let back ← if m.inF then (· == carried) <$> rank target else pure false
    if back then return true
    else
      if m.ancestor < carried then setMark target (m.setAncestor carried)
      return false

/-- Exploration notes the first parent of a state and looks out for accepting cycles: a loop at
an accepting state, and with a single worker also a rank that comes back. -/
def exploreEdge (source : Option Handle) (target : Handle) (fresh : Bool) : DeskM N Action :=
  match source with
  | none => do
    note fun l => { l with chase := { l.chase with initial := some target } }
    return .follow
  | some source => do
    if fresh then updateMark target (·.setParentOnce source)
    let loop ← if source = target then (·.inF) <$> mark target else pure false
    let found ←
      if loop then pure true
      else if (← get).table.peers = 1 then handOn source target
      else pure false
    if found then
      note (·.recordCycle target)
      return .terminate
    else return .follow

/-- An expanded state is a candidate if it is accepting. -/
def noteAcceptance (state : Handle) (accepting : Bool) : DeskM N Unit := do
  updateMark state fun m => (m.setInF accepting).setInS accepting
  if accepting then note fun l => { l with size := l.size + 1 }

/-! ## 2. Reachability and elimination -/

/-- Reachability counts the edge, takes its target in, and goes on from it once in a round. -/
def reachEdge (source : Option Handle) (target : Handle) (fresh : Bool) : DeskM N Action :=
  match source with
  | none => pure .expand
  | some _ => do
    let round := (← get).ledger.round
    let m ← orFault ((← mark target).countUp target)
    let m := m.setInS true
    if !fresh && m.visitedIn round then
      setMark target m
      return .forget
    else
      setMark target (m.setIteration round)
      return .expand

/-- Elimination takes the edge back and goes on from its target when none is left. -/
def eliminateEdge (source : Option Handle) (target : Handle) : DeskM N Action :=
  match source with
  | none => pure .expand
  | some _ => do
    let m ← orFault ((← mark target).countDown target)
    setMark target m
    return if m.predecessors = 0 then .expand else .forget

/-- An eliminated state leaves the candidate set; accepting ones are counted. -/
def noteElimination (state : Handle) : DeskM N Unit := do
  let m ← mark state
  setMark state (m.setInS false)
  if m.inF then note fun l => { l with size := l.size + 1 }

/-! ## 3. Reconstruction of a cycle -/

/-- The search for a cycle goes through candidates only, enters each once, and ends when it is
back at the seed. -/
def searchEdge (source : Option Handle) (target : Handle) (fresh : Bool) : DeskM N Action :=
  match source with
  | none => do
    let _ ← enter target
    return .expand
  | some _ => do
    if (← get).ledger.chase.seed = some target then
      note (·.recordCycle target)
      return .terminate
    else if fresh then return .forget
    else if !(← mark target).inS then return .forget
    else if ← enter target then return .expand
    else return .forget

/-- The trace gives every state that it meets for the first time a new parent, and ends when the
cycle state gets one. -/
def traceEdge (source : Option Handle) (target : Handle) (fresh : Bool) : DeskM N Action := do
  let ledger := (← get).ledger
  match source with
  | none =>
    updateMark target (·.setIteration ledger.round)
    return .expand
  | some source =>
    let m ← mark target
    if ledger.cycleNode = some target then
      setMark target (m.replaceParent source)
      return .terminate
    else if !fresh && m.visitedIn ledger.round then return .forget
    else
      setMark target ((m.setIteration ledger.round).replaceParent source)
      return .expand

/-! ## 4. The rules by pass -/

/-- What a pass does with an edge. -/
def Pass.onEdge (pass : Pass) (source : Option Handle) (target : Handle) (fresh : Bool) :
    DeskM N Action :=
  match pass with
  | .explore => exploreEdge source target fresh
  | .reset => pure .forget
  | .reach => reachEdge source target fresh
  | .eliminate => eliminateEdge source target
  | .search => searchEdge source target fresh
  | .trace => traceEdge source target fresh

/-- What a pass notes of a state whose successors are about to be generated. -/
def Pass.onState (pass : Pass) (g : Graph N σ) (state : Handle) : StepM N σ Unit :=
  match pass with
  | .explore => do
    let accepting ← demand (g.accepting (← atDesk (node state)))
    atDesk (noteAcceptance state accepting)
  | .eliminate => atDesk (noteElimination state)
  | .reset | .reach | .search | .trace => pure ()

/-- The state behind a handle, if the handle is one of this desk. -/
def ownNode (h : Option Handle) : DeskM N (List N) := do
  match h with
  | none => return []
  | some h =>
    if h.worker.toNat = (← get).table.worker then return [← node h] else return []

/-- The states of this desk whose marks have a property, in slot order. -/
def nodesWhere (p : Mark → Bool) : DeskM N (List N) := do
  return ((← get).table.entries.filter (p ·.2)).map Prod.fst

/-- What a pass does before its first edge, and the states that it starts from. -/
def Pass.start (pass : Pass) (g : Graph N σ) : StepM N σ (List N) :=
  match pass with
  | .explore => do
    let hash ← ask (g.hash g.initial)
    if (← atDesk get).table.owns hash then return [g.initial] else return []
  | .reset => atDesk do
    modify fun d => { d with table := d.table.mapMarks (·.startRound d.ledger.round) }
    let seeds ← nodesWhere Mark.isSeed
    note fun l => { l with size := seeds.length }
    return []
  | .reach => atDesk do
    let seeds ← nodesWhere Mark.isSeed
    note fun l => { l with size := seeds.length }
    return seeds
  | .eliminate => atDesk (nodesWhere fun m => m.inS && m.predecessors == 0)
  | .search => atDesk do
    modify fun d => { d with entered := ∅ }
    ownNode (← get).ledger.chase.seed
  | .trace => atDesk do ownNode (← get).ledger.cycleNode

end FairCycle
