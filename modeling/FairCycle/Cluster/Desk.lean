/-
# A worker's desk

While it handles an edge a worker touches its own table, its copy of the ledger, and the set of
states that the current cycle search has entered: its `Desk`.  A rule of a pass is a computation
over the desk that may stop early (`DeskM`); a step of a worker also asks the graph, and runs over
the desk and the graph's memory (`StepM`).

The desk is what a visitor of the checker gets as its `Context`.
-/
import Std.Data.TreeSet.Basic
import FairCycle.Graph
import FairCycle.Ledger
import FairCycle.Table

namespace FairCycle

/-- What a worker has before it. -/
structure Desk (N : Type) [Ord N] where
  /-- Its part of the state space. -/
  table : Table N
  /-- Its copy of the ledger. -/
  ledger : Ledger N := {}
  /-- The slots of the states that the current cycle search has entered. -/
  entered : Std.TreeSet Nat := ∅

/-- Computations over a desk. -/
abbrev DeskM (N : Type) [Ord N] := ExceptT Stop (StateM (Desk N))

/-- Computations over a desk that may ask the graph. -/
abbrev StepM (N σ : Type) [Ord N] := ExceptT Stop (StateM (Desk N × σ))

namespace Desk

variable {N : Type} [Ord N]

/-- The mark behind a handle, which must lead to a state of this desk's table. -/
def mark (h : Handle) : DeskM N Mark := do
  match (← get).table.mark? h with
  | some m => return m
  | none => throw .crash

/-- The state behind a handle, which must lead to a state of this desk's table. -/
def node (h : Handle) : DeskM N N := do
  match (← get).table.node? h with
  | some n => return n
  | none => throw .crash

/-- Put a mark behind a handle. -/
def setMark (h : Handle) (m : Mark) : DeskM N Unit :=
  modify fun d => { d with table := d.table.setMark h m }

/-- Change the mark behind a handle. -/
def updateMark (h : Handle) (f : Mark → Mark) : DeskM N Unit := do
  setMark h (f (← mark h))

/-- Write in the ledger. -/
def note (f : Ledger N → Ledger N) : DeskM N Unit :=
  modify fun d => { d with ledger := f d.ledger }

/-- The value of a computation that may end in a fault. -/
def orFault {α : Type} : Except Fault α → DeskM N α
  | .ok a => pure a
  | .error fault => throw (.fault fault)

/-- Enter a state in the current cycle search.  Gives whether it had not been entered before. -/
def enter (h : Handle) : DeskM N Bool := do
  if (← get).entered.contains h.slot.toNat then return false
  modify fun d => { d with entered := d.entered.insert h.slot.toNat }
  return true

/-- Store a state with a fingerprint. -/
def store [Std.TransOrd N] [Std.LawfulEqOrd N] (node : N) (hash : UInt64) :
    DeskM N (Handle × Bool) := do
  let found ← modifyGet fun ⟨table, ledger, entered⟩ =>
    let (found, table) := table.store node hash
    (found, ⟨table, ledger, entered⟩)
  orFault found

end Desk

namespace StepM

variable {N σ α : Type} [Ord N]

/-- Ask the graph. -/
def ask (question : StateM σ α) : StepM N σ α :=
  modifyGet fun (desk, memory) =>
    let (answer, memory) := question memory
    (answer, (desk, memory))

/-- Ask the graph for something that it may fail to give. -/
def demand (question : StateM σ (Option α)) : StepM N σ α := do
  match ← ask question with
  | some answer => return answer
  | none => throw .crash

/-- Work at the desk. -/
def atDesk (work : DeskM N α) : StepM N σ α := fun (desk, memory) =>
  let (result, desk) := work desk
  (result, (desk, memory))

end StepM

end FairCycle
