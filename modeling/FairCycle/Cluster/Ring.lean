/-
# The ring

Some errands need a look at one worker's table only: to find the next candidate that a cycle
search can start from, and to follow one parent.  For these a single ledger goes around the ring,
from the first worker to the last, and each worker does its part of the errand if it has one
(`Cluster.ring`).  No letters are sent, so the order of events is fixed.

These are `ring` of the checker's `WorkerPool`, and `pick_seed` and `parent_trace` of its workers.
-/
import FairCycle.Cluster.Superstep

namespace FairCycle

namespace Worker

variable {N σ : Type} [Ord N]

/-- The first slot, out of `count` from `slot` on, whose mark is that of an accepting candidate. -/
def seedFrom? (marks : Array Mark) : (count slot : Nat) → Option Nat
  | 0, _ => none
  | count + 1, slot =>
    if (marks[slot]?.map Mark.isSeed).getD false then some slot
    else seedFrom? marks count (slot + 1)

/-- Name the next accepting candidate of this worker that was not considered before, unless
another worker has named one. -/
def pickSeed (ledger : Ledger N) (w : Worker N) : Except Stop (Ledger N × Worker N) :=
  if ledger.chase.seed.isSome then .ok (ledger, w)
  else
    match seedFrom? w.desk.table.marks (w.desk.table.size - w.cursor) w.cursor with
    | none => .ok (ledger, { w with cursor := max w.cursor w.desk.table.size })
    | some slot =>
      .ok ({ ledger with chase := { ledger.chase with seed := some (w.desk.table.handle slot) } },
        { w with cursor := slot + 1 })

/-- If the state that the chase has come to is one of this worker's, note it and move the chase
on to its parent. -/
def hop (ledger : Ledger N) (w : Worker N) : Except Stop (Ledger N × Worker N) :=
  match ledger.chase.current with
  | none => .ok (ledger, w)
  | some current =>
    if ledger.chase.moved || current.worker.toNat != w.id then .ok (ledger, w)
    else
      match w.desk.table.node? current, w.desk.table.mark? current with
      | some node, some mark =>
        .ok ({ ledger with
          chase := { ledger.chase with node := some node, current := mark.parent, moved := true } },
          w)
      | _, _ => .error .crash

/-- Run an errand. -/
def run (errand : Errand) (ledger : Ledger N) (w : Worker N) :
    Except Stop (Ledger N × Worker N) :=
  match errand with
  | .pickSeed => w.pickSeed ledger
  | .hop => w.hop ledger

end Worker

namespace Cluster

variable {N σ : Type} [Ord N]

/-- Let one worker run an errand. -/
def visit (errand : Errand) (ledger : Ledger N) (c : Cluster N σ) (id : Nat) :
    Except Stop (Ledger N) × Cluster N σ :=
  match c.workers[id]? with
  | none => (.ok ledger, c)
  | some w =>
    match w.run errand ledger with
    | .error _ => (.error (.fault (.workerLost id)), { c with commons := c.commons.lose id })
    | .ok (ledger, w) =>
      (.ok ledger,
        { workers := c.workers.setIfInBounds id w
          commons := c.commons.record
            (.done errand.text id w.desk.table.size ledger.states ledger.transitions) })

/-- Take a ledger to the workers from `id` on, `count` of them. -/
def ringFrom (errand : Errand) : (count id : Nat) → Ledger N → Cluster N σ →
    Except Stop (Ledger N) × Cluster N σ
  | 0, _, ledger, c => (.ok ledger, c)
  | count + 1, id, ledger, c =>
    match c.visit errand ledger id with
    | (.error stop, c) => (.error stop, c)
    | (.ok ledger, c) => ringFrom errand count (id + 1) ledger c

/-- Take a ledger around the ring, from the first worker to the last. -/
def ring (errand : Errand) (ledger : Ledger N) (c : Cluster N σ) :
    Except Stop (Ledger N) × Cluster N σ :=
  c.ringFrom errand c.workers.size 0 ledger

end Cluster

end FairCycle
