/-
# Turns over a terrain

Over a graph that keeps its promises less can happen in a turn than over any graph.
`Worker.Turns` lists what is left of `Worker.Moves` in a pass that goes well: nobody breaks down,
and edges go to the homes of their targets.

The rules take the beginning of a pass and the handling of an edge as given: an `Opening` says
what every worker begins with.
-/
import FairCycle.Proofs.Moves
import FairCycle.Proofs.Steps

namespace FairCycle

variable {N σ : Type} [Ord N]

/-- What the workers begin a pass with. -/
structure Opening (N : Type) [Ord N] where
  /-- The states that each worker starts from. -/
  seeds : Nat → List N
  /-- The desk of each worker once it has begun. -/
  desk : Nat → Desk N
  /-- The slot from which each worker looks for seeds of a search; no pass changes it. -/
  cursor : Nat → Nat

namespace Worker

variable [Std.TransOrd N] [Std.LawfulEqOrd N]

/-- What a turn can do in a pass that goes well. -/
inductive Turns (t : Terrain N σ) (pass : Pass) (o : Opening N) (w : Worker N)
    (k : Commons N σ) (memory : σ) (log : Array Event) : Worker N → Commons N σ → Prop
  | begins (hs : w.stance = .waiting) :
      Turns t pass o w k memory log
        { w with
          desk := o.desk w.id
          queue := w.queue.append ((o.seeds w.id).map Edge.seed)
          stance := .ready }
        { k with memory := memory, log := log }
  | handles {e : Edge N} {q : Queue (Edge N)} {r : Except Stop (Progress N)} {d : Desk N}
      (hs : w.stance = .ready) (hh : w.halted = false) (hq : w.queue.toList = e :: q.toList)
      (hy : Yields (handleEdge (t.task pass) e) w.desk r d) (hr : Regular r)
      (hg : d.ledger.transitions = w.desk.ledger.transitions + (newEdges r).length)
      (ha : k.aborted = false) :
      Turns t pass o w k memory log ({ w with queue := q, desk := d }.taken r)
        { k with memory := memory, log := log, aborted := k.aborted || isFault r }
  | stops (hs : w.stance = .ready) (hh : w.halted = false) (ha : k.aborted = true) :
      Turns t pass o w k memory log (w.halt.go .listening)
        { k with memory := memory, log := log }
  | drains (hs : w.stance = .ready) (hq : w.halted = true ∨ w.queue.toList = []) :
      Turns t pass o w k memory log (w.go .listening) { k with memory := memory, log := log }
  | routed {source : Handle} (hs : w.stance = .routing source []) :
      Turns t pass o w k memory log (w.go .ready) { k with memory := memory, log := log }
  | keeps {source : Handle} {v : N} {rest : List N} (hs : w.stance = .routing source (v :: rest))
      (hv : t.home v = w.id) :
      Turns t pass o w k memory log
        { w with queue := w.queue.push ⟨some source, v⟩, stance := .routing source rest }
        { k with memory := memory, log := log }
  | addresses {source : Handle} {v : N} {rest : List N}
      (hs : w.stance = .routing source (v :: rest)) (hv : t.home v ≠ w.id) :
      Turns t pass o w k memory log (w.go (.posting (t.home v) ⟨source, v⟩ rest))
        { k.count with memory := memory, log := log }
  | posts {receiver : Nat} {l : Letter N} {rest : List N}
      (hs : w.stance = .posting receiver l rest) :
      Turns t pass o w k memory log (w.go (.routing l.source rest))
        { k.deliver receiver l with memory := memory, log := log }
  | receives {l : Letter N} {older newer : List (Letter N)} {q : Queue (Letter N)}
      (hs : w.stance = .listening ∨ w.stance = .dozing)
      (hq : w.inbox k = older ++ l :: newer) (hq' : q.toList = older ++ newer) :
      Turns t pass o w k memory log (w.go (.holding l))
        { k with memory := memory, log := log, inboxes := k.inboxes.setIfInBounds w.id q }
  | rests (hs : w.stance = .listening) (hq : w.inbox k = []) :
      Turns t pass o w k memory log (w.go .resting) { k with memory := memory, log := log }
  | wakes (hs : w.stance = .dozing) (hq : w.inbox k = []) :
      Turns t pass o w k memory log (w.go .ready) { k with memory := memory, log := log }
  | holds {l : Letter N} (hs : w.stance = .holding l) :
      Turns t pass o w k memory log { w with active := true, stance := .queueing l }
        { k with
          memory := memory
          log := log
          pending := if w.active then k.pending else k.pending + 1 }
  | queues {l : Letter N} (hs : w.stance = .queueing l) :
      Turns t pass o w k memory log
        { w with
          queue := if w.halted then w.queue else w.queue.push l.edge
          stance := .ready }
        { k.settle with memory := memory, log := log }
  | settles (hs : w.stance = .resting) :
      Turns t pass o w k memory log { w with active := false, stance := .testing }
        { k with
          memory := memory
          log := log
          pending := if w.active then k.pending - 1 else k.pending }
  | quits (hs : w.stance = .testing) (hk : k.pending = 0) :
      Turns t pass o w k memory log (w.go .leaving) { k with memory := memory, log := log }
  | dozes (hs : w.stance = .testing) (hk : k.pending ≠ 0) :
      Turns t pass o w k memory log (w.go .dozing) { k with memory := memory, log := log }
  | leaves (hs : w.stance = .leaving) :
      Turns t pass o w k memory log (w.go .gone)
        { k with memory := memory, log := log, reports := k.reports.push w.id }
  | stays (hs : w.stance = .gone) :
      Turns t pass o w k memory log w { k with memory := memory, log := log }

/-! ## A turn does one of these things -/

variable {t : Terrain N σ} {pass : Pass} {o : Opening N} {w : Worker N} {k : Commons N σ}

/-- Whatever a turn is, it is one of the listed things with some memory and log. -/
def DoesTurn (t : Terrain N σ) (pass : Pass) (o : Opening N) (w : Worker N) (k : Commons N σ)
    (after : Worker N × Commons N σ) : Prop :=
  ∃ memory log, Moves (t.task pass) w k memory log after.1 after.2 ∧
    Turns t pass o w k memory log after.1 after.2

/-- **A turn does one of the listed things**, provided the worker is not lost, can begin, and
handles what it may have to handle. -/
theorem turn_turns (pick : Nat) (hlost : w.stance ≠ .lost) (hk : k.lost = none)
    (hp : w.desk.table.peers = t.peers)
    (hbegin : w.stance = .waiting →
      Yields (pass.start t.graph) w.desk (.ok (o.seeds w.id)) (o.desk w.id))
    (hy : w.stance = .ready → w.halted = false → ∀ e q, w.queue.toList = e :: q →
      ∃ r d, Yields (handleEdge (t.task pass) e) w.desk r d ∧ Regular r ∧
        d.ledger.transitions = w.desk.ledger.transitions + (newEdges r).length) :
    DoesTurn t pass o w k (w.turn (t.task pass) pick k) := by
  obtain ⟨memory, log, h⟩ := turn_moves (t.task pass) pick w k
  have howner : ∀ v,
      owner ((t.task pass).graph.hash v k.memory).1 w.desk.table.peers = t.home v := fun v => by
    rw [hp]
    exact congrArg (owner · t.peers) (t.promise.hash_eq v k.memory)
  have hquiet : k.isQuiet = decide (k.pending = 0) := by
    rw [Commons.isQuiet, hk, Option.isSome_none, Bool.or_false]
    rfl
  refine ⟨memory, log, h, ?_⟩
  generalize w.turn (t.task pass) pick k = after at h ⊢
  obtain ⟨w', k'⟩ := after
  cases h with
  | begins hs hrun =>
    obtain ⟨hseeds, rfl⟩ := (hbegin hs).eq_of_run hrun
    obtain rfl := Except.ok.inj hseeds
    exact .begins hs
  | fails hs hrun => exact absurd ((hbegin hs).eq_of_run hrun).1 (by simp)
  | handles hs hh ha hq hr hrun =>
    obtain ⟨r, d, hy, hr, hg⟩ := hy hs hh _ _ hq
    obtain ⟨rfl, rfl⟩ := hy.eq_of_run hrun
    exact .handles hs hh hq hy hr hg ha
  | breaks hs hh hq hr hrun =>
    obtain ⟨r, d, hy, hregular, -⟩ := hy hs hh _ _ hq
    exact absurd ((hy.eq_of_run hrun).1 ▸ hregular) hr
  | stops hs hh ha => exact .stops hs hh ha
  | drains hs hq => exact .drains hs hq
  | routed hs => exact .routed hs
  | keeps hs hv => exact .keeps hs (howner _ ▸ hv)
  | @addresses source v rest hs hv =>
    rw [howner v] at hv ⊢
    exact .addresses hs hv
  | posts hs => exact .posts hs
  | receives hs hq hq' => exact .receives hs hq hq'
  | rests hs hq => exact .rests hs hq
  | wakes hs hq => exact .wakes hs hq
  | holds hs => exact .holds hs
  | queues hs => exact .queues hs
  | settles hs => exact .settles hs
  | quits hs hz => exact .quits hs (of_decide_eq_true (hquiet ▸ hz))
  | dozes hs hz => exact .dozes hs (of_decide_eq_false (hquiet ▸ hz))
  | leaves hs => exact .leaves hs
  | stays hs => exact .stays (hs.resolve_right hlost)

end Worker

end FairCycle
