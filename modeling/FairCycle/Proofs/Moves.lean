/-
# What a turn can do

`Worker.Moves` lists what a turn of a worker can do to the worker and to what the workers share,
one rule for every way through the loop, and `Worker.turn_moves` says that a turn does one of these
things.  All that is proved of turns later on is proved rule by rule.

The rules leave open what the graph remembers and what is written in the log.  They hold of every
graph, also of one that answers equal questions differently or breaks a worker down.
-/
import FairCycle.Cluster.Superstep

namespace FairCycle

variable {N σ : Type} [Ord N]

/-- The edge that a letter carries. -/
def Letter.edge (l : Letter N) : Edge N := ⟨some l.source, l.target⟩

/-- A seed as an edge from nowhere. -/
def Edge.seed (v : N) : Edge N := ⟨none, v⟩

/-- The edges from one state. -/
def Edge.from (source : Handle) (targets : List N) : List (Edge N) :=
  targets.map fun v => ⟨some source, v⟩

/-- A result that is no breakdown: handling went well or ended in a fault. -/
def Regular {α : Type} : Except Stop α → Prop
  | .ok _ => True
  | .error (.fault _) => True
  | .error _ => False

/-- Whether a result is a fault. -/
def isFault {α : Type} : Except Stop α → Bool
  | .error (.fault _) => true
  | _ => false

/-- The edges that come of handling an edge. -/
def newEdges : Except Stop (Progress N) → List (Edge N)
  | .ok (.expand source targets) => Edge.from source targets
  | _ => []

omit [Ord N] in
theorem length_newEdges (source : Handle) (targets : List N) :
    (newEdges (.ok (.expand source targets))).length = targets.length :=
  List.length_map _

namespace Worker

/-- A worker after it has taken up what came of handling an edge. -/
def taken (w : Worker N) : Except Stop (Progress N) → Worker N
  | .ok .next => w
  | .ok (.expand source targets) => w.go (.routing source targets)
  | .ok .halt => w.halt
  | .error (.fault fault) => { w.halt with fault := some fault }
  | .error _ => w

/-- The inbox of a worker. -/
def inbox (w : Worker N) (k : Commons N σ) : List (Letter N) :=
  (k.inboxes[w.id]?.getD {}).toList

variable [Std.TransOrd N] [Std.LawfulEqOrd N]

/-- What a turn can do to a worker and to what the workers share. -/
inductive Moves (task : Task N σ) (w : Worker N) (k : Commons N σ) (memory : σ)
    (log : Array Event) : Worker N → Commons N σ → Prop
  | begins {seeds : List N} {d : Desk N} (hs : w.stance = .waiting)
      (hrun : task.pass.start task.graph (w.desk, k.memory) = (.ok seeds, d, memory)) :
      Moves task w k memory log
        { w with desk := d, queue := w.queue.append (seeds.map Edge.seed), stance := .ready }
        { k with memory := memory, log := log }
  | handles {e : Edge N} {q : Queue (Edge N)} {r : Except Stop (Progress N)} {d : Desk N}
      (hs : w.stance = .ready) (hh : w.halted = false) (ha : k.aborted = false)
      (hq : w.queue.toList = e :: q.toList) (hr : Regular r)
      (hrun : handleEdge task e (w.desk, k.memory) = (r, d, memory)) :
      Moves task w k memory log ({ w with queue := q, desk := d }.taken r)
        { k with memory := memory, log := log, aborted := k.aborted || isFault r }
  | fails {stop : Stop} {d : Desk N} (hs : w.stance = .waiting)
      (hrun : task.pass.start task.graph (w.desk, k.memory) = (.error stop, d, memory)) :
      Moves task w k memory log ({ w with desk := d }.go .lost)
        ({ k with memory := memory, log := log }.lose w.id)
  | breaks {e : Edge N} {q : Queue (Edge N)} {r : Except Stop (Progress N)} {d : Desk N}
      (hs : w.stance = .ready) (hh : w.halted = false)
      (hq : w.queue.toList = e :: q.toList) (hr : ¬ Regular r)
      (hrun : handleEdge task e (w.desk, k.memory) = (r, d, memory)) (ha : k.aborted = false) :
      Moves task w k memory log ({ w with queue := q, desk := d }.go .lost)
        ({ k with memory := memory, log := log }.lose w.id)
  | stops (hs : w.stance = .ready) (hh : w.halted = false) (ha : k.aborted = true) :
      Moves task w k memory log (w.halt.go .listening) { k with memory := memory, log := log }
  | drains (hs : w.stance = .ready) (hq : w.halted = true ∨ w.queue.toList = []) :
      Moves task w k memory log (w.go .listening) { k with memory := memory, log := log }
  | routed {source : Handle} (hs : w.stance = .routing source []) :
      Moves task w k memory log (w.go .ready) { k with memory := memory, log := log }
  | keeps {source : Handle} {v : N} {rest : List N} (hs : w.stance = .routing source (v :: rest))
      (hv : owner (task.graph.hash v k.memory).1 w.desk.table.peers = w.id) :
      Moves task w k memory log
        { w with queue := w.queue.push ⟨some source, v⟩, stance := .routing source rest }
        { k with memory := memory, log := log }
  | addresses {source : Handle} {v : N} {rest : List N}
      (hs : w.stance = .routing source (v :: rest))
      (hv : owner (task.graph.hash v k.memory).1 w.desk.table.peers ≠ w.id) :
      Moves task w k memory log
        (w.go (.posting (owner (task.graph.hash v k.memory).1 w.desk.table.peers) ⟨source, v⟩ rest))
        { k.count with memory := memory, log := log }
  | posts {receiver : Nat} {l : Letter N} {rest : List N}
      (hs : w.stance = .posting receiver l rest) :
      Moves task w k memory log (w.go (.routing l.source rest))
        { k.deliver receiver l with memory := memory, log := log }
  | receives {l : Letter N} {older newer : List (Letter N)} {q : Queue (Letter N)}
      (hs : w.stance = .listening ∨ w.stance = .dozing)
      (hq : w.inbox k = older ++ l :: newer) (hq' : q.toList = older ++ newer) :
      Moves task w k memory log (w.go (.holding l))
        { k with memory := memory, log := log, inboxes := k.inboxes.setIfInBounds w.id q }
  | rests (hs : w.stance = .listening) (hq : w.inbox k = []) :
      Moves task w k memory log (w.go .resting) { k with memory := memory, log := log }
  | wakes (hs : w.stance = .dozing) (hq : w.inbox k = []) :
      Moves task w k memory log (w.go .ready) { k with memory := memory, log := log }
  | holds {l : Letter N} (hs : w.stance = .holding l) :
      Moves task w k memory log { w with active := true, stance := .queueing l }
        { k with
          memory := memory
          log := log
          pending := if w.active then k.pending else k.pending + 1 }
  | queues {l : Letter N} (hs : w.stance = .queueing l) :
      Moves task w k memory log
        { w with
          queue := if w.halted then w.queue else w.queue.push l.edge
          stance := .ready }
        { k.settle with memory := memory, log := log }
  | settles (hs : w.stance = .resting) :
      Moves task w k memory log { w with active := false, stance := .testing }
        { k with
          memory := memory
          log := log
          pending := if w.active then k.pending - 1 else k.pending }
  | quits (hs : w.stance = .testing) (hk : k.isQuiet = true) :
      Moves task w k memory log (w.go .leaving) { k with memory := memory, log := log }
  | dozes (hs : w.stance = .testing) (hk : k.isQuiet = false) :
      Moves task w k memory log (w.go .dozing) { k with memory := memory, log := log }
  | leaves (hs : w.stance = .leaving) :
      Moves task w k memory log (w.go .gone)
        { k with memory := memory, log := log, reports := k.reports.push w.id }
  | stays (hs : w.stance = .gone ∨ w.stance = .lost) :
      Moves task w k memory log w { k with memory := memory, log := log }

/-! ## A turn does one of these things -/

omit [Ord N] [Std.TransOrd N] [Std.LawfulEqOrd N] in
theorem foldl_record (events : List Event) (k : Commons N σ) :
    ∃ log, events.foldl Commons.record k = { k with log := log } := by
  induction events generalizing k with
  | nil => exact ⟨k.log, rfl⟩
  | cons e rest ih =>
    obtain ⟨log, h⟩ := ih (k.record e)
    exact ⟨log, h⟩

variable {task : Task N σ} {w : Worker N} {k : Commons N σ}

omit [Ord N] [Std.TransOrd N] [Std.LawfulEqOrd N] in
/-- Going on after a computation whose outcome is known. -/
theorem stateM_bind_eq {τ α β : Type} {x : StateM τ α} {f : α → StateM τ β} {s s' : τ} {a : α}
    (h : x s = (a, s')) : (x >>= f) s = f a s' := by
  change f (x s).1 (x s).2 = _
  rw [h]

omit [Std.TransOrd N] [Std.LawfulEqOrd N] in
theorem runStep_eq {α : Type} {step : StepM N σ α} {r : Except Stop α} {d : Desk N} {memory : σ}
    (h : step (w.desk, k.memory) = (r, d, memory)) :
    (w.runStep step : StateM (Commons N σ) _) k =
      ((r, { w with desk := d }), { k with memory := memory }) := by
  change (((step (w.desk, k.memory)).1, { w with desk := (step (w.desk, k.memory)).2.1 }),
    { k with memory := (step (w.desk, k.memory)).2.2 }) = _
  rw [h]

/-- Whatever a turn is, it is one of the listed things with some memory and log. -/
def DoesMove (task : Task N σ) (w : Worker N) (k : Commons N σ)
    (after : Worker N × Commons N σ) : Prop :=
  ∃ memory log, Moves task w k memory log after.1 after.2

theorem begin_moves (hs : w.stance = .waiting) : DoesMove task w k (w.begin task k) := by
  rcases hrun : task.pass.start task.graph (w.desk, k.memory) with ⟨_ | seeds, d, memory⟩
  · have hbegin : w.begin task k =
        ({ w with desk := d }.go .lost, { k with memory := memory }.lose w.id) :=
      (stateM_bind_eq (runStep_eq hrun)).trans rfl
    rw [hbegin]
    exact ⟨memory, k.log, .fails hs hrun⟩
  · obtain ⟨log, hlog⟩ := foldl_record (w.seedEvents task.pass seeds) { k with memory := memory }
    have hbegin : w.begin task k =
        ({ w with desk := d, queue := w.queue.append (seeds.map Edge.seed), stance := .ready },
          { k with memory := memory, log := log }) := by
      rw [← hlog]
      exact (stateM_bind_eq (runStep_eq hrun)).trans rfl
    rw [hbegin]
    exact ⟨memory, log, .begins hs hrun⟩

omit [Std.TransOrd N] [Std.LawfulEqOrd N] in
theorem takeUp_eq {r : Except Stop (Progress N)} (hr : Regular r) (w : Worker N)
    (k : Commons N σ) :
    ∃ log, takeUp r w k =
      (w.taken r, { k with log := log, aborted := k.aborted || isFault r }) := by
  match r with
  | .ok .next => exact ⟨k.log, by simp [takeUp, taken, isFault]; rfl⟩
  | .ok (.expand source targets) => exact ⟨k.log, by simp [takeUp, taken, isFault]; rfl⟩
  | .ok .halt => exact ⟨k.log.push (.halted w.id), by simp [takeUp, taken, isFault]; rfl⟩
  | .error (.fault fault) => exact ⟨k.log, by simp [takeUp, taken, isFault]; rfl⟩
  | .error .crash => exact absurd hr (by simp [Regular])
  | .error .outOfTurns => exact absurd hr (by simp [Regular])

omit [Std.TransOrd N] [Std.LawfulEqOrd N] in
/-- A breakdown is taken up by breaking down. -/
theorem takeUp_of_not_regular {r : Except Stop (Progress N)} (hr : ¬ Regular r) (w : Worker N)
    (k : Commons N σ) : takeUp r w k = (w.go .lost, k.lose w.id) := by
  match r with
  | .ok _ => exact absurd trivial hr
  | .error (.fault _) => exact absurd trivial hr
  | .error .crash | .error .outOfTurns => rfl

/-- A worker at the head of its loop: it halts if the pass is to be broken off. -/
def alerted (w : Worker N) (k : Commons N σ) : Worker N :=
  if !w.halted && k.aborted then w.halt else w

theorem proceed_eq (task : Task N σ) (w : Worker N) (k : Commons N σ) : w.proceed task k =
    (match if (w.alerted k).halted then none else (w.alerted k).queue.pop? with
      | none => (return (w.alerted k).go .listening : StateM (Commons N σ) (Worker N))
      | some (edge, queue) => do
        let (result, w) ← { w.alerted k with queue := queue }.runStep (handleEdge task edge)
        takeUp result w) k := rfl

/-- The head of the loop.  An edge is handled only if the worker has neither halted nor to halt. -/
theorem proceed_moves (hs : w.stance = .ready) : DoesMove task w k (w.proceed task k) := by
  rw [proceed_eq]
  cases hh : w.halted with
  | true =>
    rw [show w.alerted k = w by rw [alerted, hh]; rfl, hh]
    exact ⟨k.memory, k.log, .drains hs (.inl hh)⟩
  | false =>
    cases ha : k.aborted with
    | true =>
      rw [show w.alerted k = w.halt by rw [alerted, hh, ha]; rfl]
      exact ⟨k.memory, k.log, .stops hs hh ha⟩
    | false =>
      rw [show w.alerted k = w by rw [alerted, hh, ha]; rfl, hh]
      cases hp : w.queue.pop? with
      | none => exact ⟨k.memory, k.log, .drains hs (.inr (Queue.pop?_eq_none_iff.mp hp))⟩
      | some popped =>
        obtain ⟨e, q⟩ := popped
        have hq := Queue.pop?_eq_some hp
        rcases hrun : handleEdge task e (w.desk, k.memory) with ⟨r, d, memory⟩
        have hstep := runStep_eq (w := { w with queue := q }) hrun
        change DoesMove task w k
          (takeUp ({ w with queue := q }.runStep (handleEdge task e) k).1.1
            ({ w with queue := q }.runStep (handleEdge task e) k).1.2
            ({ w with queue := q }.runStep (handleEdge task e) k).2)
        rw [hstep]
        by_cases hr : Regular r
        · obtain ⟨log, htake⟩ :=
            takeUp_eq hr { w with queue := q, desk := d } { k with memory := memory }
          rw [htake]
          exact ⟨memory, log, .handles hs hh ha hq hr hrun⟩
        · rw [takeUp_of_not_regular hr]
          exact ⟨memory, k.log, .breaks hs hh hq hr hrun ha⟩

/-- Handing out a successor. -/
theorem route_moves {source : Handle} {targets : List N} (hs : w.stance = .routing source targets) :
    DoesMove task w k (w.route task source targets k) := by
  cases targets with
  | nil => exact ⟨k.memory, k.log, .routed hs⟩
  | cons v rest =>
    have hroute : w.route task source (v :: rest) k =
        (if owner (task.graph.hash v k.memory).1 w.desk.table.peers = w.id then
          (return { w with
            queue := w.queue.push ⟨some source, v⟩
            stance := .routing source rest } : StateM (Commons N σ) (Worker N))
        else do
          modify fun c => (c.record (.forwarded w.id
            (owner (task.graph.hash v k.memory).1 w.desk.table.peers))).count
          return w.go (.posting (owner (task.graph.hash v k.memory).1 w.desk.table.peers)
            ⟨source, v⟩ rest)) { k with memory := (task.graph.hash v k.memory).2 } := rfl
    rw [hroute]
    by_cases hv : owner (task.graph.hash v k.memory).1 w.desk.table.peers = w.id
    · rw [if_pos hv]
      exact ⟨_, k.log, .keeps hs hv⟩
    · rw [if_neg hv]
      exact ⟨_, _, .addresses hs hv⟩

omit [Std.TransOrd N] [Std.LawfulEqOrd N] in
/-- Looking into the inbox takes a letter out, if there is one. -/
theorem receive_cases (k : Commons N σ) (w : Worker N) (pick : Nat) :
    (∃ l older newer q, k.receive w.id pick = (some l,
        { k with inboxes := k.inboxes.setIfInBounds w.id q }) ∧
        w.inbox k = older ++ l :: newer ∧ q.toList = older ++ newer) ∨
      (k.receive w.id pick = (none, k) ∧ w.inbox k = []) := by
  unfold Commons.receive
  split
  · rename_i hp
    exact .inr ⟨rfl, Queue.popLike?_eq_none_iff.mp hp⟩
  · rename_i l q hp
    obtain ⟨older, newer, hq, hq', -⟩ := Queue.popLike?_eq_some hp
    exact .inl ⟨l, older, newer, q, rfl, hq, hq'⟩

theorem listen_moves {otherwise : Stance N} (pick : Nat)
    (hs : w.stance = .listening ∧ otherwise = .resting ∨ w.stance = .dozing ∧ otherwise = .ready) :
    DoesMove task w k (w.listen pick otherwise k) := by
  rcases receive_cases k w pick with ⟨l, older, newer, q, hr, hq, hq'⟩ | ⟨hr, hq⟩
  · rw [listen, stateM_bind_eq (x := modifyGet (Commons.receive w.id pick)) hr]
    exact ⟨k.memory, k.log, .receives (hs.imp And.left And.left) hq hq'⟩
  · rw [listen, stateM_bind_eq (x := modifyGet (Commons.receive w.id pick)) hr]
    rcases hs with ⟨hs, rfl⟩ | ⟨hs, rfl⟩
    · exact ⟨k.memory, k.log, .rests hs hq⟩
    · exact ⟨k.memory, k.log, .wakes hs hq⟩

/-- **A turn does one of the listed things.** -/
theorem turn_moves (task : Task N σ) (pick : Nat) (w : Worker N) (k : Commons N σ) :
    DoesMove task w k (w.turn task pick k) := by
  cases hs : w.stance with
  | waiting => simp only [turn, hs]; exact begin_moves hs
  | ready => simp only [turn, hs]; exact proceed_moves hs
  | routing source targets => simp only [turn, hs]; exact route_moves hs
  | posting receiver l rest => simp only [turn, hs]; exact ⟨k.memory, k.log, .posts hs⟩
  | listening => simp only [turn, hs]; exact listen_moves pick (.inl ⟨hs, rfl⟩)
  | holding l =>
    have hturn : w.turn task pick k =
        ({ w with active := true, stance := .queueing l },
          { k with pending := if w.active then k.pending else k.pending + 1 }) := by
      simp only [turn, hs]
      cases w.active <;> rfl
    rw [hturn]
    exact ⟨k.memory, k.log, .holds hs⟩
  | queueing l => simp only [turn, hs]; exact ⟨k.memory, k.log, .queues hs⟩
  | resting =>
    have hturn : w.turn task pick k =
        ({ w with active := false, stance := .testing },
          { k with pending := if w.active then k.pending - 1 else k.pending }) := by
      simp only [turn, hs]
      cases w.active <;> rfl
    rw [hturn]
    exact ⟨k.memory, k.log, .settles hs⟩
  | testing =>
    have hturn : w.turn task pick k =
        (w.go (if k.isQuiet then .leaving else .dozing), k) := by
      simp only [turn, hs]
      rfl
    rw [hturn]
    cases hk : k.isQuiet with
    | true => exact ⟨k.memory, k.log, .quits hs hk⟩
    | false => exact ⟨k.memory, k.log, .dozes hs hk⟩
  | dozing => simp only [turn, hs]; exact listen_moves pick (.inr ⟨hs, rfl⟩)
  | leaving =>
    obtain ⟨log, hlog⟩ := foldl_record (w.reportEvents task.pass.text)
      { k with reports := k.reports.push w.id }
    have hturn : w.turn task pick k =
        (w.go .gone, { k with reports := k.reports.push w.id, log := log }) := by
      simp only [turn, hs]
      rw [← hlog]
      rfl
    rw [hturn]
    exact ⟨k.memory, log, .leaves hs⟩
  | gone => simp only [turn, hs]; exact ⟨k.memory, k.log, .stays (.inl hs)⟩
  | lost => simp only [turn, hs]; exact ⟨k.memory, k.log, .stays (.inr hs)⟩

end Worker

end FairCycle
