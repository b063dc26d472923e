/-
# What lasts through a run

A run is put together from a few kinds of steps: the master writes in the ledger and in the log,
asks the graph, sends a ledger around the ring, and drives the workers through a pass.  What holds
of these steps, and of two computations one after the other if it holds of both, holds of the whole
run (`Check.Composable.run`).

So a property of the workers that the single steps keep, a turn of a worker or a visit of the
ledger, holds at every moment of a run, however the run ends (`Cluster.Lasting.run`).

Nothing here is about a particular graph.
-/
import FairCycle.Proofs.Chase
import FairCycle.Proofs.Growth
import FairCycle.Proofs.Outcome

namespace FairCycle

variable {N σ : Type} [Ord N] [Std.TransOrd N] [Std.LawfulEqOrd N]

/-! ## 1. How a run is put together -/

/-- A property of computations of the master that holds of its single steps, supersteps with certain
passes among them, and of one computation after another if it holds of both. -/
structure Check.Composable (plan : Plan N σ) (passes : Pass → Prop)
    (P : ∀ {α : Type}, RunM N σ α → Prop) : Prop where
  ret : ∀ {α : Type} (a : α), P (pure a)
  fail : ∀ {α : Type} (fault : Fault), P (RunM.fail fault : RunM N σ α)
  crash : ∀ {α : Type}, P (throw .crash : RunM N σ α)
  bind : ∀ {α β : Type} {x : RunM N σ α} {f : α → RunM N σ β}, P x → (∀ a, P (f a)) → P (x >>= f)
  /-- What is read of a run is not how many turns are left. -/
  read : ∀ {α : Type} {f : Run N σ → RunM N σ α}, (∀ r left, f { r with left := left } = f r) →
    (∀ r, P (f r)) → P (get >>= f)
  note : ∀ f : Ledger N → Ledger N, P (RunM.note f)
  record : ∀ e : Event, P (RunM.record e)
  demand : ∀ {α : Type} (question : StateM σ (Option α)), P (RunM.demand question)
  ring : ∀ errand : Errand, P (Check.ring errand)
  superstep : ∀ {pass : Pass}, passes pass → P (Check.superstep plan pass)

namespace Check.Composable

variable {α : Type} {plan : Plan N σ} {passes : Pass → Prop} {P : ∀ {α : Type}, RunM N σ α → Prop}
  (hP : Composable plan passes P)
include hP

theorem ledger : P (RunM.ledger : RunM N σ (Ledger N)) :=
  hP.read (fun _ _ => rfl) fun r => hP.ret r.ledger

omit [Std.TransOrd N] [Std.LawfulEqOrd N] hP in
theorem ite {p : Prop} [Decidable p] {x y : RunM N σ α} (hx : P x) (hy : P y) :
    P (if p then x else y) := by
  split
  · exact hx
  · exact hy

theorem explore (h : passes .explore) : P (Check.explore plan) := by
  refine hP.bind (hP.superstep h) fun _ => hP.bind hP.ledger fun l => ?_
  refine hP.bind (hP.record _) fun _ => Composable.ite ?_ (hP.ret _)
  exact hP.bind (hP.record _) fun _ => hP.ret _

theorem reset (h : passes .reset) : P (Check.reset plan) := by
  refine hP.bind (hP.superstep h) fun _ => hP.bind hP.ledger fun l => ?_
  exact Composable.ite hP.crash (hP.ret ())

theorem reach (h : passes .reach) : P (Check.reach plan) :=
  hP.bind (hP.superstep h) fun _ => hP.bind hP.ledger fun _ => hP.record _

theorem eliminate (h : passes .eliminate) : P (Check.eliminate plan) := by
  refine hP.bind hP.ledger fun before => hP.bind (hP.superstep h) fun _ => ?_
  refine hP.bind hP.ledger fun l => ?_
  have hrest : P (do
      RunM.note fun k => { k with size := before.size - l.size }
      RunM.record (.eliminated l.round (before.size - l.size) l.states) : RunM N σ Unit) :=
    hP.bind (hP.note _) fun _ => hP.record _
  exact Composable.ite (hP.bind (hP.fail _) fun _ => hrest) hrest

theorem round (h : passes .reset ∧ passes .reach ∧ passes .eliminate) : P (Check.round plan) :=
  hP.bind (hP.note _) fun _ => hP.bind (hP.reset h.1) fun _ =>
    hP.bind (hP.reach h.2.1) fun _ => hP.eliminate h.2.2

theorem rounds (h : passes .reset ∧ passes .reach ∧ passes .eliminate) (bound : Nat) :
    P (Check.rounds plan bound) := by
  induction bound with
  | zero => exact hP.ret 0
  | succ bound ih =>
    refine hP.bind hP.ledger fun l => Composable.ite (hP.ret 0) ?_
    refine hP.bind (hP.round h) fun _ => hP.bind hP.ledger fun l' => Composable.ite (hP.ret 1) ?_
    exact hP.bind ih fun n => hP.ret (n + 1)

theorem hop (current : Handle) : P (Check.hop current : RunM N σ (N × Option Handle)) := by
  refine hP.bind (hP.note _) fun _ => hP.bind (hP.ring .hop) fun _ => hP.bind hP.ledger fun l => ?_
  dsimp only
  split
  · exact hP.bind (hP.note _) fun _ => hP.ret _
  · exact hP.fail _

theorem chase (stop : Handle) (closed : Bool) (left : Nat) (current : Handle) (passed : List N) :
    P (Check.chase stop closed left current passed : RunM N σ (List N)) := by
  induction left generalizing current passed with
  | zero =>
    rw [Check.chase_eq]
    exact hP.bind (hP.hop current) fun x => Composable.ite (hP.ret _) (hP.fail _)
  | succ left ih =>
    rw [Check.chase_eq]
    refine hP.bind (hP.hop current) fun x => Composable.ite (hP.ret _) ?_
    obtain ⟨node, parent⟩ := x
    cases parent with
    | none => exact hP.fail _
    | some parent => exact ih parent (node :: passed)

theorem chain (start stop : Handle) (closed : Bool) :
    P (Check.chain start stop closed : RunM N σ (List N)) :=
  hP.read (fun _ _ => rfl) fun _ => hP.chase stop closed _ start []

theorem cycleNode : P (Check.cycleNode : RunM N σ Handle) := by
  refine hP.bind hP.ledger fun l => ?_
  cases l.cycleNode with
  | none => exact hP.fail _
  | some state => exact hP.ret state

theorem stem : P (Check.stem : RunM N σ (List N)) := by
  refine hP.bind hP.cycleNode fun goal => hP.bind hP.ledger fun l => ?_
  cases l.chase.initial with
  | none => exact hP.fail _
  | some initial => exact hP.chain goal initial false

theorem loop (h : passes .trace) : P (Check.loop plan) :=
  hP.bind hP.cycleNode fun goal => hP.bind (hP.note _) fun _ =>
    hP.bind (hP.superstep h) fun _ => hP.chain goal goal true

theorem search (h : passes .search) (remaining bound : Nat) :
    P (Check.search plan remaining bound) := by
  induction bound with
  | zero => exact hP.fail _
  | succ bound ih =>
    refine hP.bind (hP.note _) fun _ => hP.bind (hP.ring .pickSeed) fun _ => ?_
    refine hP.bind hP.ledger fun l => ?_
    cases l.chase.seed with
    | none => exact hP.fail _
    | some seed =>
      refine hP.bind (hP.record _) fun _ => hP.bind (hP.superstep h) fun _ => ?_
      exact hP.bind hP.ledger fun l' => Composable.ite (hP.record _) ih

theorem findCycle (h : passes .search) : P (Check.findCycle plan) := by
  refine hP.bind hP.ledger fun l => ?_
  have hrest : P (do
      RunM.record (.searching l.size)
      Check.search plan l.size
        (((← get).cluster.tables.map Table.size).foldl (· + ·) 0 + 1) : RunM N σ Unit) :=
    hP.bind (hP.record _) fun _ => hP.read (fun _ _ => rfl) fun _ => hP.search h _ _
  exact Composable.ite (hP.bind (hP.fail _) fun _ => hrest) hrest

variable [DecidableEq N]

theorem successorNumber (g : Graph N σ) (source target : N) :
    P (Check.successorNumber g source target : RunM N σ Nat) := by
  refine hP.bind (hP.demand _) fun targets => ?_
  cases targets.idxOf? target with
  | none => exact hP.fail _
  | some place => exact hP.ret (place + 1)

theorem trail (g : Graph N σ) (steps : List (N × N)) :
    P (steps.mapM fun (source, target) =>
      Check.successorNumber g source target : RunM N σ (List Nat)) := by
  induction steps with
  | nil =>
    rw [List.mapM_nil]
    exact hP.ret []
  | cons step steps ih =>
    rw [List.mapM_cons]
    exact hP.bind (hP.successorNumber g step.1 step.2) fun _ => hP.bind ih fun _ => hP.ret _

theorem build (h : passes .trace) : P (Check.build plan) := by
  refine hP.bind hP.stem fun stem => hP.bind (hP.loop h) fun loop => ?_
  exact hP.bind (hP.trail _ _) fun trail => hP.bind (hP.record _) fun _ => hP.ret _

theorem counterexample (h : passes .search) (h' : passes .trace) :
    P (Check.counterexample plan) := by
  refine hP.bind hP.ledger fun l => ?_
  exact Composable.ite (hP.bind (hP.findCycle h) fun _ => hP.build h') (hP.build h')

theorem conclude (h : ∀ pass, passes pass) (stats : Stats) : P (Check.conclude plan stats) := by
  refine hP.bind hP.ledger fun l => hP.bind (hP.rounds ⟨h _, h _, h _⟩ _) fun n => ?_
  refine hP.bind hP.ledger fun l' => hP.bind (hP.record _) fun _ => ?_
  have hfinish (lasso : Option (Lasso N)) :
      P (Check.finish stats n l' lasso : RunM N σ (Report N)) :=
    hP.read (fun _ _ => rfl) fun _ => hP.ret _
  refine Composable.ite ?_ (hfinish none)
  rw [map_eq_pure_bind, bind_assoc]
  exact hP.bind (hP.counterexample (h _) (h _)) fun x => hfinish (some x)

/-- **What holds of the steps holds of the run.** -/
theorem run (h : ∀ pass, passes pass) : P (Check.run plan) := by
  rw [Check.run_eq]
  exact hP.bind (hP.record _) fun _ => hP.bind (hP.explore (h _)) fun stats => hP.conclude h stats

end Check.Composable

/-! ## 2. Errands -/

omit [Std.TransOrd N] [Std.LawfulEqOrd N] in
/-- All that an errand changes of a worker is its cursor. -/
theorem Worker.eq_of_run {errand : Errand} {l l' : Ledger N} {w w' : Worker N}
    (h : w.run errand l = .ok (l', w')) : ∃ cursor, w' = { w with cursor := cursor } := by
  cases errand with
  | pickSeed =>
    change w.pickSeed l = _ at h
    unfold pickSeed at h
    split at h
    · cases h
      exact ⟨_, rfl⟩
    · split at h
      all_goals
        cases h
        exact ⟨_, rfl⟩
  | hop =>
    change w.hop l = _ at h
    unfold hop at h
    split at h
    · cases h
      exact ⟨_, rfl⟩
    · split at h
      · cases h
        exact ⟨_, rfl⟩
      · split at h
        · cases h
          exact ⟨_, rfl⟩
        · cases h

omit [Std.TransOrd N] [Std.LawfulEqOrd N] in
/-- A worker that is visited moves its cursor, or breaks down. -/
theorem Cluster.visit_cases (errand : Errand) (l : Ledger N) (c : Cluster N σ) (i : Nat) :
    (c.workers[i]? = none ∧ c.visit errand l i = (.ok l, c)) ∨
      ∃ w, c.workers[i]? = some w ∧
        ((∃ l' cursor log, w.run errand l = .ok (l', { w with cursor := cursor }) ∧
          c.visit errand l i =
            (.ok l', c.replace i { w with cursor := cursor } { c.commons with log := log })) ∨
        c.visit errand l i =
          (.error (.fault (.workerLost i)), { c with commons := c.commons.lose i })) := by
  rw [visit]
  cases hw : c.workers[i]? with
  | none => exact .inl ⟨rfl, rfl⟩
  | some w =>
    refine .inr ⟨w, rfl, ?_⟩
    dsimp only
    cases hrun : w.run errand l with
    | error stop => exact .inr rfl
    | ok found =>
      obtain ⟨l', w'⟩ := found
      obtain ⟨cursor, rfl⟩ := Worker.eq_of_run hrun
      exact .inl ⟨l', cursor, _, rfl, rfl⟩

/-! ## 3. Properties of the workers -/

/-- A property of the workers that every step of a run keeps, with certain passes. -/
structure Cluster.Lasting (plan : Plan N σ) (passes : Pass → Prop) (J : Cluster N σ → Prop) :
    Prop where
  arm : ∀ {c} (l : Ledger N), J c → J (c.arm l)
  turn : ∀ {c} {pass : Pass} (turn : Turn), passes pass → J c →
    J (c.turn ⟨plan.graph, plan.config.reduction, pass⟩ turn)
  visit : ∀ {c} (errand : Errand) (l : Ledger N) (i : Nat), J c → J (c.visit errand l i).2
  /-- It is about neither the graph's memory nor the log. -/
  commons : ∀ {c : Cluster N σ} (memory : σ) (log : Array Event), J c →
    J { c with commons := { c.commons with memory := memory, log := log } }

/-- The runs whose workers have a property. -/
def Run.With (J : Cluster N σ → Prop) (r : Run N σ) : Prop := J r.cluster

/-- What the workers do in a superstep they have done when the master looks at it. -/
theorem Check.cluster_superstep (plan : Plan N σ) (pass : Pass) (r : Run N σ) :
    (superstep plan pass r).2.cluster = (driveWorkers plan pass r).cluster := by
  rw [superstep_eq]
  split
  · split
    · rfl
    · rfl
    · rfl
  · rfl

namespace Cluster.Lasting

variable {plan : Plan N σ} {passes : Pass → Prop} {J : Cluster N σ → Prop}
  (hJ : Lasting plan passes J)
include hJ

theorem drive {pass : Pass} (h : passes pass) (left time : Nat) {c : Cluster N σ} (hc : J c) :
    J (c.drive ⟨plan.graph, plan.config.reduction, pass⟩ plan.turns left time).2.2 := by
  induction left generalizing c time with
  | zero => exact hc
  | succ left ih =>
    rw [Cluster.drive]
    split
    · exact hc
    · exact ih (time + 1) (hJ.turn (plan.turns time) h hc)

theorem ringFrom (errand : Errand) (count i : Nat) (l : Ledger N) {c : Cluster N σ} (hc : J c) :
    J (c.ringFrom errand count i l).2 := by
  induction count generalizing c i l with
  | zero => exact hc
  | succ count ih =>
    have hvisit := hJ.visit errand l i hc
    rw [Cluster.ringFrom]
    split
    · rename_i heq
      rwa [heq] at hvisit
    · rename_i heq
      rw [heq] at hvisit
      exact ih (i + 1) _ hvisit

variable {r : Run N σ}

theorem driveWorkers {pass : Pass} (h : passes pass) (hr : J r.cluster) :
    J (Check.driveWorkers plan pass r).cluster :=
  hJ.drive h r.left r.time (hJ.arm r.ledger hr)

theorem record (e : Event) : Stays (Run.With J) (RunM.record e : RunM N σ Unit) r :=
  fun hr => hJ.commons r.cluster.commons.memory (r.cluster.commons.log.push e) hr

theorem demand (question : StateM σ (Option α)) :
    Stays (Run.With J) (RunM.demand question : RunM N σ α) r := by
  refine .bind (fun hr => ?_) fun answer _ => ?_
  · exact hJ.commons (question r.cluster.commons.memory).2 r.cluster.commons.log hr
  · cases answer with
    | some a => exact .ret a
    | none => exact .throws .crash

theorem superstep {pass : Pass} (h : passes pass) :
    Stays (Run.With J) (Check.superstep plan pass) r := by
  intro hr
  rw [Run.With, Check.cluster_superstep]
  exact hJ.driveWorkers h hr

theorem ring (errand : Errand) : Stays (Run.With J) (Check.ring errand : RunM N σ Unit) r := by
  refine .bind (fun hr => hJ.ringFrom errand _ 0 r.ledger hr) fun result _ => ?_
  cases result with
  | ok l => exact fun hr => hr
  | error stop => exact .throws stop

/-- The steps of a run keep the property, and so does the whole of it. -/
theorem composable : Check.Composable plan passes fun x => ∀ r, Stays (Run.With J) x r where
  ret a _ := .ret a
  fail _ _ := .throws _
  crash _ := .throws _
  bind hx hf r := .bind (hx r) fun a _ => hf a _
  read _ hf r := .get_bind (hf r r)
  note _ _ hr := hr
  record e _ := hJ.record e
  demand question _ := hJ.demand question
  ring errand _ := hJ.ring errand
  superstep h _ := hJ.superstep h

theorem afterExplore (hr : J (Check.driveWorkers plan .explore r).cluster) :
    J (Check.explore plan r).2.cluster := by
  refine Stays.of_bind (J := Run.With J) ?_ fun _ _ => ?_
  · rw [Run.With, Check.cluster_superstep]
    exact hr
  · refine .bind (hJ.composable.ledger _) fun l _ => .bind (hJ.record _) fun _ _ => ?_
    exact .ite (.bind (hJ.record _) fun _ _ => .ret _) (.ret _)

variable [DecidableEq N]

theorem conclude (h : ∀ pass, passes pass) (stats : Stats) :
    Stays (Run.With J) (Check.conclude plan stats) r :=
  hJ.composable.conclude h stats r

/-- **What the steps of a run keep lasts**, from any moment of its exploration to its end. -/
theorem run (h : ∀ pass, passes pass) {memory : σ} {limit : Nat}
    (hr : J (Check.driveWorkers plan .explore (Run.begin plan.config memory limit)).cluster) :
    J (Check.run plan
      { cluster := .create plan.config.peers memory, left := limit }).2.cluster := by
  change Run.With J ((Check.explore plan >>= Check.conclude plan)
    (Run.begin plan.config memory limit)).2
  exact Stays.of_bind (hJ.afterExplore hr) fun stats _ => hJ.conclude h stats

end Cluster.Lasting

end FairCycle
