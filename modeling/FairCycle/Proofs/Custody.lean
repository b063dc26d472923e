/-
# Where states are kept

At every moment of a run, whatever pass is on and however the run will end, the states that are
stored are reachable ones, each in the table of its home (`Table.Custody`).  That is so because
nothing but reachable states is on its way: what a worker hands out are the successors of a stored
state, and what a pass begins with are stored states and the initial one.

Nothing that is stored is forgotten, and what the exploration has written about being accepting
stays right.  So `Cluster.Custody` also speaks of a set of states that are stored with the right
answer; it lasts through the rest of the run, as does all of it (`Cluster.custody_lasting`).
-/
import FairCycle.Proofs.Lasting

namespace FairCycle

variable {N σ : Type} [Ord N]

/-! ## 1. Tables -/

/-- What is in the table of worker `i`: reachable states whose home it is, and among them those of
`H`, with the right answer to whether they are accepting. -/
structure Table.Custody (t : Terrain N σ) (H : N → Prop) (i : Nat) (T : Table N) : Prop where
  worker : T.worker = i
  peers : T.peers = t.peers
  stored : ∀ {v}, v ∈ T.nodes.toList → v ∈ t.states ∧ t.home v = i
  marked : ∀ {v}, H v → t.home v = i → ∃ m, T.markOf v = some m ∧ m.inF = t.accepting v

/-- A table that grows by such states only is as good as before. -/
theorem Table.Custody.grows {t : Terrain N σ} {H new : N → Prop} {i : Nat} {T T' : Table N}
    (hT : T.Custody t H i) (hgrows : T.Grows t.graph new T')
    (hnew : ∀ {v}, new v → v ∈ t.states ∧ t.home v = i) : T'.Custody t H i where
  worker := hgrows.worker.trans hT.worker
  peers := hgrows.peers.trans hT.peers
  stored hv := (hgrows.stored hv).elim hT.stored hnew
  marked {v} hv hhome := by
    obtain ⟨m, hm, hacc⟩ := hT.marked hv hhome
    obtain ⟨m', hm', hsame | ⟨memory, hasked⟩⟩ := hgrows.marks hm
    · exact ⟨m', hm', hsame.trans hacc⟩
    · have hknown := t.known v (hT.stored (Table.mem_nodes.mpr (by rw [hm]; rfl))).1
      rw [t.promise.accepting_eq v hknown] at hasked
      exact ⟨m', hm', (Option.some.inj hasked).symm⟩

/-! ## 2. Workers -/

/-- Where a worker's edges lead in the place where it stands: into the set `S`. -/
def Stance.Within (S : Finset N) : Stance N → Prop
  | .routing _ targets => ∀ v ∈ targets, v ∈ S
  | .posting _ l rest => l.target ∈ S ∧ ∀ v ∈ rest, v ∈ S
  | .holding l | .queueing l => l.target ∈ S
  | _ => True

/-- What worker `i` has: its table, and edges to reachable states. -/
structure Worker.Custody (t : Terrain N σ) (H : N → Prop) (i : Nat) (w : Worker N) : Prop where
  table : w.desk.table.Custody t H i
  queue : ∀ {e}, e ∈ w.queue.toList → e.target ∈ t.states
  stance : w.stance.Within t.states

/-- All letters lead to reachable states. -/
def Commons.Within (S : Finset N) (k : Commons N σ) : Prop :=
  ∀ (i : Nat) (q : Queue (Letter N)), k.inboxes[i]? = some q → ∀ l ∈ q.toList, l.target ∈ S

omit [Ord N] in
theorem Commons.Within.deliver {S : Finset N} {k : Commons N σ} (hk : k.Within S) (receiver : Nat)
    {l : Letter N} (hl : l.target ∈ S) : (k.deliver receiver l).Within S := by
  intro j q hj l' hl'
  rw [Commons.deliver, Array.getElem?_modify] at hj
  split at hj
  · obtain ⟨q₀, hq₀, rfl⟩ := Option.map_eq_some_iff.mp hj
    rw [Queue.toList_push, List.mem_append, List.mem_singleton] at hl'
    rcases hl' with hl' | rfl
    · exact hk j q₀ hq₀ l' hl'
    · exact hl
  · exact hk j q hj l' hl'

omit [Ord N] in
theorem Commons.Within.set {S : Finset N} {k k' : Commons N σ} (hk : k.Within S) {i : Nat}
    {q : Queue (Letter N)} (hk' : k'.inboxes = k.inboxes.setIfInBounds i q)
    (hq : ∀ l ∈ q.toList, l.target ∈ S) : k'.Within S := by
  intro j q' hj l hl
  rw [hk', Array.getElem?_setIfInBounds] at hj
  split at hj
  · split at hj
    · exact hq l (Option.some.inj hj ▸ hl)
    · exact nomatch hj
  · exact hk j q' hj l hl

section Moves

variable [Std.TransOrd N] [Std.LawfulEqOrd N] {t : Terrain N σ} {H : N → Prop} {i : Nat}
  {pass : Pass} {w w' : Worker N} {k k' : Commons N σ} {memory : σ} {log : Array Event}

/-- What may be stored in handling an edge belongs there. -/
theorem Table.Custody.handled {d d' : Desk N} {e : Edge N} {r : Except Stop (Progress N)}
    {memory' : σ} (hd : d.table.Custody t H i) (he : e.target ∈ t.states)
    (hrun : handleEdge (t.task pass) e (d, memory) = (r, d', memory')) :
    d'.table.Custody t H i := by
  have hgrows := grows_handleEdge (t.task pass) e d memory
  rw [hrun] at hgrows
  refine hd.grows hgrows ?_
  rintro v ⟨rfl, memory, howns⟩
  refine ⟨he, ?_⟩
  rw [Table.owns, beq_iff_eq, hd.peers, hd.worker] at howns
  rw [← howns]
  exact congrArg (owner · t.peers) (t.promise.hash_eq e.target memory).symm

/-- What comes of handling an edge leads to reachable states. -/
theorem Table.Custody.within [t.Rooted] {d d' : Desk N} {e : Edge N} {source : Handle}
    {targets : List N} {memory' : σ} (hd' : d'.table.Custody t H i)
    (hrun : handleEdge (t.task pass) e (d, memory) = (.ok (.expand source targets), d', memory')) :
    ∀ v ∈ targets, v ∈ t.states := by
  obtain ⟨u, memory'', hu, htargets⟩ := expand_of_handleEdge hrun
  have hstored := (hd'.stored (mem_of_node? hu)).1
  have heq : t.targets u = targets :=
    Option.some.inj ((Graph.Promise.expand_eq (t.known u hstored) memory'').symm.trans htargets)
  intro v hv
  have hedge : v ∈ t.targets u := by rwa [heq]
  exact Terrain.mem_states_of_edge hstored hedge

omit [Std.TransOrd N] [Std.LawfulEqOrd N] in
/-- A pass begins with reachable states. -/
theorem Table.Custody.begun [t.Rooted] {d d' : Desk N} {seeds : List N} {memory' : σ}
    (hd' : d'.table.Custody t H i)
    (hrun : pass.start t.graph (d, memory) = (.ok seeds, d', memory')) :
    ∀ v ∈ seeds, v ∈ t.states := by
  intro v hv
  rcases mem_of_start hrun hv with rfl | hv
  · exact t.initial_mem
  · exact (hd'.stored hv).1

omit [Std.TransOrd N] [Std.LawfulEqOrd N] in
theorem Table.Custody.started {d d' : Desk N} {r : Except Stop (List N)} {memory' : σ}
    (hd : d.table.Custody t H i) (hrun : pass.start t.graph (d, memory) = (r, d', memory')) :
    d'.table.Custody t H i := by
  have hgrows := grows_start pass t.graph d memory
  rw [hrun] at hgrows
  exact hd.grows hgrows fun h => h.elim

/-- **A turn keeps states where they belong.** -/
theorem Worker.Moves.custody [t.Rooted] (h : w.Moves (t.task pass) k memory log w' k')
    (hw : w.Custody t H i) (hk : k.Within t.states) : w'.Custody t H i := by
  obtain ⟨table, queue, stance⟩ := hw
  cases h with
  | begins hs hrun =>
    have htable := table.started hrun
    refine ⟨htable, fun {e} he => ?_, trivial⟩
    rw [Queue.toList_append, List.mem_append, List.mem_map] at he
    rcases he with he | ⟨v, hv, rfl⟩
    · exact queue he
    · exact htable.begun hrun v hv
  | @handles e q r d hs hh ha hq hr hrun =>
    have htable := table.handled (queue (hq ▸ List.mem_cons_self)) hrun
    have hrest : ∀ {e}, e ∈ q.toList → e.target ∈ t.states := fun he =>
      queue (by rw [hq]; exact List.mem_cons_of_mem _ he)
    rcases r with (_ | _ | _) | (_ | _ | _)
    case error.crash | error.outOfTurns => exact hr.elim
    case ok.next => exact ⟨htable, hrest, by simp only [taken, hs]; trivial⟩
    case ok.expand => exact ⟨htable, hrest, htable.within hrun⟩
    case error.fault | ok.halt =>
      refine ⟨htable, fun he => absurd he List.not_mem_nil, ?_⟩
      simp only [taken, halt, hs]
      trivial
  | fails hs hrun => exact ⟨table.started hrun, queue, trivial⟩
  | @breaks e q r d hs hh hq hr hrun =>
    refine ⟨table.handled (queue (hq ▸ List.mem_cons_self)) hrun, fun he => queue ?_, trivial⟩
    rw [hq]
    exact List.mem_cons_of_mem _ he
  | stops hs hh ha => exact ⟨table, fun he => absurd he List.not_mem_nil, trivial⟩
  | @keeps source v rest hs hv =>
    rw [hs] at stance
    refine ⟨table, fun {e} he => ?_, fun u hu => stance u (List.mem_cons_of_mem v hu)⟩
    rw [Queue.toList_push, List.mem_append, List.mem_singleton] at he
    rcases he with he | rfl
    · exact queue he
    · exact stance v List.mem_cons_self
  | @addresses source v rest hs =>
    rw [hs] at stance
    exact ⟨table, queue, stance v List.mem_cons_self, fun u hu =>
      stance u (List.mem_cons_of_mem v hu)⟩
  | posts hs =>
    rw [hs] at stance
    exact ⟨table, queue, stance.2⟩
  | @receives l older newer q hs hq hq' =>
    obtain ⟨q₀, hq₀, hlist⟩ := exists_inbox hq
    exact ⟨table, queue, hk _ _ hq₀ l (by simp [hlist])⟩
  | holds hs =>
    rw [hs] at stance
    exact ⟨table, queue, stance⟩
  | @queues l hs =>
    rw [hs] at stance
    refine ⟨table, fun {e} he => ?_, trivial⟩
    split at he
    · exact queue he
    · rw [Queue.toList_push, List.mem_append, List.mem_singleton] at he
      rcases he with he | rfl
      · exact queue he
      · exact stance
  | stays hs => exact ⟨table, queue, stance⟩
  | _ => exact ⟨table, queue, trivial⟩

/-- **A turn puts nothing into the inboxes but edges to reachable states.** -/
theorem Worker.Moves.within (h : w.Moves (t.task pass) k memory log w' k')
    (hw : w.Custody t H i) (hk : k.Within t.states) : k'.Within t.states := by
  cases h with
  | @posts receiver l rest hs =>
    have stance := hw.stance
    rw [hs] at stance
    exact hk.deliver receiver stance.1
  | receives hs hq hq' =>
    obtain ⟨q₀, hq₀, hlist⟩ := exists_inbox hq
    refine hk.set rfl fun l' hl' => hk _ _ hq₀ l' ?_
    rw [hq'] at hl'
    rw [hlist]
    simp only [List.mem_append, List.mem_cons] at hl' ⊢
    exact hl'.imp_right .inr
  | _ => exact hk

end Moves

/-! ## 3. The whole cluster -/

/-- What all the workers have. -/
structure Cluster.Custody (t : Terrain N σ) (H : N → Prop) (c : Cluster N σ) : Prop where
  size : c.workers.size = t.peers
  worker : ∀ {i : Nat} {w : Worker N}, c.workers[i]? = some w → w.Custody t H i
  letters : c.commons.Within t.states

section Cluster

variable [Std.TransOrd N] [Std.LawfulEqOrd N] {t : Terrain N σ} {H : N → Prop} {c : Cluster N σ}

/-- **States stay where they belong through all of a run.** -/
theorem Cluster.custody_lasting [t.Rooted] {plan : Plan N σ} (hplan : plan.Covers t)
    (H : N → Prop) : Lasting plan (fun _ => True) (Cluster.Custody t H) where
  arm {c} l hc := by
    refine ⟨Array.size_map.trans hc.size, fun hv => ?_, hc.letters⟩
    obtain ⟨w, hw, rfl⟩ := getElem?_arm hv
    exact ⟨(hc.worker hw).table, (hc.worker hw).queue, trivial⟩
  turn {c pass} turn _ hc := by
    rw [hplan.task]
    rcases c.turn_cases (t.task pass) turn with ⟨-, heq⟩ | ⟨w, w', k', memory, log, hw, hmove, heq⟩
    · rw [heq]
      exact hc
    · rw [heq]
      refine ⟨size_replace.trans hc.size, ?_, hmove.within (hc.worker hw) hc.letters⟩
      exact forall_replace (P := fun j v => v.Custody t H j) hw
        (hmove.custody (hc.worker hw) hc.letters) hc.worker
  visit {c} errand l i hc := by
    unfold Cluster.visit
    split
    · exact hc
    · rename_i w hw
      split
      · exact ⟨hc.size, hc.worker, hc.letters⟩
      · rename_i l' w' hrun
        obtain ⟨cursor, rfl⟩ := Worker.eq_of_run hrun
        obtain ⟨table, queue, stance⟩ := hc.worker hw
        refine ⟨Array.size_setIfInBounds.trans hc.size, ?_, hc.letters⟩
        refine forall_replace (P := fun j v => v.Custody t H j) hw ?_ hc.worker
        exact ⟨table, queue, stance⟩
  commons memory log hc := ⟨hc.size, hc.worker, hc.letters⟩

/-! ## 4. From the exploration on -/

omit [Std.LawfulEqOrd N] in
theorem Cluster.custody_create (t : Terrain N σ) (memory : σ) :
    (Cluster.create t.peers memory).Custody t (fun _ => False) := by
  refine ⟨by simp [create], fun {i w} hw => ?_, fun i q hq l hl => ?_⟩
  · obtain ⟨hi, rfl⟩ := Array.getElem?_eq_some_iff.mp hw
    simp only [create, Array.getElem_ofFn]
    exact ⟨⟨rfl, rfl, fun hv => absurd hv List.not_mem_nil, fun hv => hv.elim⟩,
      fun he => absurd he List.not_mem_nil, trivial⟩
  · simp only [create, Array.getElem?_replicate] at hq
    split at hq
    · rw [← Option.some.inj hq] at hl
      exact absurd hl List.not_mem_nil
    · cases hq

/-- The workers after `time` turns of the exploration, or at its end if it ends before. -/
def Check.exploring (plan : Plan N σ) (memory : σ) (time : Nat) : Cluster N σ :=
  (driveWorkers plan .explore (Run.begin plan.config memory time)).cluster

/-- At every moment of an exploration states are where they belong. -/
theorem Check.custody_exploring [t.Rooted] {plan : Plan N σ} (hplan : plan.Covers t) (memory : σ)
    (time : Nat) : (exploring plan memory time).Custody t (fun _ => False) := by
  refine (Cluster.custody_lasting hplan _).driveWorkers trivial ?_
  rw [Run.begin, hplan.peers]
  exact { Cluster.custody_create t memory with }

omit [Std.TransOrd N] [Std.LawfulEqOrd N] in
/-- States that are stored with the right answer may be added to those that are. -/
theorem Cluster.Custody.mark (hc : c.Custody t (fun _ => False))
    (h : ∀ {v i w}, H v → t.home v = i → c.workers[i]? = some w →
      ∃ m, w.desk.table.markOf v = some m ∧ m.inF = t.accepting v) : c.Custody t H where
  size := hc.size
  worker hw := { hc.worker hw with
    table := { (hc.worker hw).table with marked := fun hv hhome => h hv hhome hw } }
  letters := hc.letters

/-- The state whose successors a worker is about to hand out. -/
def Worker.expanding? (w : Worker N) : Option N :=
  match w.stance with
  | .routing state _ => w.desk.table.node? state
  | _ => none

omit [Std.TransOrd N] [Std.LawfulEqOrd N] in
theorem Worker.exists_routing {w : Worker N} {v : N} (hv : w.expanding? = some v) :
    ∃ state targets, w.stance = .routing state targets ∧ w.desk.table.node? state = some v := by
  unfold expanding? at hv
  split at hv
  · exact ⟨_, _, ‹_›, hv⟩
  · exact nomatch hv

/-- In every state of an exploration holds what the handling of an edge keeps, and what is stored
is what was expanded. -/
theorem Check.exploring_explores [t.Rooted] {plan : Plan N σ} (hplan : plan.Covers t) (memory : σ)
    (time : Nat) :
    (exploring plan memory time).Orderly t .explore t.opening ∧
      expanded plan .explore (Run.begin plan.config memory time) =
        (t.held ((exploring plan memory time).scene t.opening).tables).val ∧
      Exploring t ((exploring plan memory time).scene t.opening) := by
  have hdrive := (Run.rests_begin hplan memory time).exploring_drive plan.turns time 0
  rw [← hplan.task] at hdrive
  exact hdrive

/-- What the exploration is expanding is stored at its home with the right answer. -/
theorem Check.marked_of_expanding [t.Rooted] {plan : Plan N σ} (hplan : plan.Covers t) {memory : σ}
    {time i : Nat} {v : N} {w : Worker N}
    (hi : (exploring plan memory time).workers[i]? = some w) (hv : w.expanding? = some v) :
    t.home v = i ∧ ∃ m, w.desk.table.markOf v = some m ∧ m.inF = t.accepting v := by
  obtain ⟨-, -, hexp⟩ := exploring_explores hplan memory time
  obtain ⟨state, targets, hstance, hnode⟩ := Worker.exists_routing hv
  have hstored := mem_of_node? hnode
  have hhome := (((custody_exploring hplan memory time).worker hi).table.stored hstored).2
  obtain ⟨m, hm⟩ := Option.isSome_iff_exists.mp (Table.mem_nodes.mp hstored)
  -- a worker that hands out edges shows its own desk
  have hdesk : (((exploring plan memory time).scene t.opening).desk i).table = w.desk.table := by
    rw [Cluster.scene_desk hi]
    simp only [Worker.shown, hstance]
  have hmark : t.markOf ((exploring plan memory time).scene t.opening).tables v = some m := by
    rw [Terrain.markOf, hhome, Scene.tables, hdesk]
    exact hm
  exact ⟨hhome, m, hm, (congrArg Mark.Fields.inF (hexp.fields hmark) :)⟩

/-- **What the exploration has expanded is stored with the right answer from then on.** -/
theorem Check.custody_of_expanding [t.Rooted] {plan : Plan N σ} (hplan : plan.Covers t) {memory : σ}
    {time limit : Nat} (hle : time ≤ limit) {v : N} {w : Worker N}
    (hw : w ∈ (exploring plan memory time).workers) (hv : w.expanding? = some v) :
    (exploring plan memory limit).Custody t (· = v) := by
  obtain ⟨i, hi⟩ := Array.mem_iff_getElem?.mp hw
  obtain ⟨hhome, m, hm, hinF⟩ := marked_of_expanding hplan hi hv
  have hthen : (exploring plan memory time).Custody t (· = v) := by
    refine (custody_exploring hplan memory time).mark fun {u j w'} hu hj hw' => ?_
    rw [hu, hhome] at hj
    obtain rfl := Option.some.inj (hi.symm.trans (hj ▸ hw'))
    exact hu ▸ ⟨m, hm, hinF⟩
  -- what happens until the limit goes on from there
  obtain ⟨later, rfl⟩ := Nat.exists_eq_add_of_le hle
  change (((Run.begin plan.config memory time : Run N σ).cluster.arm {}).drive
    ⟨plan.graph, plan.config.reduction, .explore⟩ plan.turns (time + later) 0).2.2.Custody t _
  rw [Cluster.drive_add]
  exact (Cluster.custody_lasting hplan (· = v)).drive trivial _ _ hthen

end Cluster

end FairCycle
