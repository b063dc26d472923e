/-
# The traffic between workers

While a pass is on, its edges travel: from the worker that generates them into its own queue or
into a letter, with the letter into an inbox, and from there into the queue of their owner.  This
module follows them.  `Cluster.scene` collects all that is still to be handled, and
`Cluster.Orderly` is what always holds between the workers: the shared counter is right, and every
edge is with the owner of its target or on its way there.

From that it follows that a turn, whatever it is, handles one edge, drops edges of a worker that
has halted, or only moves edges about (`Orderly.turn`), and that the counter is zero only when
nothing is left to be handled (`Balanced.scene_pending`): a worker that leaves leaves nothing
behind.
-/
import FairCycle.Proofs.Scene

namespace FairCycle

variable {N σ : Type} [Ord N]

/-! ## 1. What is on its way -/

namespace Worker

/-- The edges that a worker has in hand, outside its queue. -/
def hand (o : Opening N) (w : Worker N) : List (Edge N) :=
  match w.stance with
  | .waiting => (o.seeds w.id).map Edge.seed
  | .routing source targets => Edge.from source targets
  | .posting _ l rest => l.edge :: Edge.from l.source rest
  | .holding l | .queueing l => [l.edge]
  | _ => []

/-- All the edges that a worker has. -/
def backlog (o : Opening N) (w : Worker N) : Multiset (Edge N) := w.queue.toList + w.hand o

/-- The desk of a worker, as if it had begun already. -/
def shown (o : Opening N) (w : Worker N) : Desk N :=
  match w.stance with
  | .waiting => o.desk w.id
  | _ => w.desk

end Worker

/-- A cluster in the midst of a pass as a scene. -/
def Cluster.scene (o : Opening N) (c : Cluster N σ) : Scene N where
  desk i := (c.workers[i]?.map (Worker.shown o)).getD (o.desk i)
  pending := (c.workers.toList.map (Worker.backlog o)).sum + c.commons.letters
  halted i := (c.workers[i]?.map Worker.halted).getD false
  fault i := c.workers[i]?.bind Worker.fault

section Scenes

variable {o : Opening N} {c : Cluster N σ} {i : Nat} {w w' : Worker N} {k' : Commons N σ}

/-- The scene of a cluster in which one worker was replaced. -/
theorem Cluster.scene_replace (h : c.workers[i]? = some w) (w' : Worker N) (k' : Commons N σ) :
    ∃ rest, (c.scene o).pending = w.backlog o + rest + c.commons.letters ∧
      (c.replace i w' k').scene o =
        { desk := Function.update (c.scene o).desk i (w'.shown o)
          pending := w'.backlog o + rest + k'.letters
          halted := Function.update (c.scene o).halted i w'.halted
          fault := Function.update (c.scene o).fault i w'.fault } := by
  obtain ⟨rest, hsum, hset⟩ := exists_sum_replace (Worker.backlog o) h
  refine ⟨rest, by rw [scene, hsum], ?_⟩
  have hself : (c.replace i w' k').workers[i]? = some w' := replace_self h
  unfold scene at *
  congr 1
  · funext j
    rcases eq_or_ne j i with rfl | hj
    · rw [hself, Function.update_self]; rfl
    · rw [replace_of_ne hj, Function.update_of_ne hj]
  · rw [hset]; rfl
  · funext j
    rcases eq_or_ne j i with rfl | hj
    · rw [hself, Function.update_self]; rfl
    · rw [replace_of_ne hj, Function.update_of_ne hj]
  · funext j
    rcases eq_or_ne j i with rfl | hj
    · rw [hself, Function.update_self]; rfl
    · rw [replace_of_ne hj, Function.update_of_ne hj]

theorem Cluster.scene_desk (h : c.workers[i]? = some w) : (c.scene o).desk i = w.shown o := by
  simp [scene, h]

theorem Cluster.scene_halted (h : c.workers[i]? = some w) : (c.scene o).halted i = w.halted := by
  simp [scene, h]

theorem Cluster.scene_fault (h : c.workers[i]? = some w) : (c.scene o).fault i = w.fault := by
  simp [scene, h]

/-- **Quiet means done**: when the counter is zero nothing is left to be handled. -/
theorem Cluster.Balanced.scene_pending (hc : c.Balanced) (h : c.commons.pending = 0) :
    (c.scene o).pending = 0 := by
  obtain ⟨hcalm, hletters⟩ := hc.calm h
  have hback : (c.workers.toList.map (Worker.backlog o)).sum = 0 := by
    apply List.sum_eq_zero
    intro b hb
    obtain ⟨w, hw, rfl⟩ := List.mem_map.mp hb
    obtain ⟨i, hi⟩ := List.mem_iff_getElem?.mp hw
    rw [Array.getElem?_toList] at hi
    have hcount := hcalm hi
    have place := (hc.poised hi).placed
    obtain ⟨ha, hq⟩ := place.queue_eq_nil hcount
    -- what counts is gone, so only the queue could be left, and it is empty
    cases hs : w.stance
    all_goals simp_all [Worker.Placed, Worker.backlog, Worker.hand, Worker.counted]
  rw [Multiset.card_eq_zero] at hletters
  rw [scene, hback, hletters, add_zero]

end Scenes

/-! ## 2. Letters -/

/-- Every letter lies in the inbox of the owner of its target. -/
def Commons.Addressed (t : Terrain N σ) (k : Commons N σ) : Prop :=
  ∀ i q, k.inboxes[i]? = some q → ∀ l ∈ q.toList, t.home l.target = i

namespace Commons

omit [Ord N]

variable {t : Terrain N σ} {k : Commons N σ} {i : Nat} {q : Queue (Letter N)} {l : Letter N}

/-- Changing an inbox keeps letters where they belong. -/
theorem Addressed.set (hk : k.Addressed t) {k' : Commons N σ}
    (hk' : k'.inboxes = k.inboxes.setIfInBounds i q) (hq : ∀ l ∈ q.toList, t.home l.target = i) :
    k'.Addressed t := by
  intro j q' hj l hl
  rw [hk', Array.getElem?_setIfInBounds] at hj
  split at hj
  · rename_i hij
    split at hj
    · obtain rfl := Option.some.inj hj
      rw [← hij]
      exact hq l hl
    · exact nomatch hj
  · exact hk j q' hj l hl

end Commons

/-! ## 3. Order among the workers -/

namespace Worker

variable (t : Terrain N σ) (pass : Pass) (o : Opening N) (w : Worker N)

/-- What holds of the edges that a worker has in hand: they are on the way to their owners, and a
worker that waits can begin. -/
def OnCourse : Prop :=
  match w.stance with
  | .waiting => (∀ v ∈ o.seeds w.id, t.home v = w.id) ∧
      Yields (pass.start t.graph) w.desk (.ok (o.seeds w.id)) (o.desk w.id)
  | .posting receiver l _ => receiver = t.home l.target
  | .holding l | .queueing l => t.home l.target = w.id
  | _ => True

/-- What always holds of a worker in a pass that goes well, besides that it is poised. -/
structure Fit : Prop where
  course : w.OnCourse t pass o
  /-- It has edges only to its own states. -/
  owned : ∀ e ∈ w.queue.toList, t.home e.target = w.id

end Worker

section Rules

variable [Std.TransOrd N] [Std.LawfulEqOrd N]
  {t : Terrain N σ} {pass : Pass} {o : Opening N} {w w' : Worker N} {k k' : Commons N σ}
  {memory : σ} {log : Array Event}

/-- **Edges do not get lost on the way**: a turn in which none is handled or dropped only moves
them about. -/
theorem Worker.Moves.backlog_eq {task : Task N σ} {size : Nat}
    (h : w.Moves task k memory log w' k') (hw : w.Poised size) (hsize : k.inboxes.size = size)
    (hwaiting : w.stance ≠ .waiting)
    (hready : w.stance = .ready → w'.stance = .listening ∧ w'.halted = w.halted)
    (hqueueing : ∀ l, w.stance = .queueing l → w.halted = false) :
    w'.backlog o + k'.letters = w.backlog o + k.letters := by
  have place := hw.placed
  cases h with
  | begins hs hrun | fails hs hrun => exact absurd hs hwaiting
  | @handles e q r d hs hh ha hq hr hrun =>
    have hgo := (hready hs).1
    match r with
    | .ok .next | .ok (.expand _ _) | .ok .halt | .error (.fault _) =>
      simp [taken, go, halt, hs] at hgo
    | .error .crash | .error .outOfTurns => exact hr.elim
  | breaks hs hh hq hr hrun => exact absurd (hready hs).1 (by simp [go])
  | stops hs hh ha => exact absurd (hready hs).2 (by simp [go, halt, hh])
  | drains hs hq | rests hs hq | wakes hs hq | quits hs hk | dozes hs hk | leaves hs | settles hs
  | holds hs =>
    simp only [backlog, hand, go, hs]
    rfl
  | routed hs =>
    simp only [backlog, hand, go, hs, Edge.from, List.map_nil]
    rfl
  | @keeps source v rest hs hv =>
    refine congrArg (· + k.letters) ?_
    simp only [backlog, hand, hs, Queue.toList_push, ← Multiset.coe_add, add_assoc]
    rfl
  | addresses hs =>
    simp only [backlog, hand, go, hs]
    rfl
  | @posts receiver l rest hs =>
    simp only [Placed, hs] at place
    have hletters := Commons.letters_deliver (k := k) (i := receiver) (hsize.symm ▸ place.2.2) l
    simp only [backlog, hand, go, hs]
    change _ + (k.deliver receiver l).letters = _
    rw [hletters, ← Multiset.cons_coe, Multiset.add_cons, Multiset.add_cons, Multiset.cons_add]
  | @receives l older newer q hs hq hq' =>
    obtain ⟨q₀, hq₀, hlist⟩ := exists_inbox hq
    have hletters : k.letters = l.edge ::ₘ Commons.letters { k with
        memory := memory, log := log, inboxes := k.inboxes.setIfInBounds w.id q } :=
      Commons.letters_receive hq₀ hlist hq' rfl
    have hhand : w.hand o = [] := by
      rcases hs with hs | hs
      all_goals simp only [hand, hs]
    rw [hletters]
    simp only [backlog, hhand, Multiset.coe_nil, add_zero]
    simp only [hand, go, Multiset.coe_singleton, Multiset.add_cons, add_assoc,
      Multiset.singleton_add]
  | @queues l hs =>
    simp only [backlog, hand, hs, hqueueing l hs, Bool.false_eq_true, if_false,
      Queue.toList_push, ← Multiset.coe_add, Multiset.coe_nil, add_zero]
    rfl
  | stays hs => rfl

namespace Worker.Turns

/-- What a turn never changes. -/
theorem frame (h : w.Turns t pass o k memory log w' k') :
    w'.id = w.id ∧ w'.cursor = w.cursor ∧ k'.lost = k.lost ∧
      (∀ j ∈ k.reports.toList, j ∈ k'.reports.toList) ∧ (w.fault.isSome → w'.fault.isSome) := by
  cases h with
  | @handles e q r d hs hh hq hy hr hg =>
    match r with
    | .ok .next | .ok (.expand _ _) | .ok .halt => exact ⟨rfl, rfl, rfl, fun _ h => h, fun h => h⟩
    | .error (.fault f) => exact ⟨rfl, rfl, rfl, fun _ h => h, fun _ => rfl⟩
    | .error .crash | .error .outOfTurns => exact hr.elim
  | leaves hs => exact ⟨rfl, rfl, rfl, fun j h => by simp_all, fun h => h⟩
  | _ => exact ⟨rfl, rfl, rfl, fun _ h => h, fun h => h⟩

/-- A worker stays fit. -/
theorem fit (h : w.Turns t pass o k memory log w' k') (hw : w.Fit t pass o)
    (hk : k.Addressed t) : w'.Fit t pass o := by
  obtain ⟨course, owned⟩ := hw
  cases h with
  | begins hs =>
    simp only [OnCourse, hs] at course
    refine ⟨trivial, fun e he => ?_⟩
    rw [Queue.toList_append, List.mem_append, List.mem_map] at he
    rcases he with he | ⟨v, hv, rfl⟩
    · exact owned e he
    · exact course.1 v hv
  | @handles e q r d hs hh hq hy hr hg =>
    have hrest : ∀ e ∈ q.toList, t.home e.target = w.id := fun e he =>
      owned e (by rw [hq]; exact List.mem_cons_of_mem _ he)
    rcases r with (_ | _ | _) | (_ | _ | _)
    case error.crash | error.outOfTurns => exact hr.elim
    case ok.next => exact ⟨by simp [OnCourse, taken, hs], hrest⟩
    case ok.expand => exact ⟨trivial, hrest⟩
    case error.fault | ok.halt =>
      exact ⟨by simp [OnCourse, taken, halt, hs], fun e he => absurd he List.not_mem_nil⟩
  | stops hs hh ha => exact ⟨trivial, fun e he => absurd he List.not_mem_nil⟩
  | @keeps source v rest hs hv =>
    refine ⟨trivial, fun e he => ?_⟩
    rw [Queue.toList_push, List.mem_append, List.mem_singleton] at he
    rcases he with he | rfl
    · exact owned e he
    · exact hv
  | addresses hs => exact ⟨rfl, owned⟩
  | @receives l older newer q hs hq hq' =>
    obtain ⟨q₀, hq₀, hlist⟩ := exists_inbox hq
    exact ⟨hk _ _ hq₀ l (by simp [hlist]), owned⟩
  | holds hs =>
    simp only [OnCourse, hs] at course
    exact ⟨course, owned⟩
  | @queues l hs =>
    simp only [OnCourse, hs] at course
    refine ⟨trivial, fun e he => ?_⟩
    cases hh : w.halted with
    | true =>
      simp only [hh] at he
      exact owned e he
    | false =>
      simp only [hh, Bool.false_eq_true, if_false, Queue.toList_push, List.mem_append,
        List.mem_singleton] at he
      rcases he with he | rfl
      · exact owned e he
      · exact course
  | stays hs => exact ⟨course, owned⟩
  | _ => exact ⟨trivial, owned⟩

/-- Letters arrive where they belong. -/
theorem addressed (h : w.Turns t pass o k memory log w' k') (hw : w.Fit t pass o)
    (hsize : k.inboxes.size = t.peers) (hk : k.Addressed t) : k'.Addressed t := by
  cases h with
  | @posts receiver l rest hs =>
    have course := hw.course
    simp only [OnCourse, hs] at course
    subst course
    cases hq : k.inboxes[t.home l.target]? with
    | none =>
      have := Array.getElem?_eq_none_iff.mp hq
      exact absurd (hsize ▸ t.home_lt l.target) (by omega)
    | some q =>
      refine hk.set (Commons.deliver_inboxes hq l) fun l' hl' => ?_
      rw [Queue.toList_push, List.mem_append, List.mem_singleton] at hl'
      rcases hl' with hl' | rfl
      · exact hk _ _ hq l' hl'
      · rfl
  | receives hs hq hq' =>
    obtain ⟨q₀, hq₀, hlist⟩ := exists_inbox hq
    refine hk.set rfl fun l' hl' => hk _ _ hq₀ l' ?_
    rw [hq'] at hl'
    rw [hlist]
    simp only [List.mem_append, List.mem_cons] at hl' ⊢
    exact hl'.imp_right .inr
  | _ => exact hk

/-- A worker that is gone has reported. -/
theorem reported (h : w.Turns t pass o k memory log w' k')
    (hw : w.stance = .gone → w.id ∈ k.reports.toList) (hw' : w'.stance = .gone) :
    w.id ∈ k'.reports.toList := by
  cases h with
  | @handles e q r d hs hh hq hy hr hg =>
    match r with
    | .ok .next | .ok (.expand _ _) | .ok .halt | .error (.fault _) =>
      simp [taken, go, halt, hs] at hw'
    | .error .crash | .error .outOfTurns => exact hr.elim
  | leaves hs => simp
  | stays hs => exact hw hs
  | _ => simp [go] at hw'

/-- A pass is broken off only for a fault. -/
theorem aborted (h : w.Turns t pass o k memory log w' k') (hk : k'.aborted = true) :
    k.aborted = true ∨ w'.fault.isSome := by
  cases h with
  | @handles e q r d hs hh hq hy hr hg =>
    match r with
    | .ok .next | .ok (.expand _ _) | .ok .halt => exact .inl (by simpa [isFault] using hk)
    | .error (.fault f) => exact .inr rfl
    | .error .crash | .error .outOfTurns => exact hr.elim
  | _ => exact .inl hk

end Worker.Turns

/-- What always holds between the workers in a pass that goes well. -/
structure Cluster.Orderly (t : Terrain N σ) (pass : Pass) (o : Opening N) (c : Cluster N σ) :
    Prop where
  balanced : c.Balanced
  size : c.workers.size = t.peers
  cursor : ∀ {i : Nat} {w : Worker N}, c.workers[i]? = some w → w.cursor = o.cursor i
  fit : ∀ {i : Nat} {w : Worker N}, c.workers[i]? = some w → w.Fit t pass o
  addressed : c.commons.Addressed t
  reported : ∀ {i : Nat} {w : Worker N}, c.workers[i]? = some w → w.stance = .gone →
    i ∈ c.commons.reports.toList
  aborted : c.commons.aborted = true →
    ∃ (i : Nat) (w : Worker N), c.workers[i]? = some w ∧ w.fault.isSome

namespace Cluster.Orderly

variable {c : Cluster N σ} {i : Nat}

omit [Std.TransOrd N] [Std.LawfulEqOrd N] in
theorem inboxes (hc : c.Orderly t pass o) : c.commons.inboxes.size = t.peers :=
  hc.balanced.inboxes.trans hc.size

omit [Std.TransOrd N] [Std.LawfulEqOrd N] in
theorem id (hc : c.Orderly t pass o) (hw : c.workers[i]? = some w) : w.id = i := hc.balanced.id hw

omit [Std.TransOrd N] [Std.LawfulEqOrd N] in
theorem placed (hc : c.Orderly t pass o) (hw : c.workers[i]? = some w) : w.Placed t.peers :=
  hc.size ▸ (hc.balanced.poised hw).placed

/-- The order survives a turn of one worker. -/
theorem replace (hc : c.Orderly t pass o) (hw : c.workers[i]? = some w)
    (hm : w.Moves (t.task pass) c.commons memory log w' k')
    (h : w.Turns t pass o c.commons memory log w' k') : (c.replace i w' k').Orderly t pass o := by
  obtain ⟨-, hcursor, hlost, hreports, hfault⟩ := h.frame
  refine
    { balanced := hc.balanced.replace hw hm (hlost.trans hc.balanced.lost)
      size := size_replace.trans hc.size
      cursor := forall_replace (P := fun j v => v.cursor = o.cursor j) hw
        (hcursor.trans (hc.cursor hw)) hc.cursor
      fit := forall_replace (P := fun _ v => v.Fit t pass o) hw (h.fit (hc.fit hw) hc.addressed)
        hc.fit
      addressed := h.addressed (hc.fit hw) hc.inboxes hc.addressed
      reported := forall_replace (P := fun j v => v.stance = .gone → j ∈ k'.reports.toList) hw ?_
        fun hv hs => hreports _ (hc.reported hv hs)
      aborted := fun ha => ?_ }
  · intro hs
    exact hc.id hw ▸ h.reported (fun hs => (hc.id hw).symm ▸ hc.reported hw hs) hs
  · rcases h.aborted ha with hk | hf
    · obtain ⟨j, v, hv, hf⟩ := hc.aborted hk
      rcases eq_or_ne j i with rfl | hj
      · obtain rfl := Option.some.inj (hw.symm.trans hv)
        exact ⟨j, w', replace_self hw, hfault hf⟩
      · exact ⟨j, v, by rw [replace_of_ne hj]; exact hv, hf⟩
    · exact ⟨i, w', replace_self hw, hf⟩

omit [Std.TransOrd N] [Std.LawfulEqOrd N] in
/-- A turn that leaves the worker's desk as it is changes only what is pending. -/
theorem scene_of_frame (hw : c.workers[i]? = some w) (k' : Commons N σ)
    (hshown : w'.shown o = w.shown o) (hhalted : w'.halted = w.halted)
    (hfault : w'.fault = w.fault) :
    ∃ rest, (c.scene o).pending = w.backlog o + rest + c.commons.letters ∧
      (c.replace i w' k').scene o =
        { c.scene o with pending := w'.backlog o + rest + k'.letters } := by
  obtain ⟨rest, hpend, hscene⟩ := scene_replace (o := o) hw w' k'
  refine ⟨rest, hpend, ?_⟩
  rw [hscene, hshown, hhalted, hfault, ← scene_desk hw, ← scene_halted (o := o) hw,
    ← scene_fault (o := o) hw, Function.update_eq_self, Function.update_eq_self,
    Function.update_eq_self]

omit [Std.TransOrd N] [Std.LawfulEqOrd N] in
/-- A turn in which edges only move about leaves the scene as it is. -/
theorem scene_of_moved (hw : c.workers[i]? = some w) (hshown : w'.shown o = w.shown o)
    (hhalted : w'.halted = w.halted) (hfault : w'.fault = w.fault)
    (hback : w'.backlog o + k'.letters = w.backlog o + c.commons.letters) :
    (c.replace i w' k').scene o = c.scene o := by
  obtain ⟨rest, hpend, hscene⟩ := scene_of_frame hw k' hshown hhalted hfault
  rw [hscene, add_right_comm, hback, add_right_comm, ← hpend]

section Tracks

variable {limit : Nat} {P : Multiset N → Scene N → Prop} {X : Multiset N}

/-- Handling an edge keeps what handling edges keeps. -/
theorem tracks_of_handles (hP : Scene.Tracks t pass limit P) (hc : c.Orderly t pass o)
    (hw : c.workers[i]? = some w) (hp : P X (c.scene o)) {e : Edge N} {q : Queue (Edge N)}
    {r : Except Stop (Progress N)} {d : Desk N} (hs : w.stance = .ready) (hh : w.halted = false)
    (hq : w.queue.toList = e :: q.toList) (hy : Yields (handleEdge (t.task pass) e) w.desk r d)
    (hk' : k'.letters = c.commons.letters) (hr : Regular r) :
    P (X + expansions r d)
      ((c.replace i ({ w with queue := q, desk := d }.taken r) k').scene o) := by
  obtain ⟨rest, hpend, hscene⟩ :=
    scene_replace (o := o) hw ({ w with queue := q, desk := d }.taken r) k'
  have howned : ∀ e' ∈ e :: q.toList, t.home e'.target = i := fun e' he' =>
    ((hc.fit hw).owned e' (by rw [hq]; exact he')).trans (hc.id hw)
  have hown : t.home e.target = i := howned e List.mem_cons_self
  have hrest : ∀ e' ∈ (q.toList : Multiset (Edge N)), t.home e'.target = i := fun e' he' =>
    howned e' (List.mem_cons_of_mem e he')
  have hdesk : (c.scene o).desk i = w.desk := by
    rw [scene_desk hw]
    simp only [Worker.shown, hs]
  have hpend : (c.scene o).pending =
      e ::ₘ ((q.toList : Multiset (Edge N)) + (rest + c.commons.letters)) := by
    rw [hpend, Worker.backlog, hq]
    simp only [Worker.hand, hs, Multiset.coe_nil, add_zero, ← Multiset.cons_coe,
      Multiset.cons_add, add_assoc]
  have hlive : (c.scene o).halted (t.home e.target) = false := by
    rw [hown, scene_halted hw, hh]
  obtain ⟨r', d', hy', -, -, hnext⟩ := hP.step hp hpend hlive
  rw [hown, hdesk] at hy'
  obtain ⟨rfl, rfl⟩ := hy.unique hy' c.commons.memory
  rw [hown] at hnext
  rw [hscene, hk']
  have hself : (c.scene o).halted i = false := hown ▸ hlive
  match r with
  | .ok .next =>
    simpa only [Scene.handled, newEdges, Scene.halts, Scene.faultAfter, scene_fault hw,
      hself, Worker.taken, Worker.shown, Worker.backlog, Worker.hand, hs, hh, Multiset.coe_nil,
      add_zero, Bool.or_false, add_assoc] using hnext
  | .ok (.expand source targets) =>
    have hadd : (q.toList : Multiset (Edge N)) + (rest + c.commons.letters) +
        (Edge.from source targets : Multiset (Edge N)) =
        (q.toList : Multiset (Edge N)) + (Edge.from source targets : Multiset (Edge N)) + rest +
          c.commons.letters := by
      rw [add_right_comm, ← add_assoc]
    simpa only [Scene.handled, newEdges, Scene.halts, Scene.faultAfter, scene_fault hw,
      hself, Worker.taken, Worker.go, Worker.shown, Worker.backlog, Worker.hand, hh,
      Bool.or_false, hadd] using hnext
  | .ok .halt | .error (.fault f) =>
    -- the rest of the queue is dropped with the edge
    have hleft : (q.toList : Multiset (Edge N)) + (rest + c.commons.letters) +
        ([] : List (Edge N)) =
        (q.toList : Multiset (Edge N)) + (rest + c.commons.letters) := by
      rw [Multiset.coe_nil, add_zero]
    have hdrop := hP.drop_all (i := i) (by simp [Scene.handled, Scene.halts]) _ hnext hleft hrest
    simpa only [Scene.handled, Scene.halts, Scene.faultAfter, scene_fault hw, Worker.taken,
      Worker.halt, Worker.shown, Worker.backlog, Worker.hand, hs, Queue.toList_empty,
      Multiset.coe_nil, add_zero, zero_add, Bool.or_true] using hdrop
  | .error .crash | .error .outOfTurns => exact hr.elim

/-- A worker that stops after a fault drops what it has queued. -/
theorem tracks_of_stops (hP : Scene.Tracks t pass limit P) (hc : c.Orderly t pass o)
    (hw : c.workers[i]? = some w) (hp : P X (c.scene o)) (hs : w.stance = .ready)
    (ha : c.commons.aborted = true) (hk' : k'.letters = c.commons.letters) :
    P X ((c.replace i (w.halt.go .listening) k').scene o) := by
  obtain ⟨j, v, hv, hf⟩ := hc.aborted ha
  obtain ⟨rest, hpend, hscene⟩ := scene_replace (o := o) hw (w.halt.go .listening) k'
  have hstop := hP.stop (i := i) (j := j) hp (by rw [scene_fault hv]; exact hf)
  have hqueue : (c.scene o).pending =
      (w.queue.toList : Multiset (Edge N)) + (rest + c.commons.letters) := by
    simp only [hpend, Worker.backlog, Worker.hand, hs, Multiset.coe_nil, add_zero, add_assoc]
  have hdrop := hP.drop_all (i := i) (Function.update_self ..) w.queue.toList hstop hqueue
    fun e he => ((hc.fit hw).owned e he).trans (hc.id hw)
  have hdesk : Function.update (c.scene o).desk i ((w.halt.go .listening).shown o) =
      (c.scene o).desk := by
    rw [show (w.halt.go .listening).shown o = w.shown o by
      simp only [Worker.shown, Worker.go, Worker.halt, hs], ← scene_desk hw,
      Function.update_eq_self]
  have hfault : Function.update (c.scene o).fault i (w.halt.go .listening).fault =
      (c.scene o).fault := by
    rw [show (w.halt.go .listening).fault = w.fault from rfl, ← scene_fault (o := o) hw,
      Function.update_eq_self]
  have hback : (w.halt.go .listening).backlog o = 0 := rfl
  rw [hscene, hdesk, hfault, hback, hk', zero_add]
  exact hdrop

/-- A worker that has halted takes a letter only to drop it. -/
theorem tracks_of_drops (hP : Scene.Tracks t pass limit P) (hc : c.Orderly t pass o)
    (hw : c.workers[i]? = some w) (hp : P X (c.scene o)) {l : Letter N}
    (hs : w.stance = .queueing l) (hh : w.halted = true) (hk' : k'.letters = c.commons.letters) :
    P X ((c.replace i { w with stance := .ready } k').scene o) := by
  have course := (hc.fit hw).course
  simp only [Worker.OnCourse, hs] at course
  have hshown : ({ w with stance := .ready } : Worker N).shown o = w.shown o := by
    simp only [Worker.shown, hs]
  obtain ⟨rest, hpend, hscene⟩ := scene_of_frame hw k' hshown rfl rfl
  have hpend : (c.scene o).pending = l.edge ::ₘ
      ((w.queue.toList : Multiset (Edge N)) + rest + c.commons.letters) := by
    rw [hpend]
    simp only [Worker.backlog, Worker.hand, hs, Multiset.coe_singleton,
      ← Multiset.singleton_add, add_assoc, add_left_comm]
  have hdrop := hP.drop hp hpend (by
    rw [show t.home l.edge.target = i from course.trans (hc.id hw), scene_halted hw, hh])
  rw [hscene, hk']
  simp only [Worker.backlog, Worker.hand, Multiset.coe_nil, add_zero]
  exact hdrop

/-- **A turn keeps what handling an edge keeps.** -/
theorem tracks_replace (hP : Scene.Tracks t pass limit P) (hc : c.Orderly t pass o)
    (hw : c.workers[i]? = some w) (hm : w.Moves (t.task pass) c.commons memory log w' k')
    (h : w.Turns t pass o c.commons memory log w' k') (hp : P X (c.scene o)) :
    P (X + w.expands (t.task pass) c.commons) ((c.replace i w' k').scene o) := by
  -- most turns expand nothing and only move edges about
  have same : w.upNext c.commons = none → P X ((c.replace i w' k').scene o) →
      P (X + w.expands (t.task pass) c.commons) ((c.replace i w' k').scene o) := by
    intro hnone hnext
    rwa [Worker.expands_of_none hnone, add_zero]
  have moved : w.upNext c.commons = none → w'.shown o = w.shown o → w'.halted = w.halted →
      w'.fault = w.fault → w'.backlog o + k'.letters = w.backlog o + c.commons.letters →
      P (X + w.expands (t.task pass) c.commons) ((c.replace i w' k').scene o) := by
    intro hnone h₁ h₂ h₃ h₄
    refine same hnone ?_
    rw [scene_of_moved hw h₁ h₂ h₃ h₄]
    exact hp
  have hedges := hm.backlog_eq (o := o) (hc.balanced.poised hw) hc.balanced.inboxes
  cases h with
  | begins hs =>
    refine moved (by simp only [Worker.upNext, hs]) ?_ rfl rfl ?_
    · simp only [Worker.shown, hs]
    · simp only [Worker.backlog, Worker.hand, hs, Queue.toList_append, ← Multiset.coe_add,
        Multiset.coe_nil, add_zero]
      rfl
  | handles hs hh hq hy hr hg ha =>
    obtain ⟨memory', hrun⟩ := hy c.commons.memory
    rw [Worker.expands_of_some (Worker.upNext_eq_some hs hh ha hq) hrun]
    exact tracks_of_handles hP hc hw hp hs hh hq hy rfl hr
  | stops hs hh ha =>
    refine same ?_ (tracks_of_stops hP hc hw hp hs ha rfl)
    simp only [Worker.upNext, hs, ha, Bool.or_true, if_true]
  | @queues l hs =>
    have hnone : w.upNext c.commons = none := by simp only [Worker.upNext, hs]
    by_cases hh : w.halted = true
    · rw [if_pos hh]
      rw [Worker.expands_of_none hnone, add_zero]
      exact tracks_of_drops hP hc hw hp hs hh rfl
    · refine moved hnone ?_ rfl rfl
        (hedges (by simp [hs]) (by simp [hs]) fun _ _ => by simpa using hh)
      simp only [Worker.shown, hs]
  | @receives l older newer q hs hq hq' =>
    rcases hs with hs | hs
    all_goals
      refine moved (by simp only [Worker.upNext, hs]) ?_ rfl rfl
        (hedges (by simp [hs]) (by simp [hs]) (by simp [hs]))
      simp only [Worker.shown, Worker.go, hs]
  | drains hs hq =>
    refine moved ?_ ?_ rfl rfl (hedges (by simp [hs]) (fun _ => ⟨rfl, rfl⟩) (by simp [hs]))
    · rcases hq with hh | hq
      · simp [Worker.upNext, hs, hh]
      · simp [Worker.upNext, hs, hq]
    · simp only [Worker.shown, Worker.go, hs]
  | routed hs | keeps hs | addresses hs | posts hs | rests hs | wakes hs | quits hs | dozes hs
  | leaves hs | settles hs | holds hs =>
    refine moved (by simp only [Worker.upNext, hs]) ?_ rfl rfl
      (hedges (by simp [hs]) (by simp [hs, Worker.go]) (by simp [hs]))
    simp only [Worker.shown, Worker.go, hs]
  | stays hs => exact moved (by simp only [Worker.upNext, hs]) rfl rfl rfl rfl

/-- In a pass that goes well a turn does one of the things that turns do. -/
theorem exists_turns (hP : Scene.Tracks t pass limit P) (hc : c.Orderly t pass o)
    (hp : P X (c.scene o)) (turn : Turn) :
    ∃ w w' k' memory log, c.workers[turn.worker % t.peers]? = some w ∧
      w.Moves (t.task pass) c.commons memory log w' k' ∧
      w.Turns t pass o c.commons memory log w' k' ∧
      c.turn (t.task pass) turn = c.replace (turn.worker % t.peers) w' k' := by
  have hlt : turn.worker % t.peers < c.workers.size := by
    rw [hc.size]
    exact Nat.mod_lt _ t.peers_pos
  obtain ⟨w, hw⟩ : ∃ w, c.workers[turn.worker % t.peers]? = some w :=
    ⟨_, Array.getElem?_eq_getElem hlt⟩
  have hfit := hc.fit hw
  have place := hc.placed hw
  have course := hfit.course
  obtain ⟨memory, log, hmove, hturn⟩ := Worker.turn_turns (t := t) (o := o)
    (w := w) (k := c.commons) turn.pick
    (fun hs => by simp only [Worker.Placed, hs] at place)
    hc.balanced.lost
    ((hc.balanced.poised hw).peers.trans hc.size)
    (fun hs => by simp only [Worker.OnCourse, hs] at course; exact course.2)
    (by
      intro hs hh e q hq
      have hown : t.home e.target = turn.worker % t.peers :=
        (hfit.owned e (by rw [hq]; exact List.mem_cons_self)).trans (hc.id hw)
      obtain ⟨rest, hpend, -⟩ := scene_replace (o := o) hw w c.commons
      rw [Worker.backlog, hq, ← Multiset.cons_coe, Multiset.cons_add, Multiset.cons_add,
        Multiset.cons_add] at hpend
      obtain ⟨r, d, hy, hr, hg, -⟩ := hP.step hp hpend (by rw [hown, scene_halted hw, hh])
      rw [hown, scene_desk hw] at hy hg
      simp only [Worker.shown, hs] at hy hg
      exact ⟨r, d, hy, hr, hg⟩)
  refine ⟨_, _, _, memory, log, hw, hmove, hturn, ?_⟩
  rw [turn_eq, hc.size, hw]
  rfl

theorem tracks_turn (hP : Scene.Tracks t pass limit P) (hc : c.Orderly t pass o)
    (hp : P X (c.scene o)) (turn : Turn) :
    (c.turn (t.task pass) turn).Orderly t pass o ∧
      P (X + c.atTurn (Worker.expands (t.task pass)) turn)
        ((c.turn (t.task pass) turn).scene o) := by
  obtain ⟨w, w', k', memory, log, hw, hm, h, heq⟩ := hc.exists_turns hP hp turn
  have hexpands : c.atTurn (Worker.expands (t.task pass)) turn =
      w.expands (t.task pass) c.commons := by
    rw [atTurn, hc.size, hw]
  rw [heq, hexpands]
  exact ⟨hc.replace hw hm h, hc.tracks_replace hP hw hm h hp⟩

/-- **What handling an edge keeps, a whole superstep keeps**, whoever takes turns when.  The states
that were expanded are all those that its turns expand. -/
theorem tracks_drive (hP : Scene.Tracks t pass limit P) (turns : Nat → Turn) :
    ∀ (left time : Nat) {X : Multiset N} {c : Cluster N σ}, c.Orderly t pass o →
      P X (c.scene o) →
      (c.drive (t.task pass) turns left time).2.2.Orderly t pass o ∧
        P (X + c.gather (Worker.expands (t.task pass)) (t.task pass) turns left time)
          ((c.drive (t.task pass) turns left time).2.2.scene o)
  | 0, _, X, _, hc, hp => ⟨hc, (add_zero X).symm ▸ hp⟩
  | left + 1, time, X, c, hc, hp => by
    rw [Cluster.drive, gather]
    split
    · rw [add_zero]
      exact ⟨hc, hp⟩
    · obtain ⟨hc, hp⟩ := hc.tracks_turn hP hp (turns time)
      rw [← add_assoc]
      exact tracks_drive hP turns left (time + 1) hc hp

end Tracks

variable {limit : Nat} {P : Scene N → Prop}

/-- **What handling an edge keeps, a turn keeps.** -/
theorem turn (hP : Scene.Keeps t pass limit P) (hc : c.Orderly t pass o) (hp : P (c.scene o))
    (turn : Turn) :
    (c.turn (t.task pass) turn).Orderly t pass o ∧ P ((c.turn (t.task pass) turn).scene o) :=
  hc.tracks_turn (X := 0) hP hp turn

/-- **What handling an edge keeps, a whole superstep keeps**, whoever takes turns when. -/
theorem drive (hP : Scene.Keeps t pass limit P) (turns : Nat → Turn) (left time : Nat)
    {c : Cluster N σ} (hc : c.Orderly t pass o) (hp : P (c.scene o)) :
    (c.drive (t.task pass) turns left time).2.2.Orderly t pass o ∧
      P ((c.drive (t.task pass) turns left time).2.2.scene o) :=
  tracks_drive hP turns left time (X := 0) hc hp

omit [Std.TransOrd N] [Std.LawfulEqOrd N] in
/-- When all workers have come to the end, nothing is left to be handled. -/
theorem pending_of_settled (hc : c.Orderly t pass o) (hs : c.isSettled = true) :
    (c.scene o).pending = 0 :=
  hc.balanced.scene_pending (hc.balanced.pending_of_settled hs)

end Cluster.Orderly

end Rules

end FairCycle
