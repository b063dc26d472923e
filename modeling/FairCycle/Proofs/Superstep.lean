/-
# Supersteps as the master sees them

Between supersteps the workers rest: nothing is queued or on its way, and all there is to know of
them is what lies on their desks (`Cluster.Rests`).  A superstep goes from one such state to
another.  To show what it does it is enough to show what the handling of one edge keeps: that is
`meets_superstep`, which the later modules apply pass by pass.
-/
import FairCycle.Proofs.Master
import FairCycle.Proofs.Progress

namespace FairCycle

/-! ## 1. What a reduction counts -/

namespace Ledger

variable {N : Type}

/-- Taking copies in one by one adds up a counter. -/
theorem counter_foldl_absorb (f : Ledger N → Nat) (hf : ∀ l part, f (l.absorb part) = f l + f part)
    (l : Ledger N) (parts : List (Ledger N)) :
    f (parts.foldl absorb l) = f l + (parts.map f).sum := by
  induction parts generalizing l with
  | nil => simp
  | cons part rest ih =>
    rw [List.foldl_cons, ih, hf, List.map_cons, List.sum_cons]
    omega

@[simp] theorem size_reduce (l : Ledger N) (parts : List (Ledger N)) :
    (l.reduce parts).size = (parts.map (·.size)).sum := by
  rw [reduce, counter_foldl_absorb (·.size) fun _ _ => rfl]
  exact Nat.zero_add _

@[simp] theorem states_reduce (l : Ledger N) (parts : List (Ledger N)) :
    (l.reduce parts).states = (parts.map (·.states)).sum := by
  rw [reduce, counter_foldl_absorb (·.states) fun _ _ => rfl]
  exact Nat.zero_add _

@[simp] theorem transitions_reduce (l : Ledger N) (parts : List (Ledger N)) :
    (l.reduce parts).transitions = (parts.map (·.transitions)).sum := by
  rw [reduce, counter_foldl_absorb (·.transitions) fun _ _ => rfl]
  exact Nat.zero_add _

end Ledger

variable {N σ : Type} [Ord N]

/-! ## 2. Clusters at rest -/

/-- The workers rest, with these desks before them. -/
structure Cluster.Rests (t : Terrain N σ) (desk : Nat → Desk N) (cursor : Nat → Nat)
    (c : Cluster N σ) : Prop where
  still : c.Still
  size : c.workers.size = t.peers
  desk : ∀ {i : Nat} {w : Worker N}, c.workers[i]? = some w → w.desk = desk i
  cursor : ∀ {i : Nat} {w : Worker N}, c.workers[i]? = some w → w.cursor = cursor i

namespace Cluster.Rests

variable {t : Terrain N σ} {desk : Nat → Desk N} {cursor : Nat → Nat} {c : Cluster N σ} {i : Nat}
  {w : Worker N}

theorem letters (hc : c.Rests t desk cursor) : c.commons.letters = 0 := hc.still.letters

theorem id (hc : c.Rests t desk cursor) (hw : c.workers[i]? = some w) : w.id = i := hc.still.id hw

theorem queue (hc : c.Rests t desk cursor) (hw : c.workers[i]? = some w) : w.queue.toList = [] :=
  hc.still.queue hw

/-- Writing in the log disturbs nobody. -/
theorem record (hc : c.Rests t desk cursor) (e : Event) : (c.record e).Rests t desk cursor :=
  ⟨{ hc.still with }, hc.size, hc.desk, hc.cursor⟩

end Cluster.Rests

/-- The scene that a pass begins with. -/
def Opening.scene (o : Opening N) (peers : Nat) : Scene N where
  desk := o.desk
  pending := ((List.range peers).map fun i => ((o.seeds i).map Edge.seed : Multiset (Edge N))).sum
  halted _ := false
  fault _ := none

/-- A single seed is given to its home. -/
def Terrain.seedAt (t : Terrain N σ) (v : N) (i : Nat) : List N := if t.home v = i then [v] else []

omit [Ord N] in
theorem Terrain.home_of_mem_seedAt {t : Terrain N σ} {u v : N} {i : Nat} (h : u ∈ t.seedAt v i) :
    t.home u = i := by
  rw [seedAt] at h
  split at h
  · rename_i hv
    rwa [List.mem_singleton.mp h]
  · exact nomatch h

/-- A pass with a single seed begins with that. -/
theorem Opening.pending_seedAt {t : Terrain N σ} {o : Opening N} {v : N}
    (h : o.seeds = t.seedAt v) : (o.scene t.peers).pending = {Edge.seed v} := by
  have hterm : ∀ i, ((o.seeds i).map Edge.seed : Multiset (Edge N)) =
      if t.home v = i then {Edge.seed v} else 0 := by
    intro i
    rw [h, Terrain.seedAt]
    split <;> rfl
  change ∑ i ∈ Finset.range t.peers, ((o.seeds i).map Edge.seed : Multiset (Edge N)) = _
  rw [Finset.sum_congr rfl fun i _ => hterm i, Finset.sum_ite_eq,
    if_pos (Finset.mem_range.mpr (t.home_lt v))]

section Begin

variable {t : Terrain N σ} {pass : Pass} {o : Opening N} {c : Cluster N σ}
  {desk : Nat → Desk N} {cursor : Nat → Nat}

/-- What is read off the workers one by one. -/
theorem Cluster.map_workers {α : Type} {count : Nat} (hsize : c.workers.size = count)
    {f : Worker N → α} {g : Nat → α} (h : ∀ {i w}, c.workers[i]? = some w → f w = g i) :
    c.workers.toList.map f = (List.range count).map g := by
  apply List.ext_getElem?
  intro i
  rw [List.getElem?_map, List.getElem?_map, Array.getElem?_toList, ← hsize]
  rcases Nat.lt_or_ge i c.workers.size with hi | hi
  · rw [List.getElem?_range hi, Array.getElem?_eq_getElem hi, Option.map_some, Option.map_some,
      h (Array.getElem?_eq_getElem hi)]
  · rw [Array.getElem?_eq_none hi, List.getElem?_eq_none (by simpa using hi)]
    rfl

theorem Cluster.Rests.map_workers {α : Type} (hc : c.Rests t desk cursor) {f : Worker N → α}
    {g : Nat → α} (h : ∀ {i w}, c.workers[i]? = some w → f w = g i) :
    c.workers.toList.map f = (List.range t.peers).map g :=
  Cluster.map_workers hc.size h

/-- Resting workers that are armed for a pass are in order. -/
theorem Cluster.Rests.orderly_arm (hc : c.Rests t desk cursor) {l : Ledger N}
    (hopen : ∀ i < t.peers,
      Yields (pass.start t.graph) { desk i with ledger := l.share } (.ok (o.seeds i)) (o.desk i))
    (hseeds : ∀ i, ∀ v ∈ o.seeds i, t.home v = i) (hcursor : o.cursor = cursor) :
    (c.arm l).Orderly t pass o := by
  have hlt : ∀ {i : Nat} {w : Worker N}, c.workers[i]? = some w → i < t.peers := fun hw => by
    rw [← hc.size]
    exact (Array.getElem?_eq_some_iff.mp hw).1
  refine
    { balanced := hc.still.balanced_arm l
      size := by rw [← hc.size]; exact Array.size_map
      cursor := fun hv => ?_
      fit := fun hv => ?_
      addressed := fun i q hq l' hl' => ?_
      reported := fun hv hs => ?_
      aborted := nofun }
  · obtain ⟨w, hw, rfl⟩ := getElem?_arm hv
    change w.cursor = _
    rw [hcursor, hc.cursor hw]
  · obtain ⟨w, hw, rfl⟩ := getElem?_arm hv
    have hid := hc.id hw
    refine ⟨⟨?_, ?_⟩, fun e he => ?_⟩
    · change ∀ v ∈ o.seeds w.id, t.home v = w.id
      exact hseeds w.id
    · change Yields (pass.start t.graph) { w.desk with ledger := l.share } _ _
      rw [hid, hc.desk hw]
      exact hopen _ (hlt hw)
    · rw [show (Worker.queue _).toList = [] from hc.queue hw] at he
      exact nomatch he
  · have hnone := Multiset.card_eq_zero.mpr hc.letters
    have hempty := Commons.letters_eq_zero (k := (c.arm l).commons) hnone hq
    rw [hempty] at hl'
    exact nomatch hl'
  · obtain ⟨w, hw, rfl⟩ := getElem?_arm hv
    simp at hs

/-- The scene of armed workers is the one that the pass begins with. -/
theorem Cluster.Rests.scene_arm (hc : c.Rests t desk cursor) (l : Ledger N) :
    (c.arm l).scene o = o.scene t.peers := by
  have hback : (c.arm l).workers.toList.map (Worker.backlog o) =
      (List.range t.peers).map fun i => ((o.seeds i).map Edge.seed : Multiset (Edge N)) := by
    rw [arm, Array.toList_map, List.map_map]
    refine hc.map_workers fun {i w} hw => ?_
    simp only [Function.comp, Worker.backlog, Worker.hand, hc.queue hw, hc.id hw,
      Multiset.coe_nil, zero_add]
  have hletters : (c.arm l).commons.letters = 0 := hc.letters
  have hall : ∀ i, (c.arm l).workers[i]? = none ∨
      ∃ w : Worker N, (c.arm l).workers[i]? = some w ∧ w.id = i ∧ w.stance = .waiting ∧
        w.halted = false ∧ w.fault = none := by
    intro i
    cases hv : (c.arm l).workers[i]? with
    | none => exact .inl rfl
    | some v =>
      obtain ⟨w, hw, rfl⟩ := getElem?_arm hv
      have hid : w.id = i := hc.id hw
      exact .inr ⟨_, rfl, hid, rfl, rfl, rfl⟩
  unfold scene Opening.scene
  congr 1
  · funext i
    rcases hall i with h | ⟨w, h, hid, hs, -⟩
    · rw [h]; rfl
    · rw [h, Option.map_some, Option.getD_some, Worker.shown, hs, hid]
  · rw [hback, hletters, add_zero]
  · funext i
    rcases hall i with h | ⟨w, h, -, -, hh, -⟩
    · rw [h]; rfl
    · rw [h, Option.map_some, Option.getD_some, hh]
  · funext i
    rcases hall i with h | ⟨w, h, -, -, -, hf⟩
    · rw [h]; rfl
    · rw [h, Option.bind_some, hf]

end Begin

/-! ## 3. The end of a superstep -/

section End

variable {t : Terrain N σ} {pass : Pass} {o : Opening N} {c : Cluster N σ}

theorem Cluster.Orderly.stance_of_settled (hc : c.Orderly t pass o) (hs : c.isSettled = true)
    {i : Nat} {w : Worker N} (hw : c.workers[i]? = some w) : w.stance = .gone := by
  obtain ⟨hi, rfl⟩ := Array.getElem?_eq_some_iff.mp hw
  have hfinal : c.workers[i].stance.isFinal = true := Array.all_eq_true.mp hs i hi
  have place := hc.placed hw
  cases hst : c.workers[i].stance
  all_goals simp_all [Stance.isFinal, Worker.Placed]

/-- Workers that have come to the end rest. -/
theorem Cluster.Orderly.rests (hc : c.Orderly t pass o) (hs : c.isSettled = true) :
    c.Rests t (c.scene o).desk o.cursor where
  still := hc.balanced.still hs
  size := hc.size
  desk hw := by
    rw [scene_desk hw, Worker.shown, hc.stance_of_settled hs hw]
  cursor := hc.cursor

/-- A fault that is reported is one that a worker has met. -/
theorem Cluster.exists_fault {f : Fault} (h : c.firstFault = some f) :
    ∃ i, (c.scene o).fault i = some f := by
  obtain ⟨i, -, hi⟩ := List.exists_of_findSome?_eq_some h
  exact ⟨i, hi⟩

/-- If no fault is reported, no worker has met one. -/
theorem Cluster.Orderly.fault_eq_none (hc : c.Orderly t pass o) (hs : c.isSettled = true)
    (h : c.firstFault = none) (i : Nat) : (c.scene o).fault i = none := by
  rw [firstFault, List.findSome?_eq_none_iff] at h
  cases hw : c.workers[i]? with
  | none => simp [scene, hw]
  | some w =>
    have hf := h i (hc.reported hw (hc.stance_of_settled hs hw))
    rw [scene_fault hw]
    simpa [hw] using hf

end End

/-! ## 4. What a superstep meets -/

section Superstep

variable [Std.TransOrd N] [Std.LawfulEqOrd N]

/-- The plan is to check a terrain. -/
structure Plan.Covers (plan : Plan N σ) (t : Terrain N σ) : Prop where
  graph : plan.graph = t.graph
  reduction : plan.config.reduction = t.reduction
  peers : plan.config.peers = t.peers

omit [Ord N] [Std.TransOrd N] [Std.LawfulEqOrd N] in
theorem Plan.Covers.task {plan : Plan N σ} {t : Terrain N σ} (h : plan.Covers t) (pass : Pass) :
    (⟨plan.graph, plan.config.reduction, pass⟩ : Task N σ) = t.task pass := by
  rw [h.graph, h.reduction]
  rfl

/-- All workers get turns again and again. -/
def Plan.Fair (plan : Plan N σ) : Prop := Turn.Fair plan.config.peers plan.turns

theorem Check.superstep_eq (plan : Plan N σ) (pass : Pass) (r : Run N σ) :
    superstep plan pass r =
      if (driveWorkers plan pass r).cluster.isSettled then
        match (driveWorkers plan pass r).cluster.commons.lost,
          (driveWorkers plan pass r).cluster.firstFault with
        | some worker, _ => (.error (.fault (.workerLost worker)), driveWorkers plan pass r)
        | none, some fault => (.error (.fault fault), driveWorkers plan pass r)
        | none, none => (.ok (), collect (driveWorkers plan pass r))
      else (.error .outOfTurns, driveWorkers plan pass r) := by
  change (if !(driveWorkers plan pass r).cluster.isSettled then
      (throw .outOfTurns : RunM N σ Unit)
    else
      match (driveWorkers plan pass r).cluster.commons.lost,
        (driveWorkers plan pass r).cluster.firstFault with
      | some worker, _ => RunM.fail (.workerLost worker)
      | none, some fault => RunM.fail fault
      | none, none => modify collect) (driveWorkers plan pass r) = _
  cases (driveWorkers plan pass r).cluster.isSettled
  · rfl
  · cases (driveWorkers plan pass r).cluster.commons.lost
    · cases (driveWorkers plan pass r).cluster.firstFault
      · rfl
      · rfl
    · rfl

/-- A superstep without a fault: all workers have come to the end, and nobody was lost. -/
theorem Check.of_superstep_eq_ok {plan : Plan N σ} {pass : Pass} {r r' : Run N σ}
    (h : superstep plan pass r = (.ok (), r')) :
    (driveWorkers plan pass r).cluster.isSettled = true ∧
      (driveWorkers plan pass r).cluster.commons.lost = none ∧
      r' = collect (driveWorkers plan pass r) := by
  rw [superstep_eq] at h
  split at h
  · rename_i hsettled
    split at h
    · exact absurd (Prod.mk.inj h).1 (by simp)
    · exact absurd (Prod.mk.inj h).1 (by simp)
    · rename_i hlost _
      exact ⟨hsettled, hlost, (Prod.mk.inj h).2.symm⟩
  · exact absurd (Prod.mk.inj h).1 (by simp)

/-- The states that the workers expand in a pass, as often as they do. -/
def Check.expanded (plan : Plan N σ) (pass : Pass) (r : Run N σ) : Multiset N :=
  let task : Task N σ := ⟨plan.graph, plan.config.reduction, pass⟩
  (r.cluster.arm r.ledger).gather (Worker.expands task) task plan.turns r.left r.time

/-- What the workers leave at the end of a pass with the invariant `P`. -/
structure Scene.Leaves (t : Terrain N σ) (cursor : Nat → Nat) (P : Scene N → Prop) (r : Run N σ)
    (s : Scene N) (r' : Run N σ) : Prop where
  holds : P s
  done : s.pending = 0
  good : ∀ i, s.fault i = none
  rests : r'.cluster.Rests t s.desk cursor
  ledger : r'.ledger = r.ledger.reduce ((List.range t.peers).map fun i => (s.desk i).ledger)
  generated : r'.generated = r.generated + s.generated t

namespace Scene.Leaves

variable {t : Terrain N σ} {cursor : Nat → Nat} {P : Scene N → Prop} {r r' : Run N σ}
  {s : Scene N}

omit [Std.TransOrd N] [Std.LawfulEqOrd N]

theorem size (h : s.Leaves t cursor P r r') : r'.ledger.size = s.total t (·.size) := by
  rw [h.ledger, Ledger.size_reduce, List.map_map]
  rfl

theorem states (h : s.Leaves t cursor P r r') : r'.ledger.states = s.total t (·.states) := by
  rw [h.ledger, Ledger.states_reduce, List.map_map]
  rfl

theorem transitions (h : s.Leaves t cursor P r r') : r'.ledger.transitions = s.generated t := by
  rw [h.ledger, Ledger.transitions_reduce, List.map_map]
  rfl

/-- A pass that only counts leaves everything but the counters. -/
theorem share (h : s.Leaves t cursor P r r')
    (hs : ∀ i, (s.desk i).ledger.share = r.ledger.share) : r'.ledger.share = r.ledger.share := by
  rw [h.ledger]
  refine Ledger.share_reduce fun part hp => ?_
  obtain ⟨i, -, rfl⟩ := List.mem_map.mp hp
  exact hs i

end Scene.Leaves

section Meets

variable {plan : Plan N σ} {t : Terrain N σ} {pass : Pass} {limit : Nat} {o : Opening N}
  {desk : Nat → Desk N} {r : Run N σ}

omit [Std.TransOrd N] [Std.LawfulEqOrd N] in
/-- From a settled cluster the master reads off what the workers leave. -/
theorem Cluster.Orderly.leaves {P : Scene N → Prop} {r' : Run N σ}
    (hc : r'.cluster.Orderly t pass o) (hp : P (r'.cluster.scene o))
    (hs : r'.cluster.isSettled = true) (hf : r'.cluster.firstFault = none)
    (hl : r'.ledger = r.ledger) (hg : r'.generated = r.generated) :
    (r'.cluster.scene o).Leaves t o.cursor P r (Check.collect r') := by
  have hrests := hc.rests hs
  have hparts : r'.cluster.parts =
      (List.range t.peers).map fun i => ((r'.cluster.scene o).desk i).ledger :=
    hrests.map_workers fun hw => by rw [hrests.desk hw]
  refine ⟨hp, hc.pending_of_settled hs, hc.fault_eq_none hs hf, hrests, ?_, ?_⟩
  · rw [Check.collect, hparts, hl]
  · rw [Check.collect, hparts, hg, Ledger.transitions_reduce, List.map_map]
    rfl

/-- **What handling an edge keeps holds at every moment of a superstep**, also of the states that
were expanded so far. -/
theorem Check.tracks_driveWorkers (hplan : plan.Covers t) {P : Multiset N → Scene N → Prop}
    (hP : Scene.Tracks t pass limit P) (hr : r.cluster.Rests t desk o.cursor)
    (hopen : ∀ i < t.peers, Yields (pass.start t.graph) { desk i with ledger := r.ledger.share }
      (.ok (o.seeds i)) (o.desk i))
    (hseeds : ∀ i, ∀ v ∈ o.seeds i, t.home v = i) (hinit : P 0 (o.scene t.peers)) (left : Nat) :
    (driveWorkers plan pass { r with left := left }).cluster.Orderly t pass o ∧
      P (expanded plan pass { r with left := left })
        ((driveWorkers plan pass { r with left := left }).cluster.scene o) := by
  have hc := hr.orderly_arm hopen hseeds rfl
  have hp : P 0 ((r.cluster.arm r.ledger).scene o) := by rwa [hr.scene_arm]
  have hdrive := Cluster.Orderly.tracks_drive hP plan.turns left r.time hc hp
  rw [zero_add, ← hplan.task pass] at hdrive
  exact hdrive

/-- **What handling an edge keeps holds at the end of a superstep**, also of the states that were
expanded, and a fault that ends it is one that a worker has met on the way. -/
theorem answers_superstep (hplan : plan.Covers t) {P : Multiset N → Scene N → Prop}
    (hP : Scene.Tracks t pass limit P) (hr : r.cluster.Rests t desk o.cursor)
    (hopen : ∀ i < t.peers, Yields (pass.start t.graph) { desk i with ledger := r.ledger.share }
      (.ok (o.seeds i)) (o.desk i))
    (hseeds : ∀ i, ∀ v ∈ o.seeds i, t.home v = i) (hinit : P 0 (o.scene t.peers)) (left : Nat) :
    Answers
      (fun _ r' => ∃ s : Scene N,
        s.Leaves t o.cursor (P (Check.expanded plan pass { r with left := left })) r r')
      (fun f r' => ∃ (s : Scene N) (i : Nat),
        P (Check.expanded plan pass { r with left := left }) s ∧ s.fault i = some f ∧
          r'.cluster.Rests t s.desk o.cursor)
      (Check.superstep plan pass { r with left := left }) := by
  obtain ⟨hc', hp'⟩ := Check.tracks_driveWorkers hplan hP hr hopen hseeds hinit left
  rw [Check.superstep_eq, hc'.balanced.lost]
  split
  · rename_i hs
    cases hf : (Check.driveWorkers plan pass { r with left := left }).cluster.firstFault with
    | none => exact ⟨_, hc'.leaves hp' hs hf rfl rfl⟩
    | some f =>
      obtain ⟨i, hi⟩ := Cluster.exists_fault (o := o) hf
      exact ⟨_, i, hp', hi, hc'.rests hs⟩
  · trivial

/-- **What handling an edge keeps holds at the end of a superstep**, and a fault that ends it is
one that a worker has met on the way.  If all workers get turns again and again it comes to its
end. -/
theorem meets_superstep (hplan : plan.Covers t) {P : Scene N → Prop}
    (hP : Scene.Keeps t pass limit P) (hr : r.cluster.Rests t desk o.cursor)
    (hopen : ∀ i < t.peers, Yields (pass.start t.graph) { desk i with ledger := r.ledger.share }
      (.ok (o.seeds i)) (o.desk i))
    (hseeds : ∀ i, ∀ v ∈ o.seeds i, t.home v = i) (hinit : P (o.scene t.peers)) :
    Meets plan.Fair (Check.superstep plan pass) r
      (fun _ r' => ∃ s : Scene N, s.Leaves t o.cursor P r r')
      (fun f r' => ∃ (s : Scene N) (i : Nat), P s ∧ s.fault i = some f ∧
        r'.cluster.Rests t s.desk o.cursor) := by
  refine ⟨answers_superstep hplan hP hr hopen hseeds hinit, fun hfair => ?_⟩
  have htask := hplan.task pass
  have hc := hr.orderly_arm hopen hseeds rfl
  have hp : P ((r.cluster.arm r.ledger).scene o) := by rwa [hr.scene_arm]
  rw [Plan.Fair, hplan.peers] at hfair
  obtain ⟨n, c', hs, hn⟩ := Cluster.Orderly.settles hP hfair r.time hc hp
  have hdrive : ∀ left, Check.driveWorkers plan pass { r with left := n + left } =
      { r with cluster := c', time := r.time + n, left := left } := by
    intro left
    simp only [Check.driveWorkers, htask, hn left]
  have hlost : c'.commons.lost = none := by
    have h := (Cluster.Orderly.drive hP plan.turns (n + 0) r.time hc hp).1.balanced.lost
    rwa [hn 0] at h
  cases hf : c'.firstFault with
  | none =>
    refine ⟨n, .ok (), Check.collect { r with cluster := c', time := r.time + n }, ?_,
      fun left => ?_⟩
    · intro h
      cases h
    rw [Check.superstep_eq, hdrive left]
    simp only [hs, if_true, hlost, hf]
    rfl
  | some f =>
    refine ⟨n, .error (.fault f), { r with cluster := c', time := r.time + n }, ?_,
      fun left => ?_⟩
    · intro h
      cases h
    rw [Check.superstep_eq, hdrive left]
    simp only [hs, if_true, hlost, hf]

end Meets

end Superstep

end FairCycle
