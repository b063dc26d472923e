/-
# The counterexample

When a state on an accepting cycle is known, the parents that the exploration noted lead from it
back to the initial state, and the parents that a trace notes lead from it once around the cycle.
Two chases read the two paths, the stem and the loop, and every step of them is looked up among the
successors of its source.

`Lasso.Fits` lists what holds of a counterexample.  The only way for its construction to fail is a
step that the full successor list does not have, when the run followed reduced lists.
-/
import FairCycle.Proofs.Trace

namespace FairCycle

variable {N σ : Type} [Ord N]

/-! ## 1. The stem -/

section Stem

variable {t : Terrain N σ} {T : Nat → Table N} {c : N} {k : Handle} {r : Run N σ} {fair : Prop}
  {α : Type} {Q : α → Run N σ → Prop} {F : Fault → Run N σ → Prop}

theorem meets_cycleNode_bind {f : Handle → RunM N σ α} (hk : r.ledger.cycleNode = some k)
    (h : Meets fair (f k) r Q F) : Meets fair (Check.cycleNode >>= f) r Q F := by
  refine .read_bind (fun left => ?_) h
  have hledger : (RunM.ledger : RunM N σ (Ledger N)) { r with left := left } =
      (.ok r.ledger, { r with left := left }) := rfl
  rw [Check.cycleNode, RunM.bind_ok hledger, hk]
  rfl

/-- A chase leaves a run in which a cycle is known. -/
theorem Run.Found.of_stands (h : r.Found t T c) {desk : Nat → Desk N} {cursor : Nat → Nat}
    {r' : Run N σ} (hr' : r'.Stands t desk cursor r.ledger.still r.generated)
    (hT : T = fun i => (desk i).table) : r'.Found t T c where
  rests := ⟨desk, cursor, hr'.rests, hT⟩
  parted := h.parted
  climbs := h.climbs
  counted := by rw [hr'.generated]; exact h.counted
  initial := (congrArg (·.chase.initial) hr'.ledger :).trans h.initial
  node := (congrArg Ledger.cycleNode hr'.ledger :).trans h.node
  held := h.held
  accepting := h.accepting
  onCycle := h.onCycle
  stamps hm := by
    have hround : r'.ledger.round = r.ledger.round := (congrArg Ledger.round hr'.ledger :)
    rw [hround]
    exact h.stamps hm

/-- **The stem is the path along which the exploration came to the cycle state.** -/
theorem meets_stem (h : r.Found t T c) :
    Meets fair Check.stem r
      (fun path r' => Climbs t (fun _ => True) T t.graph.initial path c ∧ r'.Found t T c) F := by
  obtain ⟨desk, cursor, hrests, rfl⟩ := h.rests
  obtain ⟨path, hpath⟩ := h.climbs h.held
  obtain ⟨k, hk⟩ : ∃ k, t.handleOf (fun i => (desk i).table) c = some k := by
    obtain ⟨m, hm, -⟩ := hpath.exists_mark
    exact Terrain.exists_handleOf hm
  obtain ⟨root, hroot⟩ : ∃ root,
      t.handleOf (fun i => (desk i).table) t.graph.initial = some root := by
    obtain ⟨_, -, hinit⟩ := hpath.exists_of_mem (List.mem_of_mem_head? hpath.head?)
    obtain ⟨m, hm, -⟩ := hinit.exists_mark
    exact Terrain.exists_handleOf hm
  refine meets_cycleNode_bind (h.node.trans hk) (.ledger_bind ?_)
  rw [h.initial, hroot]
  refine .get_bind (fun _ => rfl) ?_
  have hlen : path.length ≤ r.generated + 2 + 1 := by
    have hle := hpath.length_le h.parted fun hm _ => h.parted.mem_held.mpr (by rw [hm]; rfl)
    have hcount := h.counted
    omega
  refine (meets_chase h.parted hroot hpath ⟨hrests, rfl, rfl⟩ hk hlen (.inl rfl)).mono ?_
    fun _ _ hf => hf
  rintro _ r' ⟨rfl, hr'⟩
  rw [List.append_nil]
  exact ⟨hpath, h.of_stands hr' rfl⟩

end Stem

/-! ## 2. The loop -/

/-- The states go once around a cycle through `c`. -/
structure Terrain.Circles (t : Terrain N σ) (c : N) (states : List N) : Prop where
  ends : ∃ inner, states = c :: inner ++ [c] ∧ (c :: inner).Nodup
  isChain : states.IsChain t.Edge

section Loop

variable {t : Terrain N σ} {c : N} {k : Handle} {stamp : Nat} {desk : Nat → Desk N}
  {cursor : Nat → Nat} {r : Run N σ}

/-- A path from the cycle state and an edge back to it. -/
theorem Climbs.circles {ok : Mark → Prop} {T : Nat → Table N} {path : List N} {u : N}
    (hT : t.Parted T) (hpath : Climbs t ok T c path u) (hedge : t.Edge u c) :
    t.Circles c (path ++ [c]) := by
  obtain ⟨inner, rfl⟩ : ∃ inner, path = c :: inner :=
    List.head?_eq_some_iff.mp hpath.head?
  refine ⟨⟨inner, rfl, hpath.nodup hT⟩, ?_⟩
  refine hpath.isChain.append (List.isChain_singleton _) fun x hx y hy => ?_
  obtain rfl := Option.some.inj (hpath.getLast?.symm.trans hx)
  obtain rfl := Option.some.inj (hy : some c = some y)
  exact hedge

/-- The states are those on the chain of parents from the state that is the parent of `c`. -/
def Terrain.ClimbsAround (t : Terrain N σ) (ok : Mark → Prop) (T : Nat → Table N) (c : N)
    (states : List N) : Prop :=
  ∃ u m h path, Climbs t ok T c path u ∧ t.Edge u c ∧ t.markOf T c = some m ∧ m.parent = some h ∧
    t.handleOf T u = some h ∧ states = path ++ [c]

/-- A closed chase follows the parents that a trace has noted. -/
theorem Run.Traced.meets_climbsAround {fair : Prop} {F : Fault → Run N σ → Prop}
    (h : r.Traced t stamp c k desk cursor) :
    Meets fair (Check.chain k k true) r
      (fun states _ => t.ClimbsAround (Mark.Bears stamp) (fun i => (desk i).table) c states ∧
        states.length ≤ r.generated + 2) F := by
  obtain ⟨u, m, parent, hu, hedge, hm, hparent, hhandle⟩ := h.closes
  obtain ⟨path, hpath⟩ := h.climbs hu
  have hlen : path.length ≤ r.generated + 1 := by
    have hle := hpath.length_le h.parted fun hm hok => h.parted.mem_stamped.mpr ⟨_, hm, hok⟩
    have hcount := h.counted
    omega
  refine .get_bind (fun _ => rfl) ?_
  rw [Check.chase_eq]
  have hr : r.Stands t desk cursor r.ledger.still r.generated := ⟨h.rests, rfl, rfl⟩
  refine (meets_hop hr h.parted h.root hm).bind ?_
  rintro - r' ⟨rfl, hr'⟩
  -- the first state does not end a closed chase
  rw [if_neg (fun hstop => hstop.2.elim nofun fun hne => hne rfl)]
  dsimp only
  rw [hparent]
  refine (meets_chase h.parted h.root hpath hr' hhandle (Nat.le_succ_of_le hlen)
    (.inr (List.cons_ne_nil _ _))).mono ?_ fun _ _ hf => hf
  rintro _ r'' ⟨rfl, -⟩
  refine ⟨⟨u, m, parent, path, hpath, hedge, hm, hparent, hhandle, rfl⟩, ?_⟩
  rw [List.length_append, List.length_singleton]
  exact Nat.succ_le_succ hlen

/-- A closed chase goes around the cycle that a trace has closed. -/
theorem Run.Traced.meets_chain {fair : Prop} {F : Fault → Run N σ → Prop}
    (h : r.Traced t stamp c k desk cursor) :
    Meets fair (Check.chain k k true) r
      (fun states _ => t.Circles c states ∧ states.length ≤ r.generated + 2) F := by
  refine h.meets_climbsAround.mono ?_ fun _ _ hf => hf
  rintro _ - ⟨⟨u, m, parent, path, hpath, hedge, -, -, -, rfl⟩, hle⟩
  exact ⟨hpath.circles h.parted hedge, hle⟩

variable [Std.TransOrd N] [Std.LawfulEqOrd N] {plan : Plan N σ} {T : Nat → Table N}

omit [Std.TransOrd N] [Std.LawfulEqOrd N] in
theorem Run.Found.exists_handle (h : r.Found t T c) : ∃ k, t.handleOf T c = some k := by
  obtain ⟨m, hm⟩ := Option.isSome_iff_exists.mp (h.parted.mem_held.mp h.held)
  exact Terrain.exists_handleOf hm

/-- In the round that comes next a trace closes a loop. -/
theorem Run.Found.meets_trace [t.Rooted] (hplan : plan.Covers t) (h : r.Found t T c)
    (hk : t.handleOf T c = some k) (left : Nat) :
    Meets plan.Fair (Check.superstep plan .trace)
      { r with ledger := { r.ledger with round := r.ledger.round + 1 }, left := left }
      (fun _ r' => ∃ stamp desk cursor, r'.Traced t stamp c k desk cursor)
      (fun _ _ => False) := by
  obtain ⟨desk, cursor, hrests, rfl⟩ := h.rests
  refine (FairCycle.meets_trace (r := { r with
    ledger := { r.ledger with round := r.ledger.round + 1 }, left := left }) hplan hrests h.parted
    hk (h.node.trans hk) h.stamps h.onCycle).mono ?_ fun _ _ h => h
  rintro - r' ⟨desk', htraced⟩
  exact ⟨_, desk', cursor, htraced⟩

/-- **The loop goes once around a cycle through the cycle state.** -/
theorem meets_loop [t.Rooted] (hplan : plan.Covers t) (h : r.Found t T c) :
    Meets plan.Fair (Check.loop plan) r (fun states _ => t.Circles c states)
      (fun _ _ => False) := by
  obtain ⟨k, hk⟩ := h.exists_handle
  refine meets_cycleNode_bind (h.node.trans hk) ?_
  refine (Meets.note (Q := fun _ r₁ => ∃ left, r₁ = { r with
    ledger := { r.ledger with round := r.ledger.round + 1 }, left := left })
    fun left => ⟨left, rfl⟩).bind ?_
  rintro - _ ⟨left, rfl⟩
  refine (h.meets_trace hplan hk left).bind ?_
  rintro - r' ⟨stamp, desk, cursor, htraced⟩
  exact htraced.meets_chain.mono (fun _ _ h => h.1) fun _ _ h => h

end Loop

/-! ## 3. The trail -/

section Trail

variable [DecidableEq N] {t : Terrain N σ} {r : Run N σ} {fair : Prop}

/-- The place of a step among the successors of its source, counted from one. -/
def Terrain.stepNumber (t : Terrain N σ) (step : N × N) : Nat :=
  (t.promise.successors step.1).idxOf step.2 + 1

theorem meets_successorNumber (step : N × N) (hstep : step.1 ∈ t.states) :
    Meets fair (Check.successorNumber t.graph step.1 step.2) r
      (fun n _ => n = t.stepNumber step ∧ step.2 ∈ t.promise.successors step.1)
      (fun _ _ => step.2 ∉ t.promise.successors step.1) := by
  refine (Meets.demand (t.promise.successors_eq step.1 (t.known step.1 hstep))
    (Q := fun targets _ => targets = t.promise.successors step.1) fun _ _ => rfl).bind ?_
  rintro _ r' rfl
  cases hplace : (t.promise.successors step.1).idxOf? step.2 with
  | some place =>
    refine .pure fun _ => ⟨?_, ?_⟩
    · rw [Terrain.stepNumber, List.idxOf_eq_getD_idxOf?, hplace]
      rfl
    · rw [← List.isSome_idxOf?, hplace]
      rfl
  | none => exact .fail fun _ => List.idxOf?_eq_none_iff.mp hplace

/-- **The trail numbers every step**, if every step is among the successors of its source. -/
theorem meets_trail (steps : List (N × N)) (hsteps : ∀ step ∈ steps, step.1 ∈ t.states) :
    Meets fair (steps.mapM fun step => Check.successorNumber t.graph step.1 step.2) r
      (fun trail _ => trail = steps.map t.stepNumber ∧
        ∀ step ∈ steps, step.2 ∈ t.promise.successors step.1)
      (fun _ _ => ∃ step ∈ steps, step.2 ∉ t.promise.successors step.1) := by
  induction steps generalizing r with
  | nil => exact .pure fun _ => ⟨rfl, fun step h => absurd h List.not_mem_nil⟩
  | cons step steps ih =>
    obtain ⟨hsource, hsources⟩ := List.forall_mem_cons.mp hsteps
    rw [List.mapM_cons]
    refine ((meets_successorNumber step hsource).mono (fun _ _ h => h)
      fun _ _ h => ⟨step, List.mem_cons_self, h⟩).bind ?_
    rintro n r₁ ⟨rfl, hstep⟩
    refine ((ih hsources).mono (fun _ _ h => h) ?_).bind ?_
    · rintro _ _ ⟨other, hmem, hnot⟩
      exact ⟨other, List.mem_cons_of_mem _ hmem, hnot⟩
    · rintro trail r₂ ⟨rfl, hsteps⟩
      exact .pure fun _ => ⟨rfl, List.forall_mem_cons.mpr ⟨hstep, hsteps⟩⟩

end Trail

/-! ## 4. The whole lasso -/

/-- What holds of a counterexample. -/
structure Lasso.Fits [DecidableEq N] (t : Terrain N σ) (x : Lasso N) : Prop where
  starts : x.states.head? = some t.graph.initial
  edges : x.states.IsChain t.Edge
  /-- The cycle state is accepting; the stem comes to no state twice, and the loop to none but the
  cycle state. -/
  turns : ∃ c inner, x.loop = c :: inner ++ [c] ∧ t.accepting c = true ∧ (x.stem ++ [c]).Nodup ∧
    (c :: inner).Nodup
  trail : x.trail = (x.states.zip x.states.tail).map t.stepNumber
  numbered : ∀ step ∈ x.states.zip x.states.tail, step.2 ∈ t.promise.successors step.1

namespace Lasso.Fits

variable [DecidableEq N] {t : Terrain N σ} {x : Lasso N}

omit [Ord N]

omit [DecidableEq N] in
/-- Two states that follow each other make a step. -/
theorem mem_steps {i : Nat} {u v : N} (hu : x.states[i]? = some u)
    (hv : x.states[i + 1]? = some v) :
    (x.states.zip x.states.tail)[i]? = some (u, v) := by
  rw [List.getElem?_zip_eq_some]
  exact ⟨hu, by rw [List.getElem?_tail]; exact hv⟩

theorem trail_eq (h : x.Fits t) {i : Nat} {u v : N} (hu : x.states[i]? = some u)
    (hv : x.states[i + 1]? = some v) :
    v ∈ t.promise.successors u ∧
      x.trail[i]? = some ((t.promise.successors u).idxOf v + 1) := by
  have hstep := mem_steps hu hv
  refine ⟨h.numbered (u, v) (List.mem_of_getElem? hstep), ?_⟩
  rw [h.trail, List.getElem?_map, hstep]
  rfl

theorem edge (h : x.Fits t) {i : Nat} {u v : N} (hu : x.states[i]? = some u)
    (hv : x.states[i + 1]? = some v) : t.Edge u v := by
  obtain ⟨hi, rfl⟩ := List.getElem?_eq_some_iff.mp hu
  obtain ⟨hi', rfl⟩ := List.getElem?_eq_some_iff.mp hv
  exact List.isChain_iff_getElem.mp h.edges i hi'

theorem length_trail (h : x.Fits t) : x.trail.length = x.states.length - 1 := by
  rw [h.trail, List.length_map, List.length_zip, List.length_tail]
  exact Nat.min_eq_right (Nat.sub_le _ _)

end Lasso.Fits

/-- A run along an edge that the full successor list does not have. -/
def Terrain.Strays (t : Terrain N σ) : Prop :=
  ∃ u v, u ∈ t.states ∧ t.Edge u v ∧ v ∉ t.promise.successors u

section Whole

variable {t : Terrain N σ} {c : N}

omit [Ord N] in
/-- What a path from a reachable state goes through is reachable. -/
theorem Terrain.mem_states_of_isChain [t.Rooted] {states : List N} {u : N}
    (hchain : (u :: states).IsChain t.Edge) (hu : u ∈ t.states) :
    ∀ step ∈ (u :: states).zip states, step.1 ∈ t.states ∧ t.Edge step.1 step.2 := by
  induction states generalizing u with
  | nil => exact fun step h => absurd h List.not_mem_nil
  | cons v states ih =>
    rw [List.isChain_cons_cons] at hchain
    intro step hstep
    rcases List.mem_cons.mp hstep with rfl | hstep
    · exact ⟨hu, hchain.1⟩
    · exact ih hchain.2 (Terrain.mem_states_of_edge hu hchain.1) step hstep

variable [DecidableEq N] [Std.TransOrd N] [Std.LawfulEqOrd N] {plan : Plan N σ}
  {T : Nat → Table N} {r : Run N σ}

/-- The lasso of a run that knows a state on a cycle. -/
def Check.build (plan : Plan N σ) : RunM N σ (Lasso N) := do
  let stem := (← stem).dropLast
  let loop ← loop plan
  let states := stem ++ loop
  let trail ← (states.zip states.tail).mapM fun (source, target) =>
    successorNumber plan.graph source target
  RunM.record (.built stem.length (loop.length - 1))
  return ⟨stem, loop, trail⟩

/-- **A stem and a loop put together.** -/
theorem meets_build [t.Rooted] (hplan : plan.Covers t) (h : r.Found t T c) :
    Meets plan.Fair (Check.build plan) r (fun x _ => x.Fits t) (fun _ _ => t.Strays) := by
  refine (meets_stem h).bind ?_
  rintro path r₁ ⟨hpath, hfound⟩
  refine ((meets_loop hplan hfound).mono (fun _ _ h => h) fun _ _ h => h.elim).bind ?_
  rintro loop r₂ hloop
  obtain ⟨inner, rfl, hnodup⟩ := hloop.ends
  obtain ⟨stem, rfl⟩ : ∃ stem, path = stem ++ [c] := List.getLast?_eq_some_iff.mp hpath.getLast?
  rw [List.dropLast_concat]
  generalize hstates : stem ++ (c :: inner ++ [c]) = states
  have hstart : states.head? = some t.graph.initial := by
    rw [← hpath.head?, ← hstates]
    cases stem <;> rfl
  have hchain : states.IsChain t.Edge := by
    have happend : states = (stem ++ [c]) ++ (inner ++ [c]) := by
      rw [← hstates, List.append_assoc]
      rfl
    rw [happend]
    refine hpath.isChain.append (hloop.isChain.tail) fun x hx y hy => ?_
    obtain rfl := Option.some.inj (hpath.getLast?.symm.trans hx)
    have hhead := hloop.isChain
    cases inner with
    | nil =>
      obtain rfl := Option.some.inj (hy : some c = some y)
      exact (List.isChain_cons_cons.mp hhead).1
    | cons z inner =>
      obtain rfl := Option.some.inj (hy : some z = some y)
      exact (List.isChain_cons_cons.mp hhead).1
  obtain ⟨rest, rfl⟩ : ∃ rest, states = t.graph.initial :: rest := List.head?_eq_some_iff.mp hstart
  have hsteps := Terrain.mem_states_of_isChain hchain t.initial_mem
  rw [hplan.graph]
  refine ((meets_trail _ fun step hmem => (hsteps step hmem).1).mono (fun _ _ h => h) ?_).bind ?_
  · rintro _ _ ⟨step, hmem, hnot⟩
    exact ⟨step.1, step.2, (hsteps step hmem).1, (hsteps step hmem).2, hnot⟩
  · rintro trail r₃ ⟨rfl, hnumbered⟩
    refine (Meets.record (Q := fun _ _ => True) fun _ => trivial).bind fun _ _ _ => ?_
    refine .pure fun _ => ?_
    exact
      { starts := by rw [Lasso.states, hstates]; rfl
        edges := by rw [Lasso.states, hstates]; exact hchain
        turns := ⟨c, inner, rfl, h.accepting, hpath.nodup h.parted, hnodup⟩
        trail := by rw [Lasso.states, hstates]; rfl
        numbered := by rw [Lasso.states, hstates]; exact hnumbered }

/-- **The counterexample of a run whose exploration has found a cycle.** -/
theorem meets_counterexample_of_found [t.Rooted] (hplan : plan.Covers t)
    (hfound : r.ledger.cycleFound = true) (h : r.Found t T c) :
    Meets plan.Fair (Check.counterexample plan) r (fun x _ => x.Fits t) (fun _ _ => t.Strays) := by
  refine .ledger_bind ?_
  rw [hfound]
  exact meets_build hplan h

/-- **The counterexample of a run that has accepting candidates left.** -/
theorem meets_counterexample_of_decided [t.Rooted] {name : N → Option Handle}
    (hplan : plan.Covers t) (h : r.Decided t name (t.states.card - 1) T)
    (hsize : r.ledger.size ≠ 0) :
    Meets plan.Fair (Check.counterexample plan) r (fun x _ => x.Fits t) (fun _ _ => t.Strays) := by
  refine .ledger_bind ?_
  rw [h.between.found]
  refine ((meets_findCycle hplan h hsize).mono (fun _ _ h => h) fun _ _ h => h.elim).bind ?_
  rintro - r' ⟨c, hfound⟩
  exact meets_build hplan hfound

end Whole

end FairCycle
