/-
# Shortest counterexamples

The counterexample of a check with a single worker is as short as can be from its cycle state on:
no path from the initial state to the cycle state has fewer edges than the stem, and no cycle
through that state has fewer edges than the loop (`lasso_shortest`).  It does not matter how the
cycle state was found.

The stem is read off the parents that the exploration has noted.  They stay until the trace begins,
so it is enough that they lie on shortest paths at the end of the exploration.  The loop is read off
the parents that the trace notes.
-/
import FairCycle.Proofs.Layered
import FairCycle.Proofs.Lineage

namespace FairCycle

variable {N σ : Type} [Ord N]

/-! ## 1. The exploration -/

section Explore

variable [Std.TransOrd N] [Std.LawfulEqOrd N] {t : Terrain N σ} {plan : Plan N σ}

omit [Ord N] [Std.TransOrd N] [Std.LawfulEqOrd N] in
theorem Terrain.seeds_of_one (hone : t.peers = 1) (v : N) :
    (t.seedAt v 0).map Edge.seed = [Edge.seed v] := by
  simp [seedAt, Terrain.home_eq_zero hone]

omit [Std.LawfulEqOrd N] in
/-- The exploration begins with the initial state in line. -/
theorem Terrain.charts_opening (hone : t.peers = 1) :
    t.Charts false ((t.opening.seeds 0).map Edge.seed) (t.opening.scene t.peers).tables := by
  rw [show t.opening.seeds 0 = t.seedAt t.graph.initial 0 from rfl, Terrain.seeds_of_one hone]
  constructor
  · refine .start (Set.eq_empty_of_forall_notMem ?_)
    rintro v ⟨m, hm, -⟩
    exact absurd ((Terrain.markOf_empty v).symm.trans hm) (by simp)
  · intro u v h k hu
    obtain ⟨m, hm⟩ := Terrain.exists_markOf hu
    exact absurd ((Terrain.markOf_empty u).symm.trans hm) (by simp)

/-- At every moment of an exploration its edges are in line. -/
theorem Check.exploring_inLine [t.Rooted] (hone : t.peers = 1) (hplan : plan.Covers t)
    (memory : σ) (time : Nat) : (exploring plan memory time).InLine t.opening t.Charts := by
  have hrests := Run.rests_begin hplan memory time
  have horderly := hrests.orderly_arm (l := {}) (o := t.opening)
    (fun i _ => yields_start_explore rfl rfl) (fun i v hv => Terrain.home_of_mem_seedAt hv) rfl
  have hstart : Exploring t (((Run.begin plan.config memory time : Run N σ).cluster.arm {}).scene
      t.opening) := by
    rw [hrests.scene_arm]
    exact .start rfl fun _ => rfl
  have hline := hrests.inLine_arm {} (Terrain.charts_opening hone)
  have hdrive := horderly.inLine_drive hone (Exploring.keeps t) (Exploring.follows hone) plan.turns
    time 0 hstart hline
  rw [← hplan.task] at hdrive
  exact hdrive

/-- **At the end of the exploration all parents lie on shortest paths.** -/
theorem Check.climbs_of_explore [t.Rooted] (hone : t.peers = 1) (hplan : plan.Covers t)
    {memory : σ} {limit : Nat} {stats : Stats} {r : Run N σ}
    (h : explore plan (Run.begin plan.config memory limit) = (.ok stats, r)) :
    ∃ T, r.cluster.Shelved t T ∧ ∀ {v path},
      Climbs t (fun _ => True) T t.graph.initial path v →
        path.length = depth t.Edge t.graph.initial v + 1 := by
  obtain ⟨⟨⟩, r', hstep, h⟩ := exists_of_bind_eq_ok h
  obtain ⟨s, hleaves, halted, hcharts⟩ := inLine_superstep hone hplan (Exploring.keeps t)
    (Exploring.follows hone) (o := t.opening) (Run.rests_begin hplan memory limit)
    (fun i _ => yields_start_explore rfl rfl) (fun i v hv => Terrain.home_of_mem_seedAt hv)
    (.start rfl fun _ => rfl) (Terrain.charts_opening hone) hstep
  have hparted := hleaves.holds.parted
  have hshelved : r'.cluster.Shelved t s.tables := hleaves.rests.shelved hparted
  have htables : r.cluster.tables = r'.cluster.tables := by
    rw [RunM.ledger_bind, RunM.record_bind] at h
    dsimp only at h
    split at h
    · obtain ⟨-, rfl⟩ := Prod.mk.inj h
      rfl
    · obtain ⟨-, rfl⟩ := Prod.mk.inj h
      rfl
  refine ⟨s.tables, ⟨hparted, htables.trans hshelved.tables⟩, fun {v path} hpath => ?_⟩
  obtain ⟨m, hm, hok⟩ := hpath.exists_mark
  obtain ⟨path', hpath', hlen⟩ := hcharts.searched.climbs ⟨m, hm, hok⟩
  rw [hpath.unique hparted hpath', hlen]

omit [Std.TransOrd N] [Std.LawfulEqOrd N] in
/-- Where deeper states have higher slots, states stand in the order of their distances. -/
theorem Cluster.Shelved.distances_le [t.Rooted] {T : Nat → Table N} {c : Cluster N σ} {i j : Nat}
    {u v : N} (hc : c.Shelved t T) (ho : t.Ordered t.graph.initial T) (hle : i ≤ j)
    (hu : c.StoresAt 0 i u) (hv : c.StoresAt 0 j v) :
    ∃ m n, IsLeast {n | Walk t.Edge t.graph.initial n u} m ∧
      IsLeast {n | Walk t.Edge t.graph.initial n v} n ∧ m ≤ n := by
  have hstored : ∀ {slot x}, c.StoresAt 0 slot x →
      (∃ h, t.handleOf T x = some h ∧ h.slot.toNat = slot) ∧
        IsLeast {n | Walk t.Edge t.graph.initial n x} (depth t.Edge t.graph.initial x) := by
    intro slot x hx
    obtain ⟨hpos, hnode⟩ := hc.storesAt_iff.mp hx
    obtain ⟨hhome, hmem⟩ := hc.stored hx
    constructor
    · refine ⟨(T 0).handle slot, ?_, (hc.parted.fits hpos).handle_slot (Table.slot_lt hnode)⟩
      rw [Terrain.handleOf, hhome]
      exact Table.find?_eq_some_iff.mpr ⟨slot, hnode, rfl⟩
    · obtain ⟨n, hn⟩ := exists_walk (t.mem_states.mp hmem)
      exact isLeast_depth hn
  obtain ⟨⟨h, hh, rfl⟩, hleast⟩ := hstored hu
  obtain ⟨⟨k, hk, rfl⟩, hleast'⟩ := hstored hv
  exact ⟨_, _, hleast, hleast', ho u v h k hh hk hle⟩

end Explore

/-! ## 2. Parents that stay -/

section Stay

variable {t : Terrain N σ} {T T' : Nat → Table N} {c c' : Cluster N σ} {root v : N} {path : List N}

/-- Where the same parents are noted there are the same chains of parents. -/
theorem Climbs.of_shown (hpath : Climbs t (fun _ => True) T root path v) (hc : c.Shelved t T)
    (hc' : c'.Shelved t T')
    (hsame : c'.tables.map (·.mapMarks Mark.lineage) = c.tables.map (·.mapMarks Mark.lineage)) :
    Climbs t (fun _ => True) T' root path v := by
  have htable : ∀ {i}, i < t.peers →
      (T' i).mapMarks Mark.lineage = (T i).mapMarks Mark.lineage := by
    intro i hi
    have hget := congrArg (·[i]?) hsame
    simp only [List.getElem?_map, hc.getElem?_tables.mpr ⟨hi, rfl⟩,
      hc'.getElem?_tables.mpr ⟨hi, rfl⟩, Option.map_some] at hget
    exact Option.some.inj hget
  refine hpath.transfer (fun {x m} hm _ => ?_) fun {x h} hx => ?_
  · have hmark := congrArg (Table.markOf · x) (htable (t.home_lt x))
    simp only [Table.markOf_mapMarks] at hmark
    rw [show (T (t.home x)).markOf x = some m from hm, Option.map_some,
      Option.map_eq_some_iff] at hmark
    obtain ⟨m', hm', hlineage⟩ := hmark
    exact ⟨m', hm', trivial, .inr (congrArg Mark.parent hlineage :)⟩
  · have hfind := congrArg (Table.find? · x) (htable (t.home_lt x))
    exact hfind.trans hx

end Stay

/-! ## 3. The trace -/

section Trace

variable [Std.TransOrd N] [Std.LawfulEqOrd N] {t : Terrain N σ} {plan : Plan N σ}
  {T : Nat → Table N} {c : N} {k : Handle} {r r' : Run N σ}

/-- **The trace of a worker alone closes a shortest cycle.** -/
theorem Check.returns_of_trace [t.Rooted] (hone : t.peers = 1) (hplan : plan.Covers t)
    {desk : Nat → Desk N} {cursor : Nat → Nat} (hr : r.cluster.Rests t desk cursor)
    (hT : t.Parted fun i => (desk i).table)
    (hk : t.handleOf (fun i => (desk i).table) c = some k) (hnode : r.ledger.cycleNode = some k)
    (hstamps : ∀ {v m}, t.markOf (fun i => (desk i).table) v = some m →
      ¬m.Bears (r.ledger.round.toNat % 2 ^ 15))
    (hcycle : t.OnCycle c) (htrace : superstep plan .trace r = (.ok (), r')) :
    ∃ desk', r'.Traced t (r.ledger.round.toNat % 2 ^ 15) c k desk' cursor ∧
      t.Returns (Mark.Bears (r.ledger.round.toNat % 2 ^ 15)) c fun i => (desk' i).table := by
  have hline : t.Searched (Mark.Bears (r.ledger.round.toNat % 2 ^ 15)) c True false
      ((t.seedAt c 0).map Edge.seed) fun i => (desk i).table := by
    rw [Terrain.seeds_of_one hone]
    refine .start (Set.eq_empty_of_forall_notMem ?_)
    rintro v ⟨m, hm, hbears⟩
    exact hstamps hm hbears
  obtain ⟨s, hleaves, halted, hsearched⟩ := inLine_superstep hone hplan
    (Tracing.keeps (t := t) (c := c) (l := r.ledger.share) rfl hnode) (Tracing.follows rfl hnode)
    (o := t.tracing c desk cursor r.ledger) hr (yields_start_trace hT hk hnode)
    (fun i v hv => Terrain.home_of_mem_seedAt hv)
    (Tracing.start_of_parted rfl hT rfl (fun _ => rfl) rfl hk hstamps) hline htrace
  exact ⟨s.desk, hleaves.traced hcycle, hsearched.returns_of_done trivial hcycle⟩

omit [Std.TransOrd N] [Std.LawfulEqOrd N] in
/-- The chase around the cycle collects a shortest one. -/
theorem Run.Traced.isLeast_loop {stamp : Nat} {desk : Nat → Desk N} {cursor : Nat → Nat}
    (h : r.Traced t stamp c k desk cursor)
    (hreturns : t.Returns (Mark.Bears stamp) c fun i => (desk i).table) {loop : List N}
    (hchain : Check.chain k k true r = (.ok loop, r')) :
    loop.head? = some c ∧ IsLeast {n | 0 < n ∧ Walk t.Edge c n c} (loop.length - 1) := by
  have hmeets : Meets True (Check.chain k k true) r
      (fun states _ => t.ClimbsAround (Mark.Bears stamp) (fun i => (desk i).table) c states ∧
        states.length ≤ r.generated + 2) (fun _ _ => False) := h.meets_climbsAround
  have hanswers := hmeets.answers_self
  rw [hchain] at hanswers
  obtain ⟨⟨u, m, parent, path, hpath, -, hm, hparent, hu, rfl⟩, -⟩ := hanswers
  obtain ⟨u', m', parent', path', hpath', hm', hparent', hu', hleast⟩ := hreturns
  -- parents are unique, so this is the cycle that the trace has closed
  obtain rfl := Option.some.inj (hm.symm.trans hm')
  obtain rfl := Option.some.inj (hparent.symm.trans hparent')
  obtain rfl := h.parted.handle_inj hu hu'
  obtain rfl := hpath.unique h.parted hpath'
  constructor
  · rw [List.head?_append, hpath.head?]
    rfl
  · simpa using hleast

end Trace

/-! ## 4. The lasso -/

section Lasso

variable [Std.TransOrd N] [Std.LawfulEqOrd N] [DecidableEq N] {t : Terrain N σ} {plan : Plan N σ}
  {memory : σ} {limit : Nat} {r r₁ r₂ : Run N σ}

/-- A report with a lasso comes of a run that was to build one. -/
theorem Check.exists_build [t.Rooted] (hplan : plan.Covers t) {report : Report N} {x : Lasso N}
    (h : run plan { cluster := .create plan.config.peers memory, left := limit } = (.ok report, r))
    (hx : report.lasso = some x) :
    ∃ stats r₁ n l r₂ r₃, explore plan (Run.begin plan.config memory limit) = (.ok stats, r₁) ∧
      approach plan r₁ = (.ok (n, l, true), r₂) ∧ build plan r₂ = (.ok x, r₃) := by
  rcases run_cases hplan memory limit with ⟨r', hout⟩ | ⟨stats, r₁, -, hexplore, hrun, -⟩
  · exact absurd (congrArg Prod.fst (hout.symm.trans h)) (by simp)
  · rw [h, conclude_eq] at hrun
    obtain ⟨⟨n, l, wanted⟩, r₂, happroach, hcomplete⟩ := exists_of_bind_eq_ok hrun.symm
    unfold complete at hcomplete
    cases wanted with
    | false =>
      rw [if_neg Bool.false_ne_true, pure_bind] at hcomplete
      obtain ⟨hok, -⟩ := Prod.mk.inj hcomplete
      rw [← Except.ok.inj hok] at hx
      exact absurd hx (by simp)
    | true =>
      rw [if_pos rfl, map_eq_pure_bind, bind_assoc] at hcomplete
      obtain ⟨x', r₃, hbuild, hfinish⟩ := exists_of_bind_eq_ok hcomplete
      obtain ⟨hok, -⟩ := Prod.mk.inj hfinish
      rw [← Except.ok.inj hok] at hx
      obtain rfl := Option.some.inj hx
      exact ⟨stats, r₁, n, l, r₂, r₃, hexplore, happroach, hbuild⟩

/-- The parts of a lasso: the states on the way to the cycle state, and those that a chase after a
trace collects. -/
theorem Check.of_build {x : Lasso N} (h : build plan r₂ = (.ok x, r)) :
    ∃ path loop r₃ r₄, stem r₂ = (.ok path, r₃) ∧ Check.loop plan r₃ = (.ok loop, r₄) ∧
      x.stem = path.dropLast ∧ x.loop = loop := by
  unfold build at h
  obtain ⟨path, r₃, hstem, h⟩ := exists_of_bind_eq_ok h
  obtain ⟨loop, r₄, hloop, h⟩ := exists_of_bind_eq_ok h
  obtain ⟨trail, r₅, -, h⟩ := exists_of_bind_eq_ok h
  rw [RunM.record_bind] at h
  obtain ⟨hok, -⟩ := Prod.mk.inj h
  obtain rfl := Except.ok.inj hok
  exact ⟨path, loop, r₃, r₄, hstem, hloop, rfl, rfl⟩

omit [Std.TransOrd N] [Std.LawfulEqOrd N] [DecidableEq N] in
/-- **The stem is a shortest path.** -/
theorem Run.Found.length_stem [t.Rooted] {T T' : Nat → Table N} {c : N} {path : List N}
    {c₁ : Cluster N σ} (h : r.Found t T c)
    (hsame : r.cluster.tables.map (·.mapMarks Mark.lineage) =
      c₁.tables.map (·.mapMarks Mark.lineage))
    (hc₁ : c₁.Shelved t T')
    (hshort : ∀ {v path}, Climbs t (fun _ => True) T' t.graph.initial path v →
      path.length = depth t.Edge t.graph.initial v + 1)
    (hstem : Check.stem r = (.ok path, r₁)) :
    r₁.Found t T c ∧ IsLeast {n | Walk t.Edge t.graph.initial n c} path.dropLast.length := by
  have hmeets : Meets True Check.stem r
      (fun path r' => Climbs t (fun _ => True) T t.graph.initial path c ∧ r'.Found t T c)
      (fun _ _ => False) := meets_stem h
  have hanswers := hmeets.answers_self
  rw [hstem] at hanswers
  obtain ⟨hpath, hfound⟩ := hanswers
  refine ⟨hfound, ?_⟩
  obtain ⟨desk, cursor, hrests, rfl⟩ := h.rests
  have hlen := hshort (hpath.of_shown (hrests.shelved h.parted) hc₁ hsame.symm)
  have hreach : t.Reaches t.graph.initial c := t.mem_states.mp (Finset.mem_filter.mp h.held).1
  obtain ⟨n, hn⟩ := exists_walk hreach
  rw [List.length_dropLast, hlen, Nat.add_sub_cancel]
  exact isLeast_depth hn

omit [DecidableEq N] in
/-- **The loop is a shortest cycle.** -/
theorem Run.Found.length_loop [t.Rooted] (hone : t.peers = 1) (hplan : plan.Covers t)
    {T : Nat → Table N} {c : N} {loop : List N} (h : r.Found t T c)
    (hloop : Check.loop plan r = (.ok loop, r₁)) :
    loop.head? = some c ∧ IsLeast {n | 0 < n ∧ Walk t.Edge c n c} (loop.length - 1) := by
  obtain ⟨k, hk⟩ := h.exists_handle
  have hnode : r.ledger.cycleNode = some k := h.node.trans hk
  have hcycleNode : Check.cycleNode r = (.ok k, r) := by
    rw [Check.cycleNode, RunM.ledger_bind, hnode]
    rfl
  unfold Check.loop at hloop
  rw [RunM.bind_ok hcycleNode] at hloop
  obtain ⟨⟨⟩, r', hnote, hloop⟩ := exists_of_bind_eq_ok hloop
  obtain ⟨-, rfl⟩ := Prod.mk.inj hnote
  obtain ⟨⟨⟩, r₄, htrace, hchain⟩ := exists_of_bind_eq_ok hloop
  obtain ⟨desk, cursor, hrests, rfl⟩ := h.rests
  obtain ⟨desk', htraced, hreturns⟩ :=
    Check.returns_of_trace (r := { r with
      ledger := { r.ledger with round := r.ledger.round + 1 } }) hone hplan hrests h.parted hk hnode
      h.stamps h.onCycle htrace
  exact htraced.isLeast_loop hreturns hchain

/-- **With a single worker counterexamples are shortest.**  The stem is a shortest path from the
initial state to the cycle state, with which the loop begins, and the loop is a shortest cycle
through it.  At every moment of the exploration the states stand in the table in the order of their
distances from the initial state. -/
theorem lasso_shortest {g : Graph N σ} (p : g.Promise) {config : Config}
    (hone : config.peers = 1) (hfew : (p.reachable config.reduction).encard < 2 ^ 32 - 1)
    (turns : Nat → Turn) (memory : σ) :
    (∀ limit report x, (checkInTurns g config turns limit memory).1 = .ok report →
      report.lasso = some x →
      ∃ c, x.loop.head? = some c ∧
        IsLeast {n | Walk (p.Edge config.reduction) g.initial n c} x.stem.length ∧
        IsLeast {n | 0 < n ∧ Walk (p.Edge config.reduction) c n c} (x.loop.length - 1)) ∧
    ∀ time i j u v, i ≤ j →
      (Check.exploring ⟨g, config, turns⟩ memory time).StoresAt 0 i u →
      (Check.exploring ⟨g, config, turns⟩ memory time).StoresAt 0 j v →
      ∃ m n, IsLeast {n | Walk (p.Edge config.reduction) g.initial n u} m ∧
        IsLeast {n | Walk (p.Edge config.reduction) g.initial n v} n ∧ m ≤ n := by
  have hworkers : config.workers ≤ 2 ^ 32 := by
    have hle : config.workers ≤ config.peers := le_max_left _ _
    omega
  let t := p.terrain config hworkers hfew
  have hplan : (⟨g, config, turns⟩ : Plan N σ).Covers t := ⟨rfl, rfl, rfl⟩
  have hpeers : t.peers = 1 := hone
  constructor
  · intro limit report x hreport hx
    obtain ⟨stats, r₁, n, l, r₂, r₃, hexplore, happroach, hbuild⟩ :=
      Check.exists_build hplan (Prod.ext hreport rfl) hx
    obtain ⟨T₁, hshelved, hshort⟩ := Check.climbs_of_explore hpeers hplan hexplore
    obtain ⟨H, hfrozen⟩ := Check.frozen_approach hplan hexplore
    replace happroach : Check.approach ⟨g, config, turns⟩ { r₁ with left := r₁.left } =
      (.ok (n, l, true), r₂) := happroach
    obtain ⟨T, c, hfound⟩ := Check.found_of_approach hplan hexplore happroach
    obtain ⟨path, loop, r₄, r₅, hstem, hloop, hxstem, hxloop⟩ := Check.of_build hbuild
    have hshows := (hfrozen r₁.left).shows
    rw [happroach] at hshows
    obtain ⟨hfound', hleast⟩ := hfound.length_stem hshows hshelved hshort hstem
    obtain ⟨hhead, hcycle⟩ := hfound'.length_loop hpeers hplan hloop
    rw [hxstem, hxloop]
    exact ⟨c, hhead, hleast, hcycle⟩
  · intro time i j u v hle hu hv
    obtain ⟨hc, -, hs⟩ := Check.exploring_explores hplan memory time
    have hshelved := hc.shelved (by decide) hs.parted
    obtain ⟨w, -, -, hcharts⟩ := (Check.exploring_inLine hpeers hplan memory time).worker
    exact hshelved.distances_le hcharts.ordered hle hu hv

/-- Three states, `0 → 1 → 2 → 0` and `2 → 1`, of which the last is accepting. -/
def chorded : Graph (Fin 3) Unit := .ofThree [[1], [2], [0, 1]] [2]

def chordedPromise : chorded.Promise := .ofThree ..

/-- From the last of the three states two cycles go out.  The first edge that the worker takes from
there belongs to the longer one. -/
theorem lasso_shortest_chorded :
    ∃ report x, (checkInTurns chorded { workers := 1 } Turn.roundRobin 300 ()).1 = .ok report ∧
      report.lasso = some x ∧ x.stem = [0, 1] ∧ x.loop = [2, 1, 2] ∧
      IsLeast {n | Walk (chordedPromise.Edge false) 0 n 2} 2 ∧
      IsLeast {n | 0 < n ∧ Walk (chordedPromise.Edge false) 2 n 2} 2 ∧
      (Check.exploring ⟨chorded, { workers := 1 }, Turn.roundRobin⟩ () 30).StoresAt 0 1 1 ∧
      (Check.exploring ⟨chorded, { workers := 1 }, Turn.roundRobin⟩ () 30).StoresAt 0 2 2 ∧
      ∃ m, IsLeast {n | Walk (chordedPromise.Edge false) 0 n 1} m ∧ m ≤ 2 := by
  have hrun : (checkInTurns chorded { workers := 1 } Turn.roundRobin 300 ()).1 =
      .ok ⟨⟨.no, .yes, .cycle, ⟨3, 4, 1, 1, [3]⟩⟩, some ⟨[0, 1], [2, 1, 2], [1, 1, 2, 1]⟩⟩ := by
    decide +kernel
  let c := Check.exploring ⟨chorded, { workers := 1 }, Turn.roundRobin⟩ () 30
  have hstores : ∀ slot : Fin 3, c.StoresAt 0 slot slot := by
    have hnodes : ∀ slot : Fin 3, c.tables[0]?.bind (·.nodes[(slot : Nat)]?) = some slot := by
      decide +kernel
    exact fun slot => Option.bind_eq_some_iff.mp (hnodes slot)
  obtain ⟨hlasso, hslots⟩ := lasso_shortest chordedPromise
    (show ({ workers := 1 } : Config).peers = 1 by decide) (encard_lt_of_three _) Turn.roundRobin ()
  obtain ⟨u, hu, hstem, hloop⟩ := hlasso 300 _ _ hrun rfl
  obtain rfl := Option.some.inj hu
  obtain ⟨m, n, hm, hn, hle⟩ := hslots 30 1 2 1 2 (by decide) (hstores 1) (hstores 2)
  rw [hn.unique hstem] at hle
  exact ⟨_, _, hrun, rfl, rfl, rfl, hstem, hloop, hstores 1, hstores 2, m, hm, hle⟩

end Lasso

end FairCycle
