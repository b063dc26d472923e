/-
# What is stored and what is counted

At every moment of a run each state that is stored is a reachable one, at one slot of the table of
its home (`Cluster.Shelved.stored_once`).  A check that returns a report has gone through an
exploration, and the figures of the report are those of the states that it has stored.  If the
exploration was complete then these are all reachable states, and remain so to the end of the run
(`Check.Course.custody`); otherwise they are some of them.
-/
import FairCycle.Proofs.Custody
import FairCycle.Proofs.Verdict

namespace FairCycle

variable {N σ : Type} [Ord N]

/-! ## 1. Reading the tables of a cluster -/

section Tables

variable {t : Terrain N σ} {T : Nat → Table N} {c : Cluster N σ} {i slot : Nat} {v : N}

/-- The state `v` stands in a slot of the table of worker `i`. -/
def Cluster.StoresAt (c : Cluster N σ) (i slot : Nat) (v : N) : Prop :=
  ∃ table, c.tables[i]? = some table ∧ table.nodes[slot]? = some v

/-- One of the tables has `m` as the mark of `v`. -/
def Cluster.Marks (c : Cluster N σ) (v : N) (m : Mark) : Prop :=
  ∃ table ∈ c.tables, (v, m) ∈ table.entries

/-- The tables of the workers are `T`, and the states are where they belong. -/
structure Cluster.Shelved (t : Terrain N σ) (T : Nat → Table N) (c : Cluster N σ) : Prop where
  parted : t.Parted T
  tables : c.tables = (List.range t.peers).map T

namespace Cluster.Shelved

theorem getElem?_tables (hc : c.Shelved t T) {table : Table N} :
    c.tables[i]? = some table ↔ i < t.peers ∧ T i = table := by
  rw [hc.tables, List.getElem?_map, Option.map_eq_some_iff]
  constructor
  · rintro ⟨j, hj, rfl⟩
    obtain ⟨hlt, rfl⟩ := List.getElem?_eq_some_iff.mp hj
    rw [List.length_range] at hlt
    exact ⟨hlt, by rw [List.getElem_range]⟩
  · rintro ⟨hi, rfl⟩
    exact ⟨i, List.getElem?_range hi, rfl⟩

theorem storesAt_iff (hc : c.Shelved t T) :
    c.StoresAt i slot v ↔ i < t.peers ∧ (T i).nodes[slot]? = some v := by
  simp only [StoresAt, hc.getElem?_tables]
  exact ⟨fun ⟨_, ⟨hi, rfl⟩, hv⟩ => ⟨hi, hv⟩, fun ⟨hi, hv⟩ => ⟨_, ⟨hi, rfl⟩, hv⟩⟩

/-- A handle tells the table and the slot. -/
theorem storesAt_of_handleOf (hc : c.Shelved t T) {k : Handle} (hv : t.handleOf T v = some k) :
    c.StoresAt k.worker.toNat k.slot.toNat v := by
  rw [hc.storesAt_iff, hc.parted.handle_worker hv, ← Terrain.slotOf_eq hv]
  exact ⟨t.home_lt v, hc.parted.nodes_slotOf hv⟩

/-- A stored state is a reachable one in the table of its home. -/
theorem stored (hc : c.Shelved t T) (h : c.StoresAt i slot v) : t.home v = i ∧ v ∈ t.states := by
  obtain ⟨hi, hv⟩ := hc.storesAt_iff.mp h
  have hmem : v ∈ (T i).nodes.toList :=
    List.mem_iff_getElem?.mpr ⟨slot, Array.getElem?_toList.trans hv⟩
  exact hc.parted.stored i hi (Table.mem_nodes.mp hmem)

/-- **A state stands in one slot of one table only.** -/
theorem stored_once (hc : c.Shelved t T) {i' slot' : Nat} (h : c.StoresAt i slot v)
    (h' : c.StoresAt i' slot' v) : i' = i ∧ slot' = slot := by
  obtain rfl : i' = i := (hc.stored h').1.symm.trans (hc.stored h).1
  exact ⟨rfl, (T i').slot_unique (hc.storesAt_iff.mp h').2 (hc.storesAt_iff.mp h).2⟩

theorem exists_storesAt_iff (hc : c.Shelved t T) :
    (∃ i slot, c.StoresAt i slot v) ↔ v ∈ t.held T := by
  rw [hc.parted.mem_held, Terrain.markOf, ← Table.mem_nodes]
  constructor
  · rintro ⟨i, slot, h⟩
    obtain ⟨hi, hv⟩ := hc.storesAt_iff.mp h
    rw [(hc.stored h).1]
    exact List.mem_iff_getElem?.mpr ⟨slot, Array.getElem?_toList.trans hv⟩
  · intro hv
    obtain ⟨slot, hslot⟩ := List.mem_iff_getElem?.mp hv
    exact ⟨_, slot, hc.storesAt_iff.mpr ⟨t.home_lt v, Array.getElem?_toList.symm.trans hslot⟩⟩

theorem marks_iff (hc : c.Shelved t T) {m : Mark} : c.Marks v m ↔ t.markOf T v = some m := by
  simp only [Marks, hc.tables, List.mem_map, List.mem_range, Table.mem_entries]
  constructor
  · rintro ⟨-, ⟨i, hi, rfl⟩, hm⟩
    obtain ⟨rfl, -⟩ := hc.parted.stored i hi (by rw [hm]; rfl)
    exact hm
  · exact fun hm => ⟨_, ⟨t.home v, t.home_lt v, rfl⟩, hm⟩

/-- Every table has as many states as are stored of those whose home it is. -/
theorem sizes_eq (hc : c.Shelved t T) : c.tables.map Table.size =
    (List.range t.peers).map fun i => ((t.held T).filter (t.home · = i)).card := by
  classical
  rw [hc.tables, List.map_map]
  refine List.map_congr_left fun i hi => ?_
  have hi : i < t.peers := List.mem_range.mp hi
  have hnodes : (T i).nodes.toList.toFinset = (t.held T).filter (t.home · = i) := by
    ext v
    rw [List.mem_toFinset, Finset.mem_filter, hc.parted.mem_held, Table.mem_nodes]
    constructor
    · intro hv
      obtain ⟨rfl, -⟩ := hc.parted.stored i hi hv
      exact ⟨hv, rfl⟩
    · rintro ⟨hv, rfl⟩
      exact hv
  rw [← hnodes, List.toFinset_card_of_nodup (T i).nodup_nodes]
  exact Array.length_toList.symm

/-- The tables together have as many states as are stored. -/
theorem sum_sizes (hc : c.Shelved t T) :
    (c.tables.map Table.size).sum = (t.held T).card := by
  rw [hc.tables, List.map_map, ← hc.parted.sum_size]
  rfl

end Cluster.Shelved

theorem Cluster.Rests.shelved {desk : Nat → Desk N} {cursor : Nat → Nat}
    (hc : c.Rests t desk cursor) (hT : t.Parted fun i => (desk i).table) :
    c.Shelved t fun i => (desk i).table where
  parted := hT
  tables := hc.map_workers fun hw => by rw [hc.desk hw]

/-- States that are where they belong are on the shelves of a cluster. -/
theorem Cluster.Custody.exists_shelved {H : N → Prop} (hc : c.Custody t H) :
    ∃ T, c.Shelved t T ∧ ∀ v, H v → ∃ m, t.markOf T v = some m ∧ m.inF = t.accepting v := by
  have hget : ∀ i, i < t.peers → ∃ table, c.tables[i]? = some table ∧ table.Custody t H i := by
    intro i hi
    obtain ⟨w, hw⟩ : ∃ w, c.workers[i]? = some w := ⟨_, Array.getElem?_eq_getElem (hc.size ▸ hi)⟩
    refine ⟨_, ?_, (hc.worker hw).table⟩
    rw [Cluster.tables, List.getElem?_map, Array.getElem?_toList, hw, Option.map_some]
  have : Nonempty (Table N) := (hget 0 t.peers_pos).nonempty
  choose! T htables hT using hget
  refine ⟨T, ⟨⟨fun i hi => (hT i hi).worker, fun i hi => (hT i hi).peers, ?_⟩, ?_⟩, ?_⟩
  · intro i hi v hv
    exact ((hT i hi).stored (Table.mem_nodes.mpr hv)).symm
  · refine List.ext_getElem (by simp [Cluster.tables, hc.size]) fun i hi hi' => ?_
    have hlt : i < t.peers := by simpa using hi'
    rw [List.getElem_map, List.getElem_range]
    exact Option.some.inj ((List.getElem?_eq_getElem hi).symm.trans (htables i hlt))
  · exact fun v hv => (hT _ (t.home_lt v)).marked hv rfl

end Tables

/-! ## 2. After the exploration -/

theorem Terrain.coe_states {N σ : Type} (t : Terrain N σ) [t.Rooted] :
    (t.states : Set N) = t.promise.reachable t.reduction := Set.ext fun _ => t.mem_states

theorem Terrain.ncard_filter {N σ : Type} (t : Terrain N σ) [t.Rooted] (q : N → Prop)
    [DecidablePred q] :
    {v ∈ t.promise.reachable t.reduction | q v}.ncard = (t.states.filter q).card := by
  rw [← t.coe_states, ← Set.ncard_coe_finset, Finset.coe_filter]
  rfl

section Check

variable [Std.TransOrd N] [Std.LawfulEqOrd N] [DecidableEq N] {t : Terrain N σ} {plan : Plan N σ}
  {memory : σ} {limit : Nat}

/-- States are where they belong at the end of a run, however it ends. -/
theorem Check.custody_run [t.Rooted] (hplan : plan.Covers t) {H : N → Prop}
    (h : (exploring plan memory limit).Custody t H) :
    (run plan { cluster := .create plan.config.peers memory, left := limit }).2.cluster.Custody t
      H :=
  (Cluster.custody_lasting hplan H).run (fun _ => trivial) h

omit [DecidableEq N] in
/-- States are where they belong at the end of the exploration. -/
theorem Check.custody_explored [t.Rooted] (hplan : plan.Covers t) :
    (explore plan (Run.begin plan.config memory limit)).2.cluster.Custody t (fun _ => False) :=
  (Cluster.custody_lasting hplan _).afterExplore (custody_exploring hplan memory limit)

omit [DecidableEq N] in
/-- At the end of a complete exploration all of them are there. -/
theorem Explored.custody [t.Rooted] (hplan : plan.Covers t) {r₁ : Run N σ} {desk : Nat → Desk N}
    (h : Explored t (fun i => (desk i).table) r₁.ledger r₁.generated)
    (hexplore : (Check.explore plan (Run.begin plan.config memory limit)).2 = r₁)
    (hrests : r₁.cluster.Rests t desk (fun _ => 0)) (hfound : r₁.ledger.cycleFound = false) :
    r₁.cluster.Custody t (· ∈ t.states) := by
  have hplaces : r₁.cluster.Custody t (fun _ => False) := hexplore ▸ Check.custody_explored hplan
  refine hplaces.mark fun {v i w} hv hhome hw => ?_
  obtain ⟨m, hm⟩ : ∃ m, t.markOf (fun i => (desk i).table) v = some m := by
    rw [← (h.complete hfound).1, h.parted.mem_held] at hv
    exact Option.isSome_iff_exists.mp hv
  refine ⟨m, ?_, (congrArg Mark.Fields.inF (h.fields hm) :)⟩
  rw [hrests.desk hw, ← hhome]
  exact hm

namespace Check.Course

variable {r₁ r₂ r : Run N σ} {desk : Nat → Desk N} {n : Nat} {report : Report N}

/-- **After a complete exploration all reachable states are stored, to the end of the run.** -/
theorem custody [t.Rooted] (hplan : plan.Covers t) (h : Course t plan r₁ desk n r₂ report r)
    (hexplore : (explore plan (Run.begin plan.config memory limit)).2 = r₁)
    (hfound : r₁.ledger.cycleFound = false) : r.cluster.Custody t (· ∈ t.states) := by
  have hend := (Cluster.custody_lasting hplan (· ∈ t.states)).conclude (fun _ => trivial)
    ⟨r₁.ledger.states, r₁.ledger.transitions, r₁.ledger.size, 0, []⟩ (r := r₁)
    (h.explored.custody hplan hexplore h.rests hfound)
  rw [h.concluded] at hend
  exact hend

/-- The figures of a complete exploration. -/
theorem stats_of_complete (h : Course t plan r₁ desk n r₂ report r)
    (hfound : r₁.ledger.cycleFound = false) :
    report.outcome.stats = ⟨t.states.card, ∑ v ∈ t.states, (t.targets v).length,
      t.accepted.card, n, r.cluster.tables.map Table.size⟩ := by
  rw [h.outcome.2.2, h.explored.states, h.explored.transitions, h.explored.accepting,
    (h.explored.complete hfound).1]
  rfl

/-- The figures of any exploration are at most those of a complete one. -/
theorem stats_le {T : Nat → Table N} (h : Course t plan r₁ desk n r₂ report r)
    (hT : r.cluster.Shelved t T) :
    report.outcome.stats.states ≤ t.states.card ∧
      report.outcome.stats.transitions ≤ ∑ v ∈ t.states, (t.targets v).length ∧
      report.outcome.stats.accepting ≤ t.accepted.card ∧
      report.outcome.stats.perWorker.sum ≤ t.states.card := by
  have hsub : ∀ T, t.held T ⊆ t.states := fun T => Finset.filter_subset _ _
  rw [h.outcome.2.2, h.explored.states, h.explored.transitions, h.explored.accepting]
  refine ⟨Finset.card_le_card (hsub _), Finset.sum_le_sum_of_subset (hsub _),
    Finset.card_le_card (Finset.filter_subset_filter _ (hsub _)), ?_⟩
  rw [hT.sum_sizes]
  exact Finset.card_le_card (hsub T)

end Check.Course

/-! ## 3. The census -/

/-- **Where states are stored and what is counted.**  A limit stops a run after any number of turns,
whatever pass is on.  Each state that is stored then is a reachable one, in one slot of the table
that its hash says and nowhere else, and what the exploration has expanded by then is marked as what
it is.  If a report says that all was explored, then all reachable states are stored and the figures
are theirs; if it says that not all was explored, then no figure is greater than that. -/
theorem checkInTurns_census {g : Graph N σ} (p : g.Promise) {config : Config}
    (hworkers : config.workers ≤ 2 ^ 32)
    (hfew : (p.reachable config.reduction).encard < 2 ^ 32 - 1) {turns : Nat → Turn}
    {limit : Nat} {memory : σ} {result : Except Stop (Report N)} {r : Run N σ}
    (h : checkInTurns g config turns limit memory = (result, r)) :
    (∀ i slot v, r.cluster.StoresAt i slot v →
      p.Reaches config.reduction g.initial v ∧ i = (p.hash v).toNat % config.peers ∧
        ∀ i' slot', r.cluster.StoresAt i' slot' v → i' = i ∧ slot' = slot) ∧
    (∀ time ≤ limit, ∀ w ∈ (Check.exploring ⟨g, config, turns⟩ memory time).workers, ∀ v,
      w.expanding? = some v →
        (∃ m, r.cluster.Marks v m) ∧ ∀ m, r.cluster.Marks v m → m.inF = p.accepting v) ∧
    (∀ report, result = .ok report → report.outcome.explored = .yes →
      (∀ v, (∃ i slot, r.cluster.StoresAt i slot v) ↔ p.Reaches config.reduction g.initial v) ∧
      report.outcome.stats.states = (p.reachable config.reduction).ncard ∧
      report.outcome.stats.transitions =
        ∑ᶠ v ∈ p.reachable config.reduction, (p.targets config.reduction v).length ∧
      report.outcome.stats.accepting =
        {v ∈ p.reachable config.reduction | p.accepting v = true}.ncard ∧
      report.outcome.stats.perWorker = (List.range config.peers).map fun i =>
        {v ∈ p.reachable config.reduction | (p.hash v).toNat % config.peers = i}.ncard) ∧
    (∀ report, result = .ok report → report.outcome.explored = .no →
      report.outcome.stats.states ≤ (p.reachable config.reduction).ncard ∧
      report.outcome.stats.transitions ≤
        ∑ᶠ v ∈ p.reachable config.reduction, (p.targets config.reduction v).length ∧
      report.outcome.stats.accepting ≤
        {v ∈ p.reachable config.reduction | p.accepting v = true}.ncard ∧
      report.outcome.stats.perWorker.sum ≤ (p.reachable config.reduction).ncard) := by
  let t := p.terrain config hworkers hfew
  have hplan : (⟨g, config, turns⟩ : Plan N σ).Covers t := ⟨rfl, rfl, rfl⟩
  have hrun : (Check.run ⟨g, config, turns⟩
      { cluster := .create config.peers memory, left := limit }).2 = r := congrArg Prod.snd h
  have hshelved : ∀ {H : N → Prop},
      (Check.exploring ⟨g, config, turns⟩ memory limit).Custody t H →
      ∃ T, r.cluster.Shelved t T ∧ ∀ v, H v → ∃ m, t.markOf T v = some m ∧ m.inF = t.accepting v :=
    fun hH => hrun ▸ (Check.custody_run hplan hH).exists_shelved
  obtain ⟨T, hT, -⟩ := hshelved (Check.custody_exploring hplan memory limit)
  have hstates : (t.states : Set N) = p.reachable config.reduction := t.coe_states
  refine ⟨fun i slot v hv => ?_, fun time hle w hw v hv => ?_, ?_, ?_⟩
  · obtain ⟨hhome, hmem⟩ := hT.stored hv
    exact ⟨t.mem_states.mp hmem, hhome.symm, fun i' slot' hv' => hT.stored_once hv hv'⟩
  · obtain ⟨T', hT', hmarked⟩ := hshelved (Check.custody_of_expanding hplan hle hw hv)
    obtain ⟨m, hm, hinF⟩ := hmarked v rfl
    refine ⟨⟨m, hT'.marks_iff.mpr hm⟩, fun m' hm' => ?_⟩
    rw [hT'.marks_iff, hm] at hm'
    exact Option.some.inj hm' ▸ hinF
  · rintro report rfl hyes
    obtain ⟨r₁, desk, n, r₂, hexplore, hcourse⟩ := Check.exists_course hplan h
    have hfound := hcourse.found_eq_false hplan hyes
    obtain ⟨T', hT', hmarked⟩ :=
      (hcourse.custody hplan (congrArg Prod.snd hexplore) hfound).exists_shelved
    have hheld : t.held T' = t.states := by
      refine Finset.filter_true_of_mem fun v hv => ?_
      obtain ⟨m, hm, -⟩ := hmarked v hv
      exact Option.isSome_of_eq_some hm
    rw [hcourse.stats_of_complete hfound, hT'.sizes_eq, hheld]
    refine ⟨fun v => ?_, ?_, ?_, ?_, ?_⟩
    · rw [hT'.exists_storesAt_iff, hheld]
      exact t.mem_states
    · rw [← hstates, Set.ncard_coe_finset]
    · rw [← hstates, finsum_mem_coe_finset]
      rfl
    · exact (t.ncard_filter _).symm
    · exact List.map_congr_left fun i _ => (t.ncard_filter _).symm
  · rintro report rfl -
    obtain ⟨r₁, desk, n, r₂, hexplore, hcourse⟩ := Check.exists_course hplan h
    have haccepting : {v ∈ p.reachable config.reduction | p.accepting v = true}.ncard =
        t.accepted.card := t.ncard_filter _
    rw [haccepting, ← hstates, Set.ncard_coe_finset, finsum_mem_coe_finset]
    exact hcourse.stats_le hT

end Check

/-- The small graph whose accepting state is on its cycle, with two workers: after 18 turns the
second one hands out the successors of the accepting state. -/
theorem checkInTurns_pendant_census :
    ∃ report r w, checkInTurns (pendant 1) { workers := 2 } Turn.roundRobin 300 () =
        (.ok report, r) ∧
      w ∈ (Check.exploring ⟨pendant 1, { workers := 2 }, Turn.roundRobin⟩ () 18).workers ∧
      w.expanding? = some 1 ∧
      (∀ m, r.cluster.Marks 1 m → m.inF = true) ∧
      report.outcome.explored = .yes ∧
      (∀ v, (∃ i slot, r.cluster.StoresAt i slot v) ↔ (pendantPromise 1).Reaches false 0 v) ∧
      report.outcome.stats.states = ((pendantPromise 1).reachable false).ncard ∧
      report.outcome.stats.perWorker = (List.range 2).map fun i =>
        {v ∈ (pendantPromise 1).reachable false |
          ((pendantPromise 1).hash v).toNat % 2 = i}.ncard := by
  have hrun : (checkInTurns (pendant 1) { workers := 2 } Turn.roundRobin 300 ()).1 =
      .ok ⟨⟨.no, .yes, .cycle, ⟨3, 3, 1, 1, [2, 1]⟩⟩, some ⟨[0], [1, 2, 1], [1, 1, 1]⟩⟩ := by
    decide +kernel
  have hexpanding : some 1 ∈ (Check.exploring ⟨pendant 1, { workers := 2 }, Turn.roundRobin⟩ ()
      18).workers.toList.map Worker.expanding? := by
    decide +kernel
  obtain ⟨w, hw, hone⟩ := List.mem_map.mp hexpanding
  have hw := Array.mem_toList_iff.mp hw
  have hpair : checkInTurns (pendant 1) { workers := 2 } Turn.roundRobin 300 () = (.ok _, _) :=
    Prod.ext hrun rfl
  obtain ⟨-, hmarked, hyes, -⟩ := checkInTurns_census (pendantPromise 1) (by decide)
    (encard_lt_of_three _) hpair
  obtain ⟨hall, hstates, -, -, hsizes⟩ := hyes _ rfl rfl
  exact ⟨_, _, w, hpair, hw, hone, (hmarked 18 (by decide) w hw 1 hone).2, rfl, hall,
    hstates, hsizes⟩

end FairCycle
