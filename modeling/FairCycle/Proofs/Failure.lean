/-
# How a check may fail

For a graph that keeps its promises, with few enough states, and whose reduced successors are
among the full ones, a check gives a report or says that the edges into some state are too many to
count (`checkInTurns_fails_iff`).  Which of the two it is does not depend on the order of the turns,
except through what the exploration reports: it is the second exactly when the exploration reports
no cycle and there is a state with more edges from behind accepting states than can be counted.

Checks are run for a number of turns, and may run out of them.  If all workers get turns again and
again then there is a number that is enough.
-/
import FairCycle.Proofs.Verdict

namespace FairCycle

variable {N σ : Type} [Ord N]

/-! ## 1. What the failure is about -/

/-- The states that are reached from accepting states that can be reached. -/
def Graph.Promise.behindAccepting {N σ : Type} {g : Graph N σ} (p : g.Promise) (reduction : Bool) :
    Set N :=
  {u | ∃ a, p.Reaches reduction g.initial a ∧ p.accepting a = true ∧ p.Reaches reduction a u}

section Edges

variable {t : Terrain N σ}

omit [Ord N]

theorem Terrain.coe_spread_accepted [t.Rooted] :
    (t.spread t.accepted : Set N) = t.promise.behindAccepting t.reduction := by
  ext u
  rw [Finset.mem_coe, Terrain.mem_spread, Terrain.mem_states]
  constructor
  · rintro ⟨-, a, ha, hreach⟩
    obtain ⟨hstates, hacc⟩ := Terrain.mem_accepted.mp ha
    exact ⟨a, t.mem_states.mp hstates, hacc, hreach⟩
  · rintro ⟨a, hinit, hacc, hreach⟩
    exact ⟨Relation.ReflTransGen.trans hinit hreach, a,
      Terrain.mem_accepted.mpr ⟨t.mem_states.mpr hinit, hacc⟩, hreach⟩

theorem Terrain.inflow_eq_edgesInto [DecidableEq N] (S : Finset N) (v : N) :
    t.inflow S v = t.promise.edgesInto t.reduction (S : Set N) v :=
  (finsum_mem_coe_finset _ S).symm

/-- Without a reduction that adds edges no step is missing in the full lists. -/
theorem Terrain.not_strays (h : ∀ u, ∀ v ∈ t.promise.reduced u, v ∈ t.promise.successors u) :
    ¬t.Strays := by
  rintro ⟨u, v, -, hedge, hnot⟩
  refine hnot ?_
  change v ∈ t.promise.targets t.reduction u at hedge
  unfold Graph.Promise.targets at hedge
  split at hedge
  · exact h u v hedge
  · exact hedge

end Edges

theorem Cluster.Rests.table_mem {t : Terrain N σ} {c : Cluster N σ} {desk : Nat → Desk N}
    {cursor : Nat → Nat} (hc : c.Rests t desk cursor) (v : N) :
    (desk (t.home v)).table ∈ c.tables := by
  have hlt : t.home v < c.workers.size := by
    rw [hc.size]
    exact t.home_lt v
  have hw : c.workers[t.home v]? = some c.workers[t.home v] := Array.getElem?_eq_getElem hlt
  rw [← hc.desk hw]
  exact List.mem_map.mpr ⟨_, Array.mem_toList_iff.mpr (Array.getElem_mem hlt), rfl⟩

/-- A handle that names a state is looked up in one of the tables. -/
theorem Run.Names.exists_table {t : Terrain N σ} {name : N → Option Handle} {r : Run N σ} {v : N}
    {h : Handle} (hr : r.Names t name) (hv : name v = some h) :
    ∃ table ∈ r.cluster.tables, table.node? h = some v := by
  obtain ⟨desk, cursor, hrests, hT, hnames⟩ := hr
  exact ⟨_, hrests.table_mem v, hT.node?_eq ((hnames v).trans hv)⟩

/-! ## 2. The only failure -/

section Failure

variable [Std.TransOrd N] [Std.LawfulEqOrd N] [DecidableEq N]

/-- The exploration of a check comes to its end and reports no cycle. -/
def ExploresWithoutCycle (g : Graph N σ) (config : Config) (turns : Nat → Turn) (limit : Nat)
    (memory : σ) : Prop :=
  ∃ stats r, Check.explore ⟨g, config, turns⟩ (Run.begin config memory limit) = (.ok stats, r) ∧
    r.ledger.cycleFound = false

/-- **Too many edges to count are the only failure.**  A check that does not run out of turns
returns a report or an overflow; it returns an overflow exactly if the exploration reports no cycle
and more than 32767 edges lead to some state from behind accepting states, and then it names such a
state.  In a fair order of turns it does not run out of them. -/
theorem checkInTurns_fails_iff {g : Graph N σ} (p : g.Promise) (config : Config)
    (hworkers : config.workers ≤ 2 ^ 32)
    (hfew : (p.reachable config.reduction).encard < 2 ^ 32 - 1)
    (hsub : ∀ u, ∀ v ∈ p.reduced u, v ∈ p.successors u) (turns : Nat → Turn) (memory : σ) :
    (∀ limit, (checkInTurns g config turns limit memory).1 ≠ .error .outOfTurns →
      ((∃ report, (checkInTurns g config turns limit memory).1 = .ok report) ∨
        ∃ state, (checkInTurns g config turns limit memory).1 =
          .error (.fault (.predecessorOverflow state 32767))) ∧
      ((∃ state max, (checkInTurns g config turns limit memory).1 =
          .error (.fault (.predecessorOverflow state max))) ↔
        ExploresWithoutCycle g config turns limit memory ∧
          ∃ v, 32767 < p.edgesInto config.reduction (p.behindAccepting config.reduction) v) ∧
      ∀ state max, (checkInTurns g config turns limit memory).1 =
          .error (.fault (.predecessorOverflow state max)) →
        max = 32767 ∧ ∃ v,
          (∃ table ∈ (checkInTurns g config turns limit memory).2.cluster.tables,
            table.node? state = some v) ∧
          32767 < p.edgesInto config.reduction (p.behindAccepting config.reduction) v) ∧
    (Turn.Fair config.peers turns → ∃ enough, ∀ limit ≥ enough,
      (checkInTurns g config turns limit memory).1 ≠ .error .outOfTurns) := by
  let t := p.terrain config hworkers hfew
  have hplan : (⟨g, config, turns⟩ : Plan N σ).Covers t := ⟨rfl, rfl, rfl⟩
  have hedges : ∀ v, t.inflow (t.spread t.accepted) v =
      p.edgesInto config.reduction (p.behindAccepting config.reduction) v := by
    intro v
    rw [Terrain.inflow_eq_edgesInto, Terrain.coe_spread_accepted]
    rfl
  refine ⟨fun limit hturns => ?_, fun hfair => ?_⟩
  · rcases Check.run_cases hplan memory limit with
      ⟨r, hout⟩ | ⟨stats, r, desk, hexplore, hrun, hrests, hexp⟩
    · exact absurd (congrArg Prod.fst hout) hturns
    have hcycle : ExploresWithoutCycle g config turns limit memory ↔
        r.ledger.cycleFound = false := by
      constructor
      · rintro ⟨stats', r', hexplore', hfound⟩
        obtain ⟨-, rfl⟩ := Prod.mk.inj (hexplore.symm.trans hexplore')
        exact hfound
      · exact fun hfound => ⟨stats, r, hexplore, hfound⟩
    have hresult : checkInTurns g config turns limit memory =
        Check.conclude ⟨g, config, turns⟩ stats r := hrun
    have hanswers := (meets_conclude hplan hrests hexp stats).answers_self
    rw [hresult] at hturns ⊢
    match hconclude : Check.conclude ⟨g, config, turns⟩ stats r with
    | (.ok report, r') =>
      rw [hconclude] at hanswers
      refine ⟨.inl ⟨report, rfl⟩, iff_of_false nofun ?_, nofun⟩
      rintro ⟨hwithout, v, hlt⟩
      rw [← hedges] at hlt
      exact absurd hlt (Nat.not_lt.mpr (hanswers.2 (hcycle.mp hwithout) v))
    | (.error (.fault f), r') =>
      rw [hconclude] at hanswers
      obtain ⟨hfound, ⟨v, h, -, hname, rfl, hlt⟩, hnames⟩ :=
        hanswers.resolve_right (Terrain.not_strays hsub)
      rw [hedges] at hlt
      refine ⟨.inr ⟨h, rfl⟩, iff_of_true ⟨h, _, rfl⟩ ⟨hcycle.mpr hfound, v, hlt⟩, ?_⟩
      rintro state max ⟨⟩
      exact ⟨rfl, v, hnames.exists_table hname, hlt⟩
    | (.error .crash, r') =>
      rw [hconclude] at hanswers
      exact hanswers.elim
    | (.error .outOfTurns, r') =>
      rw [hconclude] at hturns
      exact absurd rfl hturns
  · obtain ⟨enough, e, r', he, hends⟩ := (meets_run hplan memory 0).ends hfair
    refine ⟨enough, fun limit hlimit hout => he ?_⟩
    obtain ⟨left, rfl⟩ := Nat.exists_eq_add_of_le hlimit
    exact (congrArg Prod.fst (hends left)).symm.trans hout

/-- The small graph has no state with so many predecessors, since two workers check it without
fail. -/
theorem checkInTurns_pendant_succeeds :
    ∃ report, (checkInTurns (pendant 0) { workers := 2 } Turn.roundRobin 300 ()).1 = .ok report ∧
      ¬(ExploresWithoutCycle (pendant 0) { workers := 2 } Turn.roundRobin 300 () ∧
        ∃ v, 32767 < (pendantPromise 0).edgesInto false
          ((pendantPromise 0).behindAccepting false) v) := by
  have hrun : (checkInTurns (pendant 0) { workers := 2 } Turn.roundRobin 300 ()).1 =
      .ok ⟨⟨.yes, .yes, .none, ⟨3, 3, 1, 1, [2, 1]⟩⟩, none⟩ := by
    decide +kernel
  have hfails := (checkInTurns_fails_iff (pendantPromise 0) { workers := 2 } (by decide)
    (encard_lt_of_three _) (fun _ _ h => h) Turn.roundRobin ()).1 300 (by rw [hrun]; exact nofun)
  refine ⟨_, hrun, fun h => ?_⟩
  obtain ⟨state, max, hover⟩ := hfails.2.1.mpr h
  exact nomatch hrun.symm.trans hover

end Failure

end FairCycle
