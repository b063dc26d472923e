/-
# The verdict and its counterexample

For a graph that keeps its promises, with states few enough to be numbered, a report says that the
property holds exactly when no accepting state that can be reached lies on a cycle
(`checkInTurns_holds_iff`), and a counterexample is a lasso of the graph
(`checkInTurns_lasso`).  Neither depends on the fingerprints, on the number of workers, or on the
order in which they take turns.
-/
import FairCycle.Proofs.Outcome

namespace FairCycle

/-! ## 1. Small graphs -/

-- named once, so that whatever is said of three states rests on the same instances
instance transOrd_three : Std.TransOrd (Fin 3) := inferInstance

instance lawfulEqOrd_three : Std.LawfulEqOrd (Fin 3) := inferInstance

/-- Three states with these targets, of which these are accepting. -/
def Graph.ofThree (targets : List (List Nat)) (accepting : List Nat)
    (hash : Fin 3 → UInt64 := fun v => v.val.toUInt64) : Graph (Fin 3) Unit :=
  .ofFunctions 0 (some ∘ fun v => (targets.getD v.val []).map (Fin.ofNat 3))
    (some ∘ fun v => (targets.getD v.val []).map (Fin.ofNat 3))
    (some ∘ fun v => accepting.contains v.val) hash (fun v => toString v)

def Graph.Promise.ofThree (targets : List (List Nat)) (accepting : List Nat)
    (hash : Fin 3 → UInt64) : (Graph.ofThree targets accepting hash).Promise := .ofFunctions ..

/-- Three states, `0 → 1 → 2 → 1`, of which one is accepting. -/
def pendant (accepting : Fin 3) : Graph (Fin 3) Unit := .ofThree [[1], [2], [1]] [accepting.val]

def pendantPromise (accepting : Fin 3) : (pendant accepting).Promise := .ofThree ..

/-- A graph over three states has few. -/
theorem encard_lt_of_three (s : Set (Fin 3)) : s.encard < 2 ^ 32 - 1 := by
  refine lt_of_le_of_lt (Set.encard_le_encard (Set.subset_univ s)) ?_
  rw [Set.encard_univ, ENat.card_eq_coe_fintype_card, Fintype.card_fin]
  exact_mod_cast (by decide : 3 < 2 ^ 32 - 1)

/-! ## 2. The verdict -/

section Verdict

variable {N σ : Type} [Ord N] [Std.TransOrd N] [Std.LawfulEqOrd N] [DecidableEq N]

/-- **The verdict is right.**  A report says yes if no accepting state that can be reached lies on
a cycle, and no otherwise. -/
theorem checkInTurns_holds_iff {g : Graph N σ} (p : g.Promise) {config : Config}
    (hworkers : config.workers ≤ 2 ^ 32)
    (hfew : (p.reachable config.reduction).encard < 2 ^ 32 - 1) {turns : Nat → Turn} {limit : Nat}
    {memory : σ} {report : Report N}
    (h : (checkInTurns g config turns limit memory).1 = .ok report) :
    (report.outcome.holds = .yes ↔
      ¬∃ v, p.Reaches config.reduction g.initial v ∧ p.accepting v = true ∧
        p.OnCycle config.reduction v) ∧
    (report.outcome.holds = .no ↔
      ∃ v, p.Reaches config.reduction g.initial v ∧ p.accepting v = true ∧
        p.OnCycle config.reduction v) := by
  have htells := Report.tells_of_ok p hworkers hfew h
  generalize ht : p.terrain config hworkers hfew = t at htells
  have hcycle : (∃ v ∈ t.accepted, t.OnCycle v) ↔
      ∃ v, p.Reaches config.reduction g.initial v ∧ p.accepting v = true ∧
        p.OnCycle config.reduction v := by
    subst ht
    refine exists_congr fun v => ?_
    rw [Terrain.mem_accepted, Terrain.mem_states, and_assoc]
    rfl
  rw [← hcycle]
  exact ⟨htells.holds_yes_iff, htells.holds_no_iff⟩

/-- Two workers find the cycle of the small graph. -/
theorem checkInTurns_pendant_holds :
    ∃ report, (checkInTurns (pendant 1) { workers := 2 } Turn.roundRobin 300 ()).1 = .ok report ∧
      report.outcome.holds = .no ∧
      ∃ v, (pendantPromise 1).Reaches false 0 v ∧ (pendantPromise 1).accepting v = true ∧
        (pendantPromise 1).OnCycle false v := by
  have hrun : (checkInTurns (pendant 1) { workers := 2 } Turn.roundRobin 300 ()).1 =
      .ok ⟨⟨.no, .yes, .cycle, ⟨3, 3, 1, 1, [2, 1]⟩⟩, some ⟨[0], [1, 2, 1], [1, 1, 1]⟩⟩ := by
    decide +kernel
  exact ⟨_, hrun, rfl, (checkInTurns_holds_iff (pendantPromise 1) (by decide)
    (encard_lt_of_three _) hrun).2.mp rfl⟩

/-! ## 3. The counterexample -/

/-- **Every counterexample is a lasso of the graph**, and there is one exactly when one is wanted
and the property fails.  Its states follow each other along edges from the initial state on; the
trail gives the first place of each in the full list of successors of the one before; the loop
leads from an accepting state back to it, and nothing else comes twice. -/
theorem checkInTurns_lasso {g : Graph N σ} (p : g.Promise) {config : Config}
    (hworkers : config.workers ≤ 2 ^ 32)
    (hfew : (p.reachable config.reduction).encard < 2 ^ 32 - 1) {turns : Nat → Turn} {limit : Nat}
    {memory : σ} {report : Report N}
    (h : (checkInTurns g config turns limit memory).1 = .ok report) :
    (∀ x, report.lasso = some x →
      x.states.head? = some g.initial ∧
      x.trail.length = x.states.length - 1 ∧
      (∀ i u v, x.states[i]? = some u → x.states[i + 1]? = some v →
        p.Edge config.reduction u v ∧ v ∈ p.successors u ∧
          x.trail[i]? = some ((p.successors u).idxOf v + 1)) ∧
      ∃ c inner, x.loop = c :: inner ++ [c] ∧ p.accepting c = true ∧ (x.stem ++ [c]).Nodup ∧
        (c :: inner).Nodup) ∧
    (report.lasso.isSome = true ↔ report.outcome.holds = .no ∧ config.counterexample = true) ∧
    (report.outcome.evidence = .cycle ↔
      report.outcome.holds = .no ∧ config.counterexample = true) := by
  have htells := Report.tells_of_ok p hworkers hfew h
  refine ⟨fun x hx => ?_, htells.lasso, htells.evidence.trans htells.lasso⟩
  have hfits := htells.fits x hx
  refine ⟨hfits.starts, hfits.length_trail, fun i u v hu hv => ?_, hfits.turns⟩
  exact ⟨hfits.edge hu hv, hfits.trail_eq hu hv⟩

/-- The lasso of the small graph, found by two workers. -/
theorem checkInTurns_pendant_lasso :
    ∃ report x, (checkInTurns (pendant 1) { workers := 2 } Turn.roundRobin 300 ()).1 = .ok report ∧
      report.lasso = some x ∧ x.states = [0, 1, 2, 1] ∧ x.trail = [1, 1, 1] ∧
      (pendantPromise 1).Edge false 2 1 := by
  have hrun : (checkInTurns (pendant 1) { workers := 2 } Turn.roundRobin 300 ()).1 =
      .ok ⟨⟨.no, .yes, .cycle, ⟨3, 3, 1, 1, [2, 1]⟩⟩, some ⟨[0], [1, 2, 1], [1, 1, 1]⟩⟩ := by
    decide +kernel
  have hlasso := (checkInTurns_lasso (pendantPromise 1) (by decide) (encard_lt_of_three _) hrun).1
    ⟨[0], [1, 2, 1], [1, 1, 1]⟩ rfl
  exact ⟨_, _, hrun, rfl, rfl, rfl, (hlasso.2.2.1 2 2 1 rfl rfl).1⟩

end Verdict

end FairCycle
