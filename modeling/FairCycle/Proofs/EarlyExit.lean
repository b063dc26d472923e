/-
# Explorations that end early

An exploration ends early when a worker finds an accepting state on a cycle.  Two or more workers
find loops only: an edge from an accepting state to itself.  A worker that finds one stops and drops
all that it has queued and all letters that still come, so that other loops may go unseen; but a
loop that goes unseen was dropped by a worker that had found one.  So at least one is found, whoever
stops first (`checkInTurns_explored_iff`).

A worker alone may come to know of other cycles as well.  In either case the answer is no, and there
are no rounds.
-/
import FairCycle.Proofs.Verdict

namespace FairCycle

variable {N σ : Type} [Ord N] [Std.TransOrd N] [Std.LawfulEqOrd N] [DecidableEq N]

omit [Std.TransOrd N] [Std.LawfulEqOrd N] [DecidableEq N] in
/-- **Where an accepting state has a loop, a loop is found**: what is left of a loop that is not
found is nothing. -/
theorem Explored.found_of_loop {t : Terrain N σ} {T : Nat → Table N} {l : Ledger N}
    {generated : Nat} (h : Explored t T l generated) {v : N} (hv : v ∈ t.states)
    (hacc : t.accepting v = true) (hloop : t.Edge v v) : l.cycleFound = true := by
  cases hfound : l.cycleFound with
  | true => rfl
  | false =>
    have hheld : v ∈ t.held T := by rw [(h.complete hfound).1]; exact hv
    exact absurd hloop (h.loops hfound v hheld hacc)

/-- **When an exploration ends early.**  With two or more workers it does exactly if an accepting
state that can be reached has an edge to itself, and with any number of workers if there is one.
If it ends early, then the property fails and there are no rounds. -/
theorem checkInTurns_explored_iff {g : Graph N σ} (p : g.Promise) {config : Config}
    (hworkers : config.workers ≤ 2 ^ 32)
    (hfew : (p.reachable config.reduction).encard < 2 ^ 32 - 1) {turns : Nat → Turn} {limit : Nat}
    {memory : σ} {report : Report N}
    (h : (checkInTurns g config turns limit memory).1 = .ok report) :
    (2 ≤ config.workers →
      (report.outcome.explored = .no ↔
        ∃ v, p.Reaches config.reduction g.initial v ∧ p.accepting v = true ∧
          p.Edge config.reduction v v)) ∧
    ((∃ v, p.Reaches config.reduction g.initial v ∧ p.accepting v = true ∧
        p.Edge config.reduction v v) → report.outcome.explored = .no) ∧
    (report.outcome.explored = .no →
      report.outcome.holds = .no ∧ report.outcome.stats.rounds = 0) := by
  have hplan : (⟨g, config, turns⟩ : Plan N σ).Covers (p.terrain config hworkers hfew) :=
    ⟨rfl, rfl, rfl⟩
  obtain ⟨r₁, desk, n, r₂, -, hcourse⟩ := Check.exists_course hplan
    (Prod.ext h rfl : checkInTurns g config turns limit memory = (.ok report, _))
  have hexplored := hcourse.explored_eq_no_iff hplan
  have hloop : (∃ v, p.Reaches config.reduction g.initial v ∧ p.accepting v = true ∧
      p.Edge config.reduction v v) → report.outcome.explored = .no := by
    rintro ⟨v, hv, hacc, hedge⟩
    exact hexplored.mpr (hcourse.explored.found_of_loop (Terrain.mem_states _ |>.mpr hv) hacc hedge)
  refine ⟨fun htwo => ⟨fun hno => ?_, hloop⟩, hloop, fun hno => ?_⟩
  · obtain ⟨v, -, hheld, hacc, -, hone | hedge⟩ := hcourse.explored.witness (hexplored.mp hno)
    · -- two workers are not one
      have hpeers : max config.workers 1 = 1 := hone
      omega
    · exact ⟨v, Terrain.mem_states _ |>.mp (Finset.mem_filter.mp hheld).1, hacc, hedge⟩
  · obtain ⟨rfl, rfl⟩ := hcourse.rounds_of_found (hexplored.mp hno)
    obtain ⟨hholds, -, hstats⟩ := hcourse.outcome
    rw [hholds, hstats, hexplored.mp hno]
    exact ⟨rfl, rfl⟩

/-- Three states, `0 → 1 → 1` and `0 → 2 → 2`, of which the last is accepting. -/
def looped : Graph (Fin 3) Unit := .ofThree [[1, 2], [1], [2]] [2]

def loopedPromise : looped.Promise := .ofThree ..

/-- Two workers find the loop. -/
theorem checkInTurns_looped_explored :
    ∃ report, (checkInTurns looped { workers := 2 } Turn.roundRobin 300 ()).1 = .ok report ∧
      report.outcome.explored = .no ∧ report.outcome.holds = .no ∧
      report.outcome.stats.rounds = 0 ∧
      ∃ v, loopedPromise.Reaches false 0 v ∧ loopedPromise.accepting v = true ∧
        loopedPromise.Edge false v v := by
  have hrun : (checkInTurns looped { workers := 2 } Turn.roundRobin 300 ()).1 =
      .ok ⟨⟨.no, .no, .cycle, ⟨3, 4, 1, 0, [2, 1]⟩⟩, some ⟨[0], [2, 2], [2, 1]⟩⟩ := by
    decide +kernel
  have hearly := checkInTurns_explored_iff loopedPromise (by decide) (encard_lt_of_three _) hrun
  exact ⟨_, hrun, rfl, (hearly.2.2 rfl).1, (hearly.2.2 rfl).2, (hearly.1 (by decide)).mp rfl⟩

end FairCycle
