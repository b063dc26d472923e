/-
# The whole check terminates

The bounds on what a check does, taken together (`checkInTurns_ends`).  They hold of every graph
over finitely many states, also of one that answers the same question differently each time, and
in whatever order the workers take their turns.  Only for the end itself every worker has to get a
turn again and again: if one never does, then all others wait for it.
-/
import FairCycle.Proofs.Halting
import FairCycle.Proofs.Loops
import FairCycle.Proofs.Verdict

namespace FairCycle

section Termination

variable {N σ : Type} [Ord N] [Std.TransOrd N] [Std.LawfulEqOrd N]

/-- The edges that the workers take off their queues in a pass. -/
def Check.handled (plan : Plan N σ) (pass : Pass) (r : Run N σ) : Multiset (Edge N) :=
  let task : Task N σ := ⟨plan.graph, plan.config.reduction, pass⟩
  (r.cluster.arm r.ledger).gather Worker.takesOff task plan.turns r.left r.time

/-- The bound of a search suffices for it. -/
theorem Check.search_stored_add (plan : Plan N σ) (remaining more : Nat) (r : Run N σ) :
    search plan remaining ((r.cluster.tables.map Table.size).foldl (· + ·) 0 + 1 + more) r =
      search plan remaining ((r.cluster.tables.map Table.size).foldl (· + ·) 0 + 1) r := by
  refine search_add plan remaining more ?_
  rw [← List.sum_eq_foldl]
  exact Nat.lt_succ_of_le r.cluster.openSeeds_le

/-- **Every check terminates.**  In a pass the workers take only so many edges off their queues,
however long it lasts.  The search for a cycle never tries as many seeds as there are states stored
and one more.  A chase takes at most as many hops as edges have been generated, and three more.
There are at most as many rounds as the exploration counted accepting states.  And if every worker
gets a turn again and again, then with enough turns there is a report, a fault, or a breakdown. -/
theorem checkInTurns_ends [Finite N] [DecidableEq N] (plan : Plan N σ) (memory : σ) :
    (∀ (pass : Pass) (r : Run N σ), ∃ bound, ∀ left,
      Multiset.card (Check.handled plan pass { r with left := left }) ≤ bound) ∧
    (∀ (remaining more : Nat) (r : Run N σ),
      Check.search plan remaining
          ((r.cluster.tables.map Table.size).foldl (· + ·) 0 + 1 + more) r =
        Check.search plan remaining ((r.cluster.tables.map Table.size).foldl (· + ·) 0 + 1) r) ∧
    (∀ (start stop : Handle) (closed : Bool) (r : Run N σ), ∃ states : List Handle,
      states.length ≤ r.generated + 3 ∧
      (Check.chain start stop closed r).2 =
        states.foldl (fun r state => (Check.hop state r).2) r) ∧
    (∀ (stats : Stats) (r r' : Run N σ), Check.explore plan r = (.ok stats, r') →
      (∃ n ≤ stats.accepting,
        (Check.rounds plan stats.accepting r').2 = (fun r => (Check.round plan r).2)^[n] r' ∧
        ∀ k, (Check.rounds plan stats.accepting r').1 = .ok k → k = n) ∧
      ∀ more,
        Check.rounds plan (stats.accepting + more) r' = Check.rounds plan stats.accepting r') ∧
    (Turn.Fair plan.config.peers plan.turns →
      ∃ (enough : Nat) (result : Except Stop (Report N)),
        ((∃ report, result = .ok report) ∨ (∃ fault, result = .error (.fault fault)) ∨
          result = .error .crash) ∧
        ∀ limit, enough ≤ limit →
          (checkInTurns plan.graph plan.config plan.turns limit memory).1 = result) := by
  refine ⟨fun pass r => ?_, Check.search_stored_add plan, fun start stop closed r => ?_,
    fun stats r r' hexplore => ?_, fun hfair => ?_⟩
  · exact (r.cluster.arm r.ledger).exists_handlesAtMost _ plan.turns r.time
  · exact Check.exists_hops stop closed (r.generated + 2) start [] r
  · obtain rfl := Check.stats_of_explore hexplore
    exact ⟨Check.exists_rounds plan _ r', fun more => Check.rounds_add plan more le_rfl⟩
  · obtain ⟨enough, result, hne, hlimit⟩ := Check.exists_enough hfair memory
    refine ⟨enough, result, ?_, hlimit⟩
    cases result with
    | ok report => exact .inl ⟨report, rfl⟩
    | error stop =>
      cases stop with
      | fault fault => exact .inr (.inl ⟨fault, rfl⟩)
      | crash => exact .inr (.inr rfl)
      | outOfTurns => exact absurd rfl hne

end Termination

section Forgetful

/-- Three states in a ring, of which one is accepting.  The graph counts what it is asked, and
whenever a fifth question is about successors it answers that there are none. -/
def forgetful : Graph (Fin 3) Nat :=
  let ring := Graph.ofThree [[1], [2], [0]] [1]
  { initial := ring.initial
    successors := fun v => modifyGet fun n =>
      (if n % 5 = 0 then some [] else (ring.successors v ()).1, n + 1)
    reduced := fun v => modifyGet fun n =>
      (if n % 5 = 0 then some [] else (ring.reduced v ()).1, n + 1)
    accepting := fun v => modifyGet fun n => ((ring.accepting v ()).1, n + 1)
    hash := fun v => modifyGet fun n => ((ring.hash v ()).1, n + 1)
    describe := ring.describe }

/-- Two workers check the forgetful graph. -/
def forgetfulPlan : Plan (Fin 3) Nat := ⟨forgetful, { workers := 2 }, Turn.roundRobin⟩

/-- The check of the forgetful graph goes through a round, although the answers change, and ends. -/
theorem checkInTurns_forgetful_ends :
    (∃ r, Check.explore forgetfulPlan (Run.begin { workers := 2 } 0 300) =
        (.ok ⟨3, 3, 1, 0, []⟩, r) ∧ (Check.rounds forgetfulPlan 1 r).1 = .ok 1 ∧
      ∀ more, Check.rounds forgetfulPlan (1 + more) r = Check.rounds forgetfulPlan 1 r) ∧
    Turn.Fair 2 Turn.roundRobin ∧
    ∃ enough, ∀ limit, enough ≤ limit →
      (checkInTurns forgetful { workers := 2 } Turn.roundRobin limit 0).1 ≠
        .error .outOfTurns := by
  obtain ⟨-, -, -, hrounds, hends⟩ := checkInTurns_ends forgetfulPlan 0
  have hexplore : (Check.explore forgetfulPlan (Run.begin { workers := 2 } 0 300)).1 =
      .ok ⟨3, 3, 1, 0, []⟩ := by decide +kernel
  refine ⟨⟨_, Prod.ext hexplore rfl, by decide +kernel,
    (hrounds _ _ _ (Prod.ext hexplore rfl)).2⟩, Turn.fair_roundRobin 2, ?_⟩
  obtain ⟨enough, result, hresult, hlimit⟩ := hends (Turn.fair_roundRobin 2)
  refine ⟨enough, fun limit hle hout => ?_⟩
  have hends : result = .error .outOfTurns := (hlimit limit hle).symm.trans hout
  rcases hresult with ⟨report, rfl⟩ | ⟨fault, rfl⟩ | rfl <;> cases hends

end Forgetful

end FairCycle
