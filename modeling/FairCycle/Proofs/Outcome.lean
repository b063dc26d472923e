/-
# What a check concludes

A check explores the graph and then draws its conclusion: the rounds, the verdict, and the
counterexample if there is to be one (`Check.conclude`).  From what is known after an exploration,
the conclusion is right (`Report.Tells`), or there is none because the edges into some state are
too many to count or because the reduced successor lists have a step that the full ones lack.
-/
import FairCycle.Proofs.Lasso

namespace FairCycle

variable {N σ : Type} [Ord N]

/-! ## 1. Reports -/

section Reports

variable [DecidableEq N]

/-- What a report tells of the graph. -/
structure Report.Tells (t : Terrain N σ) (wanted : Bool) (report : Report N) : Prop where
  holds : report.outcome.holds = .yes ∧ (∀ v ∈ t.accepted, ¬t.OnCycle v) ∨
    report.outcome.holds = .no ∧ ∃ v ∈ t.accepted, t.OnCycle v
  /-- There is a counterexample exactly if one is wanted and the property fails. -/
  lasso : report.lasso.isSome = true ↔ report.outcome.holds = .no ∧ wanted = true
  evidence : report.outcome.evidence = .cycle ↔ report.lasso.isSome = true
  fits : ∀ x, report.lasso = some x → x.Fits t

namespace Report.Tells

variable {t : Terrain N σ} {wanted : Bool} {report : Report N}

omit [Ord N] in
theorem holds_no_iff (h : report.Tells t wanted) :
    report.outcome.holds = .no ↔ ∃ v ∈ t.accepted, t.OnCycle v := by
  rcases h.holds with ⟨hyes, hnone⟩ | ⟨hno, hsome⟩
  · rw [hyes]
    refine iff_of_false (by decide) ?_
    rintro ⟨v, hv, hcycle⟩
    exact hnone v hv hcycle
  · exact iff_of_true hno hsome

omit [Ord N] in
theorem holds_yes_iff (h : report.Tells t wanted) :
    report.outcome.holds = .yes ↔ ¬∃ v ∈ t.accepted, t.OnCycle v := by
  rw [← h.holds_no_iff]
  rcases h.holds with ⟨hyes, -⟩ | ⟨hno, -⟩
  · rw [hyes]
    decide
  · rw [hno]
    decide

end Report.Tells

end Reports

/-! ## 2. After the exploration -/

section Conclude

variable [DecidableEq N] [Std.TransOrd N] [Std.LawfulEqOrd N]

/-- The verdict and the counterexample, after so many rounds. -/
def Check.decide (plan : Plan N σ) (stats : Stats) (rounds : Nat) : RunM N σ (Report N) := do
  let l ← RunM.ledger
  let valid := !l.cycleFound && l.size == 0
  RunM.record (.decided valid rounds)
  let lasso ←
    if !valid && plan.config.counterexample then some <$> counterexample plan else pure none
  let perWorker := (← get).cluster.tables.map Table.size
  return {
    outcome := {
      holds := .ofBool valid
      explored := .ofBool !l.cycleFound
      evidence := if lasso.isSome then .cycle else .none
      stats := { stats with rounds := rounds, perWorker := perWorker } }
    lasso := lasso }

/-- All that follows the exploration. -/
def Check.conclude (plan : Plan N σ) (stats : Stats) : RunM N σ (Report N) := do
  let n ← rounds plan (← RunM.ledger).size
  Check.decide plan stats n

theorem Check.run_eq (plan : Plan N σ) :
    run plan = RunM.record (.started plan.config.peers plan.config.reduction) >>= fun _ =>
      explore plan >>= conclude plan := rfl

variable {t : Terrain N σ} {plan : Plan N σ} {r : Run N σ}

/-- The verdict is right if it is known what the ledger says; a counterexample is left to be
built. -/
theorem meets_decide (stats : Stats) (rounds : Nat)
    (hvalid : r.ledger.cycleFound = false ∧ r.ledger.size = 0 ∧ (∀ v ∈ t.accepted, ¬t.OnCycle v) ∨
      (r.ledger.cycleFound = true ∨ r.ledger.size ≠ 0) ∧ (∃ v ∈ t.accepted, t.OnCycle v) ∧
        ∀ e left, Meets plan.Fair (Check.counterexample plan)
          { r with cluster := r.cluster.record e, left := left }
          (fun x _ => x.Fits t) (fun _ _ => t.Strays)) :
    Meets plan.Fair (Check.decide plan stats rounds) r
      (fun report _ => report.Tells t plan.config.counterexample) (fun _ _ => t.Strays) := by
  refine .ledger_bind ?_
  refine (Meets.record (Q := fun _ r' => ∃ left,
    r' = { r with cluster := r.cluster.record _, left := left }) fun left => ⟨left, rfl⟩).bind ?_
  rintro - _ ⟨left, rfl⟩
  rcases hvalid with ⟨hfound, hsize, hnone⟩ | ⟨hledger, hcycle, hbuild⟩
  · -- the property holds, and nothing is to be built
    rw [hfound, hsize]
    refine (Meets.pure (Q := fun lasso _ => lasso = none) fun _ => rfl).bind ?_
    rintro _ r' rfl
    refine .get_bind (fun _ => rfl) (.pure fun _ => ?_)
    exact ⟨.inl ⟨rfl, hnone⟩, ⟨nofun, fun h => nomatch h.1⟩, ⟨nofun, nofun⟩, nofun⟩
  · have hfails : (!r.ledger.cycleFound && r.ledger.size == 0) = false := by
      rcases hledger with hfound | hsize
      · rw [hfound]
        rfl
      · rw [beq_eq_false_iff_ne.mpr hsize, Bool.and_false]
    rw [hfails]
    cases hwanted : plan.config.counterexample with
    | true =>
      refine Meets.bind (x := some <$> Check.counterexample plan)
        (Q := fun lasso _ => ∃ x, lasso = some x ∧ x.Fits t) ?_ ?_
      · rw [map_eq_pure_bind]
        exact (hbuild _ left).bind fun x _ hx => .pure fun _ => ⟨x, rfl, hx⟩
      rintro _ r' ⟨x, rfl, hx⟩
      refine .get_bind (fun _ => rfl) (.pure fun _ => ?_)
      refine ⟨.inr ⟨rfl, hcycle⟩, ⟨fun _ => ⟨rfl, rfl⟩, fun _ => rfl⟩,
        ⟨fun _ => rfl, fun _ => rfl⟩, ?_⟩
      rintro _ ⟨⟩
      exact hx
    | false =>
      refine (Meets.pure (Q := fun lasso _ => lasso = none) fun _ => rfl).bind ?_
      rintro _ r' rfl
      refine .get_bind (fun _ => rfl) (.pure fun _ => ?_)
      exact ⟨.inr ⟨rfl, hcycle⟩, ⟨nofun, fun h => nomatch h.2⟩, ⟨nofun, nofun⟩, nofun⟩

omit [DecidableEq N] in
/-- When the exploration has found a cycle there are no rounds. -/
theorem Check.rounds_eq_of_found (bound : Nat) (hfound : r.ledger.cycleFound = true) :
    rounds plan bound r = (.ok 0, r) := by
  cases bound with
  | zero => rfl
  | succ bound =>
    rw [rounds, RunM.ledger_bind, hfound]
    rfl

omit [DecidableEq N] in
theorem meets_rounds_of_found {fair : Prop} {F : Fault → Run N σ → Prop} (bound : Nat)
    (hfound : r.ledger.cycleFound = true) :
    Meets fair (Check.rounds plan bound) r (fun _ r' => ∃ left, r' = { r with left := left }) F :=
  .of_eq (f := fun r => r) (fun _ => Check.rounds_eq_of_found bound hfound) fun left => ⟨left, rfl⟩

/-- **From a finished exploration on, a check concludes what is right**, unless there are too many
edges to count or a step cannot be numbered. -/
theorem meets_conclude [t.Rooted] (hplan : plan.Covers t) {desk : Nat → Desk N}
    (hrests : r.cluster.Rests t desk (fun _ => 0))
    (hexp : Explored t (fun i => (desk i).table) r.ledger r.generated) (stats : Stats) :
    Meets plan.Fair (Check.conclude plan stats) r
      (fun report _ => report.Tells t plan.config.counterexample ∧
        (r.ledger.cycleFound = false → ∀ v, t.inflow (t.spread t.accepted) v ≤ 32767))
      (fun f r' => r.ledger.cycleFound = false ∧
          t.Overflows (t.handleOf fun i => (desk i).table) (t.spread t.accepted) f ∧
          r'.Names t (t.handleOf fun i => (desk i).table) ∨
        t.Strays) := by
  refine .ledger_bind ?_
  cases hfound : r.ledger.cycleFound with
  | true =>
    obtain ⟨c, hc⟩ := hexp.exists_found hrests hfound
    refine (meets_rounds_of_found _ hfound).bind ?_
    rintro n _ ⟨left, rfl⟩
    have hdecide : Meets plan.Fair (Check.decide plan stats n) { r with left := left }
        (fun report _ => report.Tells t plan.config.counterexample) (fun _ _ => t.Strays) :=
      meets_decide stats n (.inr ⟨.inl hfound, ⟨c, hc.mem_accepted, hc.onCycle⟩, fun e left =>
        meets_counterexample_of_found hplan hfound (hc.record e left)⟩)
    exact hdecide.mono (fun _ _ h => ⟨h, nofun⟩) fun _ _ h => .inr h
  | false =>
    obtain ⟨hbetween, hlive⟩ := hexp.between hrests hfound
    have hrounds := meets_rounds hplan r.ledger.size hbetween le_rfl
    rw [hlive] at hrounds
    refine (hrounds.mono (fun _ _ h => h) fun _ _ h => .inl ⟨rfl, h⟩).bind ?_
    rintro n r' ⟨⟨T', hT', -⟩, hroom⟩
    refine (meets_decide (t := t) stats n ?_).mono (fun _ _ h => ⟨h, fun _ => hroom⟩)
      fun _ _ h => .inr h
    by_cases hsize : r'.ledger.size = 0
    · exact .inl ⟨hT'.between.found, hsize, hT'.size_eq_zero_iff.mp hsize⟩
    · refine .inr ⟨.inr hsize, ?_, fun e left =>
        meets_counterexample_of_decided hplan (hT'.record e left) hsize⟩
      by_contra hnone
      refine hsize (hT'.size_eq_zero_iff.mpr fun v hv hcycle => hnone ⟨v, hv, hcycle⟩)

end Conclude

/-! ## 3. Whole checks -/

omit [Ord N] in
/-- There are finitely many states to be reached if they can be numbered. -/
theorem Graph.Promise.finite_reachable {g : Graph N σ} (p : g.Promise) {reduction : Bool}
    (hfew : (p.reachable reduction).encard < 2 ^ 32 - 1) : (p.reachable reduction).Finite :=
  Set.finite_of_encard_le_coe (k := 2 ^ 32 - 1) (le_of_lt (by exact_mod_cast hfew))

omit [Ord N] in
theorem Graph.Promise.card_reachable_lt {g : Graph N σ} (p : g.Promise) {reduction : Bool}
    (hfew : (p.reachable reduction).encard < 2 ^ 32 - 1) :
    (p.finite_reachable hfew).toFinset.card < 2 ^ 32 - 1 := by
  have h := hfew
  rw [(p.finite_reachable hfew).encard_eq_coe_toFinset_card] at h
  exact_mod_cast h

theorem Config.peers_le {config : Config} (h : config.workers ≤ 2 ^ 32) :
    config.peers ≤ 2 ^ 32 :=
  max_le h (by decide)

/-- What a check of a graph that keeps its promises is about. -/
noncomputable def Graph.Promise.terrain {g : Graph N σ} (p : g.Promise) (config : Config)
    (hworkers : config.workers ≤ 2 ^ 32)
    (hfew : (p.reachable config.reduction).encard < 2 ^ 32 - 1) : Terrain N σ where
  graph := g
  promise := p
  reduction := config.reduction
  peers := config.peers
  peers_pos := config.peers_pos
  peers_le := Config.peers_le hworkers
  states := (p.finite_reachable hfew).toFinset
  known _ h := p.reachable_subset ((p.finite_reachable hfew).mem_toFinset.mp h)
  few _ := (Finset.card_filter_le _ _).trans (by have := p.card_reachable_lt hfew; omega)

instance {g : Graph N σ} (p : g.Promise) (config : Config) (hworkers : config.workers ≤ 2 ^ 32)
    (hfew : (p.reachable config.reduction).encard < 2 ^ 32 - 1) :
    (p.terrain config hworkers hfew).Rooted where
  mem_iff _ := (p.finite_reachable hfew).mem_toFinset
  card_lt := p.card_reachable_lt hfew

/-- The run of a check when its exploration begins. -/
def Run.begin [Std.TransOrd N] (config : Config) (memory : σ) (limit : Nat) : Run N σ where
  cluster := (Cluster.create config.peers memory).record (.started config.peers config.reduction)
  left := limit

section Check

variable [DecidableEq N] [Std.TransOrd N] [Std.LawfulEqOrd N] {t : Terrain N σ} {plan : Plan N σ}

omit [DecidableEq N] [Std.LawfulEqOrd N] in
/-- When the exploration begins the workers rest, and their tables are empty. -/
theorem Run.rests_begin (hplan : plan.Covers t) (memory : σ) (limit : Nat) :
    (Run.begin plan.config memory limit : Run N σ).cluster.Rests t
      (fun i => { table := .empty i t.peers }) (fun _ => 0) := by
  rw [Run.begin, hplan.peers]
  exact (Cluster.rests_create t memory).record _

omit [DecidableEq N] in
theorem meets_explore_begin [t.Rooted] (hplan : plan.Covers t) (memory : σ) (limit : Nat) :
    Meets plan.Fair (Check.explore plan) (Run.begin plan.config memory limit)
      (fun _ r' => ∃ desk, r'.cluster.Rests t desk (fun _ => 0) ∧
        Explored t (fun i => (desk i).table) r'.ledger r'.generated)
      (fun _ _ => False) :=
  meets_explore hplan (Run.rests_begin hplan memory limit) rfl

omit [DecidableEq N] in
/-- What is known when the exploration has ended. -/
theorem Check.explored_of_explore [t.Rooted] (hplan : plan.Covers t) {memory : σ} {limit : Nat}
    {stats : Stats} {r : Run N σ}
    (h : explore plan (Run.begin plan.config memory limit) = (.ok stats, r)) :
    ∃ desk, r.cluster.Rests t desk (fun _ => 0) ∧
      Explored t (fun i => (desk i).table) r.ledger r.generated := by
  have hanswers := (meets_explore_begin hplan memory limit).answers_self
  rw [h] at hanswers
  exact hanswers

/-- **A check tells what is right, and if all workers get turns again and again it ends.** -/
theorem meets_run [t.Rooted] (hplan : plan.Covers t) (memory : σ) (limit : Nat) :
    Meets plan.Fair (Check.run plan)
      { cluster := .create plan.config.peers memory, left := limit }
      (fun report _ => report.Tells t plan.config.counterexample) (fun _ _ => True) := by
  rw [Check.run_eq]
  refine (Meets.record (Q := fun _ r => ∃ left, r = Run.begin plan.config memory left)
    fun left => ⟨left, rfl⟩).bind ?_
  rintro - _ ⟨left, rfl⟩
  have hexplore := meets_explore_begin hplan memory left
  refine (hexplore.mono (fun _ _ h => h) fun _ _ _ => trivial).bind ?_
  rintro stats r ⟨desk, hrests, hexp⟩
  exact (meets_conclude hplan hrests hexp stats).mono (fun _ _ h => h.1) fun _ _ _ => trivial

/-- A check runs out of turns, or its exploration ends and it goes on from there. -/
theorem Check.run_cases [t.Rooted] (hplan : plan.Covers t) (memory : σ) (limit : Nat) :
    (∃ r, run plan { cluster := .create plan.config.peers memory, left := limit } =
      (.error .outOfTurns, r)) ∨
    ∃ stats r desk, explore plan (Run.begin plan.config memory limit) = (.ok stats, r) ∧
      run plan { cluster := .create plan.config.peers memory, left := limit } =
        conclude plan stats r ∧
      r.cluster.Rests t desk (fun _ => 0) ∧
      Explored t (fun i => (desk i).table) r.ledger r.generated := by
  have hrun : run plan { cluster := .create plan.config.peers memory, left := limit } =
      (explore plan >>= conclude plan) (Run.begin plan.config memory limit) := rfl
  have hanswers := (meets_explore_begin hplan memory limit).answers_self
  match hexplore : explore plan (Run.begin plan.config memory limit) with
  | (.ok stats, r) =>
    rw [hexplore] at hanswers
    obtain ⟨desk, hrests, hexp⟩ := hanswers
    exact .inr ⟨stats, r, desk, rfl, hrun.trans (RunM.bind_ok hexplore), hrests, hexp⟩
  | (.error .outOfTurns, r) => exact .inl ⟨r, hrun.trans (RunM.bind_error hexplore)⟩
  | (.error (.fault f), r) =>
    rw [hexplore] at hanswers
    exact hanswers.elim
  | (.error .crash, r) =>
    rw [hexplore] at hanswers
    exact hanswers.elim

/-- A report that a check returns tells what is right. -/
theorem Report.tells_of_ok {g : Graph N σ} (p : g.Promise) {config : Config}
    (hworkers : config.workers ≤ 2 ^ 32)
    (hfew : (p.reachable config.reduction).encard < 2 ^ 32 - 1) {turns : Nat → Turn} {limit : Nat}
    {memory : σ} {report : Report N}
    (h : (checkInTurns g config turns limit memory).1 = .ok report) :
    report.Tells (p.terrain config hworkers hfew) config.counterexample := by
  have hplan : (⟨g, config, turns⟩ : Plan N σ).Covers (p.terrain config hworkers hfew) :=
    ⟨rfl, rfl, rfl⟩
  have hanswers := (meets_run hplan memory limit).answers_self
  match hrun : checkInTurns g config turns limit memory with
  | (.ok other, r) =>
    rw [hrun] at h
    obtain rfl := Except.ok.inj h
    rw [show Check.run ⟨g, config, turns⟩ _ = (.ok other, r) from hrun] at hanswers
    exact hanswers
  | (.error stop, r) =>
    rw [hrun] at h
    exact nomatch h

/-! ## 4. How a report comes about -/

/-- The stages of a check that returns a report: `r₁` is the run after the exploration, with what is
on the desks then, `r₂` the run after `n` rounds, and `r` the run at the end. -/
structure Check.Course (t : Terrain N σ) (plan : Plan N σ) (r₁ : Run N σ) (desk : Nat → Desk N)
    (n : Nat) (r₂ : Run N σ) (report : Report N) (r : Run N σ) : Prop where
  rests : r₁.cluster.Rests t desk (fun _ => 0)
  explored : Explored t (fun i => (desk i).table) r₁.ledger r₁.generated
  rounds : Check.rounds plan r₁.ledger.size r₁ = (.ok n, r₂)
  decided : Check.decide plan
    ⟨r₁.ledger.states, r₁.ledger.transitions, r₁.ledger.size, 0, []⟩ n r₂ = (.ok report, r)

omit [DecidableEq N] in
/-- The figures of the exploration are read off the ledger. -/
theorem Check.stats_of_explore {stats : Stats} {r r₁ : Run N σ}
    (h : explore plan r = (.ok stats, r₁)) :
    stats = ⟨r₁.ledger.states, r₁.ledger.transitions, r₁.ledger.size, 0, []⟩ := by
  obtain ⟨-, r', -, h₁⟩ := exists_of_bind_eq_ok h
  rw [RunM.ledger_bind, RunM.record_bind] at h₁
  dsimp only at h₁
  split at h₁
  · obtain ⟨hstats, rfl⟩ := Prod.mk.inj h₁
    exact (Except.ok.inj hstats).symm
  · obtain ⟨hstats, rfl⟩ := Prod.mk.inj h₁
    exact (Except.ok.inj hstats).symm

/-- The report, once it is known whether there is a counterexample. -/
def Check.finish (stats : Stats) (rounds : Nat) (l : Ledger N) (lasso : Option (Lasso N)) :
    RunM N σ (Report N) := do
  let perWorker := (← get).cluster.tables.map Table.size
  return {
    outcome := {
      holds := .ofBool (!l.cycleFound && l.size == 0)
      explored := .ofBool !l.cycleFound
      evidence := if lasso.isSome then .cycle else .none
      stats := { stats with rounds := rounds, perWorker := perWorker } }
    lasso := lasso }

theorem Check.decide_eq (stats : Stats) (rounds : Nat) (r : Run N σ) :
    decide plan stats rounds r =
      ((if !(!r.ledger.cycleFound && r.ledger.size == 0) && plan.config.counterexample then
          some <$> counterexample plan
        else pure none : RunM N σ (Option (Lasso N))) >>= finish stats rounds r.ledger)
        { r with
          cluster := r.cluster.record
            (.decided (!r.ledger.cycleFound && r.ledger.size == 0) rounds) } := by
  rw [decide, RunM.ledger_bind, RunM.record_bind]
  dsimp only
  split
  · rfl
  · rfl

/-- **A check that returns a report has gone through all its stages.** -/
theorem Check.exists_course [t.Rooted] (hplan : plan.Covers t) {memory : σ} {limit : Nat}
    {report : Report N} {r : Run N σ}
    (h : run plan { cluster := .create plan.config.peers memory, left := limit } =
      (.ok report, r)) :
    ∃ r₁ desk n r₂, explore plan (Run.begin plan.config memory limit) =
        (.ok ⟨r₁.ledger.states, r₁.ledger.transitions, r₁.ledger.size, 0, []⟩, r₁) ∧
      Course t plan r₁ desk n r₂ report r := by
  rcases Check.run_cases hplan memory limit with
    ⟨r', hout⟩ | ⟨stats, r₁, desk, hexplore, hrun, hrests, hexp⟩
  · exact nomatch (congrArg Prod.fst (hout.symm.trans h) : Except.error _ = Except.ok _)
  · obtain rfl := stats_of_explore hexplore
    rw [h, conclude, RunM.ledger_bind] at hrun
    obtain ⟨n, r₂, hrounds, hdecide⟩ := exists_of_bind_eq_ok hrun.symm
    exact ⟨r₁, desk, n, r₂, hexplore, hrests, hexp, hrounds, hdecide⟩

namespace Check.Course

variable {r₁ r₂ r : Run N σ} {desk : Nat → Desk N} {n : Nat} {report : Report N}

/-- From the exploration to the end at one go. -/
theorem concluded (h : Course t plan r₁ desk n r₂ report r) :
    conclude plan ⟨r₁.ledger.states, r₁.ledger.transitions, r₁.ledger.size, 0, []⟩ r₁ =
      (.ok report, r) := by
  rw [conclude, RunM.ledger_bind, RunM.bind_ok h.rounds]
  exact h.decided

/-- What the report says, in terms of the ledger. -/
theorem outcome (h : Course t plan r₁ desk n r₂ report r) :
    report.outcome.holds = .ofBool (!r₂.ledger.cycleFound && r₂.ledger.size == 0) ∧
      report.outcome.explored = .ofBool !r₂.ledger.cycleFound ∧
      report.outcome.stats = ⟨r₁.ledger.states, r₁.ledger.transitions, r₁.ledger.size, n,
        r.cluster.tables.map Table.size⟩ := by
  have hdecided := h.decided
  rw [decide_eq] at hdecided
  obtain ⟨lasso, r', -, hfinish⟩ := exists_of_bind_eq_ok hdecided
  obtain ⟨hreport, rfl⟩ := Prod.mk.inj hfinish
  rw [← Except.ok.inj hreport]
  exact ⟨rfl, rfl, rfl⟩

/-- Without a counterexample nothing happens after the rounds. -/
theorem unchanged (h : Course t plan r₁ desk n r₂ report r)
    (hno : plan.config.counterexample = false) :
    ∃ e, r = { r₂ with cluster := r₂.cluster.record e } := by
  have hdecided := h.decided
  rw [decide_eq, hno, Bool.and_false] at hdecided
  obtain ⟨-, rfl⟩ := Prod.mk.inj hdecided
  exact ⟨_, rfl⟩

/-- When the exploration has found a cycle there are no rounds. -/
theorem rounds_of_found (h : Course t plan r₁ desk n r₂ report r)
    (hfound : r₁.ledger.cycleFound = true) : n = 0 ∧ r₂ = r₁ := by
  have hrounds := h.rounds
  rw [rounds_eq_of_found _ hfound] at hrounds
  obtain ⟨hn, hr⟩ := Prod.mk.inj hrounds
  exact ⟨(Except.ok.inj hn).symm, hr.symm⟩

/-- Otherwise the rounds end as they should. -/
theorem finished [t.Rooted] (hplan : plan.Covers t) (h : Course t plan r₁ desk n r₂ report r)
    (hfound : r₁.ledger.cycleFound = false) :
    ∃ T, r₂.Finished t (t.handleOf fun i => (desk i).table) (t.states.card - 1) 0
      (fun i => (desk i).table) n T := by
  obtain ⟨hbetween, -⟩ := h.explored.between h.rests hfound
  have hanswers := (meets_rounds_finished hplan r₁.ledger.size hbetween le_rfl).answers_self
  rw [h.rounds, h.explored.round] at hanswers
  exact hanswers.1

/-- Rounds do not find cycles. -/
theorem found_eq [t.Rooted] (hplan : plan.Covers t) (h : Course t plan r₁ desk n r₂ report r) :
    r₂.ledger.cycleFound = r₁.ledger.cycleFound := by
  cases hfound : r₁.ledger.cycleFound with
  | true => rw [(h.rounds_of_found hfound).2, hfound]
  | false =>
    obtain ⟨T, hT⟩ := h.finished hplan hfound
    exact hT.decided.between.found

/-- The report says that not all was explored exactly if a cycle was found on the way. -/
theorem explored_eq_no_iff [t.Rooted] (hplan : plan.Covers t)
    (h : Course t plan r₁ desk n r₂ report r) :
    report.outcome.explored = .no ↔ r₁.ledger.cycleFound = true := by
  rw [h.outcome.2.1, h.found_eq hplan]
  cases r₁.ledger.cycleFound
  · exact ⟨nofun, nofun⟩
  · exact ⟨fun _ => rfl, fun _ => rfl⟩

theorem found_eq_false [t.Rooted] (hplan : plan.Covers t) (h : Course t plan r₁ desk n r₂ report r)
    (hyes : report.outcome.explored = .yes) : r₁.ledger.cycleFound = false := by
  rw [← Bool.not_eq_true, ← h.explored_eq_no_iff hplan, hyes]
  exact nofun

end Check.Course

end Check

end FairCycle
