/-
# From round to round

The rounds are a loop: there is another one as long as accepting candidates are left and the last
round has taken some away (`Run.GoesOn`).  `Check.Laps` lists the runs at the head of that loop.

At the head of the loop the size in the ledger is the number of accepting candidates.  Nobody
counts them there: the size is what reachability has counted, less what elimination has taken away,
and this is right because no accepting candidate comes back.  After a round the candidates are a
closed set (`Terrain.Closed`), and what the accepting ones among them reach is in it already.

As every round but the last takes an accepting candidate away, there are at most as many rounds as
the exploration has found accepting states (`Check.Laps.count_le`).
-/
import FairCycle.Proofs.Drift
import FairCycle.Proofs.Loops
import FairCycle.Proofs.Passes

namespace FairCycle

variable {N σ : Type} [Ord N]

/-! ## 1. The head of the loop -/

/-- After `k` rounds there is another one. -/
structure Run.GoesOn (k : Nat) (r : Run N σ) : Prop where
  found : r.ledger.cycleFound = false
  size : r.ledger.size ≠ 0
  /-- The last round, if there was one, has changed something. -/
  changed : k ≠ 0 → r.ledger.oldSize ≠ r.ledger.size

/-- A run in which the passes of the next round begin. -/
def Run.numbered (r : Run N σ) : Run N σ :=
  { r with ledger := { r.ledger with round := r.ledger.round + 1, oldSize := r.ledger.size } }

variable [Std.TransOrd N] [Std.LawfulEqOrd N] {plan : Plan N σ} {r r₀ r' : Run N σ} {k : Nat}

/-- After `k` rounds that went well, each of which was to be, the run that was `r₀` is `r`. -/
inductive Check.Laps (plan : Plan N σ) (r₀ : Run N σ) : Nat → Run N σ → Prop
  | start : Laps plan r₀ 0 r₀
  | round {k : Nat} {r r' : Run N σ} (h : Laps plan r₀ k r) (hon : r.GoesOn k)
      (hround : Check.round plan r = (.ok (), r')) : Laps plan r₀ (k + 1) r'

namespace Check.Laps

theorem goesOn (h : Laps plan r₀ k r) (hk : k ≠ 0) : r₀.GoesOn 0 := by
  induction h with
  | start => exact absurd rfl hk
  | @round k r r' h hon hround ih =>
    rcases eq_or_ne k 0 with rfl | hne
    · cases h with
      | start => exact hon
    · exact ih hne

/-- **There are no more rounds than accepting candidates at first.**  The invariant is that the
rounds that were gone through and the candidates that are left are no more than that together, as
long as the last round has taken one away. -/
theorem count_le (h : Laps plan r₀ k r) :
    k ≤ r₀.ledger.size ∧
      ((k ≠ 0 → r.ledger.oldSize ≠ r.ledger.size) → k + r.ledger.size ≤ r₀.ledger.size) := by
  induction h with
  | start => exact ⟨Nat.zero_le _, fun _ => (Nat.zero_add _).le⟩
  | @round k r r' h hon hround ih =>
    obtain ⟨hle, hold⟩ := of_round_eq_ok hround
    have hsum := ih.2 hon.changed
    have hpos := hon.size
    constructor
    · omega
    · intro hchanged
      have hne := hchanged (Nat.succ_ne_zero k)
      omega

/-- The rounds of a check go through the loop until there is no other round. -/
theorem rounds {bound n : Nat} (h : Laps plan r₀ k r)
    (hchanged : k ≠ 0 → r.ledger.oldSize ≠ r.ledger.size) (hbound : r.ledger.size ≤ bound)
    (hrounds : Check.rounds plan bound r = (.ok n, r')) :
    Laps plan r₀ (k + n) r' ∧ ¬r'.GoesOn (k + n) := by
  induction bound generalizing r k n with
  | zero =>
    obtain ⟨hn, rfl⟩ := Prod.mk.inj hrounds
    obtain rfl := Except.ok.inj hn
    exact ⟨h, fun hon => hon.size (Nat.le_zero.mp hbound)⟩
  | succ bound ih =>
    rw [rounds_succ] at hrounds
    split at hrounds
    · rename_i hstop
      obtain ⟨hn, rfl⟩ := Prod.mk.inj hrounds
      obtain rfl := Except.ok.inj hn
      refine ⟨h, fun hon => ?_⟩
      simp [hon.found, hon.size] at hstop
    · rename_i hgo
      have hon : r.GoesOn k := by
        simp only [Bool.or_eq_true, beq_iff_eq, not_or, Bool.not_eq_true] at hgo
        exact ⟨hgo.1, hgo.2, hchanged⟩
      obtain ⟨⟨⟩, r₁, hround, hrest⟩ := exists_of_bind_eq_ok hrounds
      obtain ⟨hle, hold⟩ := of_round_eq_ok hround
      rw [RunM.ledger_bind] at hrest
      split at hrest
      · rename_i hsame
        obtain ⟨hn, rfl⟩ := Prod.mk.inj hrest
        obtain rfl := Except.ok.inj hn
        exact ⟨h.round hon hround, fun hon' => hon'.changed (Nat.succ_ne_zero k) hsame⟩
      · rename_i hless
        obtain ⟨m, r₂, hrounds', hlast⟩ := exists_of_bind_eq_ok hrest
        obtain ⟨hn, rfl⟩ := Prod.mk.inj hlast
        obtain rfl := Except.ok.inj hn
        have hnext := ih (h.round hon hround) (fun _ => hless) (by omega) hrounds'
        rwa [Nat.add_right_comm, Nat.add_assoc] at hnext

end Check.Laps

/-! ## 2. The candidates at the head of the loop -/

section Between

variable [DecidableEq N] {t : Terrain N σ} {name : N → Option Handle} {least : Nat}
  {T T₀ : Nat → Table N}

omit [Std.TransOrd N] [Std.LawfulEqOrd N] in
/-- The seeds that the marks tell of are the accepting candidates. -/
theorem Run.Between.seeds_eq (hr : r.Between t name least T) : r.cluster.seeds = t.live T := by
  obtain ⟨desk, hrests, rfl⟩ := hr.holds.rests
  have hknown := hr.holds.known
  rw [hrests.seeds_eq hknown.toStocked, hknown.statesWhere_isSeed]

omit [Std.TransOrd N] [Std.LawfulEqOrd N] in
/-- The size in the ledger is right. -/
theorem Run.Between.size_eq (hr : r.Between t name least T) :
    r.ledger.size = r.cluster.seeds.ncard := by
  rw [hr.seeds_eq, Set.ncard_coe_finset, hr.size]

omit [Std.TransOrd N] [Std.LawfulEqOrd N] [DecidableEq N] in
/-- It is right already after an exploration, also one that has found a cycle. -/
theorem Explored.size_eq {desk : Nat → Desk N} (hrests : r.cluster.Rests t desk (fun _ => 0))
    (h : Explored t (fun i => (desk i).table) r.ledger r.generated) :
    r.ledger.size = r.cluster.seeds.ncard := by
  have hseeds : r.cluster.seeds =
      ((t.held fun i => (desk i).table).filter fun v => t.accepting v : Finset N) := by
    ext v
    rw [Finset.mem_coe, Finset.mem_filter, h.parted.mem_held, Option.isSome_iff_exists]
    constructor
    · rintro ⟨m, hm, -, hin⟩
      have hmark := (hrests.shelved h.parted).marks_iff.mp hm
      rw [Mark.inF_eq, h.fields hmark] at hin
      exact ⟨⟨m, hmark⟩, hin⟩
    · rintro ⟨⟨m, hmark⟩, hacc⟩
      refine ⟨m, (hrests.shelved h.parted).marks_iff.mpr hmark, ?_, ?_⟩
      · rw [Mark.inS_eq, h.fields hmark, hacc]
      · rw [Mark.inF_eq, h.fields hmark, hacc]
  rw [hseeds, Set.ncard_coe_finset, h.accepting]

omit [Std.TransOrd N] [Std.LawfulEqOrd N] [DecidableEq N] in
/-- **A closed set of candidates has in it what its accepting members reach.** -/
theorem Terrain.Closed.spread_live_subset (hclosed : t.Closed (t.candidates T)) :
    t.spread (t.live T) ⊆ t.candidates T := by
  intro v hv
  obtain ⟨-, a, ha, hreach⟩ := Terrain.mem_spread.mp hv
  exact hclosed.mem_of_reaches (Terrain.live_subset ha) hreach

/-- What is known of the run at the head of the loop. -/
theorem Check.Laps.between [t.Rooted] (hplan : plan.Covers t) (h : Laps plan r₀ k r)
    (hr₀ : r₀.Between t name least T₀) :
    ∃ T, r.Between t name least T ∧ (k ≠ 0 → t.Closed (t.candidates T)) := by
  induction h with
  | start => exact ⟨T₀, hr₀, fun hk => absurd rfl hk⟩
  | @round k r r' h hon hround ih =>
    obtain ⟨T, hr, -⟩ := ih
    have hanswers := (meets_round hplan hr).answers_self
    rw [hround] at hanswers
    obtain ⟨T', hafter⟩ := hanswers
    refine ⟨T', hafter.between, fun _ => ?_⟩
    have henc : t.Encloses (t.live T) :=
      Terrain.encloses_of_subset (Terrain.live_subset_accepted.trans Terrain.accepted_subset)
    rw [hafter.candidates]
    exact henc.closed.core

/-- **A round brings no accepting candidate back**, and from the second on no candidate at all. -/
theorem Run.Between.of_round [t.Rooted] (hplan : plan.Covers t) (hr : r.Between t name least T)
    (hround : Check.round plan r = (.ok (), r')) :
    r'.cluster.seeds ⊆ r.cluster.seeds ∧
      (t.Closed (t.candidates T) → r'.cluster.candidates ⊆ r.cluster.candidates) := by
  have hanswers := (meets_round hplan hr).answers_self
  rw [hround] at hanswers
  obtain ⟨T', hafter⟩ := hanswers
  constructor
  · rw [hr.seeds_eq, hafter.between.seeds_eq, Finset.coe_subset]
    exact hafter.live_subset hr.catches
  · intro hclosed
    obtain ⟨desk, hrests, rfl⟩ := hr.holds.rests
    obtain ⟨desk', hrests', rfl⟩ := hafter.between.holds.rests
    rw [hrests.candidates_eq hr.holds.known, hrests'.candidates_eq hafter.between.holds.known,
      Finset.coe_subset, hafter.candidates]
    exact Terrain.core_spread_subset.trans hclosed.spread_live_subset

/-! ## 3. The passes of a round -/

/-- A run in which a reachability pass from the states `A` may begin. -/
structure Run.Readied (t : Terrain N σ) (desk : Nat → Desk N) (A : Finset N) (r : Run N σ) :
    Prop where
  rests : r.cluster.Rests t desk (fun _ => 0)
  stocked : t.Stocked fun i => (desk i).table
  cleared : t.Cleared r.ledger.round A fun i => (desk i).table
  seeds : t.statesWhere (fun i => (desk i).table) Mark.isSeed = A
  encloses : t.Encloses A

/-- **At every moment of a reachability pass the candidates are in what the seeds reach.** -/
theorem Check.candidates_reach_subset (hplan : plan.Covers t) {desk : Nat → Desk N} {A : Finset N}
    (hr : r.Readied t desk A) (left : Nat) :
    (driveWorkers plan .reach { r with left := left }).cluster.candidates ⊆ t.spread A := by
  obtain ⟨hc, X, -, hs⟩ := reached_driveWorkers hplan hr.rests hr.stocked hr.cleared hr.seeds
    hr.encloses left
  rw [(hc.shelved (by decide) hs.kept.parted).coe_candidates, Finset.coe_subset]
  exact hs.within

/-- A reset in a round leaves everything ready for the reachability pass after it. -/
theorem Run.Between.exists_readied [t.Rooted] (hplan : plan.Covers t)
    (hr : r.Between t name least T) {left : Nat} {r₂ : Run N σ}
    (hreset : Check.superstep plan .reset { r.numbered with left := left } = (.ok (), r₂)) :
    r₂.ledger.size = r.ledger.size ∧ r₂.ledger.share = r.numbered.ledger.share ∧
      ∃ desk, r₂.Readied t desk (t.live T) := by
  obtain ⟨desk, hrests, rfl⟩ := hr.holds.rests
  have hknown := hr.holds.known
  have hrests' : r.numbered.cluster.Rests t desk (fun _ => 0) := hrests
  have hanswers := answers_superstep_reset hplan hrests' hknown.toStocked
    hknown.statesWhere_isSeed left
  rw [hreset] at hanswers
  obtain ⟨⟨hsize, T₂, hresumes, hcleared, hseed⟩, -⟩ := hanswers
  obtain ⟨desk₂, hrests₂, rfl⟩ := hresumes.rests
  have hround : r₂.ledger.round = r.numbered.ledger.round :=
    (congrArg Ledger.round hresumes.share :)
  rw [← hround] at hcleared
  exact ⟨hsize.trans hr.size.symm, hresumes.share, desk₂, hrests₂, hresumes.kept.toStocked,
    hcleared, hseed,
    Terrain.encloses_of_subset (Terrain.live_subset_accepted.trans Terrain.accepted_subset)⟩

/-- **A reset counts as many seeds as the ledger says**, and the reachability pass after it stays
within the candidates that there were, if these are a closed set. -/
theorem Run.Between.of_reset [t.Rooted] (hplan : plan.Covers t) (hr : r.Between t name least T)
    {left : Nat} {r₂ : Run N σ}
    (hreset : Check.superstep plan .reset { r.numbered with left := left } = (.ok (), r₂)) :
    r₂.ledger.size = r.ledger.size ∧ r₂.ledger.oldSize = r.ledger.size ∧
      (t.Closed (t.candidates T) → ∀ left,
        (Check.driveWorkers plan .reach { r₂ with left := left }).cluster.candidates ⊆
          r.cluster.candidates) := by
  obtain ⟨hsize, hshare, desk₂, hr₂⟩ := hr.exists_readied hplan hreset
  refine ⟨hsize, (congrArg Ledger.oldSize hshare :), fun hclosed left => ?_⟩
  obtain ⟨desk, hrests, rfl⟩ := hr.holds.rests
  rw [hrests.candidates_eq hr.holds.known]
  refine (Check.candidates_reach_subset hplan hr₂ left).trans ?_
  rw [Finset.coe_subset]
  exact hclosed.spread_live_subset

/-- The number of seeds is never found to be wrong. -/
theorem Run.Between.reset_eq [t.Rooted] (hplan : plan.Covers t) (hr : r.Between t name least T)
    (left : Nat) :
    (Check.reset plan { r.numbered with left := left }).1 = .ok () ∨
      (Check.reset plan { r.numbered with left := left }).1 = .error .outOfTurns := by
  have hholds : r.numbered.Holds t name r.numbered.ledger.share least T :=
    ⟨hr.holds.rests, hr.holds.known, rfl, hr.holds.generated⟩
  have hanswers := (meets_reset hplan hholds hr.size).answers left
  by_cases hturns : (Check.reset plan { r.numbered with left := left }).1 = .error .outOfTurns
  · exact .inr hturns
  · obtain ⟨⟨⟩, hok, -⟩ := hanswers.exists_ok hturns
    exact .inl hok

end Between

/-! ## 4. The loop of a check -/

section Check

variable [DecidableEq N]

/-- **What holds from round to round**, whoever takes turns when.  At the head of the loop the size
in the ledger is the number of accepting candidates, so that a reset finds as many seeds as it
should.  From the second round on, reachability takes in no state that is not a candidate already,
and no accepting candidate ever comes back.  In a reachability pass no state leaves the candidate
set, and in an elimination pass none enters it.  A check that returns has gone through the loop to
its end, in at most as many rounds as there are accepting states; there are none exactly if there
is no accepting state or the exploration has found a cycle. -/
theorem rounds_loop_head {g : Graph N σ} (p : g.Promise) {config : Config}
    (hworkers : config.workers ≤ 2 ^ 32)
    (hfew : (p.reachable config.reduction).encard < 2 ^ 32 - 1) {turns : Nat → Turn} {limit : Nat}
    {memory : σ} {stats : Stats} {r₁ : Run N σ}
    (hexplore : Check.explore ⟨g, config, turns⟩ (Run.begin config memory limit) =
      (.ok stats, r₁)) :
    (∀ k r, Check.Laps ⟨g, config, turns⟩ r₁ k r →
      r.ledger.size = r.cluster.seeds.ncard ∧
      (r.GoesOn k →
        (∀ left,
          (Check.reset ⟨g, config, turns⟩ { r.numbered with left := left }).1 = .ok () ∨
          (Check.reset ⟨g, config, turns⟩ { r.numbered with left := left }).1 =
            .error .outOfTurns) ∧
        (∀ left r₂, Check.superstep ⟨g, config, turns⟩ .reset { r.numbered with left := left } =
            (.ok (), r₂) →
          r₂.ledger.size = r.ledger.size ∧ r₂.ledger.oldSize = r.ledger.size ∧
          (k ≠ 0 → ∀ left, (Check.driveWorkers ⟨g, config, turns⟩ .reach
            { r₂ with left := left }).cluster.candidates ⊆ r.cluster.candidates)) ∧
        ∀ r', Check.round ⟨g, config, turns⟩ r = (.ok (), r') →
          r'.cluster.seeds ⊆ r.cluster.seeds ∧
          (k ≠ 0 → r'.cluster.candidates ⊆ r.cluster.candidates))) ∧
    (∀ (r : Run N σ) (a b : Nat), a ≤ b →
      (Check.driveWorkers ⟨g, config, turns⟩ .reach { r with left := a }).cluster.candidates ⊆
        (Check.driveWorkers ⟨g, config, turns⟩ .reach { r with left := b }).cluster.candidates ∧
      (Check.driveWorkers ⟨g, config, turns⟩ .eliminate { r with left := b }).cluster.candidates ⊆
        (Check.driveWorkers ⟨g, config, turns⟩ .eliminate
          { r with left := a }).cluster.candidates) ∧
    ∀ report, (checkInTurns g config turns limit memory).1 = .ok report →
      (∃ r, Check.Laps ⟨g, config, turns⟩ r₁ report.outcome.stats.rounds r ∧
        ¬r.GoesOn report.outcome.stats.rounds) ∧
      report.outcome.stats.rounds ≤ report.outcome.stats.accepting ∧
      (report.outcome.stats.rounds = 0 ↔
        report.outcome.stats.accepting = 0 ∨ r₁.ledger.cycleFound = true) := by
  let t := p.terrain config hworkers hfew
  have hplan : (⟨g, config, turns⟩ : Plan N σ).Covers t := ⟨rfl, rfl, rfl⟩
  obtain ⟨desk, hrests, hexp⟩ := Check.explored_of_explore hplan hexplore
  refine ⟨fun k r hlaps => ?_, fun r a b hle => ?_, fun report hreport => ?_⟩
  · cases hfound : r₁.ledger.cycleFound with
    | true =>
      -- then there is no round at all
      have hno : ∀ j, ¬r₁.GoesOn j := fun j hon => absurd (hfound.symm.trans hon.found) (by simp)
      cases hlaps with
      | start => exact ⟨hexp.size_eq hrests, fun hon => absurd hon (hno 0)⟩
      | round h hon hround =>
        exact absurd ((h.round hon hround).goesOn (Nat.succ_ne_zero _)) (hno 0)
    | false =>
      obtain ⟨T, hr, hclosed⟩ := hlaps.between hplan (hexp.between hrests hfound).1
      refine ⟨hr.size_eq, fun hon => ⟨hr.reset_eq hplan, fun left r₂ hreset => ?_,
        fun r' hround => ?_⟩⟩
      · obtain ⟨hsize, hold, hreach⟩ := hr.of_reset hplan hreset
        exact ⟨hsize, hold, fun hk => hreach (hclosed hk)⟩
      · obtain ⟨hseeds, hcandidates⟩ := hr.of_round hplan hround
        exact ⟨hseeds, fun hk => hcandidates (hclosed hk)⟩
  · exact ⟨Check.candidates_reach_mono r hle, Check.candidates_eliminate_anti r hle⟩
  · have hrun : Check.run ⟨g, config, turns⟩
        { cluster := .create config.peers memory, left := limit } =
          (.ok report, (checkInTurns g config turns limit memory).2) := Prod.ext hreport rfl
    obtain ⟨r₁', desk', n, r₂, hexplore', hcourse⟩ := Check.exists_course hplan hrun
    obtain rfl : r₁ = r₁' := congrArg Prod.snd (hexplore.symm.trans hexplore')
    rw [hcourse.outcome.2.2]
    obtain ⟨hlaps, hend⟩ := Check.Laps.rounds .start (fun hk => absurd rfl hk) le_rfl hcourse.rounds
    rw [Nat.zero_add] at hlaps hend
    refine ⟨⟨r₂, hlaps, hend⟩, hlaps.count_le.1, fun hn => ?_, fun hstop => ?_⟩
    · have hn : n = 0 := hn
      subst hn
      cases hlaps with
      | start =>
        by_contra hgo
        rw [not_or, Bool.not_eq_true] at hgo
        exact hend ⟨hgo.2, hgo.1, fun hk => absurd rfl hk⟩
    · by_contra hn
      have hon := hlaps.goesOn hn
      rcases hstop with hnone | hfound
      · exact hon.size hnone
      · exact absurd (hfound.symm.trans hon.found) (by simp)

/-- Three states, `0 → 1 → 1 → 2`, of which the first and the last are accepting. -/
def receding : Graph (Fin 3) Unit := .ofThree [[1], [1, 2], []] [0, 2]

def recedingPromise : receding.Promise := .ofThree ..

/-- Two workers need two rounds in a graph where the first brings the accepting candidates down from
two to one; the second round stays within the candidates that the first has left. -/
theorem rounds_loop_head_receding :
    ∃ r₁ r report,
      Check.explore ⟨receding, { workers := 2 }, Turn.roundRobin⟩
        (Run.begin { workers := 2 } () 300) = (.ok ⟨3, 3, 2, 0, []⟩, r₁) ∧
      Check.Laps ⟨receding, { workers := 2 }, Turn.roundRobin⟩ r₁ 1 r ∧ r.GoesOn 1 ∧
      r.ledger.size = r.cluster.seeds.ncard ∧
      (∀ r', Check.round ⟨receding, { workers := 2 }, Turn.roundRobin⟩ r = (.ok (), r') →
        r'.cluster.candidates ⊆ r.cluster.candidates) ∧
      (checkInTurns receding { workers := 2 } Turn.roundRobin 300 ()).1 = .ok report ∧
      report.outcome.stats.rounds = 2 ∧ report.outcome.stats.accepting = 2 := by
  have hexplore : (Check.explore ⟨receding, { workers := 2 }, Turn.roundRobin⟩
      (Run.begin { workers := 2 } () 300)).1 = .ok ⟨3, 3, 2, 0, []⟩ := by decide +kernel
  have hrun : (checkInTurns receding { workers := 2 } Turn.roundRobin 300 ()).1 =
      .ok ⟨⟨.yes, .yes, .none, ⟨3, 3, 2, 2, [2, 1]⟩⟩, none⟩ := by decide +kernel
  obtain ⟨hhead, -, hend⟩ := rounds_loop_head recedingPromise (by decide) (encard_lt_of_three _)
    (Prod.ext hexplore rfl)
  obtain ⟨⟨r₂, hlaps, -⟩, -⟩ := hend _ hrun
  cases hlaps with
  | @round k r r' h hon hround =>
    obtain ⟨hsize, hnext⟩ := hhead 1 r h
    refine ⟨_, r, _, Prod.ext hexplore rfl, h, hon, hsize, fun r' hround => ?_, hrun, rfl, rfl⟩
    exact ((hnext hon).2.2 r' hround).2 (by decide)

end Check

end FairCycle
