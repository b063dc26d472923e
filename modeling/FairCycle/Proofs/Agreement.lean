/-
# Partitions and schedules do not matter

Two complete runs over one graph may differ in the number of workers, in the hash that gives each
state its home and in the order in which the workers get their turns.  They agree all the same.
What a round leaves is a matter of the graph alone, and so is when the rounds end
(`Terrain.Ends.unique`); hence the marks at the end can be told from the graph and the number of
rounds (`Terrain.finalFields`), and so can all figures but those of the single workers.
-/
import FairCycle.Proofs.Census

namespace FairCycle

variable {N σ σ' : Type}

/-! ## 1. Terrains that differ in the homes of states only -/

/-- Two terrains with the same states, edges and accepting states. -/
structure Terrain.Alike (t : Terrain N σ) (t' : Terrain N σ') : Prop where
  initial : t.graph.initial = t'.graph.initial
  targets : t.targets = t'.targets
  accepting : t.accepting = t'.accepting

namespace Terrain.Alike

variable {t : Terrain N σ} {t' : Terrain N σ'}

theorem edge (h : t.Alike t') : t.Edge = t'.Edge := by
  funext u v
  change (v ∈ t.targets u) = (v ∈ t'.targets u)
  rw [h.targets]

theorem reaches (h : t.Alike t') : t.Reaches = t'.Reaches :=
  congrArg Relation.ReflTransGen h.edge

theorem onCycle (h : t.Alike t') : t.OnCycle = t'.OnCycle := by
  funext u
  exact congrArg (Relation.TransGen · u u) h.edge

theorem inflow [DecidableEq N] (h : t.Alike t') : t.inflow = t'.inflow := by
  funext S v
  rw [Terrain.inflow, Terrain.inflow, h.targets]

variable [t.Rooted] [t'.Rooted]

theorem states (h : t.Alike t') : t.states = t'.states := by
  ext v
  rw [mem_states, mem_states, h.reaches, h.initial]

theorem accepted (h : t.Alike t') : t.accepted = t'.accepted := by
  ext v
  rw [mem_accepted, mem_accepted, h.states, h.accepting]

theorem spread (h : t.Alike t') (A : Finset N) : t.spread A = t'.spread A := by
  ext v
  rw [mem_spread, mem_spread, h.states, h.reaches]

theorem sift (h : t.Alike t') : t.sift = t'.sift := by
  funext S
  ext v
  rw [Terrain.sift, Terrain.sift, mem_core, mem_core, h.states, h.spread, h.onCycle, h.reaches,
    h.accepting]

theorem ends (h : t.Alike t') {S : Finset N} {n : Nat} (hn : t.Ends S n) : t'.Ends S n := by
  induction hn with
  | idle hnone =>
    rw [h.accepting] at hnone
    exact .idle hnone
  | last hsome hsame =>
    rw [h.accepting] at hsome
    rw [h.accepting, h.sift] at hsame
    exact .last hsome hsame
  | more hsome hless hrest ih =>
    rw [h.accepting] at hsome
    rw [h.accepting, h.sift] at hless
    rw [h.sift] at ih
    exact .more hsome hless ih

end Terrain.Alike

/-- **When the rounds end is a matter of the candidates.** -/
theorem Terrain.Ends.unique {t : Terrain N σ} {S : Finset N} {n m : Nat} (hn : t.Ends S n)
    (hm : t.Ends S m) : n = m := by
  induction hn generalizing m with
  | idle hnone =>
    cases hm with
    | idle => rfl
    | last hsome => exact absurd hnone hsome
    | more hsome => exact absurd hnone hsome
  | last hsome hsame =>
    cases hm with
    | idle hnone => exact absurd hnone hsome
    | last => rfl
    | more _ hless => exact absurd hsame hless
  | more hsome hless hrest ih =>
    cases hm with
    | idle hnone => exact absurd hnone hsome
    | last _ hsame => exact absurd hsame hless
    | more _ _ hrest' => exact congrArg (· + 1) (ih hrest')

/-! ## 2. What the graph says about the end of a run -/

section Final

variable [DecidableEq N]

/-- What is recorded about a reachable state after `n` rounds that follow a complete exploration. -/
noncomputable def Terrain.finalFields (t : Terrain N σ) (v : N) : Nat → Mark.Fields
  | 0 => ⟨0, 0, t.accepting v, t.accepting v⟩
  | n + 1 =>
    { predecessors := t.inflow (t.sift^[n + 1] t.accepted) v
      iteration := Terrain.stampIn (UInt32.ofNat (n + 1))
        (t.spread ((t.sift^[n] t.accepted).filter fun u => t.accepting u)) v
      inS := decide (v ∈ t.sift^[n + 1] t.accepted)
      inF := t.accepting v }

theorem Terrain.Alike.finalFields {t : Terrain N σ} {t' : Terrain N σ'} [t.Rooted] [t'.Rooted]
    (h : t.Alike t') (v : N) (n : Nat) : t.finalFields v n = t'.finalFields v n := by
  cases n with
  | zero => rw [Terrain.finalFields, Terrain.finalFields, h.accepting]
  | succ n =>
    rw [Terrain.finalFields, Terrain.finalFields, h.inflow, h.sift, h.accepted, h.spread,
      h.accepting]

variable [Ord N] {t : Terrain N σ}

/-- After the rounds the tables say what the graph does. -/
theorem Run.Finished.fieldsOf_eq {name : N → Option Handle} {least n : Nat} {T T' : Nat → Table N}
    {l : Ledger N} {generated : Nat} {r : Run N σ} (h : r.Finished t name least 0 T n T')
    (hexp : Explored t T l generated) (hall : t.held T = t.states) {v : N} (hv : v ∈ t.states) :
    t.fieldsOf T' v = t.finalFields v n := by
  have hcand := h.candidates
  rw [hexp.candidates_eq hall] at hcand
  cases n with
  | zero =>
    obtain ⟨m, hm⟩ : ∃ m, t.markOf T v = some m := by
      rw [← hall, hexp.parted.mem_held] at hv
      exact Option.isSome_iff_exists.mp hv
    rw [h.idle rfl, Terrain.fieldsOf_eq hm, hexp.fields hm]
    rfl
  | succ n =>
    have hinS : (t.fieldsOf T' v).inS = decide (v ∈ t.sift^[n + 1] t.accepted) := by
      rw [← hcand, Bool.eq_iff_iff, decide_eq_true_iff, Terrain.mem_candidates, and_iff_right hv]
    have hstamp := h.stamps rfl hv
    rw [hexp.candidates_eq hall, UInt32.zero_add] at hstamp
    have hcount := h.decided.counted v
    rw [hcand] at hcount
    have hinF := h.decided.between.holds.known.accepting hv
    calc t.fieldsOf T' v
        = ⟨(t.fieldsOf T' v).predecessors, (t.fieldsOf T' v).iteration, (t.fieldsOf T' v).inS,
            (t.fieldsOf T' v).inF⟩ := rfl
      _ = t.finalFields v (n + 1) := by rw [hcount, hstamp, hinS, hinF]; rfl

end Final

/-! ## 3. Two runs -/

section Check

variable [Ord N] [Std.TransOrd N] [Std.LawfulEqOrd N] [DecidableEq N]

namespace Check.Course

variable {t : Terrain N σ} {plan : Plan N σ} {r₁ r₂ r : Run N σ} {desk : Nat → Desk N} {n : Nat}
  {report : Report N}

/-- The rounds of a complete run are those that the graph says. -/
theorem ends [t.Rooted] (hplan : plan.Covers t) (h : Course t plan r₁ desk n r₂ report r)
    (hfound : r₁.ledger.cycleFound = false) : t.Ends t.accepted n := by
  obtain ⟨T, hT⟩ := h.finished hplan hfound
  have hends := hT.ends
  rwa [h.explored.candidates_eq (h.explored.complete hfound).1] at hends

/-- The answer is the one that the graph gives. -/
theorem holds_eq [t.Rooted] (hplan : plan.Covers t) (h : Course t plan r₁ desk n r₂ report r)
    (hfound : r₁.ledger.cycleFound = false) : report.outcome.holds =
      .ofBool (((t.sift^[n] t.accepted).filter fun v => t.accepting v).card == 0) := by
  obtain ⟨T, hT⟩ := h.finished hplan hfound
  rw [h.outcome.1, h.found_eq hplan, hfound, hT.decided.between.size, Terrain.live, hT.candidates,
    h.explored.candidates_eq (h.explored.complete hfound).1]
  rfl

/-- **What is recorded at the end of a complete run without a counterexample.** -/
theorem marks_iff [t.Rooted] (hplan : plan.Covers t) (h : Course t plan r₁ desk n r₂ report r)
    (hfound : r₁.ledger.cycleFound = false) (hno : plan.config.counterexample = false) {v : N}
    {fields : Mark.Fields} :
    (∃ m, r.cluster.Marks v m ∧ m.fields = fields) ↔ v ∈ t.states ∧ t.finalFields v n = fields := by
  obtain ⟨T, hT⟩ := h.finished hplan hfound
  obtain ⟨e, rfl⟩ := h.unchanged hno
  have hknown := hT.decided.between.holds.known
  obtain ⟨desk', hrests, rfl⟩ := hT.decided.between.holds.rests
  have hshelved := (hrests.record e).shelved hknown.parted
  have hfinal : ∀ {v}, v ∈ t.states →
      t.fieldsOf (fun i => (desk' i).table) v = t.finalFields v n := fun hv =>
    hT.fieldsOf_eq h.explored (h.explored.complete hfound).1 hv
  constructor
  · rintro ⟨m, hm, rfl⟩
    have hm := hshelved.marks_iff.mp hm
    have hv := hknown.parted.mem_states hm
    exact ⟨hv, by rw [← hfinal hv, Terrain.fieldsOf_eq hm]⟩
  · rintro ⟨hv, rfl⟩
    obtain ⟨m, hm, hfields⟩ := hknown.exists_mark hv
    exact ⟨m, hshelved.marks_iff.mpr hm, by rw [← hfields, hfinal hv]⟩

end Check.Course

/-- **Two complete runs agree.**  Over graphs that differ in the hash of states only, whatever the
number of workers and the order of turns, two checks without counterexamples that have explored
everything give the same answer after the same number of rounds, count the same, and leave the same
states with the same marks. -/
theorem checkInTurns_agree {g : Graph N σ} {g' : Graph N σ'} (p : g.Promise) (p' : g'.Promise)
    {config config' : Config} (hinitial : g.initial = g'.initial)
    (htargets : p.targets config.reduction = p'.targets config'.reduction)
    (haccepting : p.accepting = p'.accepting)
    (hworkers : config.workers ≤ 2 ^ 32) (hworkers' : config'.workers ≤ 2 ^ 32)
    (hfew : (p.reachable config.reduction).encard < 2 ^ 32 - 1)
    (hno : config.counterexample = false) (hno' : config'.counterexample = false)
    {turns turns' : Nat → Turn} {limit limit' : Nat} {memory : σ} {memory' : σ'}
    {report report' : Report N} {r : Run N σ} {r' : Run N σ'}
    (h : checkInTurns g config turns limit memory = (.ok report, r))
    (h' : checkInTurns g' config' turns' limit' memory' = (.ok report', r'))
    (hyes : report.outcome.explored = .yes) (hyes' : report'.outcome.explored = .yes) :
    report.outcome.holds = report'.outcome.holds ∧
    report.outcome.stats.states = report'.outcome.stats.states ∧
    report.outcome.stats.transitions = report'.outcome.stats.transitions ∧
    report.outcome.stats.accepting = report'.outcome.stats.accepting ∧
    report.outcome.stats.rounds = report'.outcome.stats.rounds ∧
    ∀ v fields, (∃ m, r.cluster.Marks v m ∧ m.fields = fields) ↔
      ∃ m, r'.cluster.Marks v m ∧ m.fields = fields := by
  have hfew' : (p'.reachable config'.reduction).encard < 2 ^ 32 - 1 := by
    have hreachable : p'.reachable config'.reduction = p.reachable config.reduction := by
      unfold Graph.Promise.reachable Graph.Promise.Reaches Graph.Promise.Edge
      rw [hinitial, htargets]
    rw [hreachable]
    exact hfew
  let t := p.terrain config hworkers hfew
  let t' := p'.terrain config' hworkers' hfew'
  have halike : t.Alike t' := ⟨hinitial, htargets, haccepting⟩
  have hplan : (⟨g, config, turns⟩ : Plan N σ).Covers t := ⟨rfl, rfl, rfl⟩
  have hplan' : (⟨g', config', turns'⟩ : Plan N σ').Covers t' := ⟨rfl, rfl, rfl⟩
  obtain ⟨r₁, desk, n, r₂, -, hcourse⟩ := Check.exists_course hplan h
  obtain ⟨r₁', desk', n', r₂', -, hcourse'⟩ := Check.exists_course hplan' h'
  have hfound := hcourse.found_eq_false hplan hyes
  have hfound' := hcourse'.found_eq_false hplan' hyes'
  obtain rfl : n = n' :=
    (halike.ends (hcourse.ends hplan hfound)).unique
      (halike.accepted ▸ hcourse'.ends hplan' hfound')
  rw [hcourse.holds_eq hplan hfound, hcourse'.holds_eq hplan' hfound',
    hcourse.stats_of_complete hfound, hcourse'.stats_of_complete hfound', halike.states,
    halike.accepted, halike.targets, halike.sift, halike.accepting]
  refine ⟨rfl, rfl, rfl, rfl, rfl, fun v fields => ?_⟩
  rw [hcourse.marks_iff hplan hfound hno, hcourse'.marks_iff hplan' hfound' hno', halike.states,
    halike.finalFields]

end Check

/-- The small graph with the last state accepting, and with other fingerprints. -/
def pendantRehashed : Graph (Fin 3) Unit :=
  .ofThree [[1], [2], [1]] [2] fun v => (5 - 2 * v.val).toUInt64

def pendantRehashedPromise : pendantRehashed.Promise := .ofThree ..

/-- A worker alone, and three that share the states in another way and take four turns each. -/
theorem checkInTurns_pendant_agree :
    ∃ report report' r r',
      checkInTurns (pendant 2) ⟨1, false, false⟩ Turn.roundRobin 300 () = (.ok report, r) ∧
      checkInTurns pendantRehashed ⟨3, false, false⟩ (fun time => ⟨time / 4, 1⟩) 600 () =
        (.ok report', r') ∧
      report.outcome.explored = .yes ∧ report'.outcome.explored = .yes ∧
      report.outcome.stats.perWorker = [3] ∧ report'.outcome.stats.perWorker = [1, 1, 1] ∧
      report.outcome.holds = report'.outcome.holds ∧
      report.outcome.stats.rounds = report'.outcome.stats.rounds ∧
      ∀ v fields, (∃ m, r.cluster.Marks v m ∧ m.fields = fields) ↔
        ∃ m, r'.cluster.Marks v m ∧ m.fields = fields := by
  have hrun : (checkInTurns (pendant 2) ⟨1, false, false⟩ Turn.roundRobin 300 ()).1 =
      .ok ⟨⟨.no, .yes, .none, ⟨3, 3, 1, 1, [3]⟩⟩, none⟩ := by
    decide +kernel
  have hrun' : (checkInTurns pendantRehashed ⟨3, false, false⟩ (fun time => ⟨time / 4, 1⟩) 600
      ()).1 = .ok ⟨⟨.no, .yes, .none, ⟨3, 3, 1, 1, [1, 1, 1]⟩⟩, none⟩ := by
    decide +kernel
  have hpair : checkInTurns (pendant 2) ⟨1, false, false⟩ Turn.roundRobin 300 () = (.ok _, _) :=
    Prod.ext hrun rfl
  have hpair' : checkInTurns pendantRehashed ⟨3, false, false⟩ (fun time => ⟨time / 4, 1⟩) 600 () =
      (.ok _, _) := Prod.ext hrun' rfl
  obtain ⟨hholds, -, -, -, hrounds, hmarks⟩ := checkInTurns_agree (pendantPromise 2)
    pendantRehashedPromise rfl (by rfl) rfl (by decide) (by decide) (encard_lt_of_three _) (by rfl)
    (by rfl) hpair hpair' rfl rfl
  exact ⟨_, _, _, _, hpair, hpair', rfl, rfl, rfl, rfl, hholds, hrounds, hmarks⟩

end FairCycle
