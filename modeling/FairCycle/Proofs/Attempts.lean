/-
# Attempts at a cycle

When the rounds have left accepting candidates, a search makes one attempt after the other
(`Check.attempt`): a ledger goes around the ring to name a seed, and a superstep searches from it.
`Check.Attempts` lists the runs between two attempts.

The seeds are named in the order of workers and slots, and an attempt finds a cycle exactly if its
seed lies on one.  So the search ends with the least handle of an accepting candidate on a cycle.
There is one, as candidates are closed under edges and every one has another before it.

No attempt changes the tables (`findCycle_least`).
-/
import FairCycle.Proofs.Frame
import FairCycle.Proofs.Passes

namespace FairCycle

variable {N σ : Type} [Ord N]

/-! ## 1. Handles in order -/

theorem Handle.le_iff {h k : Handle} : h.le k = true ↔
    h.worker.toNat < k.worker.toNat ∨
      h.worker.toNat = k.worker.toNat ∧ h.slot.toNat ≤ k.slot.toNat := by
  simp [Handle.le, UInt32.lt_iff_toNat_lt, UInt32.le_iff_toNat_le, ← UInt32.toNat_inj]

/-- The handles of the accepting candidates on a cycle. -/
def Cluster.cyclicSeeds (c : Cluster N σ) {g : Graph N σ} (p : g.Promise) (reduction : Bool) :
    Set Handle :=
  {k | ∃ v ∈ c.seeds, c.StoresAt k.worker.toNat k.slot.toNat v ∧ p.OnCycle reduction v}

section Least

variable {t : Terrain N σ} {T : Nat → Table N} {name : N → Option Handle} {c : Cluster N σ} {v : N}
  {k : Handle}

theorem Cluster.Rests.seeds_eq_live {desk : Nat → Desk N} {cursor : Nat → Nat}
    (hc : c.Rests t desk cursor) (hT : t.Known name fun i => (desk i).table) :
    c.seeds = t.live fun i => (desk i).table := by
  rw [hc.seeds_eq hT.toStocked, hT.statesWhere_isSeed]

/-- **The first accepting candidate on a cycle has the least handle.** -/
theorem Terrain.Leads.least (h : t.Leads name T v k) (hc : c.Shelved t T)
    (hnames : ∀ v, t.handleOf T v = name v) (hseeds : c.seeds = t.live T) :
    k ∈ c.cyclicSeeds t.promise t.reduction ∧
      ∀ k' ∈ c.cyclicSeeds t.promise t.reduction, k.le k' = true := by
  have hv : t.handleOf T v = some k := (hnames v).trans h.name
  constructor
  · refine ⟨v, ?_, hc.storesAt_of_handleOf hv, h.onCycle⟩
    rw [hseeds]
    exact h.live
  · rintro k' ⟨u, hu, hstores, hon⟩
    rw [hseeds] at hu
    obtain ⟨hlt, hslot⟩ := hc.storesAt_iff.mp hstores
    obtain ⟨hhome, hslot', -⟩ := hc.parted.of_nodes hlt hslot
    rw [Handle.le_iff, hc.parted.handle_worker hv, ← Terrain.slotOf_eq hv, ← hhome, ← hslot']
    exact h.first hu hon

end Least

/-! ## 2. From attempt to attempt -/

section Attempts

variable [Std.TransOrd N] [Std.LawfulEqOrd N] {plan : Plan N σ} {r r₀ r' : Run N σ}

/-- After some attempts that have found no cycle the run that was `r₀` is `r`. -/
inductive Check.Attempts (plan : Plan N σ) (r₀ : Run N σ) : Run N σ → Prop
  | start : Attempts plan r₀ r₀
  | next {r r' : Run N σ} {seed : Handle} (h : Attempts plan r₀ r)
      (hattempt : attempt plan r = (.ok (some seed), r'))
      (hnone : r'.ledger.cycleFound = false) : Attempts plan r₀ r'

/-- A search that ends well ends with an attempt that has found a cycle. -/
theorem Check.Attempts.exists_last {remaining bound : Nat} (h : Attempts plan r₀ r)
    (hsearch : search plan remaining bound r = (.ok (), r')) :
    ∃ r₁ seed r₂, Attempts plan r₀ r₁ ∧ attempt plan r₁ = (.ok (some seed), r₂) ∧
      r₂.ledger.cycleFound = true ∧
      r' = { r₂ with cluster := r₂.cluster.record (.cycleFound r₂.ledger.cycleNode) } := by
  induction bound generalizing r with
  | zero => exact absurd (Prod.mk.inj hsearch).1 (by simp)
  | succ bound ih =>
    rw [search_succ] at hsearch
    obtain ⟨seed, r₂, hattempt, hrest⟩ := exists_of_bind_eq_ok hsearch
    cases seed with
    | none => exact absurd (Prod.mk.inj hrest).1 (by simp)
    | some seed =>
      dsimp only at hrest
      rw [RunM.ledger_bind] at hrest
      split at hrest
      · rename_i hfound
        obtain ⟨-, rfl⟩ := Prod.mk.inj hrest
        exact ⟨r, seed, r₂, h, hattempt, hfound, rfl⟩
      · rename_i hnone
        exact ih (h.next hattempt (Bool.not_eq_true _ ▸ hnone)) hrest

/-- A run that is to look for a cycle, after so many rounds. -/
def Run.doubting (rounds left : Nat) (r : Run N σ) : Run N σ :=
  { r with cluster := r.cluster.record (.decided false rounds), left := left }

/-- The same run when the first attempt is made. -/
def Run.searching (rounds left : Nat) (r : Run N σ) : Run N σ :=
  { r with
    cluster := (r.doubting rounds left).cluster.record (.searching r.ledger.size)
    left := left }

theorem Check.findCycle_doubting {n left : Nat} (hsize : r.ledger.size ≠ 0) :
    findCycle plan (r.doubting n left) =
      search plan r.ledger.size
        (((r.searching n left).cluster.tables.map Table.size).foldl (· + ·) 0 + 1)
        (r.searching n left) := by
  unfold findCycle
  rw [RunM.ledger_bind, if_neg (show (r.doubting n left).ledger.size ≠ 0 from hsize)]
  rfl

variable [DecidableEq N] {t : Terrain N σ} {name : N → Option Handle} {least n left : Nat}
  {T : Nat → Table N}

/-- What one attempt does, among those that follow the rounds. -/
theorem Run.Decided.attempt_cases [t.Rooted] (hplan : plan.Covers t)
    (hr : r₀.Decided t name least T) (hsize : r₀.ledger.size ≠ 0) {cursor : Nat → Nat}
    (hseeking : r.Seeking t (r₀.ledger.share.seeded none) least T cursor) {seed : Option Handle}
    (hattempt : Check.attempt plan r = (.ok seed, r')) :
    ∃ c k, seed = some k ∧ name c = some k ∧
      (¬t.OnCycle c ∧ r'.ledger.cycleFound = false ∧
          (∃ cursor', r'.Seeking t (r₀.ledger.share.seeded none) least T cursor') ∨
        t.Leads name T c k ∧ r'.ledger.cycleFound = true ∧
          r'.Caught t (r₀.ledger.share.seeded none) least T k) := by
  have hfound : (r₀.ledger.share.seeded none).cycleFound = false := hr.between.found
  have hanswers := (meets_attempt hplan hr.between.holds.known (hr.mem_candidates_of_edge hsize)
    (hr.exists_onCycle hsize) hfound hr.between.node hseeking).answers_self
  rw [hattempt] at hanswers
  obtain ⟨c, k, hseed, hk, ⟨hnot, hgoes, cursor', hseeking', -⟩ | hcaught⟩ := hanswers
  · exact ⟨c, k, hseed, hk, .inl ⟨hnot, hgoes, cursor', hseeking'⟩⟩
  · exact ⟨c, k, hseed, hk, .inr hcaught⟩

/-- **Between two attempts**, whoever takes turns when, all candidates that were tried lie on no
cycle. -/
theorem Run.Decided.seeking_of_attempts [t.Rooted] (hplan : plan.Covers t)
    (hr : r₀.Decided t name least T) (hsize : r₀.ledger.size ≠ 0)
    (h : Check.Attempts plan (r₀.searching n left) r) :
    ∃ cursor, r.Seeking t (r₀.ledger.share.seeded none) least T cursor := by
  induction h with
  | start => exact ⟨_, ((hr.record _ left).record _ left).seeking⟩
  | next h hattempt hnone ih =>
    obtain ⟨cursor, hseeking⟩ := ih
    obtain ⟨c, k, -, -, ⟨-, -, hgoes⟩ | ⟨-, hends, -⟩⟩ :=
      hr.attempt_cases hplan hsize hseeking hattempt
    · exact hgoes
    · exact absurd (hnone.symm.trans hends) (by simp)

/-- **An attempt finds a cycle exactly if its seed lies on one**, and then the seed is the first of
all accepting candidates on a cycle. -/
theorem Run.Decided.of_attempt [t.Rooted] (hplan : plan.Covers t)
    (hr : r₀.Decided t name least T) (hsize : r₀.ledger.size ≠ 0)
    (h : Check.Attempts plan (r₀.searching n left) r) {seed : Option Handle}
    (hattempt : Check.attempt plan r = (.ok seed, r')) :
    ∃ c k, seed = some k ∧ t.handleOf T c = some k ∧
      (r'.ledger.cycleFound = true ↔ t.OnCycle c) ∧
      (r'.ledger.cycleFound = true → t.Leads name T c k ∧ r'.ledger.cycleNode = some k) := by
  have hknown := hr.between.holds.known
  obtain ⟨cursor, hseeking⟩ := hr.seeking_of_attempts hplan hsize h
  obtain ⟨c, k, hseed, hk, ⟨hnot, hgoes, -⟩ | ⟨hleads, hends, hcaught⟩⟩ :=
    hr.attempt_cases hplan hsize hseeking hattempt
  · have hnone : r'.ledger.cycleFound ≠ true := by simp [hgoes]
    exact ⟨c, k, hseed, (hknown.names c).trans hk, iff_of_false hnone hnot,
      fun hends => absurd hends hnone⟩
  · refine ⟨c, k, hseed, (hknown.names c).trans hk, iff_of_true hends hleads.onCycle, fun _ => ?_⟩
    exact ⟨hleads, (congrArg Ledger.cycleNode hcaught.ledger :)⟩

end Attempts

/-! ## 3. The search of a check -/

section Check

variable [Std.TransOrd N] [Std.LawfulEqOrd N] [DecidableEq N]

/-- **After the rounds of a check**, with any number of turns left for them, all is known that a
search needs. -/
theorem Check.decided_of_rounds {t : Terrain N σ} [t.Rooted] {plan : Plan N σ}
    (hplan : plan.Covers t) {memory : σ} {limit left n : Nat} {stats : Stats} {r₁ r₂ : Run N σ}
    (hexplore : explore plan (Run.begin plan.config memory limit) = (.ok stats, r₁))
    (hfound : r₁.ledger.cycleFound = false)
    (hrounds : rounds plan r₁.ledger.size { r₁ with left := left } = (.ok n, r₂)) :
    ∃ name T, r₂.Decided t name (t.states.card - 1) T ∧ r₂.cluster.Custody t (· ∈ t.states) := by
  obtain ⟨desk, hrests, hexp⟩ := explored_of_explore hplan hexplore
  have hanswers := (meets_rounds hplan r₁.ledger.size (hexp.between hrests hfound).1
    le_rfl).answers left
  rw [hrounds] at hanswers
  obtain ⟨⟨T, hdecided, -⟩, -⟩ := hanswers
  refine ⟨_, T, hdecided, ?_⟩
  have hstays := (Cluster.custody_lasting hplan (· ∈ t.states)).composable.rounds
    ⟨trivial, trivial, trivial⟩ r₁.ledger.size { r₁ with left := left }
    (hexp.custody hplan (congrArg Prod.snd hexplore) hrests hfound)
  rw [hrounds] at hstays
  exact hstays

omit [DecidableEq N] in
/-- Neither the ring nor the passes of a search change the tables. -/
theorem Check.tables_findCycle {t : Terrain N σ} [t.Rooted] {plan : Plan N σ}
    (hplan : plan.Covers t) {r : Run N σ} (hr : r.cluster.Custody t (· ∈ t.states)) :
    (findCycle plan r).2.cluster.tables = r.cluster.tables := by
  have hlasting : Cluster.Lasting plan (· = .search)
      (Cluster.Frozen t (· ∈ t.states) id (r.cluster.tables.map (·.mapMarks id))) := by
    refine Cluster.frozen_lasting hplan (fun hpass => ?_) _
    subst hpass
    exact ⟨fun _ => Iff.rfl, Pass.tends_search t.graph⟩
  have hfrozen := (hlasting.composable.findCycle rfl r ⟨hr, rfl⟩).shows
  simpa only [Table.mapMarks_id, List.map_id'] using hfrozen

/-- **The search for a cycle finds the least handle of an accepting candidate on a cycle**, if the
rounds have left accepting candidates and no cycle is known.  It never fails, and if all workers
get turns again and again it comes to its end.  An attempt finds a cycle exactly if its seed lies on
one, and the search is over with the first attempt that does.  However far it has come, all tables
are as they were. -/
theorem findCycle_least {g : Graph N σ} (p : g.Promise) {config : Config}
    (hworkers : config.workers ≤ 2 ^ 32)
    (hfew : (p.reachable config.reduction).encard < 2 ^ 32 - 1) {turns : Nat → Turn}
    {limit n : Nat} {memory : σ} {stats : Stats} {r₁ r₂ : Run N σ}
    (hexplore : Check.explore ⟨g, config, turns⟩ (Run.begin config memory limit) =
      (.ok stats, r₁))
    (hrounds : Check.rounds ⟨g, config, turns⟩ r₁.ledger.size r₁ = (.ok n, r₂))
    (hsize : r₂.ledger.size ≠ 0) (hfound : r₂.ledger.cycleFound = false) :
    (∀ left result r,
      Check.findCycle ⟨g, config, turns⟩ (r₂.doubting n left) = (result, r) →
        r.cluster.tables = r₂.cluster.tables ∧
        (result = .error .outOfTurns ∨
          result = .ok () ∧ r.ledger.cycleFound = true ∧
          ∃ k ∈ r₂.cluster.cyclicSeeds p config.reduction, r.ledger.cycleNode = some k ∧
            (∀ k' ∈ r₂.cluster.cyclicSeeds p config.reduction, k.le k' = true) ∧
            ∃ r' r'', Check.Attempts ⟨g, config, turns⟩ (r₂.searching n left) r' ∧
              Check.attempt ⟨g, config, turns⟩ r' = (.ok (some k), r'') ∧
              r = { r'' with cluster := r''.cluster.record (.cycleFound (some k)) })) ∧
    (Turn.Fair config.peers turns → ∃ enough, ∀ left, enough ≤ left →
      (Check.findCycle ⟨g, config, turns⟩ (r₂.doubting n left)).1 = .ok ()) ∧
    ∀ left r, Check.Attempts ⟨g, config, turns⟩ (r₂.searching n left) r →
      ∀ seed r', Check.attempt ⟨g, config, turns⟩ r = (.ok seed, r') →
        ∃ k v, seed = some k ∧ r₂.cluster.StoresAt k.worker.toNat k.slot.toNat v ∧
          (r'.ledger.cycleFound = true ↔ p.OnCycle config.reduction v) := by
  let t := p.terrain config hworkers hfew
  have hplan : (⟨g, config, turns⟩ : Plan N σ).Covers t := ⟨rfl, rfl, rfl⟩
  have hfound₁ : r₁.ledger.cycleFound = false := by
    by_contra hcycle
    rw [Check.rounds_eq_of_found _ (Bool.not_eq_false _ ▸ hcycle)] at hrounds
    obtain rfl : r₁ = r₂ := congrArg Prod.snd hrounds
    exact hcycle hfound
  obtain ⟨name, T, hr, hcustody⟩ := Check.decided_of_rounds hplan hexplore hfound₁ hrounds
  have hknown := hr.between.holds.known
  obtain ⟨desk, hrests, rfl⟩ := hr.between.holds.rests
  have hshelved := hrests.shelved hknown.parted
  have hmeets (left : Nat) := meets_findCycle_leads hplan
    (hr.record (.decided false n) left) hsize
  refine ⟨fun left result r hrun => ⟨?_, ?_⟩, fun hfair => ?_, fun left r h seed r' hattempt => ?_⟩
  · have hdoubting : (r₂.doubting n left).cluster.Custody t (· ∈ t.states) :=
      ⟨hcustody.size, hcustody.worker, hcustody.letters⟩
    have htables := Check.tables_findCycle hplan hdoubting
    rw [hrun] at htables
    exact htables
  · by_cases hturns : result = .error .outOfTurns
    · exact .inl hturns
    have hanswers := (hmeets left).answers_self
    change Answers _ _ (Check.findCycle ⟨g, config, turns⟩ (r₂.doubting n left)) at hanswers
    rw [hrun] at hanswers
    obtain ⟨⟨⟩, hok, -⟩ := hanswers.exists_ok hturns
    obtain rfl : result = .ok () := hok
    rw [Check.findCycle_doubting hsize] at hrun
    obtain ⟨r', seed, r'', hattempts, hattempt, hends, rfl⟩ :=
      Check.Attempts.exists_last .start hrun
    obtain ⟨c, k, hseed, -, -, hlast⟩ := hr.of_attempt hplan hsize hattempts hattempt
    obtain rfl := Option.some.inj hseed
    obtain ⟨hleads, hnode⟩ := hlast hends
    obtain ⟨hmem, hleast⟩ := hleads.least hshelved hknown.names (hrests.seeds_eq_live hknown)
    exact .inr ⟨rfl, hends, seed, hmem, hnode, hleast, r', r'', hattempts, hattempt, by rw [hnode]⟩
  · obtain ⟨enough, henough⟩ := (hmeets 0).exists_enough hfair
    refine ⟨enough, fun left hleft => ?_⟩
    obtain ⟨⟨⟩, hok, -⟩ := ((hmeets 0).answers left).exists_ok (henough left hleft)
    exact hok
  · obtain ⟨c, k, hseed, hk, hiff, -⟩ := hr.of_attempt hplan hsize h hattempt
    exact ⟨k, c, hseed, hshelved.storesAt_of_handleOf hk, hiff⟩

/-- Three states, `0 → 1 → 0` and `1 → 2`, of which the last two are accepting. -/
def trailing : Graph (Fin 3) Unit := .ofThree [[1], [0, 2], []] [1, 2]

def trailingPromise : trailing.Promise := .ofThree ..

/-- In a graph where one accepting candidate only trails behind the cycle through the other, the
first attempt is in vain; the second one ends the search, with the only handle of a state on the
cycle. -/
theorem findCycle_least_trailing :
    ∃ r₁ r₂ r r', Check.explore ⟨trailing, { workers := 2 }, Turn.roundRobin⟩
        (Run.begin { workers := 2 } () 300) = (.ok ⟨3, 3, 2, 0, []⟩, r₁) ∧
      Check.rounds ⟨trailing, { workers := 2 }, Turn.roundRobin⟩ r₁.ledger.size r₁ =
        (.ok 1, r₂) ∧
      Check.attempt ⟨trailing, { workers := 2 }, Turn.roundRobin⟩ (r₂.searching 1 300) =
        (.ok (some ⟨0, 1⟩), r) ∧ r.ledger.cycleFound = false ∧
      (∃ v, r₂.cluster.StoresAt 0 1 v ∧ ¬trailingPromise.OnCycle false v) ∧
      Check.findCycle ⟨trailing, { workers := 2 }, Turn.roundRobin⟩ (r₂.doubting 1 300) =
        (.ok (), r') ∧ r'.ledger.cycleNode = some ⟨1, 0⟩ ∧
      ⟨1, 0⟩ ∈ r₂.cluster.cyclicSeeds trailingPromise false ∧
      r'.cluster.tables = r₂.cluster.tables := by
  have hexplore : (Check.explore ⟨trailing, { workers := 2 }, Turn.roundRobin⟩
      (Run.begin { workers := 2 } () 300)).1 = .ok ⟨3, 3, 2, 0, []⟩ := by decide +kernel
  generalize hr₁ : (Check.explore ⟨trailing, { workers := 2 }, Turn.roundRobin⟩
    (Run.begin { workers := 2 } () 300)).2 = r₁
  have hrounds : (Check.rounds ⟨trailing, { workers := 2 }, Turn.roundRobin⟩ r₁.ledger.size
      r₁).1 = .ok 1 := by
    subst hr₁
    decide +kernel
  generalize hr₂ : (Check.rounds ⟨trailing, { workers := 2 }, Turn.roundRobin⟩ r₁.ledger.size
    r₁).2 = r₂
  have hsize : r₂.ledger.size = 2 := by
    subst hr₂ hr₁
    decide +kernel
  have hfound : r₂.ledger.cycleFound = false := by
    subst hr₂ hr₁
    decide +kernel
  have hattempt : (Check.attempt ⟨trailing, { workers := 2 }, Turn.roundRobin⟩
      (r₂.searching 1 300)).1 = .ok (some ⟨0, 1⟩) := by
    subst hr₂ hr₁
    decide +kernel
  have hvain : (Check.attempt ⟨trailing, { workers := 2 }, Turn.roundRobin⟩
      (r₂.searching 1 300)).2.ledger.cycleFound = false := by
    subst hr₂ hr₁
    decide +kernel
  have hsearch : (Check.findCycle ⟨trailing, { workers := 2 }, Turn.roundRobin⟩
      (r₂.doubting 1 300)).1 = .ok () := by
    subst hr₂ hr₁
    decide +kernel
  have hnode : (Check.findCycle ⟨trailing, { workers := 2 }, Turn.roundRobin⟩
      (r₂.doubting 1 300)).2.ledger.cycleNode = some ⟨1, 0⟩ := by
    subst hr₂ hr₁
    decide +kernel
  obtain ⟨hleast, -, hattempts⟩ := findCycle_least trailingPromise (by decide)
    (encard_lt_of_three _) (Prod.ext hexplore hr₁) (Prod.ext hrounds hr₂)
    (by rw [hsize]; decide) hfound
  obtain ⟨htables, hturns | ⟨-, -, k, hk, hnode', -⟩⟩ :=
    hleast 300 _ _ (Prod.ext hsearch rfl)
  · exact absurd hturns (by simp)
  obtain rfl := Option.some.inj (hnode.symm.trans hnode')
  obtain ⟨k, v, hseed, hstores, hiff⟩ := hattempts 300 _ .start _ _ (Prod.ext hattempt rfl)
  obtain rfl := Option.some.inj hseed
  refine ⟨r₁, r₂, _, _, Prod.ext hexplore hr₁, Prod.ext hrounds hr₂, Prod.ext hattempt rfl, hvain,
    ⟨v, hstores, fun hon => ?_⟩, Prod.ext hsearch rfl, hnode, hk, htables⟩
  exact absurd (hvain.symm.trans (hiff.mpr hon)) (by simp)

end Check

end FairCycle
