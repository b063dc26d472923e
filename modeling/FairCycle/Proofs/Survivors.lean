/-
# The candidates that are left

After an exploration without a cycle, `n` rounds leave exactly the candidates that `n` steps on
sets leave (`Graph.Promise.sift`), their accepting members counted in the ledger and the edges
from them counted at every state that is stored.  While accepting candidates are left, these are
the states that are reached from an accepting state on a cycle (`rounds_candidates`).

When none is left the rounds stop at once, and then the candidates need not be gone: what is
reached from a cycle without accepting states is still there if an accepting state was in front
of it (`rounds_pendant_leftover`).
-/
import FairCycle.Proofs.Failure

namespace FairCycle

variable {N σ : Type}

/-! ## 1. Sets of states -/

namespace Graph.Promise

variable {g : Graph N σ} (p : g.Promise) (reduction : Bool)

/-- The accepting states that can be reached. -/
def acceptingReached : Set N := {v | p.Reaches reduction g.initial v ∧ p.accepting v = true}

/-- The states that are reached from an accepting state on a cycle. -/
def behindCycles : Set N :=
  {v | ∃ a ∈ p.acceptingReached reduction, p.OnCycle reduction a ∧ p.Reaches reduction a v}

/-- What a round makes of a set of candidates: the states that are reached from a cycle behind an
accepting candidate. -/
def sift (S : Set N) : Set N :=
  {v | ∃ a ∈ S, p.accepting a = true ∧
    ∃ y, p.Reaches reduction a y ∧ p.OnCycle reduction y ∧ p.Reaches reduction y v}

end Graph.Promise

namespace Terrain

variable {t : Terrain N σ}

theorem coe_accepted [t.Rooted] :
    (t.accepted : Set N) = t.promise.acceptingReached t.reduction := by
  ext v
  rw [Finset.mem_coe, mem_accepted, mem_states]
  rfl

theorem coe_core_accepted [t.Rooted] :
    (t.core t.accepted : Set N) = t.promise.behindCycles t.reduction := by
  ext v
  rw [Finset.mem_coe, mem_core]
  constructor
  · rintro ⟨-, a, ha, hcycle, hreach⟩
    exact ⟨a, coe_accepted (t := t) ▸ Finset.mem_coe.mpr ha, hcycle, hreach⟩
  · rintro ⟨a, ha, hcycle, hreach⟩
    have ha : a ∈ t.accepted := Finset.mem_coe.mp (coe_accepted (t := t) ▸ ha)
    exact ⟨mem_states_of_reaches (accepted_subset ha) hreach, a, ha, hcycle, hreach⟩

theorem sift_subset (S : Finset N) : t.sift S ⊆ t.states := core_subset

theorem coe_sift [t.Rooted] {S : Finset N} (hS : S ⊆ t.states) :
    (t.sift S : Set N) = t.promise.sift t.reduction S := by
  ext v
  rw [Finset.mem_coe, sift, mem_core]
  constructor
  · rintro ⟨-, y, hy, hcycle, hreach⟩
    obtain ⟨-, a, ha, hay⟩ := mem_spread.mp hy
    obtain ⟨haS, hacc⟩ := Finset.mem_filter.mp ha
    exact ⟨a, haS, hacc, y, hay, hcycle, hreach⟩
  · rintro ⟨a, haS, hacc, y, hay, hcycle, hreach⟩
    have hstates : y ∈ t.states := mem_states_of_reaches (hS haS) hay
    refine ⟨mem_states_of_reaches hstates hreach, y, ?_, hcycle, hreach⟩
    exact mem_spread.mpr ⟨hstates, a, Finset.mem_filter.mpr ⟨haS, hacc⟩, hay⟩

theorem coe_iterate_sift [t.Rooted] {S : Finset N} (hS : S ⊆ t.states) (n : Nat) :
    (t.sift^[n] S : Set N) = (t.promise.sift t.reduction)^[n] S := by
  induction n generalizing S with
  | zero => rfl
  | succ n ih =>
    rw [Function.iterate_succ_apply, Function.iterate_succ_apply, ih (sift_subset S), coe_sift hS]

end Terrain

/-! ## 2. What the tables say -/

section Tables

variable [Ord N] {t : Terrain N σ} {c : Cluster N σ} {desk : Nat → Desk N} {cursor : Nat → Nat}

/-- The states that are marked as candidates, over all tables. -/
def Cluster.candidates (c : Cluster N σ) : Set N :=
  {v | ∃ table ∈ c.tables, ∃ m, (v, m) ∈ table.entries ∧ m.inS = true}

/-- An entry of one of the tables is the mark of its state. -/
theorem Cluster.Rests.markOf_of_mem (hc : c.Rests t desk cursor)
    (hT : t.Parted fun i => (desk i).table) {table : Table N} (htable : table ∈ c.tables) {v : N}
    {m : Mark} (hm : (v, m) ∈ table.entries) : t.markOf (fun i => (desk i).table) v = some m := by
  obtain ⟨w, hw, rfl⟩ := List.mem_map.mp htable
  obtain ⟨i, hi, hget⟩ := Array.mem_iff_getElem.mp (Array.mem_toList_iff.mp hw)
  have hw : c.workers[i]? = some w := by rw [Array.getElem?_eq_getElem hi, hget]
  rw [hc.desk hw] at hm
  have hmark : (desk i).table.markOf v = some m := Table.mem_entries.mp hm
  have hstored : ((desk i).table.markOf v).isSome := by
    rw [hmark]
    rfl
  obtain ⟨rfl, -⟩ := hT.stored i (by rw [← hc.size]; exact hi) hstored
  exact hmark

theorem Cluster.Rests.coe_candidates (hc : c.Rests t desk cursor)
    (hT : t.Stocked fun i => (desk i).table) :
    c.candidates = t.candidates fun i => (desk i).table := by
  ext v
  rw [Finset.mem_coe, Terrain.mem_candidates]
  constructor
  · rintro ⟨table, htable, m, hm, hin⟩
    have hmark := hc.markOf_of_mem hT.parted htable hm
    exact ⟨hT.parted.mem_states hmark, by rw [Terrain.fieldsOf_eq hmark]; exact hin⟩
  · rintro ⟨hv, hin⟩
    obtain ⟨m, hm, hfields⟩ := hT.exists_mark hv
    rw [hfields] at hin
    exact ⟨_, hc.table_mem v, m, Table.mem_entries.mpr hm, hin⟩

theorem Cluster.Rests.candidates_eq {name : N → Option Handle} (hc : c.Rests t desk cursor)
    (hT : t.Known name fun i => (desk i).table) :
    c.candidates = t.candidates fun i => (desk i).table :=
  hc.coe_candidates hT.toStocked

end Tables

/-! ## 3. After the rounds -/

section Rounds

variable [Ord N] [Std.TransOrd N] [Std.LawfulEqOrd N] [DecidableEq N]

/-- **What the rounds leave.**  The candidates are those that as many steps on sets leave; among
them are all states that are reached from an accepting state on a cycle, and there are no others as
long as accepting candidates are left.  The ledger counts the accepting candidates, and every state
that is stored the edges from candidates. -/
theorem rounds_candidates {g : Graph N σ} (p : g.Promise) {config : Config}
    (hworkers : config.workers ≤ 2 ^ 32)
    (hfew : (p.reachable config.reduction).encard < 2 ^ 32 - 1) {turns : Nat → Turn} {limit : Nat}
    {memory : σ} {stats : Stats} {r r' : Run N σ} {n : Nat}
    (hexplore : Check.explore ⟨g, config, turns⟩ (Run.begin config memory limit) = (.ok stats, r))
    (hfound : r.ledger.cycleFound = false)
    (hrounds : Check.rounds ⟨g, config, turns⟩ r.ledger.size r = (.ok n, r')) :
    r'.cluster.candidates =
      (p.sift config.reduction)^[n] (p.acceptingReached config.reduction) ∧
    p.behindCycles config.reduction ⊆ r'.cluster.candidates ∧
    (r'.ledger.size ≠ 0 → r'.cluster.candidates = p.behindCycles config.reduction) ∧
    (r'.ledger.size = 0 → p.behindCycles config.reduction = ∅) ∧
    (∀ table ∈ r'.cluster.tables, ∀ v m, (v, m) ∈ table.entries →
      m.predecessors.toNat = p.edgesInto config.reduction r'.cluster.candidates v) ∧
    r'.ledger.size = {v ∈ r'.cluster.candidates | p.accepting v = true}.ncard := by
  let t := p.terrain config hworkers hfew
  have hplan : (⟨g, config, turns⟩ : Plan N σ).Covers t := ⟨rfl, rfl, rfl⟩
  obtain ⟨desk, hrests, hexp⟩ : ∃ desk, r.cluster.Rests t desk (fun _ => 0) ∧
      Explored t (fun i => (desk i).table) r.ledger r.generated := by
    have hanswers := (meets_explore_begin hplan memory limit).answers_self
    rw [hexplore] at hanswers
    exact hanswers
  obtain ⟨hbetween, -⟩ := hexp.between hrests hfound
  obtain ⟨⟨T, hT, hiterate⟩, -⟩ : (∃ T, r'.Decided t _ _ T ∧ t.candidates T =
      t.sift^[n] (t.candidates fun i => (desk i).table)) ∧ _ := by
    have hanswers := (meets_rounds hplan r.ledger.size hbetween le_rfl).answers_self
    rw [hrounds] at hanswers
    exact hanswers
  obtain ⟨desk', hrests', rfl⟩ := hT.between.holds.rests
  have hknown := hT.between.holds.known
  have hcand : r'.cluster.candidates = (t.candidates fun i => (desk' i).table : Set N) :=
    hrests'.candidates_eq hknown
  rw [hexp.candidates_eq (hexp.complete hfound).1] at hiterate
  have hcycles : (t.core t.accepted : Set N) = p.behindCycles config.reduction :=
    Terrain.coe_core_accepted
  refine ⟨?_, ?_, fun hsize => ?_, fun hsize => ?_, fun table htable v m hm => ?_, ?_⟩
  · rw [hcand, hiterate, Terrain.coe_iterate_sift Terrain.accepted_subset, Terrain.coe_accepted]
    rfl
  · rw [hcand, ← hcycles]
    rcases hT.exact with hsize | ⟨-, hexact⟩
    · rw [Terrain.core_eq_empty (hT.size_eq_zero_iff.mp hsize), Finset.coe_empty]
      exact Set.empty_subset _
    · rw [hexact]
  · rw [hcand, ← hcycles, (hT.exact.resolve_left hsize).2]
  · rw [← hcycles, Terrain.core_eq_empty (hT.size_eq_zero_iff.mp hsize), Finset.coe_empty]
  · have hmark := hrests'.markOf_of_mem hknown.parted htable hm
    have hcount := hT.counted v
    rw [Terrain.fieldsOf_eq hmark, Terrain.inflow_eq_edgesInto, ← hcand] at hcount
    exact hcount
  · rw [hT.between.size, hcand, ← Set.ncard_coe_finset]
    congr 1
    ext v
    exact Finset.mem_filter

end Rounds

section Pendant

/-- The run of the small graph after its exploration. -/
def pendantExplored (accepting : Fin 3) (workers : Nat) :
    Except Stop Stats × Run (Fin 3) Unit :=
  Check.explore ⟨pendant accepting, { workers := workers }, Turn.roundRobin⟩
    (Run.begin { workers := workers } () 300)

/-- The run of the small graph after its rounds. -/
def pendantDecided (accepting : Fin 3) (workers : Nat) : Except Stop Nat × Run (Fin 3) Unit :=
  Check.rounds ⟨pendant accepting, { workers := workers }, Turn.roundRobin⟩
    (pendantExplored accepting workers).2.ledger.size (pendantExplored accepting workers).2

/-- With an accepting state on its cycle the small graph keeps exactly that cycle. -/
theorem rounds_pendant_candidates :
    (pendantExplored 1 2).2.ledger.cycleFound = false ∧ (pendantDecided 1 2).1 = .ok 1 ∧
      (pendantDecided 1 2).2.ledger.size = 1 ∧
      (pendantDecided 1 2).2.cluster.candidates = (pendantPromise 1).behindCycles false := by
  have hexplore : (pendantExplored 1 2).1 = .ok ⟨3, 3, 1, 0, []⟩ := by decide +kernel
  have hfound : (pendantExplored 1 2).2.ledger.cycleFound = false := by decide +kernel
  have hrounds : (pendantDecided 1 2).1 = .ok 1 := by decide +kernel
  have hsize : (pendantDecided 1 2).2.ledger.size = 1 := by decide +kernel
  have hcandidates := rounds_candidates (pendantPromise 1) (by decide) (encard_lt_of_three _)
    (Prod.ext hexplore rfl) hfound (Prod.ext hrounds rfl)
  exact ⟨hfound, hrounds, hsize, hcandidates.2.2.1 fun hzero =>
    nomatch hsize.symm.trans hzero⟩

/-- **Candidates may be left although nothing lies behind an accepting cycle.**  The accepting
state of the small graph is in front of its cycle; when the round has eliminated it there is no
other round, and the cycle stays. -/
theorem rounds_pendant_leftover :
    (∃ stats, (pendantExplored 0 1).1 = .ok stats) ∧
      (pendantExplored 0 1).2.ledger.cycleFound = false ∧
      (∃ n, (pendantDecided 0 1).1 = .ok n) ∧
      1 ∈ (pendantDecided 0 1).2.cluster.candidates ∧
      1 ∉ (pendantPromise 0).behindCycles false := by
  have hexplore : (pendantExplored 0 1).1 = .ok ⟨3, 3, 1, 0, []⟩ := by decide +kernel
  have hrounds : (pendantDecided 0 1).1 = .ok 1 := by decide +kernel
  have hleft : ((pendantDecided 0 1).2.cluster.tables.any fun table =>
      table.entries.any fun entry => entry.1 == 1 && entry.2.inS) = true := by decide +kernel
  refine ⟨⟨_, hexplore⟩, by decide +kernel, ⟨_, hrounds⟩, ?_, ?_⟩
  · obtain ⟨table, htable, hentry⟩ := List.any_eq_true.mp hleft
    obtain ⟨⟨v, m⟩, hm, hin⟩ := List.any_eq_true.mp hentry
    obtain ⟨hv, hin⟩ := (Bool.and_eq_true _ _).mp hin
    obtain rfl := eq_of_beq hv
    exact ⟨table, htable, m, hm, hin⟩
  · -- no edge leads to the accepting state
    rintro ⟨a, ⟨-, hacc⟩, hcycle, -⟩
    have honly : ∀ a : Fin 3, (pendantPromise 0).accepting a = true → a = 0 := by decide
    have hnone : ∀ u : Fin 3, 0 ∉ (pendantPromise 0).targets false u := by decide
    obtain rfl := honly a hacc
    obtain ⟨u, -, hedge⟩ := Relation.TransGen.tail'_iff.mp hcycle
    exact hnone u hedge

end Pendant

end FairCycle
