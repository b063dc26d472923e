/-
# Elimination

The second half of a round takes out, one after the other, the candidates to which no edge leads
from another candidate.  Every edge from a state that is taken out is taken off the count of its
target, and a target whose count comes down to zero is taken out in turn.

What is left is what comes from a cycle in the set (`Terrain.core`): a state behind a cycle keeps
a predecessor for ever, and in a finite set in which every state has a predecessor every state is
behind a cycle.  The pass may start from any tables whose candidates are a closed set and whose
counts are right there (`Terrain.Counted`).
-/
import FairCycle.Proofs.Reach

namespace FairCycle

open Desk StepM

variable {N σ : Type} [Ord N]

/-! ## 1. What comes from a cycle -/

namespace Terrain

variable {t : Terrain N σ} {S : Finset N} {u v : N}

/-- The states that are reached from a cycle through a set of states. -/
noncomputable def core (t : Terrain N σ) (S : Finset N) : Finset N :=
  open Classical in t.states.filter fun v => ∃ y ∈ S, t.OnCycle y ∧ t.Reaches y v

omit [Ord N]

theorem mem_core : v ∈ t.core S ↔ v ∈ t.states ∧ ∃ y ∈ S, t.OnCycle y ∧ t.Reaches y v := by
  classical
  rw [core, Finset.mem_filter]

theorem core_subset : t.core S ⊆ t.states := fun _ hv => (mem_core.mp hv).1

theorem mem_core_of_edge [t.Rooted] (hu : u ∈ t.core S) (h : t.Edge u v) : v ∈ t.core S := by
  obtain ⟨hstates, y, hy, hcycle, hreach⟩ := mem_core.mp hu
  exact mem_core.mpr ⟨mem_states_of_edge hstates h, y, hy, hcycle, hreach.tail h⟩

/-- No edge leads out of the set, which is one of states. -/
structure Closed (t : Terrain N σ) (S : Finset N) : Prop where
  subset : S ⊆ t.states
  mem_of_edge : ∀ {u v}, u ∈ S → t.Edge u v → v ∈ S

theorem Encloses.closed {A : Finset N} (hA : t.Encloses A) : t.Closed (t.spread A) :=
  ⟨spread_subset, hA.mem_spread_of_edge⟩

theorem Closed.mem_of_reaches (hS : t.Closed S) (hu : u ∈ S) (h : t.Reaches u v) : v ∈ S := by
  induction h with
  | refl => exact hu
  | tail _ hedge ih => exact hS.mem_of_edge ih hedge

theorem Closed.core_subset (hS : t.Closed S) : t.core S ⊆ S := by
  intro v hv
  obtain ⟨-, y, hy, -, hreach⟩ := mem_core.mp hv
  exact hS.mem_of_reaches hy hreach

theorem Closed.mem_core (hS : t.Closed S) :
    v ∈ t.core S ↔ ∃ y ∈ S, t.OnCycle y ∧ t.Reaches y v := by
  rw [Terrain.mem_core, and_iff_right_of_imp]
  rintro ⟨y, hy, -, hreach⟩
  exact hS.subset (hS.mem_of_reaches hy hreach)

theorem Closed.core (hS : t.Closed S) : t.Closed (t.core S) where
  subset := Terrain.core_subset
  mem_of_edge hu hedge := by
    obtain ⟨y, hy, hcycle, hreach⟩ := hS.mem_core.mp hu
    exact hS.mem_core.mpr ⟨y, hy, hcycle, hreach.tail hedge⟩

/-- A state that comes from a cycle has a predecessor that does, too. -/
theorem Closed.exists_edge_of_mem_core (hS : t.Closed S) (hv : v ∈ t.core S) :
    ∃ u ∈ t.core S, t.Edge u v := by
  obtain ⟨y, hy, hcycle, hreach⟩ := hS.mem_core.mp hv
  have hpre : t.Precedes y v := Relation.TransGen.trans_left hcycle hreach
  obtain ⟨u, hu, hedge⟩ := Relation.TransGen.tail'_iff.mp hpre
  exact ⟨u, hS.mem_core.mpr ⟨y, hy, hcycle, hu⟩, hedge⟩

theorem Closed.inflow_eq_zero [DecidableEq N] {S' : Finset N} (hS : t.Closed S) (hsub : S' ⊆ S)
    (hv : v ∉ S) : t.inflow S' v = 0 := by
  refine Nat.eq_zero_of_not_pos fun hpos => hv ?_
  obtain ⟨u, hu, hedge⟩ := inflow_pos.mp hpos
  exact hS.mem_of_edge (hsub hu) hedge

/-- In a finite set in which every state has a predecessor, every state comes from a cycle. -/
theorem exists_cycle_of_predecessors (h : ∀ v ∈ S, ∃ u ∈ S, t.Edge u v)
    (hv : v ∈ S) : ∃ y ∈ S, t.OnCycle y ∧ t.Reaches y v := by
  refine exists_cycle_of_ancestors (r := t.Edge) (fun x hx => ?_) hv
  obtain ⟨y, hy, hedge⟩ := h x hx
  exact ⟨y, hy, hedge.precedes⟩

end Terrain

namespace Terrain

/-- The states with a mark that says that they are accepting. -/
noncomputable def flagged (t : Terrain N σ) (T : Nat → Table N) (S : Finset N) : Finset N :=
  S.filter fun v => (t.fieldsOf T v).inF = true

/-- The tables hold the candidates `S`, a closed set, with the number of edges that come to each
from the set. -/
structure Counted [DecidableEq N] (t : Terrain N σ) (S : Finset N) (T : Nat → Table N) : Prop where
  closed : t.Closed S
  candidates : t.candidates T = S
  predecessors : ∀ {v}, v ∈ S → (t.fieldsOf T v).predecessors = t.inflow S v

end Terrain

/-! ## 2. What an elimination pass keeps -/

section Eliminating

variable [DecidableEq N]

/-- What the handling of an edge keeps when the states of `S` that have no predecessors are
eliminated. -/
structure Eliminating (t : Terrain N σ) (T₀ : Nat → Table N) (l : Ledger N) (S : Finset N)
    (s : Scene N) : Prop where
  kept : t.Kept T₀ s.tables
  closed : t.Closed S
  ledger : ∀ i, (s.desk i).ledger.share = l
  /-- The seeds are the candidates without predecessors, each once. -/
  seeds : ∀ v, seedsAt s.pending v =
    if v ∈ t.candidates s.tables ∧ (t.fieldsOf s.tables v).predecessors = 0 then 1 else 0
  within : t.candidates s.tables ⊆ S
  /-- Whoever has a count is a candidate. -/
  marked : ∀ {v}, v ∈ S → 0 < (t.fieldsOf s.tables v).predecessors → v ∈ t.candidates s.tables
  /-- The count of a state is that of the edges from candidates and of those still to be taken
  off. -/
  counted : ∀ {v}, v ∈ S → (t.fieldsOf s.tables v).predecessors =
    t.inflow (t.candidates s.tables) v + inbound s.pending v
  /-- There is nothing to do outside the set. -/
  outside : ∀ {v}, v ∉ S → inbound s.pending v = 0 ∧ t.fieldsOf s.tables v = t.fieldsOf T₀ v
  core : t.core S ⊆ t.candidates s.tables
  stamps : ∀ v, (t.fieldsOf s.tables v).iteration = (t.fieldsOf T₀ v).iteration
  /-- The accepting states that were taken out are counted. -/
  size : s.total t (·.size) + (t.flagged T₀ (t.candidates s.tables)).card = (t.flagged T₀ S).card
  states : s.total t (·.states) + (t.candidates s.tables).card = S.card
  generated : s.generated t + ∑ v ∈ t.candidates s.tables, (t.targets v).length =
    ∑ v ∈ S, (t.targets v).length
  halted : ∀ i, s.halted i = false
  good : ∀ i, s.fault i = none

/-- The same, `M` being the states that have been expanded, as often as they were. -/
def Eliminated (t : Terrain N σ) (T₀ : Nat → Table N) (l : Ledger N) (S : Finset N)
    (M : Multiset N) (s : Scene N) : Prop :=
  M = (S \ t.candidates s.tables).val ∧ Eliminating t T₀ l S s

namespace Eliminating

variable {t : Terrain N σ} {T₀ : Nat → Table N} {l : Ledger N} {S : Finset N}
  {s s' : Scene N} {v : N} {rest : Multiset (Edge N)} {m m₀ : Mark} {h : Handle}

/-- A state that comes from a cycle of the set has a predecessor among the candidates. -/
theorem not_mem_core (hs : Eliminating t T₀ l S s)
    (hzero : t.inflow (t.candidates s.tables) v = 0) : v ∉ t.core S := by
  intro hv
  obtain ⟨u, hu, hedge⟩ := hs.closed.exists_edge_of_mem_core hv
  have hpos : 0 < t.inflow (t.candidates s.tables) v :=
    Terrain.inflow_pos.mpr ⟨u, hs.core hu, hedge⟩
  omega

/-- A state without predecessors is taken out: the seed at it or the last edge to it is replaced
by the edges from it. -/
theorem expand (hs : Eliminating t T₀ l S s)
    (hv : v ∈ t.candidates s.tables) (hm₀ : t.markOf s.tables v = some m₀) (hagree : m.Agrees m₀)
    (hfields : m.fields = ⟨0, m₀.fields.iteration, false, m₀.fields.inF⟩)
    (hzero : t.inflow (t.candidates s.tables) v = 0) (hlast : inbound rest v = 0)
    (hinbound : ∀ u, u ≠ v → inbound rest u = inbound s.pending u)
    (hseed : seedsAt rest v = 0) (hseeds : ∀ u, u ≠ v → seedsAt rest u = seedsAt s.pending u)
    (hmark : s.Marked t v m (rest + (Edge.from h (t.targets v) : Multiset (Edge N)))
      (t.targets v).length 1 m₀.fields.inF.toNat s')
    {M : Multiset N} (hM : M = (insert v (S \ t.candidates s.tables)).val) :
    Eliminated t T₀ l S M s' := by
  have hw := hmark.writes
  have hvS := hs.within hv
  have hcand : t.candidates s'.tables = (t.candidates s.tables).erase v :=
    hw.candidates_erase (by rw [hfields])
  have hflow := fun u => Terrain.inflow_erase (t := t) hv u
  have hmem : ∀ {u}, u ≠ v → (u ∈ (t.candidates s.tables).erase v ↔ u ∈ t.candidates s.tables) :=
    fun hne => by rw [Finset.mem_erase, and_iff_right hne]
  refine ⟨by rw [hM, hcand, Finset.sdiff_erase hvS], ?_⟩
  refine
    { kept := hs.kept.write hw hm₀ hagree
      closed := hs.closed
      ledger := fun i => (hmark.share i).trans (hs.ledger i)
      seeds := fun u => ?_
      within := ?_
      marked := fun {u} huS hu => ?_
      counted := fun {u} huS => ?_
      outside := fun {u} hu => ?_
      core := ?_
      stamps := fun u => ?_
      size := ?_
      states := ?_
      generated := ?_
      halted := fun i => by rw [hmark.halted]; exact hs.halted i
      good := fun i => by rw [hmark.fault]; exact hs.good i }
  · rw [hcand, hmark.pending, seedsAt_add_from]
    rcases eq_or_ne u v with rfl | hne
    · rw [hseed, if_neg fun hin => Finset.notMem_erase _ _ hin.1]
    · rw [hseeds u hne, hs.seeds u, hw.fieldsOf_ne hne]
      exact if_congr (and_congr_left' (hmem hne).symm) rfl rfl
  · rw [hcand]
    exact (Finset.erase_subset _ _).trans hs.within
  · rw [hcand]
    rcases eq_or_ne u v with rfl | hne
    · rw [hw.fieldsOf_self, hfields] at hu
      exact absurd hu (Nat.lt_irrefl 0)
    · rw [hw.fieldsOf_ne hne] at hu
      exact (hmem hne).mpr (hs.marked huS hu)
  · rw [hcand, hmark.pending, inbound_add_from]
    have hself := hflow u
    rcases eq_or_ne u v with rfl | hne
    · rw [hw.fieldsOf_self, hfields]
      simp only
      omega
    · rw [hw.fieldsOf_ne hne, hs.counted huS, hinbound u hne]
      omega
  · have hne : u ≠ v := fun h => hu (h ▸ hvS)
    have hnone : (t.targets v).count u = 0 :=
      List.count_eq_zero.mpr fun hedge => hu (hs.closed.mem_of_edge hvS hedge)
    rw [hmark.pending, inbound_add_from, hinbound u hne, hnone, hw.fieldsOf_ne hne]
    exact hs.outside hu
  · rw [hcand]
    intro u hu
    refine Finset.mem_erase.mpr ⟨?_, hs.core hu⟩
    rintro rfl
    exact hs.not_mem_core hzero hu
  · rcases eq_or_ne u v with rfl | hne
    · rw [hw.fieldsOf_self, hfields, ← Terrain.fieldsOf_eq hm₀]
      exact hs.stamps u
    · rw [hw.fieldsOf_ne hne]
      exact hs.stamps u
  · have hsize := hs.size
    have hinF : (t.fieldsOf T₀ v).inF = m₀.fields.inF := by
      rw [← hs.kept.inF_eq (Terrain.candidates_subset hv), Terrain.fieldsOf_eq hm₀]
    rw [hmark.size, Terrain.flagged, hcand, Finset.filter_erase]
    rw [Terrain.flagged] at hsize
    cases ha : m₀.fields.inF with
    | true =>
      have hlive : v ∈ (t.candidates s.tables).filter fun v => (t.fieldsOf T₀ v).inF = true :=
        Finset.mem_filter.mpr ⟨hv, hinF.trans ha⟩
      have hpos := Finset.card_pos.mpr ⟨v, hlive⟩
      rw [Finset.card_erase_of_mem hlive]
      simp only [Bool.toNat_true]
      omega
    | false =>
      have hlive : v ∉ (t.candidates s.tables).filter fun v => (t.fieldsOf T₀ v).inF = true := by
        intro hin
        rw [← hinF, (Finset.mem_filter.mp hin).2] at ha
        cases ha
      rw [Finset.erase_eq_of_notMem hlive]
      simp only [Bool.toNat_false]
      omega
  · have hcard := Finset.card_erase_add_one hv
    have hstates := hs.states
    rw [hmark.states, hcand]
    omega
  · have hsum := Finset.add_sum_erase (t.candidates s.tables) (fun u => (t.targets u).length) hv
    rw [hmark.generated, hcand, ← hs.generated, ← hsum]
    omega

/-- An edge is taken off a count that stays above zero. -/
theorem count (hs : Eliminating t T₀ l S s) {source : Handle}
    (hp : s.pending = ⟨some source, v⟩ ::ₘ rest) (hvS : v ∈ S)
    (hm₀ : t.markOf s.tables v = some m₀) (hagree : m.Agrees m₀)
    (hfields : m.fields = { m₀.fields with predecessors := m₀.fields.predecessors - 1 })
    (hpos : 1 < m₀.fields.predecessors) (hmark : s.Marked t v m rest 0 0 0 s')
    {M : Multiset N} (hM : M = (S \ t.candidates s.tables).val) : Eliminated t T₀ l S M s' := by
  have hw := hmark.writes
  have hcand : t.candidates s'.tables = t.candidates s.tables :=
    hw.candidates_of_eq (by rw [hfields, Terrain.fieldsOf_eq hm₀])
  have hpreds : (t.fieldsOf s.tables v).predecessors = m₀.fields.predecessors := by
    rw [Terrain.fieldsOf_eq hm₀]
  have hpreds' : (t.fieldsOf s'.tables v).predecessors = m₀.fields.predecessors - 1 := by
    rw [hw.fieldsOf_self, hfields]
  refine ⟨by rw [hM, hcand], ?_⟩
  refine
    { kept := hs.kept.write hw hm₀ hagree
      closed := hs.closed
      ledger := fun i => (hmark.share i).trans (hs.ledger i)
      seeds := fun u => ?_
      within := by rw [hcand]; exact hs.within
      marked := fun {u} huS hu => ?_
      counted := fun {u} huS => ?_
      outside := fun {u} hu => ?_
      core := by rw [hcand]; exact hs.core
      stamps := fun u => ?_
      size := ?_
      states := ?_
      generated := ?_
      halted := fun i => by rw [hmark.halted]; exact hs.halted i
      good := fun i => by rw [hmark.fault]; exact hs.good i }
  · have hseeds := hs.seeds u
    rw [hp, seedsAt_cons_some] at hseeds
    rw [hcand, hmark.pending, hseeds]
    rcases eq_or_ne u v with rfl | hne
    · rw [hpreds, hpreds', if_neg fun hin => ?_, if_neg fun hin => ?_]
      · omega
      · omega
    · rw [hw.fieldsOf_ne hne]
  · rw [hcand]
    rcases eq_or_ne u v with rfl | hne
    · exact hs.marked huS (by omega)
    · rw [hw.fieldsOf_ne hne] at hu
      exact hs.marked huS hu
  · have hcount := hs.counted huS
    rw [hcand, hmark.pending]
    rw [hp] at hcount
    rcases eq_or_ne u v with rfl | hne
    · rw [inbound_cons_self] at hcount
      omega
    · rw [inbound_cons_ne source hne] at hcount
      rw [hw.fieldsOf_ne hne, hcount]
  · have hne : u ≠ v := fun h => hu (h ▸ hvS)
    have hout := hs.outside hu
    rw [hp, inbound_cons_ne source hne] at hout
    rw [hmark.pending, hw.fieldsOf_ne hne]
    exact hout
  · rcases eq_or_ne u v with rfl | hne
    · rw [hw.fieldsOf_self, hfields]
      simp only
      rw [← Terrain.fieldsOf_eq hm₀]
      exact hs.stamps u
    · rw [hw.fieldsOf_ne hne]
      exact hs.stamps u
  · rw [hmark.size, hcand, Nat.add_zero]
    exact hs.size
  · rw [hmark.states, hcand, Nat.add_zero]
    exact hs.states
  · rw [hmark.generated, hcand, Nat.add_zero]
    exact hs.generated

end Eliminating

end Eliminating

/-! ## 3. Handling an edge -/

section Rule

variable {d : Desk N} {h : Handle} {m : Mark} {v : N}

/-- The last edge is taken off a count. -/
theorem eliminateEdge_last (source : Handle) (hm : d.table.mark? h = some m)
    (hone : m.fields.predecessors = 1) :
    ∃ m', m'.Agrees m ∧ m'.fields = { m.fields with predecessors := 0 } ∧
      (eliminateEdge (some source) h : DeskM N Action) d =
        (.ok .expand, { d with table := d.table.setMark h m' }) := by
  obtain ⟨m', hdown, hparent, hancestor, hfields⟩ := Mark.countDown_of_pos h (m := m) (by omega)
  rw [hone] at hfields
  have hzero : m'.predecessors = 0 := Mark.predecessors_eq_iff.mpr (by rw [hfields]; rfl)
  refine ⟨m', ⟨hparent, hancestor, by rw [hfields]⟩, hfields, ?_⟩
  rw [eliminateEdge, DeskM.bind_ok (mark_eq hm), hdown]
  change (Except.ok (if m'.predecessors = 0 then Action.expand else .forget), _) = _
  rw [if_pos hzero]

/-- An edge, but not the last one, is taken off a count. -/
theorem eliminateEdge_other (source : Handle) (hm : d.table.mark? h = some m)
    (hmore : 1 < m.fields.predecessors) :
    ∃ m', m'.Agrees m ∧
      m'.fields = { m.fields with predecessors := m.fields.predecessors - 1 } ∧
      (eliminateEdge (some source) h : DeskM N Action) d =
        (.ok .forget, { d with table := d.table.setMark h m' }) := by
  obtain ⟨m', hdown, hparent, hancestor, hfields⟩ := Mark.countDown_of_pos h (m := m) (by omega)
  have hne : m'.predecessors ≠ 0 := by
    intro hzero
    have h0 := Mark.predecessors_eq_iff.mp hzero
    rw [hfields] at h0
    change m.fields.predecessors - 1 = 0 at h0
    omega
  refine ⟨m', ⟨hparent, hancestor, by rw [hfields]⟩, hfields, ?_⟩
  rw [eliminateEdge, DeskM.bind_ok (mark_eq hm), hdown]
  change (Except.ok (if m'.predecessors = 0 then Action.expand else .forget), _) = _
  rw [if_neg hne]

/-- A state that is expanded leaves the candidate set. -/
theorem yields_expand_eliminate {t : Terrain N σ} (hv : v ∈ t.states) (hd : d.table.Fits)
    (ht : d.table.find? v = some h) (hm : d.table.markOf v = some m) :
    d.table.Puts v (m.setInS false) (d.table.setMark h (m.setInS false)) ∧
      Yields (expandState (t.task .eliminate) h) d (.ok (.expand h (t.targets v)))
        { d with
          table := d.table.setMark h (m.setInS false)
          ledger := (d.ledger.noted m.fields.inF).expanded (t.targets v).length } := by
  have hmark : d.table.mark? h = some m := by rw [hd.mark?_eq ht, hm]
  refine ⟨hd.puts_setMark ht _, ?_⟩
  have hstate : Yields (Pass.eliminate.onState t.graph h) d (.ok ()) { d with
      table := d.table.setMark h (m.setInS false)
      ledger := d.ledger.noted m.fields.inF } := by
    refine yields_atDesk ?_
    change (noteElimination h : DeskM N Unit) d = _
    rw [noteElimination, DeskM.bind_ok (mark_eq hmark), DeskM.bind_ok (setMark_eq _ _ _),
      Mark.inF_eq]
    cases m.fields.inF
    · rfl
    · rfl
  refine yields_expandState hv hstate ?_
  rw [Table.node?_setMark]
  exact hd.node?_eq_some ht

end Rule

namespace Eliminating

variable [DecidableEq N] [Std.TransOrd N] [Std.LawfulEqOrd N] {t : Terrain N σ}
  {T₀ : Nat → Table N} {l : Ledger N} {S : Finset N} {s : Scene N} {v : N}
  {rest : Multiset (Edge N)}

/-- A candidate that never had a predecessor is taken out. -/
theorem handles_seed (hs : Eliminating t T₀ l S s) (hp : s.pending = ⟨none, v⟩ ::ₘ rest) :
    s.HandlesAfter t .eliminate (Eliminated t T₀ l S) (S \ t.candidates s.tables).val ⟨none, v⟩
      rest := by
  obtain ⟨⟨hcand, hpreds⟩, hseed⟩ :
      (v ∈ t.candidates s.tables ∧ (t.fieldsOf s.tables v).predecessors = 0) ∧
        seedsAt rest v = 0 := by
    have hseeds := hs.seeds v
    rw [hp, seedsAt_cons_self] at hseeds
    split at hseeds
    · rename_i hcond
      exact ⟨hcond, by omega⟩
    · omega
  have hstates := Terrain.candidates_subset hcand
  obtain ⟨m, hm, hfields⟩ := hs.kept.exists_mark hstates
  obtain ⟨h, hv⟩ := hs.kept.exists_handle hstates
  have hst := hs.kept.parted.store_known (d := s.desk (t.home v)) rfl hv
  obtain ⟨hput, hx⟩ := yields_expand_eliminate (t := t) (d := s.desk (t.home v)) hstates
    (hs.kept.parted.fits (t.home_lt v)) hv hm
  have hcount := hs.counted (hs.within hcand)
  rw [hpreds, hp, inbound_cons_seed] at hcount
  refine ⟨_, _, yields_expand hst rfl hx, trivial, ?_, ?_⟩
  · rw [length_newEdges]
    rfl
  · refine hs.expand (m := m.setInS false) hcand hm (m.agrees_setInS false)
      (by rw [Mark.fields_setInS, ← hfields, ← hpreds]) (by omega) (by omega) ?_ hseed ?_
      (Scene.marked_expand (l := (s.desk (t.home v)).ledger.noted m.fields.inF)
        hs.kept.parted hstates hput rfl rfl rfl m.fields.inF.toNat rfl rfl h rest)
      (add_expansions_expand ?_ (fun hin => (Finset.mem_sdiff.mp hin).2 hcand) (t.targets v))
    · intro u _
      rw [hp, inbound_cons_seed]
    · intro u hne
      rw [hp, seedsAt_cons_ne hne]
    · exact (Table.node?_setMark ..).trans (hs.kept.parted.node?_eq hv)

/-- An edge is taken off the count of its target, which is taken out if it was the last. -/
theorem handles_edge (hs : Eliminating t T₀ l S s) {source : Handle}
    (hp : s.pending = ⟨some source, v⟩ ::ₘ rest) :
    s.HandlesAfter t .eliminate (Eliminated t T₀ l S) (S \ t.candidates s.tables).val
      ⟨some source, v⟩ rest := by
  have hvS : v ∈ S := by
    by_contra hv
    have hout := (hs.outside hv).1
    rw [hp, inbound_cons_self] at hout
    omega
  have hcount := hs.counted hvS
  rw [hp, inbound_cons_self] at hcount
  have hcand : v ∈ t.candidates s.tables := hs.marked hvS (by omega)
  have hstates := Terrain.candidates_subset hcand
  obtain ⟨m, hm, hfields⟩ := hs.kept.exists_mark hstates
  obtain ⟨h, hv⟩ := hs.kept.exists_handle hstates
  have hfits := hs.kept.parted.fits (t.home_lt v)
  have hst := hs.kept.parted.store_known (d := s.desk (t.home v)) rfl hv
  have hmark? : (s.desk (t.home v)).table.mark? h = some m :=
    (hs.kept.parted.mark?_eq hv).trans hm
  rw [hfields] at hcount
  rcases Nat.lt_or_ge 1 m.fields.predecessors with hmore | hone
  · obtain ⟨m', hagree, hm', he⟩ := eliminateEdge_other source hmark? hmore
    refine ⟨_, _, yields_forget hst he, trivial, rfl, ?_⟩
    exact hs.count hp hvS hm hagree hm' hmore (Scene.marked_next
      (d := { s.desk (t.home v) with table := (s.desk (t.home v)).table.setMark h m' })
      hs.kept.parted hstates (hfits.puts_setMark hv m') rfl rest) (add_zero _)
  · have hone : m.fields.predecessors = 1 := by omega
    obtain ⟨m', hagree, hm', he⟩ := eliminateEdge_last source hmark? hone
    have hput := hfits.puts_setMark hv m'
    obtain ⟨hput', hx⟩ := yields_expand_eliminate (t := t) (d := { s.desk (t.home v) with
        table := (s.desk (t.home v)).table.setMark h m' }) hstates
      (hs.kept.parted.fits_of_puts hstates hput) (hput.find?_of_some hv) hput.mark_self
    have hseed : seedsAt rest v = 0 := by
      have hseeds := hs.seeds v
      rw [hp, seedsAt_cons_some, hfields, hone, if_neg fun hin => nomatch hin.2] at hseeds
      exact hseeds
    rw [hagree.inF] at hx
    refine ⟨_, _, yields_expand hst he hx, trivial, ?_, ?_⟩
    · rw [length_newEdges]
      rfl
    · refine hs.expand (m := m'.setInS false) (h := h) hcand hm
        ((m'.agrees_setInS false).trans hagree) (by rw [Mark.fields_setInS, hm']) (by omega)
        (by omega) ?_ hseed ?_ ?_
        (add_expansions_expand ?_ (fun hin => (Finset.mem_sdiff.mp hin).2 hcand) (t.targets v))
      · intro u hne
        rw [hp, inbound_cons_ne source hne]
      · intro u _
        rw [hp, seedsAt_cons_some]
      · refine Scene.marked_expand (l := (s.desk (t.home v)).ledger.noted m.fields.inF)
          hs.kept.parted hstates ?_ rfl rfl rfl m.fields.inF.toNat rfl rfl h rest
        exact hput.trans hput'
      · refine (Table.node?_setMark ..).trans ((Table.node?_setMark ..).trans ?_)
        exact hs.kept.parted.node?_eq hv

/-- **Handling an edge keeps the invariant of an elimination pass.** -/
theorem tracks (t : Terrain N σ) (T₀ : Nat → Table N) (l : Ledger N) (S : Finset N) :
    Scene.Tracks t .eliminate t.edgeCount (Eliminated t T₀ l S) where
  peers hs i hi := hs.2.kept.parted.peers i hi
  bound {M s} hs := by
    have hsum : ∑ v ∈ S, (t.targets v).length ≤ t.edgeCount :=
      Finset.sum_le_sum_of_subset hs.2.closed.subset
    have hgen := hs.2.generated
    omega
  step {M s e rest} hs hp _ := by
    obtain ⟨rfl, hs⟩ := hs
    obtain ⟨source, v⟩ := e
    cases source with
    | none => exact hs.handles_seed hp
    | some source => exact hs.handles_edge hp
  drop {M s e rest} hs hp hh := nomatch (hs.2.halted _).symm.trans hh
  stop {M s i j} hs hf := by
    rw [hs.2.good j] at hf
    exact nomatch hf

end Eliminating

/-! ## 4. The pass as a whole -/

section Eliminate

variable [DecidableEq N] {t : Terrain N σ} {name : N → Option Handle} {T T₀ : Nat → Table N}
  {l : Ledger N} {S : Finset N} {s : Scene N}

/-- The marks that elimination starts from. -/
def Mark.isOrphan (m : Mark) : Bool := m.inS && m.predecessors == 0

omit [DecidableEq N] in
theorem Terrain.Stocked.mem_statesWhere_isOrphan (hT : t.Stocked T) {v : N} :
    v ∈ t.statesWhere T Mark.isOrphan ↔
      v ∈ t.candidates T ∧ (t.fieldsOf T v).predecessors = 0 := by
  rw [Terrain.statesWhere, Finset.mem_filter, Terrain.mem_candidates, and_assoc]
  refine and_congr_right fun hv => ?_
  obtain ⟨m, hm, hfields⟩ := hT.exists_mark hv
  rw [hm, Option.any_some, Mark.isOrphan, Bool.and_eq_true, beq_iff_eq, hfields]
  exact and_congr_right fun _ => Mark.predecessors_eq_iff

/-- The pass begins with a seed at every candidate without predecessors. -/
theorem Eliminating.start_of_counted {o : Opening N} (hT : t.Stocked T) (hS : t.Counted S T)
    (htables : (o.scene t.peers).tables = T) (hseeds : o.seeds = t.nodesWhere T Mark.isOrphan)
    (hledger : ∀ i, (o.desk i).ledger = l) (hl : l.share = l) :
    Eliminated t T l S 0 (o.scene t.peers) := by
  have hpending := Opening.pending_nodesWhere hT.parted hseeds
  have hdesk : ∀ i, ((o.scene t.peers).desk i).ledger = l := hledger
  have htotal : ∀ f : Ledger N → Nat, f l = 0 → (o.scene t.peers).total t f = 0 := fun f hf =>
    Finset.sum_eq_zero fun i _ => by rw [hdesk, hf]
  refine ⟨by rw [htables, hS.candidates, Finset.sdiff_self]; rfl, ?_⟩
  refine
    { kept := htables ▸ hT.kept
      closed := hS.closed
      ledger := fun i => by rw [hdesk, hl]
      seeds := fun v => ?_
      within := by rw [htables, hS.candidates]
      marked := fun {v} hvS _ => by rw [htables, hS.candidates]; exact hvS
      counted := fun {v} hvS => ?_
      outside := fun {v} hv => ?_
      core := by rw [htables, hS.candidates]; exact hS.closed.core_subset
      stamps := fun hv => by rw [htables]
      size := ?_
      states := ?_
      generated := ?_
      halted := fun _ => rfl
      good := fun _ => rfl }
  · rw [hpending, seedsAt_map_seed, htables]
    exact if_congr hT.mem_statesWhere_isOrphan rfl rfl
  · rw [htables, hS.predecessors hvS, hS.candidates, hpending, inbound_map_seed, Nat.add_zero]
  · rw [hpending, inbound_map_seed, htables]
    exact ⟨rfl, rfl⟩
  · rw [htotal _ (by rw [← hl]; rfl), htables, hS.candidates, Nat.zero_add]
  · rw [htotal _ (by rw [← hl]; rfl), htables, hS.candidates, Nat.zero_add]
  · rw [Scene.generated, htotal _ (by rw [← hl]; rfl), htables, hS.candidates, Nat.zero_add]

/-- At the end every candidate has a predecessor, so that the candidates are what comes from a
cycle. -/
theorem Eliminating.candidates_eq (hs : Eliminating t T₀ l S s) (hdone : s.pending = 0) :
    t.candidates s.tables = t.core S := by
  have hpred : ∀ v ∈ t.candidates s.tables, ∃ u ∈ t.candidates s.tables, t.Edge u v := by
    intro v hv
    refine Terrain.inflow_pos.mp (Nat.pos_of_ne_zero fun hzero => ?_)
    have hcount := hs.counted (hs.within hv)
    have hseeds := hs.seeds v
    rw [hdone, inbound_zero, Nat.add_zero, hzero] at hcount
    rw [hdone, if_pos ⟨hv, hcount⟩] at hseeds
    exact nomatch hseeds
  refine Finset.Subset.antisymm (fun v hv => ?_) hs.core
  obtain ⟨y, hy, hcycle, hreach⟩ := Terrain.exists_cycle_of_predecessors hpred hv
  exact Terrain.mem_core.mpr ⟨Terrain.candidates_subset hv, y, hs.within hy, hcycle, hreach⟩

/-- The tables after an elimination pass: the candidates `S` have come down to `S'`, and only their
counts have changed besides. -/
structure Terrain.Pruned (t : Terrain N σ) (T₀ : Nat → Table N) (S S' : Finset N)
    (T : Nat → Table N) : Prop where
  candidates : t.candidates T = S'
  predecessors : ∀ {v}, v ∈ S → (t.fieldsOf T v).predecessors = t.inflow S' v
  outside : ∀ {v}, v ∉ S → t.fieldsOf T v = t.fieldsOf T₀ v
  stamps : ∀ v, (t.fieldsOf T v).iteration = (t.fieldsOf T₀ v).iteration

theorem Eliminating.pruned (hs : Eliminating t T₀ l S s) (hdone : s.pending = 0) :
    t.Pruned T₀ S (t.core S) s.tables where
  candidates := hs.candidates_eq hdone
  predecessors hv := by
    rw [hs.counted hv, hdone, inbound_zero, Nat.add_zero, hs.candidates_eq hdone]
  outside hv := (hs.outside hv).2
  stamps := hs.stamps

/-- If all counts were right before, they are afterwards. -/
theorem Terrain.Pruned.tallied {round : UInt32} (hS : t.Closed S)
    (hT₀ : t.Tallied round S S T₀) (hT : t.Pruned T₀ S (t.core S) T) :
    t.Tallied round S (t.core S) T where
  candidates := hT.candidates
  predecessors v := by
    by_cases hv : v ∈ S
    · exact hT.predecessors hv
    · rw [hT.outside hv, hT₀.predecessors, hS.inflow_eq_zero hS.core_subset hv,
        hS.inflow_eq_zero Finset.Subset.rfl hv]
  stamps hv := by rw [hT.stamps, hT₀.stamps hv]

variable [Std.TransOrd N] [Std.LawfulEqOrd N] {plan : Plan N σ} {r : Run N σ}
  {desk : Nat → Desk N} {cursor : Nat → Nat}

/-- What the workers begin an elimination pass with. -/
def Terrain.eliminateOpening (t : Terrain N σ) (l : Ledger N) (desk : Nat → Desk N)
    (cursor : Nat → Nat) : Opening N where
  seeds := t.nodesWhere (fun i => (desk i).table) Mark.isOrphan
  desk i := { desk i with ledger := l }
  cursor := cursor

omit [DecidableEq N] [Std.TransOrd N] [Std.LawfulEqOrd N] in
theorem Terrain.yields_start_eliminate (t : Terrain N σ) (l : Ledger N) (desk : Nat → Desk N)
    (cursor : Nat → Nat) {i : Nat} (hi : i < t.peers) :
    Yields (Pass.eliminate.start t.graph) { desk i with ledger := l }
      (.ok ((t.eliminateOpening l desk cursor).seeds i))
      ((t.eliminateOpening l desk cursor).desk i) := by
  have hnodes : t.nodesWhere (fun i => (desk i).table) Mark.isOrphan i =
      ((desk i).table.entries.filter (Mark.isOrphan ·.2)).map Prod.fst := if_pos hi
  simp only [Terrain.eliminateOpening, hnodes]
  exact yields_atDesk rfl

/-- What an elimination pass from the tables `T` and the candidates `S` leaves. -/
structure Run.Prunes (t : Terrain N σ) (cursor : Nat → Nat) (T : Nat → Table N) (S : Finset N)
    (r r' : Run N σ) : Prop where
  size : r'.ledger.size + (t.flagged T (t.core S)).card = (t.flagged T S).card
  states : r'.ledger.states + (t.core S).card = S.card
  tables : ∃ T', r.Resumes t cursor T T' r' ∧ t.Pruned T S (t.core S) T'

omit [Std.TransOrd N] [Std.LawfulEqOrd N] in
theorem Scene.Leaves.prunes {s : Scene N} {r' : Run N σ} {M : Multiset N}
    (hleaves : Scene.Leaves t cursor (Eliminated t T₀ r.ledger.share S M) r s r') :
    r.Prunes t cursor T₀ S r' := by
  have hs := hleaves.holds.2
  have hcand := hs.candidates_eq hleaves.done
  have hsize := hs.size
  have hstates := hs.states
  rw [← hleaves.size, hcand] at hsize
  rw [← hleaves.states, hcand] at hstates
  refine ⟨hsize, hstates, s.tables, ⟨⟨s.desk, hleaves.rests, rfl⟩, hs.kept,
    hleaves.share hs.ledger, ?_⟩, hs.pruned hleaves.done⟩
  rw [hleaves.generated]
  exact Nat.le_add_right _ _

/-- **An elimination pass leaves what comes from a cycle of the set**, from whatever tables with
the right counts it starts, and expands all the rest, each state once.  It has no faults. -/
theorem answers_superstep_eliminate (hplan : plan.Covers t) (hr : r.cluster.Rests t desk cursor)
    (hT : t.Stocked fun i => (desk i).table) (hS : t.Counted S fun i => (desk i).table)
    (left : Nat) :
    Answers
      (fun _ r' => r.Prunes t cursor (fun i => (desk i).table) S r' ∧
        Check.expanded plan .eliminate { r with left := left } = (S \ t.core S).val)
      (fun _ _ => False)
      (Check.superstep plan .eliminate { r with left := left }) := by
  have hstep := answers_superstep hplan (Eliminating.tracks t _ r.ledger.share S)
    (o := t.eliminateOpening r.ledger.share desk cursor) hr
    (fun i hi => t.yields_start_eliminate _ _ _ hi)
    (fun i v hv => hT.parted.home_of_mem_nodesWhere hv)
    (Eliminating.start_of_counted hT hS rfl rfl (fun _ => rfl) rfl) left
  refine hstep.mono ?_ ?_
  · rintro - r' ⟨s, hleaves⟩
    refine ⟨hleaves.prunes, ?_⟩
    rw [← hleaves.holds.2.candidates_eq hleaves.done]
    exact hleaves.holds.1
  · rintro f r' ⟨s, i, ⟨-, hs⟩, hf, -⟩
    rw [hs.good i] at hf
    exact nomatch hf

/-- An elimination pass comes to its end if all workers get turns again and again. -/
theorem meets_superstep_eliminate (hplan : plan.Covers t) (hr : r.cluster.Rests t desk cursor)
    (hT : t.Stocked fun i => (desk i).table) (hS : t.Counted S fun i => (desk i).table) :
    Meets plan.Fair (Check.superstep plan .eliminate) r
      (fun _ r' => r.Prunes t cursor (fun i => (desk i).table) S r') (fun _ _ => False) where
  answers left := (answers_superstep_eliminate hplan hr hT hS left).mono
    (fun _ _ h => h.1) fun _ _ h => h
  ends hfair := by
    obtain ⟨n, e, r', hends⟩ := (meets_superstep hplan
      (Eliminating.tracks t _ r.ledger.share S).keeps
      (o := t.eliminateOpening r.ledger.share desk cursor) hr
      (fun i hi => t.yields_start_eliminate _ _ _ hi)
      (fun i v hv => hT.parted.home_of_mem_nodesWhere hv)
      ⟨0, Eliminating.start_of_counted hT hS rfl rfl (fun _ => rfl) rfl⟩).ends hfair
    exact ⟨n, e, r', hends⟩

/-- **In a round the states that come from a cycle of the set are left**, and the number of
accepting states among them. -/
theorem meets_eliminate (hplan : plan.Covers t) {least : Nat}
    (hr : r.Holds t name l least T) (hS : t.Tallied l.round S S T) (hclosed : t.Closed S)
    (hsize : r.ledger.size = (S.filter fun v => t.accepting v).card) :
    Meets plan.Fair (Check.eliminate plan) r
      (fun _ r' => ∃ T', r'.Holds t name l least T' ∧ t.Tallied l.round S (t.core S) T' ∧
        r'.ledger.size = (t.live T').card)
      (fun _ _ => False) := by
  obtain ⟨desk, hrests, rfl⟩ := hr.rests
  have hflagged : ∀ {S'}, S' ⊆ t.states → t.flagged (fun i => (desk i).table) S' =
      S'.filter fun v => t.accepting v := fun hS' =>
    Finset.filter_congr fun v hv => by rw [hr.known.accepting (hS' hv)]
  have hstep := meets_superstep_eliminate hplan hrests hr.known.toStocked
    ⟨hclosed, hS.candidates, fun _ => hS.predecessors _⟩
  refine .ledger_bind (hstep.bind fun _ r' h => ?_)
  obtain ⟨htotal, -, T', hresumes, hpruned⟩ := h
  have hholds := hr.resume hresumes
  obtain ⟨desk', hrests', rfl⟩ := hholds.rests
  rw [hflagged hclosed.subset, hflagged Terrain.core_subset, ← hsize] at htotal
  refine .ledger_bind ?_
  rw [if_neg (by omega)]
  refine (Meets.note (Q := fun _ r'' => r''.cluster.Rests t desk' (fun _ => 0) ∧
    r''.ledger = { r'.ledger with size := r.ledger.size - r'.ledger.size } ∧
    r''.generated = r'.generated) fun left => ⟨hrests', rfl, rfl⟩).bind ?_
  rintro - r'' ⟨hrests'', hledger, hgen⟩
  refine .record fun left => ⟨_, ⟨⟨desk', hrests''.record _, rfl⟩, hholds.known, ?_, ?_⟩,
    hpruned.tallied hclosed hS, ?_⟩
  · change r''.ledger.share = _
    rw [hledger, ← hholds.share]
    rfl
  · change _ ≤ r''.generated
    rw [hgen]
    exact hholds.generated
  · change r''.ledger.size = _
    rw [hledger, Terrain.live, hpruned.candidates]
    change r.ledger.size - r'.ledger.size = _
    omega

end Eliminate

end FairCycle
