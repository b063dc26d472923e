/-
# Single passes of a round

What a pass does to the tables does not depend on where they come from.  This module says it for
tables that hold any states with any marks, as long as every state is stored with its owner
(`Cluster.Filed`): reset and reachability give the states that the accepting candidates reach, with
the number of edges that come to each (`superstep_reach_closure`), and elimination leaves of a
closed set with the right counts what comes from a cycle in it (`superstep_eliminate_core`).

The states are taken from the tables themselves (`Cluster.Filed.terrain`).
-/
import FairCycle.Proofs.Census
import FairCycle.Proofs.Survivors

namespace FairCycle

variable {N σ : Type} [Ord N]

/-! ## 1. Tables in which every state is with its owner -/

/-- The states that are stored, over all tables. -/
def Cluster.stored (c : Cluster N σ) : Set N := {v | ∃ m, c.Marks v m}

/-- The accepting candidates, as their marks say. -/
def Cluster.seeds (c : Cluster N σ) : Set N :=
  {v | ∃ m, c.Marks v m ∧ m.inS = true ∧ m.inF = true}

/-- A cluster between two passes: every worker has a table of its own, with few enough states to
number them, and every state is known and stored with its owner. -/
structure Cluster.Filed {g : Graph N σ} (p : g.Promise) (peers : Nat) (c : Cluster N σ) :
    Prop where
  still : c.Still
  size : c.workers.size = peers
  worker : ∀ {i : Nat} {w : Worker N}, c.workers[i]? = some w → w.desk.table.worker = i
  fits : ∀ {i : Nat} {w : Worker N}, c.workers[i]? = some w → w.desk.table.size ≤ 2 ^ 32
  owned : ∀ {i : Nat} {w : Worker N} {v : N}, c.workers[i]? = some w →
    v ∈ w.desk.table.nodes.toList → owner (p.hash v) peers = i
  known : ∀ {i : Nat} {w : Worker N} {v : N}, c.workers[i]? = some w →
    v ∈ w.desk.table.nodes.toList → v ∈ p.known

/-- Tables that rest over a terrain are filed. -/
theorem Cluster.Rests.filed {t : Terrain N σ} {c : Cluster N σ} {desk : Nat → Desk N}
    {cursor : Nat → Nat} (hc : c.Rests t desk cursor) (hT : t.Parted fun i => (desk i).table) :
    c.Filed t.promise t.peers := by
  have hlt : ∀ {i : Nat} {w : Worker N}, c.workers[i]? = some w → i < t.peers := fun hw => by
    rw [← hc.size]
    exact (Array.getElem?_eq_some_iff.mp hw).1
  refine ⟨hc.still, hc.size, fun hw => ?_, fun hw => ?_, fun {i w v} hw hv => ?_,
    fun {i w v} hw hv => ?_⟩
  · rw [hc.desk hw]
    exact hT.worker _ (hlt hw)
  · rw [hc.desk hw]
    exact (hT.fits (hlt hw)).size
  · rw [hc.desk hw, Table.mem_nodes] at hv
    exact (hT.stored i (hlt hw) hv).1
  · rw [hc.desk hw, Table.mem_nodes] at hv
    exact t.known v (hT.stored i (hlt hw) hv).2

section Terrain

variable [DecidableEq N] {c : Cluster N σ} {v : N}

/-- All states that are stored. -/
def Cluster.shelf (c : Cluster N σ) : Finset N := (c.tables.flatMap (·.nodes.toList)).toFinset

theorem Cluster.mem_shelf : v ∈ c.shelf ↔
    ∃ (i : Nat) (w : Worker N), c.workers[i]? = some w ∧ v ∈ w.desk.table.nodes.toList := by
  rw [shelf, List.mem_toFinset, List.mem_flatMap]
  constructor
  · rintro ⟨table, htable, hv⟩
    obtain ⟨w, hw, rfl⟩ := List.mem_map.mp htable
    obtain ⟨i, hi⟩ := List.mem_iff_getElem?.mp hw
    exact ⟨i, w, by rw [← Array.getElem?_toList, hi], hv⟩
  · rintro ⟨i, w, hw, hv⟩
    rw [← Array.getElem?_toList] at hw
    exact ⟨_, List.mem_map.mpr ⟨w, List.mem_of_getElem? hw, rfl⟩, hv⟩

namespace Cluster.Filed

variable {g : Graph N σ} {p : g.Promise} {peers : Nat}

/-- The states that a worker owns are in its table. -/
theorem filter_shelf_subset (hc : c.Filed p peers) {i : Nat} {w : Worker N}
    (hw : c.workers[i]? = some w) :
    (c.shelf.filter fun v => owner (p.hash v) peers = i) ⊆ w.desk.table.nodes.toList.toFinset := by
  intro v hv
  obtain ⟨hshelf, hhome⟩ := Finset.mem_filter.mp hv
  obtain ⟨j, w', hw', hmem⟩ := mem_shelf.mp hshelf
  obtain rfl : j = i := (hc.owned hw' hmem).symm.trans hhome
  obtain rfl : w' = w := Option.some.inj (hw'.symm.trans hw)
  exact List.mem_toFinset.mpr hmem

theorem card_filter_shelf_le (hc : c.Filed p peers) (i : Nat) :
    (c.shelf.filter fun v => owner (p.hash v) peers = i).card ≤ 2 ^ 32 := by
  cases hw : c.workers[i]? with
  | none =>
    rw [Finset.card_eq_zero.mpr (Finset.filter_eq_empty_iff.mpr fun {v} hv hhome => ?_)]
    · exact Nat.zero_le _
    · obtain ⟨j, w, hw', hv⟩ := mem_shelf.mp hv
      rw [← hc.owned hw' hv, hhome, hw] at hw'
      exact nomatch hw'
  | some w =>
    refine (Finset.card_le_card (hc.filter_shelf_subset hw)).trans ?_
    exact (List.toFinset_card_le _).trans (Array.length_toList.trans_le (hc.fits hw))

/-- The terrain of a pass over the states that are stored. -/
def terrain {config : Config} (hc : c.Filed p config.peers) (hworkers : config.workers ≤ 2 ^ 32) :
    Terrain N σ where
  graph := g
  promise := p
  reduction := config.reduction
  peers := config.peers
  peers_pos := config.peers_pos
  peers_le := Config.peers_le hworkers
  states := c.shelf
  known v hv := by
    obtain ⟨i, w, hw, hmem⟩ := mem_shelf.mp hv
    exact hc.known hw hmem
  few := hc.card_filter_shelf_le

end Cluster.Filed

variable [Std.TransOrd N]

/-- What the workers have before them. -/
def Cluster.desks (c : Cluster N σ) (i : Nat) : Desk N := (c.workers[i]?.getD standIn).desk

/-- How far the workers have come in the search for seeds. -/
def Cluster.cursors (c : Cluster N σ) (i : Nat) : Nat := (c.workers[i]?.getD standIn).cursor

namespace Cluster.Filed

variable {g : Graph N σ} {p : g.Promise} {config : Config}

theorem rests (hc : c.Filed p config.peers) (hworkers : config.workers ≤ 2 ^ 32) :
    c.Rests (hc.terrain hworkers) c.desks c.cursors where
  still := hc.still
  size := hc.size
  desk hw := by rw [desks, hw, Option.getD_some]
  cursor hw := by rw [cursors, hw, Option.getD_some]

theorem stocked (hc : c.Filed p config.peers) (hworkers : config.workers ≤ 2 ^ 32) :
    (hc.terrain hworkers).Stocked fun i => (c.desks i).table := by
  have hget : ∀ i < config.peers, ∃ w, c.workers[i]? = some w ∧ c.desks i = w.desk := fun i hi =>
    ⟨_, Array.getElem?_eq_getElem (hc.size ▸ hi), by
      rw [desks, Array.getElem?_eq_getElem (hc.size ▸ hi), Option.getD_some]⟩
  refine ⟨⟨fun i hi => ?_, fun i hi => ?_, fun i hi v hv => ?_⟩, ?_⟩
  · obtain ⟨w, hw, hdesk⟩ := hget i hi
    rw [hdesk]
    exact hc.worker hw
  · obtain ⟨w, hw, hdesk⟩ := hget i hi
    rw [hdesk]
    exact (hc.still.peers hw).trans hc.size
  · obtain ⟨w, hw, hdesk⟩ := hget i hi
    rw [hdesk, ← Table.mem_nodes] at hv
    exact ⟨hc.owned hw hv, mem_shelf.mpr ⟨i, w, hw, hv⟩⟩
  · refine Finset.filter_true_of_mem fun v hv => ?_
    obtain ⟨i, w, hw, hv⟩ := mem_shelf.mp hv
    have hhome : (hc.terrain hworkers).home v = i := hc.owned hw hv
    rw [Terrain.markOf, hhome, desks, hw, Option.getD_some]
    exact Table.mem_nodes.mp hv

end Cluster.Filed

end Terrain

/-! ## 2. What the tables say -/

section Tables

variable {t : Terrain N σ} {c : Cluster N σ} {desk : Nat → Desk N} {cursor : Nat → Nat} {v : N}
  {m : Mark}

theorem Cluster.Rests.marks_iff (hc : c.Rests t desk cursor)
    (hT : t.Stocked fun i => (desk i).table) :
    c.Marks v m ↔ t.markOf (fun i => (desk i).table) v = some m :=
  (hc.shelved hT.parted).marks_iff

theorem Cluster.Rests.fieldsOf_eq (hc : c.Rests t desk cursor)
    (hT : t.Stocked fun i => (desk i).table) (hm : c.Marks v m) :
    t.fieldsOf (fun i => (desk i).table) v = m.fields :=
  Terrain.fieldsOf_eq ((hc.marks_iff hT).mp hm)

theorem Cluster.Rests.stored_eq (hc : c.Rests t desk cursor)
    (hT : t.Stocked fun i => (desk i).table) : c.stored = t.states := by
  ext v
  constructor
  · rintro ⟨m, hm⟩
    exact hT.parted.mem_states ((hc.marks_iff hT).mp hm)
  · intro hv
    obtain ⟨m, hm, -⟩ := hT.exists_mark hv
    exact ⟨m, (hc.marks_iff hT).mpr hm⟩

theorem Cluster.Rests.seeds_eq (hc : c.Rests t desk cursor)
    (hT : t.Stocked fun i => (desk i).table) :
    c.seeds = t.statesWhere (fun i => (desk i).table) Mark.isSeed := by
  ext v
  rw [Finset.mem_coe]
  constructor
  · rintro ⟨m, hm, hseed⟩
    rw [hT.mem_statesWhere ((hc.marks_iff hT).mp hm), Mark.isSeed, Bool.and_eq_true]
    exact hseed
  · intro hv
    obtain ⟨m, hm, -⟩ := hT.exists_mark (Finset.mem_filter.mp hv).1
    rw [hT.mem_statesWhere hm, Mark.isSeed, Bool.and_eq_true] at hv
    exact ⟨m, (hc.marks_iff hT).mpr hm, hv⟩

theorem Cluster.Rests.flagged_eq (hc : c.Rests t desk cursor)
    (hT : t.Stocked fun i => (desk i).table) {S : Finset N} (hS : S ⊆ t.states) :
    {v ∈ (S : Set N) | ∃ m, c.Marks v m ∧ m.inF = true} =
      t.flagged (fun i => (desk i).table) S := by
  ext v
  rw [Finset.mem_coe, Terrain.flagged, Finset.mem_filter]
  refine and_congr_right fun hv => ⟨?_, fun hin => ?_⟩
  · rintro ⟨m, hm, hin⟩
    rw [hc.fieldsOf_eq hT hm, ← Mark.inF_eq]
    exact hin
  · obtain ⟨m, hm, hfields⟩ := hT.exists_mark (hS hv)
    rw [hfields, ← Mark.inF_eq] at hin
    exact ⟨m, (hc.marks_iff hT).mpr hm, hin⟩

theorem Terrain.card_flagged_sdiff [DecidableEq N] {T : Nat → Table N} {S S' : Finset N}
    (h : S' ⊆ S) :
    (t.flagged T (S \ S')).card + (t.flagged T S').card = (t.flagged T S).card := by
  have hsdiff : t.flagged T (S \ S') = t.flagged T S \ t.flagged T S' := by
    ext v
    simp only [flagged, Finset.mem_filter, Finset.mem_sdiff]
    tauto
  rw [hsdiff]
  exact Finset.card_sdiff_add_card_eq_card (Finset.filter_subset_filter _ h)

/-- A pass of a round leaves the states where they are, and of their marks the parents, the
ancestors and the acceptance. -/
theorem Run.Resumes.unchanged {r r' : Run N σ} {T' : Nat → Table N}
    (h : r.Resumes t cursor (fun i => (desk i).table) T' r') (hr : r.cluster.Rests t desk cursor)
    (hT : t.Stocked fun i => (desk i).table) :
    r'.cluster.Filed t.promise t.peers ∧ r'.cluster.stored = r.cluster.stored ∧
      ∀ v m', r'.cluster.Marks v m' → ∃ m, r.cluster.Marks v m ∧ m'.Agrees m := by
  obtain ⟨desk', hrests', rfl⟩ := h.rests
  have hT' := h.kept.toStocked
  refine ⟨hrests'.filed hT'.parted, ?_, fun v m' hm' => ?_⟩
  · rw [hrests'.stored_eq hT', hr.stored_eq hT]
  · obtain ⟨m, hm, hagree⟩ := h.kept.marks ((hrests'.marks_iff hT').mp hm')
    exact ⟨m, (hr.marks_iff hT).mpr hm, hagree⟩

/-- Where no fault says otherwise there was room to count the edges. -/
theorem Terrain.Tallied.edgesInto_le [DecidableEq N] {round : UInt32} {A S : Finset N}
    {T : Nat → Table N} (h : t.Tallied round A S T) (v : N) :
    t.promise.edgesInto t.reduction S v ≤ 32767 := by
  rw [← Terrain.inflow_eq_edgesInto, ← h.predecessors]
  exact Terrain.predecessors_le v

/-- The stamp tells whether a state was taken in, from the first round on. -/
theorem Cluster.Rests.iteration_of_tallied [DecidableEq N] (hc : c.Rests t desk cursor)
    (hT : t.Stocked fun i => (desk i).table) {round : UInt32} (hround : 1 ≤ round.toNat)
    {A S : Finset N} (h : t.Tallied round A S fun i => (desk i).table) (hm : c.Marks v m) :
    (v ∈ A → m.fields.iteration = round.toNat % 2 ^ 15) ∧
      (v ∉ A → m.fields.iteration = (round.toNat - 1) % 2 ^ 15) := by
  have hv := hT.parted.mem_states ((hc.marks_iff hT).mp hm)
  rw [← hc.fieldsOf_eq hT hm, h.stamps hv, Terrain.stampIn]
  refine ⟨fun hin => if_pos hin, fun hin => ?_⟩
  have hone : (1 : UInt32) ≤ round := UInt32.le_iff_toNat_le.mpr hround
  rw [if_neg hin, UInt32.toNat_sub_of_le _ _ hone]
  rfl

omit [Ord N]

theorem Terrain.Encloses.coe_spread {A : Finset N} (hA : t.Encloses A) :
    (t.spread A : Set N) = {v | ∃ a ∈ (A : Set N), t.Reaches a v} := by
  ext v
  rw [Finset.mem_coe, Terrain.mem_spread, and_iff_right_of_imp]
  · rfl
  · rintro ⟨a, ha, hreach⟩
    exact hA a ha v hreach

theorem Terrain.Closed.coe_core {S : Finset N} (hS : t.Closed S) : (t.core S : Set N) =
    {v ∈ (S : Set N) | ∃ y ∈ (S : Set N), t.OnCycle y ∧ t.Reaches y v} := by
  ext v
  rw [Finset.mem_coe, hS.mem_core]
  refine ⟨fun h => ⟨?_, h⟩, fun h => h.2⟩
  obtain ⟨y, hy, -, hreach⟩ := h
  exact hS.mem_of_reaches hy hreach

end Tables

/-! ## 3. The tables of a small graph -/

/-- The part of a worker of two in the small graph: all states are candidates, the first is
accepting, and the edges between them are counted. -/
def pendantPart (i : Nat) : Table (Fin 3) :=
  ((List.finRange 3).filter fun v => v.val % 2 == i).foldl
    (fun table v => (table.insert v).2.2.setMark (table.handle table.size)
      (((({} : Mark).setPredecessors (#[0, 2, 1].getD v.val 0)).setInS true).setInF (v.val == 0)))
    (.empty i 2)

/-- Two workers have these parts, in the first round. -/
def pendantFiled : Run (Fin 3) Unit where
  cluster :=
    { workers := #[{ id := 0, desk := { table := pendantPart 0 } },
        { id := 1, desk := { table := pendantPart 1 } }]
      commons := { memory := (), inboxes := #[{}, {}] } }
  ledger := { round := 1 }
  left := 300

theorem filed_pendantFiled : pendantFiled.cluster.Filed (pendantPromise 0) 2 := by
  have hget : ∀ {i : Nat} {w : Worker (Fin 3)}, pendantFiled.cluster.workers[i]? = some w →
      (i = 0 ∨ i = 1) ∧ w = { id := i, desk := { table := pendantPart i } } := by
    intro i w hw
    obtain ⟨hi, rfl⟩ := Array.getElem?_eq_some_iff.mp hw
    have hi : i < 2 := hi
    obtain rfl | rfl : i = 0 ∨ i = 1 := by omega
    · exact ⟨.inl rfl, rfl⟩
    · exact ⟨.inr rfl, rfl⟩
  refine ⟨⟨rfl, rfl, rfl, fun hw => ?_, fun hw => ?_, fun hw => ?_⟩, rfl, fun hw => ?_,
    fun hw => ?_, fun {i w v} hw hv => ?_, fun _ _ => Set.mem_univ _⟩
  · rw [(hget hw).2]
  · obtain ⟨rfl | rfl, rfl⟩ := hget hw
    · decide +kernel
    · decide +kernel
  · rw [(hget hw).2]
    rfl
  · obtain ⟨rfl | rfl, rfl⟩ := hget hw
    · decide +kernel
    · decide +kernel
  · obtain ⟨rfl | rfl, rfl⟩ := hget hw
    · decide +kernel
    · decide +kernel
  · have howned : ∀ i < 2, ∀ v ∈ (pendantPart i).nodes.toList,
        owner ((pendantPromise 0).hash v) 2 = i := by decide +kernel
    obtain ⟨hi, rfl⟩ := hget hw
    exact howned i (by omega) v hv

/-- All states are stored as candidates. -/
theorem candidates_pendantFiled : pendantFiled.cluster.candidates = Set.univ := by
  refine Set.eq_univ_of_forall fun v => ?_
  have hall : ∀ v : Fin 3, (pendantFiled.cluster.tables.any fun table =>
      table.entries.any fun e => e.1 == v && e.2.inS) = true := by decide +kernel
  obtain ⟨table, htable, hentry⟩ := List.any_eq_true.mp (hall v)
  obtain ⟨⟨u, m⟩, hm, hin⟩ := List.any_eq_true.mp hentry
  obtain ⟨hu, hinS⟩ := (Bool.and_eq_true _ _).mp hin
  obtain rfl := eq_of_beq hu
  exact ⟨table, htable, m, hm, hinS⟩

/-! ## 4. Reset and reachability -/

section Passes

variable [DecidableEq N] [Std.TransOrd N] [Std.LawfulEqOrd N]

/-- **Reset and reachability compute the forward closure and its in-degrees.**  Let `A` be the
accepting candidates and `R` what they reach, all of it stored.  A reset leaves `A`.  After it, a
reachability pass that does not run out of turns counts too many edges exactly if more than 32767
lead to some state from `R`; otherwise it ends well, the candidates are the states of `R`, each of
them was expanded once, every state has the number of edges from `R`, and the stamp tells whether
it is in `R`.  In a fair order of turns neither pass runs out of them. -/
theorem superstep_reach_closure {g : Graph N σ} (p : g.Promise) {config : Config}
    (hworkers : config.workers ≤ 2 ^ 32) (turns : Nat → Turn) {r : Run N σ}
    (hr : r.cluster.Filed p config.peers) (hround : 1 ≤ r.ledger.round.toNat) {A R : Set N}
    (hA : r.cluster.seeds = A) (hR : R = {v | ∃ a ∈ A, p.Reaches config.reduction a v})
    (hstored : R ⊆ r.cluster.stored) :
    (Turn.Fair config.peers turns → ∃ enough, ∀ left, enough ≤ left →
      ∃ r₁, Check.superstep ⟨g, config, turns⟩ .reset { r with left := left } = (.ok (), r₁)) ∧
    ∀ left r₁, Check.superstep ⟨g, config, turns⟩ .reset { r with left := left } = (.ok (), r₁) →
      r₁.ledger.size = A.ncard ∧
      Check.expanded ⟨g, config, turns⟩ .reset { r with left := left } = 0 ∧
      (Turn.Fair config.peers turns → ∃ enough, ∀ left, enough ≤ left →
        (Check.superstep ⟨g, config, turns⟩ .reach { r₁ with left := left }).1 ≠
          .error .outOfTurns) ∧
      ∀ left result r₂,
        Check.superstep ⟨g, config, turns⟩ .reach { r₁ with left := left } = (result, r₂) →
        result ≠ .error .outOfTurns →
        ((∃ state max, result = .error (.fault (.predecessorOverflow state max))) ↔
          ∃ v, 32767 < p.edgesInto config.reduction R v) ∧
        ((∀ v, p.edgesInto config.reduction R v ≤ 32767) → result = .ok ()) ∧
        (result = .ok () →
          r₂.cluster.candidates = R ∧
          (∀ v m, r₂.cluster.Marks v m →
            m.fields.predecessors = p.edgesInto config.reduction R v) ∧
          (∀ v ∈ R, (Check.expanded ⟨g, config, turns⟩ .reach
            { r₁ with left := left }).count v = 1) ∧
          (∀ v ∉ R, (Check.expanded ⟨g, config, turns⟩ .reach
            { r₁ with left := left }).count v = 0) ∧
          r₂.ledger.states = R.ncard ∧ r₂.ledger.size = A.ncard ∧
          (∀ v m, r₂.cluster.Marks v m →
            (v ∈ R → m.fields.iteration = r.ledger.round.toNat % 2 ^ 15) ∧
            (v ∉ R → m.fields.iteration = (r.ledger.round.toNat - 1) % 2 ^ 15)) ∧
          r₂.cluster.Filed p config.peers ∧ r₂.cluster.stored = r.cluster.stored ∧
          ∀ v m', r₂.cluster.Marks v m' → ∃ m, r.cluster.Marks v m ∧ m'.Agrees m) := by
  let t := hr.terrain hworkers
  let T : Nat → Table N := fun i => (r.cluster.desks i).table
  have hplan : (⟨g, config, turns⟩ : Plan N σ).Covers t := ⟨rfl, rfl, rfl⟩
  have hrests : r.cluster.Rests t r.cluster.desks r.cluster.cursors := hr.rests hworkers
  have hT : t.Stocked T := hr.stocked hworkers
  obtain rfl : A = (t.statesWhere T Mark.isSeed : Set N) := hA.symm.trans (hrests.seeds_eq hT)
  have henc : t.Encloses (t.statesWhere T Mark.isSeed) := by
    intro a ha v hreach
    have hv : v ∈ r.cluster.stored := hstored (hR ▸ ⟨a, ha, hreach⟩)
    rwa [hrests.stored_eq hT] at hv
  obtain rfl : R = (t.spread (t.statesWhere T Mark.isSeed) : Set N) :=
    hR.trans henc.coe_spread.symm
  have hreset := meets_superstep_reset hplan hrests hT rfl
  refine ⟨fun hfair => ?_, fun left r₁ hstep => ?_⟩
  · obtain ⟨enough, henough⟩ := hreset.exists_enough hfair
    refine ⟨enough, fun left hleft => ?_⟩
    obtain ⟨⟨⟩, hok, -⟩ := (hreset.answers left).exists_ok (henough left hleft)
    exact ⟨_, Prod.ext hok rfl⟩
  have hanswers := answers_superstep_reset hplan hrests hT rfl left
  rw [hstep] at hanswers
  obtain ⟨⟨hsize, T₁, hresumes, hcleared, hseed⟩, hnone⟩ := hanswers
  obtain ⟨desk₁, hrests₁, rfl⟩ := hresumes.rests
  have hT₁ := hresumes.kept.toStocked
  have hround₁ : r₁.ledger.round = r.ledger.round := (congrArg Ledger.round hresumes.share :)
  rw [← hround₁] at hcleared
  refine ⟨by rw [hsize, Set.ncard_coe_finset], hnone, fun hfair => ?_,
    fun left result r₂ hstep₂ hturns => ?_⟩
  · exact (meets_superstep_reach hplan hrests₁ hT₁ hcleared hseed henc).exists_enough hfair
  have hanswers := answers_superstep_reach hplan hrests₁ hT₁ hcleared hseed henc left
  rw [hstep₂] at hanswers
  have hedges : ∀ v, t.inflow (t.spread (t.statesWhere T Mark.isSeed)) v =
      p.edgesInto config.reduction (t.spread (t.statesWhere T Mark.isSeed) : Set N) v :=
    fun v => Terrain.inflow_eq_edgesInto _ v
  rcases result with (f | - | -) | ⟨⟩
  · obtain ⟨⟨v, h, hv, hh, rfl, hover⟩, -⟩ := hanswers
    rw [hedges] at hover
    refine ⟨iff_of_true ⟨h, _, rfl⟩ ⟨v, hover⟩, fun hroom => ?_, nofun⟩
    exact absurd hover (Nat.not_lt.mpr (hroom v))
  · exact hanswers.elim
  · exact absurd rfl hturns
  obtain ⟨⟨hsize₂, hstates, T₂, hresumes₂, htally⟩, hexpanded⟩ := hanswers
  obtain ⟨hfiled, hstored₂, hmarks₂⟩ := hresumes₂.unchanged hrests₁ hT₁
  obtain ⟨desk₂, hrests₂, rfl⟩ := hresumes₂.rests
  have hT₂ := hresumes₂.kept.toStocked
  refine ⟨iff_of_false nofun ?_, fun _ => rfl,
    fun _ => ⟨?_, ?_, ?_, ?_, ?_, ?_, ?_, hfiled, ?_, ?_⟩⟩
  · rintro ⟨v, hover⟩
    exact absurd hover (Nat.not_lt.mpr (htally.edgesInto_le v))
  · rw [hrests₂.coe_candidates hT₂, htally.candidates]
  · intro v m hm
    rw [← hrests₂.fieldsOf_eq hT₂ hm, htally.predecessors, hedges]
  · intro v hv
    rw [hexpanded]
    exact Multiset.count_eq_one_of_mem (Finset.nodup _) hv
  · intro v hv
    rw [hexpanded]
    exact Multiset.count_eq_zero_of_notMem hv
  · rw [hstates, Set.ncard_coe_finset]
  · rw [hsize₂, Set.ncard_coe_finset]
  · intro v m hm
    rw [hround₁] at htally
    exact hrests₂.iteration_of_tallied hT₂ hround htally hm
  · rw [hstored₂, (hresumes.unchanged hrests hT).2.1]
  · intro v m' hm'
    obtain ⟨m₁, hm₁, hagree₁⟩ := hmarks₂ v m' hm'
    obtain ⟨m, hm, hagree⟩ := (hresumes.unchanged hrests hT).2.2 v m₁ hm₁
    exact ⟨m, hm, hagree₁.trans hagree⟩

/-- From these tables a reset and a reachability pass take in the whole graph. -/
theorem superstep_reach_closure_pendant :
    ∃ r₁ r₂,
      Check.superstep ⟨pendant 0, { workers := 2 }, Turn.roundRobin⟩ .reset pendantFiled =
        (.ok (), r₁) ∧
      Check.superstep ⟨pendant 0, { workers := 2 }, Turn.roundRobin⟩ .reach r₁ = (.ok (), r₂) ∧
      r₂.ledger.states = 3 ∧ r₂.ledger.size = 1 ∧ pendantFiled.cluster.seeds.ncard = 1 ∧
      r₂.cluster.candidates =
        {v | ∃ a ∈ pendantFiled.cluster.seeds, (pendantPromise 0).Reaches false a v} := by
  have hstored : ∀ v, v ∈ pendantFiled.cluster.stored := by
    intro v
    obtain ⟨table, htable, m, hm, -⟩ : v ∈ pendantFiled.cluster.candidates := by
      rw [candidates_pendantFiled]
      trivial
    exact ⟨m, table, htable, hm⟩
  have hclosure := superstep_reach_closure (pendantPromise 0)
    (show ({ workers := 2 } : Config).workers ≤ 2 ^ 32 by decide) Turn.roundRobin
    filed_pendantFiled (by decide) rfl rfl fun v _ => hstored v
  have hreset : (Check.superstep ⟨pendant 0, { workers := 2 }, Turn.roundRobin⟩ .reset
      pendantFiled).1 = .ok () := by decide +kernel
  have hreach : (Check.superstep ⟨pendant 0, { workers := 2 }, Turn.roundRobin⟩ .reach
      (Check.superstep ⟨pendant 0, { workers := 2 }, Turn.roundRobin⟩ .reset pendantFiled).2).1 =
      .ok () := by decide +kernel
  obtain ⟨hsize, -, -, hpass⟩ := hclosure.2 300 _ (Prod.ext hreset rfl)
  obtain ⟨-, -, hend⟩ := hpass _ _ _ (Prod.ext hreach rfl) nofun
  refine ⟨_, _, Prod.ext hreset rfl, Prod.ext hreach rfl, by decide +kernel, by decide +kernel, ?_,
    (hend rfl).1⟩
  rw [← hsize]
  decide +kernel

/-! ## 5. Elimination -/

/-- **Elimination computes the cyclic core.**  Let the candidates `S` be a closed set with the right
counts, and `S'` what is reached from a cycle through `S`.  An elimination pass that does not run
out of turns ends well; the candidates are then the states of `S'`, again closed and with the right
counts, the others were expanded once each and no other state was, and the accepting ones among
them were counted.  In a fair order of turns it does not run out of them. -/
theorem superstep_eliminate_core {g : Graph N σ} (p : g.Promise) {config : Config}
    (hworkers : config.workers ≤ 2 ^ 32) (turns : Nat → Turn) {r : Run N σ}
    (hr : r.cluster.Filed p config.peers) {S S' : Set N} (hS : r.cluster.candidates = S)
    (hS' : S' = {v ∈ S | ∃ y ∈ S, p.OnCycle config.reduction y ∧ p.Reaches config.reduction y v})
    (hclosed : ∀ u ∈ S, ∀ v, p.Edge config.reduction u v → v ∈ S)
    (hcounts : ∀ v ∈ S, ∀ m, r.cluster.Marks v m →
      m.fields.predecessors = p.edgesInto config.reduction S v) :
    (Turn.Fair config.peers turns → ∃ enough, ∀ left, enough ≤ left →
      (Check.superstep ⟨g, config, turns⟩ .eliminate { r with left := left }).1 = .ok ()) ∧
    ∀ left result r',
      Check.superstep ⟨g, config, turns⟩ .eliminate { r with left := left } = (result, r') →
      result ≠ .error .outOfTurns →
      result = .ok () ∧
      r'.cluster.candidates = S' ∧
      (∀ u ∈ S', ∀ v, p.Edge config.reduction u v → v ∈ S') ∧
      (∀ v ∈ S, ∀ m, r'.cluster.Marks v m →
        m.fields.predecessors = p.edgesInto config.reduction S' v) ∧
      (∀ v ∈ S \ S', (Check.expanded ⟨g, config, turns⟩ .eliminate
        { r with left := left }).count v = 1) ∧
      (∀ v ∉ S \ S', (Check.expanded ⟨g, config, turns⟩ .eliminate
        { r with left := left }).count v = 0) ∧
      r'.ledger.states = S.ncard - S'.ncard ∧
      r'.ledger.size = {v ∈ S \ S' | ∃ m, r.cluster.Marks v m ∧ m.inF = true}.ncard ∧
      r'.cluster.Filed p config.peers ∧ r'.cluster.stored = r.cluster.stored ∧
      ∀ v m', r'.cluster.Marks v m' → ∃ m, r.cluster.Marks v m ∧ m'.Agrees m ∧
        m'.fields.iteration = m.fields.iteration := by
  let t := hr.terrain hworkers
  let T : Nat → Table N := fun i => (r.cluster.desks i).table
  have hplan : (⟨g, config, turns⟩ : Plan N σ).Covers t := ⟨rfl, rfl, rfl⟩
  have hrests : r.cluster.Rests t r.cluster.desks r.cluster.cursors := hr.rests hworkers
  have hT : t.Stocked T := hr.stocked hworkers
  obtain rfl : S = (t.candidates T : Set N) := hS.symm.trans (hrests.coe_candidates hT)
  have hcounted : t.Counted (t.candidates T) T := by
    refine ⟨⟨Terrain.candidates_subset, fun hu hedge => hclosed _ hu _ hedge⟩, rfl,
      fun {v} hv => ?_⟩
    obtain ⟨m, hm, hfields⟩ := hT.exists_mark (Terrain.candidates_subset hv)
    rw [hfields, hcounts v hv m ((hrests.marks_iff hT).mpr hm), Terrain.inflow_eq_edgesInto]
    rfl
  obtain rfl : S' = (t.core (t.candidates T) : Set N) := hS'.trans hcounted.closed.coe_core.symm
  refine ⟨fun hfair => ?_, fun left result r' hstep hturns => ?_⟩
  · have hmeets := meets_superstep_eliminate hplan hrests hT hcounted
    obtain ⟨enough, henough⟩ := hmeets.exists_enough hfair
    refine ⟨enough, fun left hleft => ?_⟩
    obtain ⟨⟨⟩, hok, -⟩ := (hmeets.answers left).exists_ok (henough left hleft)
    exact hok
  have hanswers := answers_superstep_eliminate hplan hrests hT hcounted left
  rw [hstep] at hanswers
  obtain ⟨⟨⟩, hok, ⟨hsize, hstates, T', hresumes, hpruned⟩, hexpanded⟩ := hanswers.exists_ok hturns
  obtain ⟨hfiled, hstored, -⟩ := hresumes.unchanged hrests hT
  obtain ⟨desk', hrests', rfl⟩ := hresumes.rests
  have hT' := hresumes.kept.toStocked
  refine ⟨hok, ?_, ?_, ?_, ?_, ?_, ?_, ?_, hfiled, hstored, ?_⟩
  · rw [hrests'.coe_candidates hT', hpruned.candidates]
  · intro u hu v hedge
    exact hcounted.closed.core.mem_of_edge hu hedge
  · intro v hv m hm
    rw [← hrests'.fieldsOf_eq hT' hm, hpruned.predecessors hv, Terrain.inflow_eq_edgesInto]
    rfl
  · intro v hv
    rw [hexpanded]
    refine Multiset.count_eq_one_of_mem (Finset.nodup _) ?_
    exact Finset.mem_val.mpr (Finset.mem_coe.mp (by rwa [Finset.coe_sdiff]))
  · intro v hv
    rw [hexpanded]
    refine Multiset.count_eq_zero_of_notMem fun hin => hv ?_
    rw [← Finset.coe_sdiff]
    exact Finset.mem_val.mp hin
  · rw [Set.ncard_coe_finset, Set.ncard_coe_finset]
    exact Nat.eq_sub_of_add_eq hstates
  · rw [← Finset.coe_sdiff, hrests.flagged_eq hT ((Finset.sdiff_subset).trans
      Terrain.candidates_subset), Set.ncard_coe_finset]
    have hcard := Terrain.card_flagged_sdiff (t := t) (T := T) hcounted.closed.core_subset
    exact Nat.add_right_cancel (hsize.trans hcard.symm)
  · intro v m' hm'
    obtain ⟨m, hm, hagree⟩ := hresumes.kept.marks ((hrests'.marks_iff hT').mp hm')
    refine ⟨m, (hrests.marks_iff hT).mpr hm, hagree, ?_⟩
    rw [← hrests'.fieldsOf_eq hT' hm', hpruned.stamps, Terrain.fieldsOf_eq hm]

/-- From these tables an elimination pass takes out the state in front of the cycle. -/
theorem superstep_eliminate_core_pendant :
    ∃ r', Check.superstep ⟨pendant 0, { workers := 2 }, Turn.roundRobin⟩ .eliminate pendantFiled =
        (.ok (), r') ∧
      r'.ledger.states = 1 ∧ r'.ledger.size = 1 ∧
      r'.cluster.candidates =
        {v ∈ Set.univ | ∃ y ∈ Set.univ, (pendantPromise 0).OnCycle false y ∧
          (pendantPromise 0).Reaches false y v} := by
  have hcounts : ∀ table ∈ pendantFiled.cluster.tables, ∀ e ∈ table.entries,
      e.2.fields.predecessors = ∑ u, ((pendantPromise 0).targets false u).count e.1 := by
    decide +kernel
  have hcore := superstep_eliminate_core (pendantPromise 0)
    (show ({ workers := 2 } : Config).workers ≤ 2 ^ 32 by decide) Turn.roundRobin
    filed_pendantFiled candidates_pendantFiled rfl
    (fun _ _ _ _ => trivial) fun v _ m hm => by
      obtain ⟨table, htable, hentry⟩ := hm
      rw [hcounts table htable (v, m) hentry, Graph.Promise.edgesInto, finsum_mem_univ,
        finsum_eq_sum_of_fintype]
  have heliminate : (Check.superstep ⟨pendant 0, { workers := 2 }, Turn.roundRobin⟩ .eliminate
      pendantFiled).1 = .ok () := by decide +kernel
  obtain ⟨-, hcandidates, -⟩ := hcore.2 300 _ _ (Prod.ext heliminate rfl) nofun
  exact ⟨_, Prod.ext heliminate rfl, by decide +kernel, by decide +kernel, hcandidates⟩

end Passes

end FairCycle
