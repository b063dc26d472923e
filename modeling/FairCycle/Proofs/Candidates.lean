/-
# The candidate set

After a complete exploration every reachable state is stored, and the passes of a round only change
the packed fields of the marks: whether a state is a candidate, the count of its predecessors and
its stamp.  This module reads these fields off the tables (`Terrain.fieldsOf`), counts the edges
from a set of states into a state (`Terrain.inflow`), and counts those that are still to be handled
(`Terrain.inbound`).

`Terrain.Kept` says that tables are others as the passes of a round leave them, and `Terrain.Known`
is what holds after the exploration and is kept by all rounds.
-/
import FairCycle.Proofs.Climb
import FairCycle.Proofs.Marks
import FairCycle.Proofs.Superstep

namespace FairCycle

variable {N σ : Type} [Ord N]

namespace Terrain

variable (t : Terrain N σ)

/-! ## 1. Fields -/

/-- The packed fields of a state. -/
def fieldsOf (T : Nat → Table N) (v : N) : Mark.Fields := ((t.markOf T v).getD {}).fields

/-- The candidates. -/
noncomputable def candidates (T : Nat → Table N) : Finset N :=
  t.states.filter fun v => (t.fieldsOf T v).inS

variable {t} {T T' : Nat → Table N} {u v : N} {m : Mark}

theorem fieldsOf_eq (h : t.markOf T v = some m) : t.fieldsOf T v = m.fields := by
  rw [fieldsOf, h]
  rfl

theorem mem_candidates : v ∈ t.candidates T ↔ v ∈ t.states ∧ (t.fieldsOf T v).inS = true :=
  Finset.mem_filter

/-- A state without a mark is no candidate. -/
theorem exists_mark_of_candidate (hv : v ∈ t.candidates T) : ∃ m, t.markOf T v = some m := by
  have hin := (mem_candidates.mp hv).2
  cases hmark : t.markOf T v with
  | none =>
    rw [fieldsOf, hmark] at hin
    exact absurd hin (by decide)
  | some m => exact ⟨m, rfl⟩

theorem Writes.fieldsOf_self (hw : t.Writes T v m T') : t.fieldsOf T' v = m.fields :=
  fieldsOf_eq hw.mark_self

theorem Writes.fieldsOf_ne (hw : t.Writes T v m T') (hne : u ≠ v) :
    t.fieldsOf T' u = t.fieldsOf T u := by
  rw [fieldsOf, fieldsOf, hw.mark_ne u hne]

/-- Writing a mark with the same membership leaves the candidates. -/
theorem Writes.candidates_of_eq (hw : t.Writes T v m T')
    (hm : m.fields.inS = (t.fieldsOf T v).inS) : t.candidates T' = t.candidates T := by
  refine Finset.filter_congr fun u _ => ?_
  rcases eq_or_ne u v with rfl | hne
  · rw [hw.fieldsOf_self, hm]
  · rw [hw.fieldsOf_ne hne]

theorem Writes.candidates_insert [DecidableEq N] (hw : t.Writes T v m T')
    (hm : m.fields.inS = true) : t.candidates T' = insert v (t.candidates T) := by
  ext u
  rw [Finset.mem_insert, mem_candidates, mem_candidates]
  rcases eq_or_ne u v with rfl | hne
  · simp [hw.mem, hw.fieldsOf_self, hm]
  · simp [hne, hw.fieldsOf_ne hne]

theorem Writes.candidates_erase [DecidableEq N] (hw : t.Writes T v m T')
    (hm : m.fields.inS = false) : t.candidates T' = (t.candidates T).erase v := by
  ext u
  rw [Finset.mem_erase, mem_candidates, mem_candidates]
  rcases eq_or_ne u v with rfl | hne
  · simp [hw.fieldsOf_self, hm]
  · simp [hne, hw.fieldsOf_ne hne]

/-! ## 2. What no round changes -/

/-- The tables hold all states. -/
structure Stocked (t : Terrain N σ) (T : Nat → Table N) : Prop where
  parted : t.Parted T
  all : t.held T = t.states

/-- The tables hold all states, under the handles that they have in `T₀`, and with the parents,
ancestors and acceptance that they have there. -/
structure Kept (t : Terrain N σ) (T₀ T : Nat → Table N) : Prop extends t.Stocked T where
  handles : ∀ v, t.handleOf T v = t.handleOf T₀ v
  marks : ∀ {v m}, t.markOf T v = some m → ∃ m₀, t.markOf T₀ v = some m₀ ∧ m.Agrees m₀

/-- All states are stored under the handles given, it is known which are accepting, and their
parents lead back to the initial state. -/
structure Known (t : Terrain N σ) (name : N → Option Handle) (T : Nat → Table N) : Prop
    extends t.Stocked T where
  names : ∀ v, t.handleOf T v = name v
  accepting : ∀ {v}, v ∈ t.states → (t.fieldsOf T v).inF = t.accepting v
  climbs : ∀ {v}, v ∈ t.states → ∃ path, Climbs t (fun _ => True) T t.graph.initial path v

namespace Stocked

theorem exists_mark (hT : t.Stocked T) (hv : v ∈ t.states) :
    ∃ m, t.markOf T v = some m ∧ t.fieldsOf T v = m.fields := by
  rw [← hT.all, hT.parted.mem_held] at hv
  obtain ⟨m, hm⟩ := Option.isSome_iff_exists.mp hv
  exact ⟨m, hm, fieldsOf_eq hm⟩

theorem exists_handle (hT : t.Stocked T) (hv : v ∈ t.states) :
    ∃ h, t.handleOf T v = some h := by
  obtain ⟨m, hm, -⟩ := hT.exists_mark hv
  exact exists_handleOf hm

theorem fieldsOf_of_notMem (hT : t.Stocked T) (hv : v ∉ t.states) :
    t.fieldsOf T v = ⟨0, 0, false, false⟩ := by
  rw [← hT.all, hT.parted.mem_held, Option.not_isSome_iff_eq_none] at hv
  rw [fieldsOf, hv]
  exact Mark.fields_blank

theorem kept (hT : t.Stocked T) : t.Kept T T :=
  { hT with handles := fun _ => rfl, marks := fun {_ m} hm => ⟨m, hm, .refl m⟩ }

end Stocked

theorem markOf_mapMarks {f : Mark → Mark} (hT' : ∀ i < t.peers, T' i = (T i).mapMarks f) (v : N) :
    t.markOf T' v = (t.markOf T v).map f := by
  rw [markOf, markOf, hT' _ (t.home_lt v), Table.markOf_mapMarks]

namespace Kept

variable {T₀ : Nat → Table N}

theorem inF_eq (hT : t.Kept T₀ T) (hv : v ∈ t.states) :
    (t.fieldsOf T v).inF = (t.fieldsOf T₀ v).inF := by
  obtain ⟨m, hm, hfields⟩ := hT.exists_mark hv
  obtain ⟨m₀, hm₀, hagree⟩ := hT.marks hm
  rw [hfields, fieldsOf_eq hm₀, hagree.inF]

/-- Writing the fields of a state, but not its parent, keeps what is to be kept. -/
theorem write (hT : t.Kept T₀ T) (hw : t.Writes T v m T') {m₀ : Mark}
    (hm₀ : t.markOf T v = some m₀) (hagree : m.Agrees m₀) : t.Kept T₀ T' where
  parted := hw.parted
  all := by rw [hw.held_of_known (by rw [hm₀]; rfl), hT.all]
  handles u := by
    rw [← hT.handles u]
    rcases eq_or_ne u v with rfl | hne
    · obtain ⟨h, hh⟩ := exists_handleOf hm₀
      rw [hh, hw.handle hh]
    · rw [hw.handle_ne hne]
  marks {u m'} hm' := by
    rcases hw.mark_cases hm' with ⟨rfl, rfl⟩ | ⟨-, hm'⟩
    · obtain ⟨m₁, hm₁, hagree₁⟩ := hT.marks hm₀
      exact ⟨m₁, hm₁, hagree.trans hagree₁⟩
    · exact hT.marks hm'

/-- Changing the fields of all states, but no parent, keeps what is to be kept. -/
theorem mapMarks (hT : t.Kept T₀ T) {f : Mark → Mark}
    (hT' : ∀ i < t.peers, T' i = (T i).mapMarks f) (hf : ∀ m, (f m).Agrees m) : t.Kept T₀ T' := by
  have hmark : ∀ v, t.markOf T' v = (t.markOf T v).map f := markOf_mapMarks hT'
  have hheld : t.held T' = t.held T :=
    Finset.filter_congr fun v _ => by rw [hmark, Option.isSome_map]
  refine
    { parted := ⟨fun i hi => ?_, fun i hi => ?_, fun i hi v hv => ?_⟩
      all := hheld.trans hT.all
      handles := fun v => ?_
      marks := fun {v m} hm => ?_ }
  · rw [hT' i hi]
    exact hT.parted.worker i hi
  · rw [hT' i hi]
    exact hT.parted.peers i hi
  · rw [hT' i hi, Table.markOf_mapMarks, Option.isSome_map] at hv
    exact hT.parted.stored i hi hv
  · rw [← hT.handles v, handleOf, handleOf, hT' _ (t.home_lt v), Table.find?_mapMarks]
  · rw [hmark, Option.map_eq_some_iff] at hm
    obtain ⟨m₁, hm₁, rfl⟩ := hm
    obtain ⟨m₀, hm₀, hagree⟩ := hT.marks hm₁
    exact ⟨m₀, hm₀, (hf m₁).trans hagree⟩

end Kept

namespace Known

variable {name : N → Option Handle}

theorem exists_name (hT : t.Known name T) (hv : v ∈ t.states) : ∃ h, name v = some h := by
  obtain ⟨h, hh⟩ := hT.exists_handle hv
  exact ⟨h, (hT.names v).symm.trans hh⟩

/-- A handle names one state. -/
theorem name_inj (hT : t.Known name T) {h : Handle} (hu : name u = some h) (hv : name v = some h) :
    u = v :=
  hT.parted.handle_inj ((hT.names u).trans hu) ((hT.names v).trans hv)

/-- **What is known stays known** as long as it is kept. -/
theorem of_kept (hT : t.Known name T) (hkept : t.Kept T T') : t.Known name T' :=
  { hkept with
    names := fun v => (hkept.handles v).trans (hT.names v)
    accepting := fun hv => (hkept.inF_eq hv).trans (hT.accepting hv)
    climbs := fun {v} hv => by
      obtain ⟨path, hpath⟩ := hT.climbs hv
      refine ⟨path, hpath.transfer (fun {x m} hm _ => ?_) fun {x h} hh =>
        (hkept.handles x).trans hh⟩
      obtain ⟨m', hm', -⟩ := hkept.exists_mark (hT.parted.mem_states hm)
      obtain ⟨m₀, hm₀, hagree⟩ := hkept.marks hm'
      obtain rfl := Option.some.inj (hm₀.symm.trans hm)
      exact ⟨m', hm', trivial, .inr hagree.parent⟩ }

end Known

end Terrain

/-! ## 3. Edges into a state -/

namespace Terrain

variable [DecidableEq N] {t : Terrain N σ} {X Y : Finset N} {u v : N}

/-- The number of edges from a set of states into a state, parallel ones counted each. -/
def inflow (t : Terrain N σ) (sources : Finset N) (v : N) : Nat :=
  ∑ u ∈ sources, (t.targets u).count v

omit [Ord N]

theorem inflow_insert (hu : u ∉ X) (v : N) :
    t.inflow (insert u X) v = t.inflow X v + (t.targets u).count v := by
  rw [inflow, Finset.sum_insert hu, Nat.add_comm]
  rfl

theorem inflow_erase (hu : u ∈ X) (v : N) :
    t.inflow (X.erase u) v + (t.targets u).count v = t.inflow X v :=
  Finset.sum_erase_add X (fun u => (t.targets u).count v) hu

theorem inflow_mono (h : X ⊆ Y) (v : N) : t.inflow X v ≤ t.inflow Y v :=
  Finset.sum_le_sum_of_subset h

/-- Some edge into a state is counted exactly when there is one. -/
theorem inflow_pos : 0 < t.inflow X v ↔ ∃ u ∈ X, t.Edge u v := by
  rw [inflow, Nat.pos_iff_ne_zero, Ne, Finset.sum_eq_zero_iff]
  constructor
  · intro h
    by_contra hnone
    exact h fun u hu => List.count_eq_zero.mpr fun hmem => hnone ⟨u, hu, hmem⟩
  · rintro ⟨u, hu, hedge⟩ h
    exact List.count_eq_zero.mp (h u hu) hedge

end Terrain

section Pending

variable [DecidableEq N] {u v : N} {h : Handle}

/-- An edge that comes from somewhere leads into `v`. -/
def Edge.Into (v : N) (e : Edge N) : Prop := e.source.isSome = true ∧ e.target = v

instance (v : N) : DecidablePred (Edge.Into v) := fun _ => inferInstanceAs (Decidable (_ ∧ _))

/-- The number of edges into a state that are still to be handled. -/
def inbound (pending : Multiset (Edge N)) (v : N) : Nat := pending.countP (Edge.Into v)

/-- The number of seeds at a state that are still to be handled. -/
def seedsAt (pending : Multiset (Edge N)) (v : N) : Nat :=
  pending.countP fun e => e.source = none ∧ e.target = v

omit [Ord N]

variable {rest : Multiset (Edge N)}

@[simp] theorem inbound_cons_seed (v u : N) :
    inbound (⟨none, u⟩ ::ₘ rest) v = inbound rest v :=
  Multiset.countP_cons_of_neg _ nofun

theorem inbound_cons_self (h : Handle) (v : N) :
    inbound (⟨some h, v⟩ ::ₘ rest) v = inbound rest v + 1 :=
  Multiset.countP_cons_of_pos _ ⟨rfl, rfl⟩

theorem inbound_cons_ne (h : Handle) (hne : u ≠ v) :
    inbound (⟨some h, v⟩ ::ₘ rest) u = inbound rest u :=
  Multiset.countP_cons_of_neg _ fun hin => hne hin.2.symm

/-- Expanding a state sends edges to its successors. -/
theorem inbound_add_from (h : Handle) (targets : List N) (v : N) :
    inbound (rest + (Edge.from h targets : Multiset (Edge N))) v =
      inbound rest v + targets.count v := by
  rw [inbound, inbound, Multiset.countP_add, Multiset.coe_countP, Edge.from, List.countP_map,
    List.count, List.countP_congr fun u _ => ?_]
  simp [Edge.Into]

@[simp] theorem seedsAt_cons_some (h : Handle) (u v : N) :
    seedsAt (⟨some h, u⟩ ::ₘ rest) v = seedsAt rest v :=
  Multiset.countP_cons_of_neg _ nofun

theorem seedsAt_cons_self (v : N) : seedsAt (⟨none, v⟩ ::ₘ rest) v = seedsAt rest v + 1 :=
  Multiset.countP_cons_of_pos _ ⟨rfl, rfl⟩

theorem seedsAt_cons_ne (hne : u ≠ v) : seedsAt (⟨none, v⟩ ::ₘ rest) u = seedsAt rest u :=
  Multiset.countP_cons_of_neg _ fun hin => hne hin.2.symm

@[simp] theorem seedsAt_add_from (h : Handle) (targets : List N) (v : N) :
    seedsAt (rest + (Edge.from h targets : Multiset (Edge N))) v = seedsAt rest v := by
  rw [seedsAt, seedsAt, Multiset.countP_add, Multiset.coe_countP, Edge.from, List.countP_map,
    List.countP_eq_zero.mpr fun u _ => ?_, Nat.add_zero]
  simp

theorem inbound_le_cons (e : Edge N) (rest : Multiset (Edge N)) (v : N) :
    inbound rest v ≤ inbound (e ::ₘ rest) v :=
  Multiset.countP_le_of_le _ (Multiset.le_cons_self rest e)

theorem seedsAt_le_cons (e : Edge N) (rest : Multiset (Edge N)) (v : N) :
    seedsAt rest v ≤ seedsAt (e ::ₘ rest) v :=
  Multiset.countP_le_of_le _ (Multiset.le_cons_self rest e)

@[simp] theorem inbound_zero (v : N) : inbound (0 : Multiset (Edge N)) v = 0 := rfl

end Pending

/-! ## 4. Seeds by their marks -/

theorem Table.mem_filter_entries {T : Table N} {p : Mark → Bool} {v : N} :
    v ∈ (T.entries.filter (p ·.2)).map Prod.fst ↔ (T.markOf v).any p = true := by
  rw [List.mem_map, Option.any_eq_true]
  constructor
  · rintro ⟨⟨u, m⟩, hmem, rfl⟩
    rw [List.mem_filter, Table.mem_entries] at hmem
    exact ⟨m, hmem⟩
  · rintro ⟨m, hm, hp⟩
    exact ⟨(v, m), List.mem_filter.mpr ⟨Table.mem_entries.mpr hm, hp⟩, rfl⟩

theorem Table.nodup_filter_entries (T : Table N) (p : Mark → Bool) :
    ((T.entries.filter (p ·.2)).map Prod.fst).Nodup := by
  have hsub := (List.filter_sublist (p := (p ·.2)) (l := T.entries)).map Prod.fst
  rw [T.map_fst_entries] at hsub
  exact T.nodup_nodes.sublist hsub

namespace Terrain

variable {t : Terrain N σ} {T : Nat → Table N} {p : Mark → Bool} {v : N} {i : Nat}

/-- The states of each worker whose marks have a property. -/
def nodesWhere (t : Terrain N σ) (T : Nat → Table N) (p : Mark → Bool) (i : Nat) : List N :=
  if i < t.peers then ((T i).entries.filter (p ·.2)).map Prod.fst else []

/-- The states whose marks have a property. -/
noncomputable def statesWhere (t : Terrain N σ) (T : Nat → Table N) (p : Mark → Bool) : Finset N :=
  t.states.filter fun v => (t.markOf T v).any p

theorem mem_nodesWhere : v ∈ t.nodesWhere T p i ↔ i < t.peers ∧ ((T i).markOf v).any p = true := by
  unfold nodesWhere
  split
  · rename_i hi
    rw [Table.mem_filter_entries, and_iff_right hi]
  · rename_i hi
    exact ⟨nofun, fun h => absurd h.1 hi⟩

theorem nodup_nodesWhere : (t.nodesWhere T p i).Nodup := by
  unfold nodesWhere
  split
  · exact Table.nodup_filter_entries _ _
  · exact List.nodup_nil

theorem Parted.home_of_mem_nodesWhere (hT : t.Parted T) (hv : v ∈ t.nodesWhere T p i) :
    t.home v = i := by
  obtain ⟨hi, hany⟩ := mem_nodesWhere.mp hv
  obtain ⟨m, hm, -⟩ := (Option.any_eq_true _ _).mp hany
  exact (hT.stored i hi (by rw [hm]; rfl)).1

/-- The workers' states together are all of them, each once. -/
theorem Parted.sum_nodesWhere (hT : t.Parted T) (p : Mark → Bool) :
    ∑ i ∈ Finset.range t.peers, (t.nodesWhere T p i : Multiset N) = (t.statesWhere T p).val := by
  classical
  ext v
  rw [Multiset.count_sum', Multiset.count_eq_of_nodup (t.statesWhere T p).nodup,
    Finset.sum_eq_single_of_mem (t.home v) (Finset.mem_range.mpr (t.home_lt v))]
  · rw [Multiset.coe_count, nodup_nodesWhere.count]
    refine if_congr ?_ rfl rfl
    rw [mem_nodesWhere, Finset.mem_val, statesWhere, Finset.mem_filter,
      and_iff_right (t.home_lt v)]
    refine ⟨fun h => ⟨?_, h⟩, fun h => h.2⟩
    obtain ⟨m, hm, -⟩ := (Option.any_eq_true _ _).mp h
    exact hT.mem_states hm
  · intro i _ hne
    rw [Multiset.coe_count, List.count_eq_zero]
    exact fun hmem => hne (hT.home_of_mem_nodesWhere hmem).symm

theorem Parted.length_nodesWhere (hT : t.Parted T) (p : Mark → Bool) :
    ∑ i ∈ Finset.range t.peers, (t.nodesWhere T p i).length = (t.statesWhere T p).card := by
  have h := congrArg Multiset.card (hT.sum_nodesWhere p)
  rwa [Multiset.card_sum] at h

end Terrain

/-- A pass that starts from the states of a kind begins with a seed at each. -/
theorem Opening.pending_nodesWhere {t : Terrain N σ} {T : Nat → Table N} {p : Mark → Bool}
    {o : Opening N} (hT : t.Parted T) (ho : o.seeds = t.nodesWhere T p) :
    (o.scene t.peers).pending = (t.statesWhere T p).val.map Edge.seed := by
  change ∑ i ∈ Finset.range t.peers, Multiset.map Edge.seed (o.seeds i : Multiset N) = _
  rw [← hT.sum_nodesWhere, ho]
  exact (map_sum (Multiset.mapAddMonoidHom Edge.seed)
    (fun i => (t.nodesWhere T p i : Multiset N)) (Finset.range t.peers)).symm

section Seeds

variable [DecidableEq N] {X : Finset N} {v : N}

omit [Ord N]

theorem seedsAt_map_seed (X : Finset N) (v : N) :
    seedsAt (X.val.map Edge.seed) v = if v ∈ X then 1 else 0 := by
  have hcount : seedsAt (X.val.map Edge.seed) v = X.val.count v := by
    rw [seedsAt, Multiset.countP_map, Multiset.count, Multiset.countP_eq_card_filter]
    congr 1
    exact Multiset.filter_congr fun u _ => by simp [Edge.seed, eq_comm]
  rw [hcount, Multiset.count_eq_of_nodup X.nodup]
  rfl

theorem inbound_map_seed (X : Finset N) (v : N) : inbound (X.val.map Edge.seed) v = 0 := by
  rw [inbound, Multiset.countP_eq_zero]
  intro e he
  obtain ⟨u, -, rfl⟩ := Multiset.mem_map.mp he
  exact nofun

end Seeds

/-! ## 5. Marking a known state -/

/-- The scene after a state was marked: `pending` is to be handled then, `edges` more were
generated, `opened` more states expanded and `counted` more counted. -/
structure Scene.Marked (t : Terrain N σ) (s : Scene N) (v : N) (m : Mark)
    (pending : Multiset (Edge N)) (edges opened counted : Nat) (s' : Scene N) : Prop where
  writes : t.Writes s.tables v m s'.tables
  pending : s'.pending = pending
  generated : s'.generated t = s.generated t + edges
  states : s'.total t (·.states) = s.total t (·.states) + opened
  size : s'.total t (·.size) = s.total t (·.size) + counted
  share : ∀ i, (s'.desk i).ledger.share = (s.desk i).ledger.share
  halted : s'.halted = s.halted
  fault : s'.fault = s.fault

section Marked

variable {t : Terrain N σ} {s : Scene N} {v : N} {m : Mark} {d : Desk N}

/-- Handling an edge to a known state marks it. -/
theorem Scene.marked_handled {p : Progress N} (hT : t.Parted s.tables) (hv : v ∈ t.states)
    (hput : (s.desk (t.home v)).table.Puts v m d.table)
    (hshare : d.ledger.share = (s.desk (t.home v)).ledger.share)
    (hedges : d.ledger.transitions =
      (s.desk (t.home v)).ledger.transitions + (newEdges (.ok p)).length) (opened counted : Nat)
    (hopened : d.ledger.states = (s.desk (t.home v)).ledger.states + opened)
    (hcounted : d.ledger.size = (s.desk (t.home v)).ledger.size + counted)
    (hp : halts (.ok p) = false) (rest : Multiset (Edge N)) :
    s.Marked t v m (rest + newEdges (.ok p)) (newEdges (.ok p)).length opened counted
      (s.handled (t.home v) rest (.ok p) d) := by
  refine
    { writes := ?_, pending := rfl, generated := ?_, states := ?_, size := ?_, share := fun i => ?_
      halted := halted_handled hp, fault := fault_handled p }
  · rw [tables_handled]
    exact hT.writes hv hput
  · obtain ⟨others, h, h'⟩ :=
      exists_total_handled s rest (.ok p) d (·.transitions) (t.home_lt v)
    rw [generated, generated, h, h', hedges]
    omega
  · obtain ⟨others, h, h'⟩ := exists_total_handled s rest (.ok p) d (·.states) (t.home_lt v)
    rw [h, h', hopened]
    omega
  · obtain ⟨others, h, h'⟩ := exists_total_handled s rest (.ok p) d (·.size) (t.home_lt v)
    rw [h, h', hcounted]
    omega
  · rcases eq_or_ne i (t.home v) with rfl | hne
    · rw [desk_handled_self, hshare]
    · rw [desk_handled_ne hne]

/-- An edge that is only looked at. -/
theorem Scene.marked_next (hT : t.Parted s.tables) (hv : v ∈ t.states)
    (hput : (s.desk (t.home v)).table.Puts v m d.table)
    (hl : d.ledger = (s.desk (t.home v)).ledger) (rest : Multiset (Edge N)) :
    s.Marked t v m rest 0 0 0 (s.handled (t.home v) rest (.ok .next) d) := by
  have h := marked_handled (p := .next) hT hv hput (by rw [hl]) (by rw [hl]; rfl) 0 0
    (by rw [hl, Nat.add_zero]) (by rw [hl, Nat.add_zero]) rfl rest
  rwa [show newEdges (.ok .next : Except Stop (Progress N)) = [] from rfl, Multiset.coe_nil,
    add_zero] at h

/-- An edge whose target is expanded. -/
theorem Scene.marked_expand (hT : t.Parted s.tables) (hv : v ∈ t.states)
    (hput : (s.desk (t.home v)).table.Puts v m d.table) {l : Ledger N}
    (hshare : l.share = (s.desk (t.home v)).ledger.share)
    (htrans : l.transitions = (s.desk (t.home v)).ledger.transitions)
    (hopened : l.states = (s.desk (t.home v)).ledger.states) (counted : Nat)
    (hcounted : l.size = (s.desk (t.home v)).ledger.size + counted)
    (hl : d.ledger = l.expanded (t.targets v).length) (h : Handle) (rest : Multiset (Edge N)) :
    s.Marked t v m (rest + (Edge.from h (t.targets v) : Multiset (Edge N))) (t.targets v).length
      1 counted (s.handled (t.home v) rest (.ok (.expand h (t.targets v))) d) := by
  have hmark := marked_handled (p := .expand h (t.targets v)) hT hv hput
    (by rw [hl]; exact hshare) (by rw [hl, length_newEdges, ← htrans]; rfl) 1 counted
    (by rw [hl, ← hopened]; rfl) (by rw [hl, ← hcounted]; rfl) rfl rest
  rwa [length_newEdges] at hmark

end Marked

end FairCycle
