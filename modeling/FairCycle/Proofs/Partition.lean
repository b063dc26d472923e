/-
# The tables together

Every state belongs to one worker, its home, and only the home's table holds it.  So the tables of
all workers together are one function from states to handles and marks (`Terrain.handleOf`,
`Terrain.markOf`).  `Terrain.Parted` says that the states are where they belong, from which it
follows that a handle names one state among all workers.

Handling an edge writes the mark of its target and nothing else (`Terrain.Writes`).
-/
import Mathlib.Algebra.BigOperators.Group.Finset.Basic
import FairCycle.Proofs.Scene

namespace FairCycle

variable {N σ : Type} [Ord N]

namespace Terrain

/-! ## 1. States where they belong -/

section Parted

variable (t : Terrain N σ) (T : Nat → Table N)

/-- The mark of a state, if it is stored. -/
def markOf (node : N) : Option Mark := (T (t.home node)).markOf node

/-- The handle of a state, if it is stored. -/
def handleOf (node : N) : Option Handle := (T (t.home node)).find? node

/-- Every worker has its own table, and every state stored is one of the states, in the table of its
home. -/
structure Parted : Prop where
  worker : ∀ i < t.peers, (T i).worker = i
  peers : ∀ i < t.peers, (T i).peers = t.peers
  stored : ∀ i < t.peers, ∀ {node}, ((T i).markOf node).isSome →
    t.home node = i ∧ node ∈ t.states

/-- The states that are stored. -/
noncomputable def held : Finset N := t.states.filter fun node => (t.markOf T node).isSome

end Parted

variable {t : Terrain N σ} {T : Nat → Table N} {u v : N} {h : Handle}

namespace Parted

theorem mem_held (hT : t.Parted T) : v ∈ t.held T ↔ (t.markOf T v).isSome := by
  rw [held, Finset.mem_filter, and_iff_right_iff_imp]
  exact fun hv => (hT.stored _ (t.home_lt v) hv).2

theorem mem_states (hT : t.Parted T) {m : Mark} (h : t.markOf T v = some m) : v ∈ t.states :=
  (hT.stored _ (t.home_lt v) (by rw [markOf] at h; rw [h]; rfl)).2

/-- A table holds no more states than its worker has. -/
theorem size_le (hT : t.Parted T) {i : Nat} (hi : i < t.peers) :
    (T i).size ≤ (t.states.filter fun node => t.home node = i).card := by
  classical
  have hcard : (T i).nodes.toList.toFinset.card = (T i).size := by
    rw [List.toFinset_card_of_nodup (T i).nodup_nodes]
    exact Array.length_toList
  rw [← hcard]
  refine Finset.card_le_card fun node hn => ?_
  rw [List.mem_toFinset, Table.mem_nodes] at hn
  obtain ⟨hhome, hstates⟩ := hT.stored i hi hn
  exact Finset.mem_filter.mpr ⟨hstates, hhome⟩

theorem fits (hT : t.Parted T) {i : Nat} (hi : i < t.peers) : (T i).Fits where
  worker := by rw [hT.worker i hi]; exact Nat.lt_of_lt_of_le hi t.peers_le
  size := (hT.size_le hi).trans (t.few i)

/-- A handle says at whose table its state is. -/
theorem handle_worker (hT : t.Parted T) (hv : t.handleOf T v = some h) :
    h.worker.toNat = t.home v := by
  obtain ⟨slot, -, rfl⟩ := Table.find?_eq_some_iff.mp hv
  rw [(hT.fits (t.home_lt v)).handle_worker, hT.worker _ (t.home_lt v)]

/-- **A handle names one state.** -/
theorem handle_inj (hT : t.Parted T) (hu : t.handleOf T u = some h)
    (hv : t.handleOf T v = some h) : u = v := by
  have hhome : t.home u = t.home v := (hT.handle_worker hu).symm.trans (hT.handle_worker hv)
  rw [handleOf, hhome] at hu
  exact (hT.fits (t.home_lt v)).find?_inj hu hv

/-- A state that is stored has a slot, and its handle has a rank. -/
theorem slot_lt (hT : t.Parted T) (hv : t.handleOf T v = some h) :
    h.slot.toNat < (T (t.home v)).size := by
  obtain ⟨slot, hslot, rfl⟩ := Table.find?_eq_some_iff.mp hv
  rw [(hT.fits (t.home_lt v)).handle_slot (Table.slot_lt hslot)]
  exact Table.slot_lt hslot

theorem owns (hT : t.Parted T) (v : N) :
    (T (t.home v)).owns (t.promise.hash v) = true := by
  rw [Table.owns, hT.peers _ (t.home_lt v), hT.worker _ (t.home_lt v)]
  exact beq_self_eq_true _

theorem node?_eq (hT : t.Parted T) (hv : t.handleOf T v = some h) :
    (T (t.home v)).node? h = some v :=
  (hT.fits (t.home_lt v)).node?_eq_some hv

theorem mark?_eq (hT : t.Parted T) (hv : t.handleOf T v = some h) :
    (T (t.home v)).mark? h = t.markOf T v :=
  (hT.fits (t.home_lt v)).mark?_eq hv

end Parted

theorem isSome_handleOf (node : N) :
    (t.handleOf T node).isSome = (t.markOf T node).isSome :=
  (Table.isSome_markOf _ _).symm

theorem handleOf_eq_none_iff : t.handleOf T v = none ↔ t.markOf T v = none :=
  Table.markOf_eq_none_iff.symm

theorem exists_handleOf {m : Mark} (hv : t.markOf T v = some m) : ∃ h, t.handleOf T v = some h :=
  Table.exists_handle hv

theorem exists_markOf (hv : t.handleOf T v = some h) : ∃ m, t.markOf T v = some m :=
  Table.exists_mark hv

theorem handleOf_update {table : Table N} (hv : table.find? v = some h) :
    t.handleOf (Function.update T (t.home v) table) v = some h := by
  rw [handleOf, Function.update_self, hv]

/-! ## 2. Writing a mark -/

/-- `T'` is `T` with the mark of `v` written, and `v` stored before that if it was new. -/
structure Writes (t : Terrain N σ) (T : Nat → Table N) (v : N) (m : Mark) (T' : Nat → Table N) :
    Prop where
  mem : v ∈ t.states
  parted : t.Parted T'
  mark_self : t.markOf T' v = some m
  mark_ne : ∀ node, node ≠ v → t.markOf T' node = t.markOf T node
  handle : ∀ {node h}, t.handleOf T node = some h → t.handleOf T' node = some h

/-- Writing a mark in the table of a state's home. -/
theorem Parted.writes (hT : t.Parted T) (hv : v ∈ t.states) {m : Mark} {table : Table N}
    (hput : (T (t.home v)).Puts v m table) :
    t.Writes T v m (Function.update T (t.home v) table) := by
  have hself : Function.update T (t.home v) table (t.home v) = table := Function.update_self ..
  have hother : ∀ {i}, i ≠ t.home v → Function.update T (t.home v) table i = T i :=
    fun hi => Function.update_of_ne hi ..
  refine ⟨hv, ⟨?_, ?_, ?_⟩, ?_, ?_, ?_⟩
  · intro i hi
    rcases eq_or_ne i (t.home v) with rfl | hne
    · rw [hself, hput.worker, hT.worker _ hi]
    · rw [hother hne, hT.worker _ hi]
  · intro i hi
    rcases eq_or_ne i (t.home v) with rfl | hne
    · rw [hself, hput.peers, hT.peers _ hi]
    · rw [hother hne, hT.peers _ hi]
  · intro i hi node hnode
    rcases eq_or_ne i (t.home v) with rfl | hne
    · rw [hself] at hnode
      rcases eq_or_ne node v with rfl | hnv
      · exact ⟨rfl, hv⟩
      · exact hT.stored _ hi (by rwa [← hput.mark_ne node hnv])
    · exact hT.stored i hi (by rwa [hother hne] at hnode)
  · rw [markOf, hself, hput.mark_self]
  · intro node hne
    rw [markOf, markOf]
    rcases eq_or_ne (t.home node) (t.home v) with heq | hhome
    · rw [heq, hself, hput.mark_ne node hne]
    · rw [hother hhome]
  · intro node h hnode
    rw [handleOf] at hnode ⊢
    rcases eq_or_ne (t.home node) (t.home v) with heq | hhome
    · rw [heq, hself]
      rw [heq] at hnode
      exact hput.find?_of_some hnode
    · rw [hother hhome]
      exact hnode

theorem Parted.fits_of_puts (hT : t.Parted T) (hv : v ∈ t.states) {m : Mark} {table : Table N}
    (hput : (T (t.home v)).Puts v m table) : table.Fits := by
  have hfits := (hT.writes hv hput).parted.fits (t.home_lt v)
  rwa [Function.update_self] at hfits

namespace Writes

variable {T' : Nat → Table N} {m : Mark}

/-- What is stored stays stored. -/
theorem isSome (hw : t.Writes T v m T') (hu : (t.markOf T u).isSome) : (t.markOf T' u).isSome := by
  rcases eq_or_ne u v with rfl | hne
  · rw [hw.mark_self]; rfl
  · rwa [hw.mark_ne u hne]

theorem handle_ne (hw : t.Writes T v m T') (hne : u ≠ v) :
    t.handleOf T' u = t.handleOf T u := by
  cases hu : t.handleOf T u with
  | some h => exact hw.handle hu
  | none =>
    rw [handleOf_eq_none_iff] at hu ⊢
    rw [hw.mark_ne u hne, hu]

/-- A mark that is found was there before, or was just written. -/
theorem mark_cases (hw : t.Writes T v m T') {k : Mark} (hu : t.markOf T' u = some k) :
    u = v ∧ k = m ∨ u ≠ v ∧ t.markOf T u = some k := by
  rcases eq_or_ne u v with rfl | hne
  · exact .inl ⟨rfl, Option.some.inj (hu.symm.trans hw.mark_self)⟩
  · exact .inr ⟨hne, (hw.mark_ne u hne).symm.trans hu⟩

theorem held_of_known (hw : t.Writes T v m T') (hv : (t.markOf T v).isSome) :
    t.held T' = t.held T := by
  refine Finset.filter_congr fun node _ => ?_
  rcases eq_or_ne node v with rfl | hne
  · rw [hw.mark_self, hv]
    rfl
  · rw [hw.mark_ne node hne]

theorem held_of_new [DecidableEq N] (hw : t.Writes T v m T') :
    t.held T' = insert v (t.held T) := by
  ext node
  rw [Finset.mem_insert, held, held, Finset.mem_filter, Finset.mem_filter]
  rcases eq_or_ne node v with rfl | hne
  · simp [hw.mem, hw.mark_self]
  · simp [hne, hw.mark_ne node hne]

end Writes

end Terrain

/-! ## 3. Storing a state at its home -/

section Store

variable [Std.TransOrd N] [Std.LawfulEqOrd N]
  {t : Terrain N σ} {T : Nat → Table N} {v : N} {h : Handle} {d : Desk N}

theorem Terrain.Parted.store_known (hT : t.Parted T) (hd : d.table = T (t.home v))
    (hv : t.handleOf T v = some h) :
    (Desk.store v (t.promise.hash v) : DeskM N (Handle × Bool)) d = (.ok (h, false), d) :=
  Desk.store_of_known (by rw [hd]; exact hT.owns v) (by rw [hd]; exact hv)

theorem Terrain.Parted.store_new (hT : t.Parted T) (hd : d.table = T (t.home v))
    (hv : t.handleOf T v = none) :
    ∃ table h, (T (t.home v)).Puts v {} table ∧ table.find? v = some h ∧
      (Desk.store v (t.promise.hash v) : DeskM N (Handle × Bool)) d =
        (.ok (h, true), { d with table := table }) := by
  have howns : d.table.owns (t.promise.hash v) = true := by rw [hd]; exact hT.owns v
  have hnone : d.table.find? v = none := by rw [hd]; exact hv
  obtain ⟨table, hput, hfind, hst⟩ := Desk.store_of_new howns hnone
  exact ⟨table, _, hd ▸ hput, hfind, hst⟩

end Store

/-! ## 4. Scenes -/

namespace Scene

/-- The tables of all workers. -/
def tables (s : Scene N) (i : Nat) : Table N := (s.desk i).table

variable {t : Terrain N σ} {s : Scene N} {i : Nat} {rest : Multiset (Edge N)}
  {r : Except Stop (Progress N)} {d : Desk N}

theorem tables_handled : (s.handled i rest r d).tables = Function.update s.tables i d.table := by
  funext j
  rcases eq_or_ne j i with rfl | hne
  · simp [tables, handled]
  · simp [tables, handled, hne]

theorem halted_handled (h : halts r = false) : (s.handled i rest r d).halted = s.halted := by
  rw [handled, h, Bool.or_false, Function.update_eq_self]

theorem halted_handled_ne {j : Nat} (h : j ≠ i) : (s.handled i rest r d).halted j = s.halted j :=
  Function.update_of_ne h ..

/-- Who has halted stays so. -/
theorem halted_of_halted {j : Nat} (h : s.halted j = true) :
    (s.handled i rest r d).halted j = true := by
  rcases eq_or_ne j i with rfl | hne
  · simp [handled, h]
  · rw [halted_handled_ne hne, h]

theorem fault_handled (p : Progress N) : (s.handled i rest (.ok p) d).fault = s.fault :=
  Function.update_eq_self i s.fault

theorem desk_handled_self : (s.handled i rest r d).desk i = d := Function.update_self ..

theorem desk_handled_ne {j : Nat} (h : j ≠ i) : (s.handled i rest r d).desk j = s.desk j :=
  Function.update_of_ne h ..

/-- An edge that is only looked at changes no desk. -/
theorem desk_handled_same : (s.handled i rest r (s.desk i)).desk = s.desk :=
  Function.update_eq_self i s.desk

theorem tables_handled_same : (s.handled i rest r (s.desk i)).tables = s.tables :=
  funext fun j => congrArg Desk.table (congrFun desk_handled_same j)

theorem total_handled_same (f : Ledger N → Nat) :
    (s.handled i rest r (s.desk i)).total t f = s.total t f :=
  Finset.sum_congr rfl fun j _ => by rw [desk_handled_same]

/-- Handling an edge changes one part of a sum over the ledgers. -/
theorem exists_total_handled (s : Scene N) (rest : Multiset (Edge N))
    (r : Except Stop (Progress N)) (d : Desk N) (f : Ledger N → Nat) (hi : i < t.peers) :
    ∃ others, s.total t f = f (s.desk i).ledger + others ∧
      (s.handled i rest r d).total t f = f d.ledger + others := by
  have hi : i ∈ Finset.range t.peers := Finset.mem_range.mpr hi
  refine ⟨∑ j ∈ (Finset.range t.peers).erase i, f (s.desk j).ledger, ?_, ?_⟩
  · exact (Finset.add_sum_erase _ _ hi).symm
  · rw [total, ← Finset.add_sum_erase _ _ hi]
    simp only [handled, Function.update_self]
    congr 1
    refine Finset.sum_congr rfl fun j hj => ?_
    rw [Function.update_of_ne (Finset.ne_of_mem_erase hj)]

theorem total_handled_of_eq {f : Ledger N → Nat} (hi : i < t.peers)
    (hf : f d.ledger = f (s.desk i).ledger) : (s.handled i rest r d).total t f = s.total t f := by
  obtain ⟨others, h, h'⟩ := exists_total_handled s rest r d f hi
  rw [h, h', hf]

end Scene

end FairCycle
