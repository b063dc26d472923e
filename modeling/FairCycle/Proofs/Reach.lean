/-
# Reset and reachability

A round first resets the candidate set to its accepting states and then takes in all that these
reach, counting for every candidate the edges that come to it from the set.  A count that would
pass its maximum is a fault, and the only one that can happen.

`Reaching` is what the handling of an edge keeps in a reachability pass.  Its ghost `X` is the set
of states that were expanded: every edge from it has been counted at its target or is still to be
handled.  The pass may start from any tables, as long as they hold all that the seeds reach
(`Terrain.Encloses`).
-/
import FairCycle.Proofs.Candidates

namespace FairCycle

open Desk StepM

variable {N σ : Type} [Ord N]

/-! ## 1. Runs between the passes of a round -/

/-- A run between two passes of the rounds: what is known, the tables, and the ledger up to its
counters. -/
structure Run.Holds (t : Terrain N σ) (name : N → Option Handle) (l : Ledger N) (least : Nat)
    (T : Nat → Table N) (r : Run N σ) : Prop where
  rests : ∃ desk, r.cluster.Rests t desk (fun _ => 0) ∧ T = fun i => (desk i).table
  known : t.Known name T
  share : r.ledger.share = l
  generated : least ≤ r.generated

/-- The run `r'` goes on from `r`, and the tables, which were `T₀` then, are `T` now. -/
structure Run.Resumes (t : Terrain N σ) (cursor : Nat → Nat) (T₀ T : Nat → Table N)
    (r r' : Run N σ) : Prop where
  rests : ∃ desk, r'.cluster.Rests t desk cursor ∧ T = fun i => (desk i).table
  kept : t.Kept T₀ T
  share : r'.ledger.share = r.ledger.share
  generated : r.generated ≤ r'.generated

theorem Run.Holds.resume {t : Terrain N σ} {name : N → Option Handle} {l : Ledger N} {least : Nat}
    {T₀ T : Nat → Table N} {r r' : Run N σ} (hr : r.Holds t name l least T₀)
    (h : r.Resumes t (fun _ => 0) T₀ T r') : r'.Holds t name l least T where
  rests := h.rests
  known := hr.known.of_kept h.kept
  share := h.share.trans hr.share
  generated := hr.generated.trans h.generated

/-- The handles in the tables of a run are those that `name` gives. -/
def Run.Names (t : Terrain N σ) (name : N → Option Handle) (r : Run N σ) : Prop :=
  ∃ desk cursor, r.cluster.Rests t desk cursor ∧ t.Parted (fun i => (desk i).table) ∧
    ∀ v, t.handleOf (fun i => (desk i).table) v = name v

namespace Terrain

variable [DecidableEq N] {t : Terrain N σ} {T : Nat → Table N} {A S : Finset N} {u v : N}

/-- The accepting candidates. -/
noncomputable def live (t : Terrain N σ) (T : Nat → Table N) : Finset N :=
  (t.candidates T).filter fun v => t.accepting v

/-- The states that can be reached from a set of states. -/
noncomputable def spread (t : Terrain N σ) (sources : Finset N) : Finset N :=
  open Classical in t.states.filter fun v => ∃ a ∈ sources, t.Reaches a v

/-- The stamp of a state if those of `A` were visited in a round and the others in the one
before. -/
def stampIn (round : UInt32) (A : Finset N) (v : N) : Nat :=
  if v ∈ A then round.toNat % 2 ^ 15 else (round - 1).toNat % 2 ^ 15

/-- Nothing is counted, and only the states of `A` are candidates and bear the stamp of the
round. -/
structure Cleared (t : Terrain N σ) (round : UInt32) (A : Finset N) (T : Nat → Table N) : Prop where
  candidates : t.candidates T = A
  predecessors : ∀ v, (t.fieldsOf T v).predecessors = 0
  stamps : ∀ {v}, v ∈ t.states → (t.fieldsOf T v).iteration = stampIn round A v

/-- The candidates are the states of `S`, for every state the edges from the set are counted, and
the states of `A` bear the stamp of the round. -/
structure Tallied (t : Terrain N σ) (round : UInt32) (A S : Finset N) (T : Nat → Table N) :
    Prop where
  candidates : t.candidates T = S
  predecessors : ∀ v, (t.fieldsOf T v).predecessors = t.inflow S v
  stamps : ∀ {v}, v ∈ t.states → (t.fieldsOf T v).iteration = stampIn round A v

/-- A fault that says that more edges lead to a state, from a set of states, than can be
counted. -/
def Overflows (t : Terrain N σ) (name : N → Option Handle) (S : Finset N) (f : Fault) : Prop :=
  ∃ v h, v ∈ t.states ∧ name v = some h ∧ f = .predecessorOverflow h maxPredecessors ∧
    32767 < t.inflow S v

/-- All that can be reached from a set of states is among the states. -/
def Encloses (t : Terrain N σ) (A : Finset N) : Prop := ∀ a ∈ A, ∀ v, t.Reaches a v → v ∈ t.states

omit [Ord N] in
theorem stampIn_eq (round : UInt32) (A : Finset N) (v : N) :
    stampIn round A v = round.toNat % 2 ^ 15 ∨ stampIn round A v = (round - 1).toNat % 2 ^ 15 := by
  rw [stampIn]
  split
  · exact .inl rfl
  · exact .inr rfl

omit [DecidableEq N]

theorem mem_live : v ∈ t.live T ↔ v ∈ t.candidates T ∧ t.accepting v = true := Finset.mem_filter

theorem live_subset : t.live T ⊆ t.candidates T := Finset.filter_subset _ _

theorem candidates_subset : t.candidates T ⊆ t.states := Finset.filter_subset _ _

omit [Ord N]

theorem mem_spread : v ∈ t.spread A ↔ v ∈ t.states ∧ ∃ a ∈ A, t.Reaches a v := by
  classical
  rw [spread, Finset.mem_filter]

theorem spread_subset : t.spread A ⊆ t.states := fun _ hv => (mem_spread.mp hv).1

theorem subset_spread (hA : A ⊆ t.states) : A ⊆ t.spread A := fun v hv =>
  mem_spread.mpr ⟨hA hv, v, hv, Relation.ReflTransGen.refl⟩

theorem Encloses.subset (hA : t.Encloses A) : A ⊆ t.states := fun a ha =>
  hA a ha a Relation.ReflTransGen.refl

theorem Encloses.mem_spread_of_edge (hA : t.Encloses A) (hu : u ∈ t.spread A) (h : t.Edge u v) :
    v ∈ t.spread A := by
  obtain ⟨-, a, ha, hreach⟩ := mem_spread.mp hu
  exact mem_spread.mpr ⟨hA a ha v (hreach.tail h), a, ha, hreach.tail h⟩

theorem encloses_of_subset [t.Rooted] (hA : A ⊆ t.states) : t.Encloses A := fun _ ha _ h =>
  mem_states_of_reaches (hA ha) h

theorem spread_mono {B : Finset N} (h : A ⊆ B) : t.spread A ⊆ t.spread B := by
  intro v hv
  obtain ⟨hstates, a, ha, hreach⟩ := mem_spread.mp hv
  exact mem_spread.mpr ⟨hstates, a, h ha, hreach⟩

end Terrain

/-! ## 2. What a reachability pass keeps -/

section Reaching

variable [DecidableEq N]

/-- What the handling of an edge keeps in a reachability pass from the states `A`; those of `X`
have been expanded. -/
structure Reaching (t : Terrain N σ) (T₀ : Nat → Table N) (l : Ledger N) (A X : Finset N)
    (s : Scene N) : Prop where
  kept : t.Kept T₀ s.tables
  enclosed : t.Encloses A
  ledger : ∀ i, (s.desk i).ledger.share = l
  /-- A seed is handled once. -/
  seeds : ∀ v, seedsAt s.pending v ≤ if v ∈ A ∧ v ∉ X then 1 else 0
  /-- Exactly the candidates bear the stamp of the round. -/
  stamps : ∀ {v}, v ∈ t.states →
    (t.fieldsOf s.tables v).iteration = Terrain.stampIn l.round (t.candidates s.tables) v
  start : A ⊆ t.candidates s.tables
  within : t.candidates s.tables ⊆ t.spread A
  expanded : X ⊆ t.candidates s.tables
  /-- Whoever was taken in was expanded at once. -/
  taken : t.candidates s.tables ⊆ A ∪ X
  /-- No candidate is forgotten, unless there is a fault. -/
  cover : ∀ {v}, v ∈ t.candidates s.tables →
    v ∈ X ∨ 0 < seedsAt s.pending v ∨ ∃ i, (s.fault i).isSome
  /-- Whoever has a count is a candidate. -/
  marked : ∀ {v}, 0 < (t.fieldsOf s.tables v).predecessors → v ∈ t.candidates s.tables
  /-- No edge is counted that is not there. -/
  counted : ∀ v, (t.fieldsOf s.tables v).predecessors + inbound s.pending v ≤ t.inflow X v
  /-- Every edge from an expanded state is counted or is still to be handled. -/
  exact : (∀ i, s.fault i = none) → ∀ v,
    (t.fieldsOf s.tables v).predecessors + inbound s.pending v = t.inflow X v
  generated : s.generated t = ∑ v ∈ X, (t.targets v).length
  states : s.total t (·.states) = X.card
  size : s.total t (·.size) = A.card
  halted : ∀ {i}, s.halted i = true → ∃ j, (s.fault j).isSome
  fault : ∀ {i f}, s.fault i = some f → t.Overflows (t.handleOf T₀) (t.spread A) f

/-- The same, `M` being the states that have been expanded, as often as they were. -/
def Reached (t : Terrain N σ) (T₀ : Nat → Table N) (l : Ledger N) (A : Finset N) (M : Multiset N)
    (s : Scene N) : Prop :=
  ∃ X : Finset N, M = X.val ∧ Reaching t T₀ l A X s

namespace Reaching

variable {t : Terrain N σ} {T₀ : Nat → Table N} {l : Ledger N} {A X : Finset N}
  {s s' : Scene N} {v : N} {rest : Multiset (Edge N)} {m m₀ : Mark} {h : Handle}

theorem mem_states (hs : Reaching t T₀ l A X s) (hv : v ∈ X) : v ∈ t.states :=
  Terrain.candidates_subset (hs.expanded hv)

/-- What an edge leads to can be reached from a seed. -/
theorem mem_spread (hs : Reaching t T₀ l A X s) {source : Handle}
    (hp : s.pending = ⟨some source, v⟩ ::ₘ rest) : v ∈ t.spread A := by
  have hcount := hs.counted v
  rw [hp, inbound_cons_self] at hcount
  obtain ⟨u, hu, hedge⟩ : ∃ u ∈ X, t.Edge u v := Terrain.inflow_pos.mp (by omega)
  exact hs.enclosed.mem_spread_of_edge (hs.within (hs.expanded hu)) hedge

/-- A candidate is one exactly if it bears the stamp of the round. -/
theorem iteration_eq_iff (hs : Reaching t T₀ l A X s) (hv : v ∈ t.states) :
    (t.fieldsOf s.tables v).iteration = l.round.toNat % 2 ^ 15 ↔ v ∈ t.candidates s.tables := by
  rw [hs.stamps hv, Terrain.stampIn]
  split
  · rename_i hin
    exact iff_of_true rfl hin
  · rename_i hin
    exact iff_of_false (Mark.stamp_pred_ne l.round) hin

/-- A state is expanded: the seed at it or the edge to it is replaced by the edges from it. -/
theorem expand (hs : Reaching t T₀ l A X s) (hv : v ∈ t.spread A) (hX : v ∉ X)
    (hm₀ : t.markOf s.tables v = some m₀) (hagree : m.Agrees m₀)
    (hstamp : m.fields.iteration = l.round.toNat % 2 ^ 15) (hinS : m.fields.inS = true)
    (hcount : m.fields.predecessors + inbound rest v =
      m₀.fields.predecessors + inbound s.pending v)
    (hinbound : ∀ u, u ≠ v → inbound rest u = inbound s.pending u)
    (hseed : seedsAt rest v = 0) (hseeds : ∀ u, u ≠ v → seedsAt rest u = seedsAt s.pending u)
    (hmark : s.Marked t v m (rest + (Edge.from h (t.targets v) : Multiset (Edge N)))
      (t.targets v).length 1 0 s') :
    Reaching t T₀ l A (insert v X) s' := by
  have hw := hmark.writes
  have hcand : t.candidates s'.tables = insert v (t.candidates s.tables) :=
    hw.candidates_insert hinS
  -- the count of a state and the edges still to come to it grow together with the edges from `v`
  have hsum : ∀ u, (t.fieldsOf s'.tables u).predecessors + inbound s'.pending u =
      (t.fieldsOf s.tables u).predecessors + inbound s.pending u + (t.targets v).count u := by
    intro u
    rw [hmark.pending, inbound_add_from]
    rcases eq_or_ne u v with rfl | hne
    · rw [hw.fieldsOf_self, Terrain.fieldsOf_eq hm₀]
      omega
    · rw [hw.fieldsOf_ne hne, hinbound u hne]
      omega
  refine
    { kept := hs.kept.write hw hm₀ hagree
      enclosed := hs.enclosed
      ledger := fun i => (hmark.share i).trans (hs.ledger i)
      seeds := fun u => ?_
      stamps := fun {u} hu => ?_
      start := ?_
      within := ?_
      expanded := ?_
      taken := ?_
      cover := fun {u} hu => ?_
      marked := fun {u} hu => ?_
      counted := fun u => ?_
      exact := fun hgood u => ?_
      generated := ?_
      states := by rw [hmark.states, hs.states, Finset.card_insert_of_notMem hX]
      size := by rw [hmark.size, hs.size, Nat.add_zero]
      halted := fun hh => ?_
      fault := fun hf => hs.fault (hmark.fault ▸ hf) }
  · rw [hmark.pending, seedsAt_add_from]
    rcases eq_or_ne u v with rfl | hne
    · rw [hseed]
      exact Nat.zero_le _
    · rw [hseeds u hne]
      refine (hs.seeds u).trans_eq (if_congr ?_ rfl rfl)
      rw [Finset.mem_insert, or_iff_right hne]
  · rw [hcand]
    rcases eq_or_ne u v with rfl | hne
    · rw [hw.fieldsOf_self, hstamp, Terrain.stampIn, if_pos (Finset.mem_insert_self _ _)]
    · rw [hw.fieldsOf_ne hne, hs.stamps hu]
      refine if_congr ?_ rfl rfl
      rw [Finset.mem_insert, or_iff_right hne]
  · rw [hcand]
    exact hs.start.trans (Finset.subset_insert _ _)
  · rw [hcand]
    exact Finset.insert_subset hv hs.within
  · rw [hcand]
    exact Finset.insert_subset_insert v hs.expanded
  · rw [hcand, Finset.union_insert]
    exact Finset.insert_subset_insert v hs.taken
  · rw [hcand, Finset.mem_insert] at hu
    rw [hmark.pending, seedsAt_add_from, hmark.fault]
    rcases eq_or_ne u v with rfl | hne
    · exact .inl (Finset.mem_insert_self _ _)
    · rw [hseeds u hne]
      exact (hs.cover (hu.resolve_left hne)).imp_left (Finset.mem_insert_of_mem ·)
  · rw [hcand]
    rcases eq_or_ne u v with rfl | hne
    · exact Finset.mem_insert_self _ _
    · rw [hw.fieldsOf_ne hne] at hu
      exact Finset.mem_insert_of_mem (hs.marked hu)
  · rw [hsum, Terrain.inflow_insert hX]
    exact Nat.add_le_add_right (hs.counted u) _
  · rw [hmark.fault] at hgood
    rw [hsum, Terrain.inflow_insert hX, hs.exact hgood]
  · rw [hmark.generated, hs.generated, Finset.sum_insert hX, Nat.add_comm]
  · rw [hmark.halted] at hh
    rw [hmark.fault]
    exact hs.halted hh

/-- An edge to a candidate is counted. -/
theorem count (hs : Reaching t T₀ l A X s) {source : Handle}
    (hp : s.pending = ⟨some source, v⟩ ::ₘ rest) (hv : v ∈ t.candidates s.tables)
    (hm₀ : t.markOf s.tables v = some m₀) (hagree : m.Agrees m₀)
    (hfields : m.fields = { m₀.fields with predecessors := m₀.fields.predecessors + 1 })
    (hmark : s.Marked t v m rest 0 0 0 s') : Reaching t T₀ l A X s' := by
  have hw := hmark.writes
  have hcand : t.candidates s'.tables = t.candidates s.tables :=
    hw.candidates_of_eq (by rw [hfields, Terrain.fieldsOf_eq hm₀])
  have hsum : ∀ u, (t.fieldsOf s'.tables u).predecessors + inbound s'.pending u =
      (t.fieldsOf s.tables u).predecessors + inbound s.pending u := by
    intro u
    rw [hmark.pending, hp]
    rcases eq_or_ne u v with rfl | hne
    · rw [hw.fieldsOf_self, hfields, Terrain.fieldsOf_eq hm₀, inbound_cons_self]
      simp only
      omega
    · rw [hw.fieldsOf_ne hne, inbound_cons_ne source hne]
  have hseeds : ∀ u, seedsAt s'.pending u = seedsAt s.pending u := by
    intro u
    rw [hmark.pending, hp, seedsAt_cons_some]
  refine
    { kept := hs.kept.write hw hm₀ hagree
      enclosed := hs.enclosed
      ledger := fun i => (hmark.share i).trans (hs.ledger i)
      seeds := fun u => (hseeds u).trans_le (hs.seeds u)
      stamps := fun {u} hu => ?_
      start := by rw [hcand]; exact hs.start
      within := by rw [hcand]; exact hs.within
      expanded := by rw [hcand]; exact hs.expanded
      taken := by rw [hcand]; exact hs.taken
      cover := fun {u} hu => ?_
      marked := fun {u} hu => ?_
      counted := fun u => by rw [hsum]; exact hs.counted u
      exact := fun hgood u => ?_
      generated := by rw [hmark.generated, hs.generated, Nat.add_zero]
      states := by rw [hmark.states, hs.states, Nat.add_zero]
      size := by rw [hmark.size, hs.size, Nat.add_zero]
      halted := fun hh => ?_
      fault := fun hf => hs.fault (hmark.fault ▸ hf) }
  · rw [hcand, ← hs.stamps hu]
    rcases eq_or_ne u v with rfl | hne
    · rw [hw.fieldsOf_self, hfields, Terrain.fieldsOf_eq hm₀]
    · rw [hw.fieldsOf_ne hne]
  · rw [hcand] at hu
    rw [hseeds, hmark.fault]
    exact hs.cover hu
  · rw [hcand]
    rcases eq_or_ne u v with rfl | hne
    · exact hv
    · rw [hw.fieldsOf_ne hne] at hu
      exact hs.marked hu
  · rw [hmark.fault] at hgood
    rw [hsum, hs.exact hgood]
  · rw [hmark.halted] at hh
    rw [hmark.fault]
    exact hs.halted hh

/-- An edge that cannot be counted ends the pass. -/
theorem overflow (hs : Reaching t T₀ l A X s) {source : Handle}
    (hp : s.pending = ⟨some source, v⟩ ::ₘ rest) (hm₀ : t.markOf s.tables v = some m₀)
    (hfull : m₀.fields.predecessors = 32767) (hh : t.handleOf T₀ v = some h) :
    Reaching t T₀ l A X (s.handled (t.home v) rest
      (.error (.fault (.predecessorOverflow h maxPredecessors))) (s.desk (t.home v))) := by
  have hover :
      t.Overflows (t.handleOf T₀) (t.spread A) (.predecessorOverflow h maxPredecessors) := by
    have hcount := hs.counted v
    rw [hp, inbound_cons_self, Terrain.fieldsOf_eq hm₀, hfull] at hcount
    have hmono := t.inflow_mono (hs.expanded.trans hs.within) v
    exact ⟨v, h, Terrain.spread_subset (hs.mem_spread hp), hh, rfl, by omega⟩
  generalize hr : (.error (.fault (.predecessorOverflow h maxPredecessors)) :
    Except Stop (Progress N)) = r
  have htables : (s.handled (t.home v) rest r (s.desk (t.home v))).tables = s.tables :=
    Scene.tables_handled_same
  have hpending : (s.handled (t.home v) rest r (s.desk (t.home v))).pending = rest := by
    rw [← hr]
    exact add_zero rest
  have hself : (s.handled (t.home v) rest r (s.desk (t.home v))).fault (t.home v) =
      some (.predecessorOverflow h maxPredecessors) := by
    rw [← hr]
    exact Function.update_self ..
  have hsome : ∃ j, ((s.handled (t.home v) rest r (s.desk (t.home v))).fault j).isSome :=
    ⟨t.home v, by rw [hself]; rfl⟩
  refine
    { kept := by rw [htables]; exact hs.kept
      enclosed := hs.enclosed
      ledger := fun i => by rw [Scene.desk_handled_same]; exact hs.ledger i
      seeds := fun u => ?_
      stamps := fun hu => by rw [htables]; exact hs.stamps hu
      start := by rw [htables]; exact hs.start
      within := by rw [htables]; exact hs.within
      expanded := by rw [htables]; exact hs.expanded
      taken := by rw [htables]; exact hs.taken
      cover := fun _ => .inr (.inr hsome)
      marked := fun hu => by rw [htables] at hu ⊢; exact hs.marked hu
      counted := fun u => ?_
      exact := fun hgood => nomatch hself.symm.trans (hgood _)
      generated := (Scene.total_handled_same _).trans hs.generated
      states := (Scene.total_handled_same _).trans hs.states
      size := (Scene.total_handled_same _).trans hs.size
      halted := fun _ => hsome
      fault := fun {i f} hf => ?_ }
  · have hle := hs.seeds u
    rwa [hp, seedsAt_cons_some, ← hpending] at hle
  · rw [htables, hpending]
    have hle := inbound_le_cons ⟨some source, v⟩ rest u
    rw [← hp] at hle
    have hcount := hs.counted u
    omega
  · rcases eq_or_ne i (t.home v) with rfl | hne
    · rwa [← Option.some.inj (hself.symm.trans hf)]
    · exact hs.fault ((Function.update_of_ne hne ..).symm.trans hf)

end Reaching

end Reaching

/-! ## 3. Handling an edge -/

section Rule

variable {d : Desk N} {h : Handle} {m : Mark}

theorem reachEdge_full (source : Handle) (hm : d.table.mark? h = some m)
    (hfull : m.fields.predecessors = 32767) :
    (reachEdge (some source) h false : DeskM N Action) d =
      (.error (.fault (.predecessorOverflow h maxPredecessors)), d) := by
  rw [reachEdge, DeskM.get_bind, DeskM.bind_ok (mark_eq hm), Mark.countUp_of_full h hfull]
  rfl

/-- What becomes of an edge to a known state that can be counted. -/
theorem reachEdge_known (source : Handle) (hm : d.table.mark? h = some m) {m' : Mark}
    (hup : m.countUp h = .ok m') :
    (reachEdge (some source) h false : DeskM N Action) d =
      if (m'.setInS true).visitedIn d.ledger.round then
        (.ok .forget, { d with table := d.table.setMark h (m'.setInS true) })
      else
        (.ok .expand, { d with
          table := d.table.setMark h ((m'.setInS true).setIteration d.ledger.round) }) := by
  rw [reachEdge, DeskM.get_bind, DeskM.bind_ok (mark_eq hm), hup]
  change (if !false && (m'.setInS true).visitedIn d.ledger.round then
    (do setMark h (m'.setInS true); return .forget : DeskM N Action) else
    (do setMark h ((m'.setInS true).setIteration d.ledger.round); return .expand)) d = _
  rw [Bool.not_false, Bool.true_and]
  split <;> rfl

theorem reachEdge_visited (source : Handle) (hm : d.table.mark? h = some m)
    (hroom : m.fields.predecessors ≠ 32767)
    (hvisited : m.fields.iteration = d.ledger.round.toNat % 2 ^ 15) (hinS : m.fields.inS = true) :
    ∃ m', m'.Agrees m ∧
      m'.fields = { m.fields with predecessors := m.fields.predecessors + 1 } ∧
      (reachEdge (some source) h false : DeskM N Action) d =
        (.ok .forget, { d with table := d.table.setMark h m' }) := by
  obtain ⟨m', hup, hparent, hancestor, hfields⟩ := Mark.countUp_of_room h hroom
  have hset : (m'.setInS true).fields =
      { m.fields with predecessors := m.fields.predecessors + 1 } := by
    rw [Mark.fields_setInS, hfields, ← hinS]
  have hin : (m'.setInS true).visitedIn d.ledger.round = true := by
    rw [Mark.visitedIn_iff, hset]
    exact hvisited
  refine ⟨m'.setInS true, ⟨hparent, hancestor, by rw [hset]⟩, hset, ?_⟩
  rw [reachEdge_known source hm hup, if_pos hin]

theorem reachEdge_unvisited (source : Handle) (hm : d.table.mark? h = some m)
    (hroom : m.fields.predecessors ≠ 32767)
    (hvisited : m.fields.iteration ≠ d.ledger.round.toNat % 2 ^ 15) :
    ∃ m', m'.Agrees m ∧
      m'.fields = ⟨m.fields.predecessors + 1, d.ledger.round.toNat % 2 ^ 15, true, m.fields.inF⟩ ∧
      (reachEdge (some source) h false : DeskM N Action) d =
        (.ok .expand, { d with table := d.table.setMark h m' }) := by
  obtain ⟨m', hup, hparent, hancestor, hfields⟩ := Mark.countUp_of_room h hroom
  have hset : ((m'.setInS true).setIteration d.ledger.round).fields =
      ⟨m.fields.predecessors + 1, d.ledger.round.toNat % 2 ^ 15, true, m.fields.inF⟩ := by
    rw [Mark.fields_setIteration, Mark.fields_setInS, hfields]
  have hin : ¬(m'.setInS true).visitedIn d.ledger.round = true := by
    rw [Mark.visitedIn_iff, Mark.fields_setInS, hfields]
    exact hvisited
  refine ⟨(m'.setInS true).setIteration d.ledger.round, ⟨hparent, hancestor, by rw [hset]⟩, hset,
    ?_⟩
  rw [reachEdge_known source hm hup, if_neg hin]

/-- A pass that notes nothing of the states that it expands. -/
theorem yields_expand_plain {t : Terrain N σ} (pass : Pass) {v : N} (hv : v ∈ t.states)
    (hstate : pass.onState t.graph h = pure ()) (hnode : d.table.node? h = some v) :
    Yields (expandState (t.task pass) h) d (.ok (.expand h (t.targets v)))
      { d with ledger := d.ledger.expanded (t.targets v).length } :=
  yields_expandState hv (by rw [hstate]; exact yields_pure () d) hnode

end Rule

namespace Reaching

variable [DecidableEq N] [Std.TransOrd N] [Std.LawfulEqOrd N] {t : Terrain N σ}
  {T₀ : Nat → Table N} {l : Ledger N} {A X : Finset N} {s : Scene N} {v : N}
  {rest : Multiset (Edge N)}

/-- A seed is expanded. -/
theorem handles_seed (hs : Reaching t T₀ l A X s) (hp : s.pending = ⟨none, v⟩ ::ₘ rest) :
    s.HandlesAfter t .reach (Reached t T₀ l A) X.val ⟨none, v⟩ rest := by
  obtain ⟨⟨hA, hX⟩, hseed⟩ : (v ∈ A ∧ v ∉ X) ∧ seedsAt rest v = 0 := by
    have hle := hs.seeds v
    rw [hp, seedsAt_cons_self] at hle
    by_cases hcond : v ∈ A ∧ v ∉ X
    · rw [if_pos hcond] at hle
      exact ⟨hcond, by omega⟩
    · rw [if_neg hcond] at hle
      omega
  have hcand := hs.start hA
  have hstates := Terrain.candidates_subset hcand
  obtain ⟨m, hm, hfields⟩ := hs.kept.exists_mark hstates
  obtain ⟨h, hv⟩ := hs.kept.exists_handle hstates
  have hst := hs.kept.parted.store_known (d := s.desk (t.home v)) rfl hv
  have hnode := hs.kept.parted.node?_eq hv
  have hx := yields_expand_plain (t := t) .reach hstates rfl hnode
  refine ⟨_, _, yields_expand hst rfl hx, trivial, ?_, insert v X, ?_, ?_⟩
  · rw [length_newEdges]
    rfl
  · exact add_expansions_expand hnode hX (t.targets v)
  · have hmark := Scene.marked_expand (d := { s.desk (t.home v) with
        ledger := (s.desk (t.home v)).ledger.expanded (t.targets v).length })
      hs.kept.parted hstates (Table.Puts.refl hm) rfl rfl rfl 0 rfl rfl h rest
    refine hs.expand (Terrain.subset_spread hs.enclosed.subset hA) hX hm (.refl m) ?_ ?_ ?_ ?_ hseed
      ?_ hmark
    · rw [← hfields]
      exact (hs.iteration_eq_iff hstates).mpr hcand
    · rw [← hfields]
      exact (Terrain.mem_candidates.mp hcand).2
    · rw [hp, inbound_cons_seed]
    · intro u _
      rw [hp, inbound_cons_seed]
    · intro u hne
      rw [hp, seedsAt_cons_ne hne]

/-- An edge is counted, and its target is expanded if it was no candidate before. -/
theorem handles_edge (hs : Reaching t T₀ l A X s) {source : Handle}
    (hp : s.pending = ⟨some source, v⟩ ::ₘ rest) :
    s.HandlesAfter t .reach (Reached t T₀ l A) X.val ⟨some source, v⟩ rest := by
  have hspread := hs.mem_spread hp
  have hstates := Terrain.spread_subset hspread
  obtain ⟨m, hm, hfields⟩ := hs.kept.exists_mark hstates
  obtain ⟨h, hv⟩ := hs.kept.exists_handle hstates
  have hfits := hs.kept.parted.fits (t.home_lt v)
  have hst := hs.kept.parted.store_known (d := s.desk (t.home v)) rfl hv
  have hmark? : (s.desk (t.home v)).table.mark? h = some m :=
    (hs.kept.parted.mark?_eq hv).trans hm
  have hround : (s.desk (t.home v)).ledger.round = l.round := by
    rw [← hs.ledger (t.home v)]
    rfl
  have hstamp := hs.iteration_eq_iff hstates
  rw [hfields] at hstamp
  by_cases hfull : m.fields.predecessors = 32767
  · exact ⟨_, _, yields_fault hst (reachEdge_full source hmark? hfull), trivial, rfl, X, add_zero _,
      hs.overflow hp hm hfull ((hs.kept.handles v).symm.trans hv)⟩
  by_cases hcand : v ∈ t.candidates s.tables
  · -- the target was taken in before
    have hvisited : m.fields.iteration = (s.desk (t.home v)).ledger.round.toNat % 2 ^ 15 := by
      rw [hround]
      exact hstamp.mpr hcand
    have hinS : m.fields.inS = true := by
      rw [← hfields]
      exact (Terrain.mem_candidates.mp hcand).2
    obtain ⟨m', hagree, hm', he⟩ := reachEdge_visited source hmark? hfull hvisited hinS
    refine ⟨_, _, yields_forget hst he, trivial, rfl, X, add_zero _, ?_⟩
    exact hs.count hp hcand hm hagree hm' (Scene.marked_next
      (d := { s.desk (t.home v) with table := (s.desk (t.home v)).table.setMark h m' })
      hs.kept.parted hstates (hfits.puts_setMark hv m') rfl rest)
  · have hvisited : m.fields.iteration ≠ (s.desk (t.home v)).ledger.round.toNat % 2 ^ 15 := by
      rw [hround]
      exact fun heq => hcand (hstamp.mp heq)
    obtain ⟨m', hagree, hm', he⟩ := reachEdge_unvisited source hmark? hfull hvisited
    have hX : v ∉ X := fun hX => hcand (hs.expanded hX)
    have hput := hfits.puts_setMark hv m'
    have hnode : ((s.desk (t.home v)).table.setMark h m').node? h = some v := by
      rw [Table.node?_setMark]
      exact hs.kept.parted.node?_eq hv
    have hx := yields_expand_plain (t := t)
      (d := { s.desk (t.home v) with table := (s.desk (t.home v)).table.setMark h m' }) .reach
      hstates rfl hnode
    refine ⟨_, _, yields_expand hst he hx, trivial, ?_, insert v X, ?_, ?_⟩
    · rw [length_newEdges]
      rfl
    · exact add_expansions_expand hnode hX (t.targets v)
    · have hmark := Scene.marked_expand (d := { s.desk (t.home v) with
          table := (s.desk (t.home v)).table.setMark h m'
          ledger := (s.desk (t.home v)).ledger.expanded (t.targets v).length })
        hs.kept.parted hstates hput rfl rfl rfl 0 rfl rfl h rest
      rw [hround] at hm'
      refine hs.expand hspread hX hm hagree (by rw [hm']) (by rw [hm']) ?_ ?_ ?_ ?_ hmark
      · rw [hm', hp, inbound_cons_self]
        simp only
        omega
      · intro u hne
        rw [hp, inbound_cons_ne source hne]
      · have hle := hs.seeds v
        rw [hp, seedsAt_cons_some, if_neg fun hA => hcand (hs.start hA.1)] at hle
        omega
      · intro u _
        rw [hp, seedsAt_cons_some]

/-- **Handling an edge keeps the invariant of a reachability pass.** -/
theorem tracks (t : Terrain N σ) (T₀ : Nat → Table N) (l : Ledger N) (A : Finset N) :
    Scene.Tracks t .reach t.edgeCount (Reached t T₀ l A) where
  peers := fun ⟨_, _, hs⟩ i hi => hs.kept.parted.peers i hi
  bound := fun ⟨_, _, hs⟩ => by
    rw [hs.generated]
    exact Finset.sum_le_sum_of_subset fun _ hv => hs.mem_states hv
  step {M s e rest} hs hp _ := by
    obtain ⟨X, rfl, hs⟩ := hs
    obtain ⟨source, v⟩ := e
    cases source with
    | none => exact hs.handles_seed hp
    | some source => exact hs.handles_edge hp
  drop {M s e rest} hs hp hh := by
    obtain ⟨X, hX, hs⟩ := hs
    obtain ⟨j, hj⟩ := hs.halted hh
    refine ⟨X, hX, { hs with seeds := fun v => ?_, cover := fun _ => .inr (.inr ⟨j, hj⟩)
                             counted := fun v => ?_, exact := fun hgood => ?_ }⟩
    · have hle := seedsAt_le_cons e rest v
      rw [← hp] at hle
      exact hle.trans (hs.seeds v)
    · have hle := inbound_le_cons e rest v
      rw [← hp] at hle
      exact (Nat.add_le_add_left hle _).trans (hs.counted v)
    · rw [hgood j] at hj
      exact nomatch hj
  stop {M s i j} hs hf := by
    obtain ⟨X, hX, hs⟩ := hs
    exact ⟨X, hX, { hs with halted := fun _ => ⟨j, hf⟩ }⟩

end Reaching

/-! ## 4. Reset -/

section Reset

variable {t : Terrain N σ} {name : N → Option Handle} {T T' : Nat → Table N}

theorem Terrain.Stocked.mem_statesWhere (hT : t.Stocked T) {p : Mark → Bool} {v : N} {m : Mark}
    (hm : t.markOf T v = some m) : v ∈ t.statesWhere T p ↔ p m = true := by
  rw [Terrain.statesWhere, Finset.mem_filter, hm, Option.any_some,
    and_iff_right (hT.parted.mem_states hm)]

/-- The states that a round starts from are the accepting candidates. -/
theorem Terrain.Known.statesWhere_isSeed (hT : t.Known name T) :
    t.statesWhere T Mark.isSeed = t.live T := by
  ext v
  rw [Terrain.statesWhere, Finset.mem_filter, Terrain.mem_live, Terrain.mem_candidates, and_assoc]
  refine and_congr_right fun hv => ?_
  obtain ⟨m, hm, hfields⟩ := hT.exists_mark hv
  rw [hm, Option.any_some, Mark.isSeed_eq, Bool.and_eq_true, ← hfields, hT.accepting hv]

/-- A reset does not change from which states a round starts. -/
theorem Terrain.statesWhere_startRound {round : UInt32}
    (hT' : ∀ i < t.peers, T' i = (T i).mapMarks (·.startRound round)) :
    t.statesWhere T' Mark.isSeed = t.statesWhere T Mark.isSeed := by
  refine Finset.filter_congr fun v _ => ?_
  rw [Terrain.markOf_mapMarks hT']
  cases t.markOf T v with
  | none => rfl
  | some m => rw [Option.map_some, Option.any_some, Option.any_some, Mark.isSeed_startRound]

variable [DecidableEq N]

/-- After a reset the candidates are those that were accepting before. -/
theorem Terrain.Stocked.cleared (hT : t.Stocked T) {round : UInt32}
    (hT' : ∀ i < t.peers, T' i = (T i).mapMarks (·.startRound round)) :
    t.Cleared round (t.statesWhere T Mark.isSeed) T' := by
  have hfields : ∀ {v}, v ∈ t.states → t.fieldsOf T' v =
      ⟨0, Terrain.stampIn round (t.statesWhere T Mark.isSeed) v,
        decide (v ∈ t.statesWhere T Mark.isSeed), (t.fieldsOf T v).inF⟩ := by
    intro v hv
    obtain ⟨m, hm, hm'⟩ := hT.exists_mark hv
    have hseed : m.isSeed = decide (v ∈ t.statesWhere T Mark.isSeed) := by
      rw [Bool.eq_iff_iff, decide_eq_true_iff, hT.mem_statesWhere hm]
    rw [Terrain.fieldsOf, Terrain.markOf_mapMarks hT', hm]
    change (m.startRound round).fields = _
    rw [Mark.fields_startRound, hseed, ← hm']
    simp only [decide_eq_true_eq, Terrain.stampIn]
  refine ⟨?_, fun v => ?_, fun hv => by rw [hfields hv]⟩
  · ext v
    rw [Terrain.mem_candidates]
    constructor
    · rintro ⟨hv, hin⟩
      rw [hfields hv] at hin
      exact of_decide_eq_true hin
    · intro hseed
      have hv := (Finset.mem_filter.mp hseed).1
      rw [hfields hv]
      exact ⟨hv, decide_eq_true hseed⟩
  · by_cases hv : v ∈ t.states
    · rw [hfields hv]
    · have hkept := hT.kept.mapMarks hT' fun m => m.agrees_startRound round
      rw [hkept.fieldsOf_of_notMem hv]

variable [Std.TransOrd N] [Std.LawfulEqOrd N]

/-- What the workers begin a reset with, which is also what they end with. -/
def Terrain.resetOpening (l : Ledger N) (desk : Nat → Desk N) (cursor : Nat → Nat) : Opening N where
  seeds _ := []
  desk i :=
    { table := (desk i).table.mapMarks (·.startRound l.round)
      ledger := { l.share with
        size := ((((desk i).table.mapMarks (·.startRound l.round)).entries.filter
          (·.2.isSeed)).map Prod.fst).length }
      entered := (desk i).entered }
  cursor := cursor

variable {plan : Plan N σ} {r : Run N σ} {desk : Nat → Desk N} {cursor : Nat → Nat} {A : Finset N}

omit [DecidableEq N] in
/-- All is done at the start of a reset, and there is no edge to handle. -/
theorem tracks_reset (l : Ledger N) (cursor : Nat → Nat) (hT : t.Parted fun i => (desk i).table) :
    Scene.Tracks t .reset 0 fun M s =>
      M = 0 ∧ s = (Terrain.resetOpening l desk cursor).scene t.peers := by
  have hempty : ((Terrain.resetOpening l desk cursor).scene t.peers).pending = 0 := by
    change ∑ i ∈ Finset.range t.peers, (([] : List N).map Edge.seed : Multiset (Edge N)) = 0
    exact Finset.sum_const_zero
  refine
    { peers := fun h i hi => by rw [h.2]; exact hT.peers i hi
      bound := fun h => ?_
      step := fun {_ s e rest} h hp => ?_
      drop := fun {_ s e rest} h hp => ?_
      stop := fun {_ s i j} h hf => ?_ }
  · rw [h.2]
    change ∑ i ∈ Finset.range t.peers, 0 ≤ 0
    rw [Finset.sum_const_zero]
  · rw [h.2, hempty] at hp
    exact absurd hp.symm Multiset.cons_ne_zero
  · rw [h.2, hempty] at hp
    exact absurd hp.symm Multiset.cons_ne_zero
  · rw [h.2] at hf
    exact nomatch hf

/-- What a reset from the tables `T` with the accepting candidates `A` leaves. -/
structure Run.Clears (t : Terrain N σ) (cursor : Nat → Nat) (T : Nat → Table N) (A : Finset N)
    (r r' : Run N σ) : Prop where
  size : r'.ledger.size = A.card
  tables : ∃ T', r.Resumes t cursor T T' r' ∧ t.Cleared r.ledger.round A T' ∧
    t.statesWhere T' Mark.isSeed = A

/-- **A reset leaves the accepting candidates**, from whatever tables it starts, and expands no
state. -/
theorem answers_superstep_reset (hplan : plan.Covers t) (hr : r.cluster.Rests t desk cursor)
    (hT : t.Stocked fun i => (desk i).table)
    (hA : t.statesWhere (fun i => (desk i).table) Mark.isSeed = A) (left : Nat) :
    Answers
      (fun _ r' => r.Clears t cursor (fun i => (desk i).table) A r' ∧
        Check.expanded plan .reset { r with left := left } = 0)
      (fun _ _ => False)
      (Check.superstep plan .reset { r with left := left }) := by
  have hstep := answers_superstep hplan (tracks_reset r.ledger cursor hT.parted)
    (o := Terrain.resetOpening r.ledger desk cursor) hr (fun i _ => yields_atDesk rfl)
    (fun i v hv => nomatch hv) ⟨rfl, rfl⟩ left
  let T' : Nat → Table N := fun i => (desk i).table.mapMarks (·.startRound r.ledger.round)
  have hkept : t.Kept (fun i => (desk i).table) T' :=
    hT.kept.mapMarks (fun _ _ => rfl) fun m => m.agrees_startRound _
  have hseed : t.statesWhere T' Mark.isSeed = A :=
    (Terrain.statesWhere_startRound fun _ _ => rfl).trans hA
  refine hstep.mono ?_ ?_
  · rintro - r' ⟨s, hs⟩
    obtain ⟨hnone, rfl⟩ := hs.holds
    refine ⟨⟨?_, T', ⟨⟨_, hs.rests, rfl⟩, hkept, hs.share fun i => rfl, ?_⟩, ?_, hseed⟩, hnone⟩
    · rw [hs.size, ← hseed, ← hkept.parted.length_nodesWhere]
      refine Finset.sum_congr rfl fun i hi => ?_
      rw [Terrain.nodesWhere, if_pos (Finset.mem_range.mp hi)]
      rfl
    · rw [hs.generated]
      exact Nat.le_add_right _ _
    · rw [← hA]
      exact hT.cleared fun _ _ => rfl
  · rintro f r' ⟨s, i, ⟨-, rfl⟩, hf, -⟩
    exact nomatch hf

/-- A reset comes to its end if all workers get turns again and again. -/
theorem meets_superstep_reset (hplan : plan.Covers t) (hr : r.cluster.Rests t desk cursor)
    (hT : t.Stocked fun i => (desk i).table)
    (hA : t.statesWhere (fun i => (desk i).table) Mark.isSeed = A) :
    Meets plan.Fair (Check.superstep plan .reset) r
      (fun _ r' => r.Clears t cursor (fun i => (desk i).table) A r') (fun _ _ => False) where
  answers left := (answers_superstep_reset hplan hr hT hA left).mono (fun _ _ h => h.1)
    fun _ _ h => h
  ends := (meets_superstep hplan (tracks_reset r.ledger cursor hT.parted).keeps
    (o := Terrain.resetOpening r.ledger desk cursor) hr (fun _ _ => yields_atDesk rfl)
    (fun _ _ hv => absurd hv List.not_mem_nil) ⟨0, rfl, rfl⟩).ends

/-- **A reset in a round finds as many accepting candidates as there should be.** -/
theorem meets_reset {plan : Plan N σ} (hplan : plan.Covers t) {r : Run N σ} {l : Ledger N}
    {least : Nat} (hr : r.Holds t name l least T) (hold : l.oldSize = (t.live T).card) :
    Meets plan.Fair (Check.reset plan) r
      (fun _ r' => ∃ T', r'.Holds t name l least T' ∧ t.Cleared l.round (t.live T) T' ∧
        r'.ledger.size = (t.live T).card)
      (fun _ _ => False) := by
  obtain ⟨desk, hrests, rfl⟩ := hr.rests
  refine (meets_superstep_reset hplan hrests hr.known.toStocked hr.known.statesWhere_isSeed).bind
    fun _ r' h => ?_
  obtain ⟨hsize, T', hresumes, hcleared, -⟩ := h
  have hround : r.ledger.round = l.round := by rw [← hr.share]; rfl
  have hshare := hresumes.share.trans hr.share
  have holdSize : r'.ledger.oldSize = r'.ledger.size := by
    rw [hsize, ← hold, ← hshare]
    rfl
  refine .ledger_bind ?_
  rw [if_neg (not_not.mpr holdSize.symm)]
  exact .pure fun left => ⟨T', { hr.resume hresumes with }, hround ▸ hcleared, hsize⟩

end Reset

/-! ## 5. Reachability -/

section Reach

variable [DecidableEq N] {t : Terrain N σ} {name : N → Option Handle} {T T₀ : Nat → Table N}
  {l : Ledger N} {A X : Finset N} {s : Scene N}

/-- The pass begins with a seed at every accepting candidate. -/
theorem Reaching.start_of_cleared {o : Opening N} (hT : t.Stocked T)
    (hA : t.Cleared l.round A T) (hseed : t.statesWhere T Mark.isSeed = A) (henc : t.Encloses A)
    (htables : (o.scene t.peers).tables = T) (hseeds : o.seeds = t.nodesWhere T Mark.isSeed)
    (hledger : ∀ i, (o.desk i).ledger = { l with size := (o.seeds i).length })
    (hl : l.share = l) : Reaching t T l A ∅ (o.scene t.peers) := by
  have hpending := Opening.pending_nodesWhere hT.parted hseeds
  rw [hseed] at hpending
  have hdesk : ∀ i, ((o.scene t.peers).desk i).ledger = { l with size := (o.seeds i).length } :=
    hledger
  refine
    { kept := htables ▸ hT.kept
      enclosed := henc
      ledger := fun i => ?_
      seeds := fun v => ?_
      stamps := fun hv => ?_
      start := ?_
      within := ?_
      expanded := Finset.empty_subset _
      taken := ?_
      cover := fun {v} hv => ?_
      marked := fun {v} hv => ?_
      counted := fun v => ?_
      exact := fun _ v => ?_
      generated := ?_
      states := ?_
      size := ?_
      halted := nofun
      fault := nofun }
  · rw [hdesk, ← hl]
    rfl
  · rw [hpending, seedsAt_map_seed]
    refine Nat.le_of_eq (if_congr ?_ rfl rfl)
    rw [and_iff_left (Finset.notMem_empty v)]
  · rw [htables, hA.candidates]
    exact hA.stamps hv
  · rw [htables, hA.candidates]
  · rw [htables, hA.candidates]
    exact Terrain.subset_spread henc.subset
  · rw [htables, hA.candidates]
    exact Finset.subset_union_left
  · rw [htables, hA.candidates] at hv
    rw [hpending, seedsAt_map_seed, if_pos hv]
    exact .inr (.inl Nat.one_pos)
  · rw [htables, hA.predecessors] at hv
    exact absurd hv (Nat.lt_irrefl 0)
  · rw [htables, hA.predecessors, hpending, inbound_map_seed]
    exact Nat.zero_le _
  · rw [htables, hA.predecessors, hpending, inbound_map_seed]
    rfl
  · rw [Finset.sum_empty, Scene.generated, Scene.total]
    refine Finset.sum_eq_zero fun i _ => ?_
    rw [hdesk, ← hl]
    rfl
  · refine Finset.sum_eq_zero fun i _ => ?_
    rw [hdesk, ← hl]
    rfl
  · rw [← hseed, ← hT.parted.length_nodesWhere]
    exact Finset.sum_congr rfl fun i _ => by rw [hdesk, hseeds]

/-- At the end the candidates are all that can be reached, all edges between them are counted, and
they are what was expanded. -/
theorem Reaching.tallied (hs : Reaching t T₀ l A X s) (hdone : s.pending = 0)
    (hgood : ∀ i, s.fault i = none) :
    t.Tallied l.round (t.spread A) (t.spread A) s.tables ∧ X = t.spread A := by
  have hsub : t.candidates s.tables ⊆ X := by
    intro v hv
    rcases hs.cover hv with hX | hseed | ⟨i, hi⟩
    · exact hX
    · rw [hdone] at hseed
      exact absurd hseed (Nat.lt_irrefl 0)
    · rw [hgood i] at hi
      exact nomatch hi
  have hX : X = t.candidates s.tables := hs.expanded.antisymm hsub
  have hcount : ∀ v, (t.fieldsOf s.tables v).predecessors = t.inflow X v := by
    intro v
    have hexact := hs.exact hgood v
    rwa [hdone, inbound_zero, Nat.add_zero] at hexact
  -- an edge from a candidate is counted, so that its target is a candidate
  have hclosed : ∀ {u v}, u ∈ t.candidates s.tables → t.Edge u v → v ∈ t.candidates s.tables := by
    intro u v hu hedge
    refine hs.marked ?_
    rw [hcount]
    exact Terrain.inflow_pos.mpr ⟨u, hsub hu, hedge⟩
  have hall : t.candidates s.tables = t.spread A := by
    refine hs.within.antisymm fun v hv => ?_
    obtain ⟨-, a, ha, hreach⟩ := Terrain.mem_spread.mp hv
    clear hv
    induction hreach with
    | refl => exact hs.start ha
    | tail _ hedge ih => exact hclosed ih hedge
  exact ⟨⟨hall, fun v => by rw [hcount, hX, hall], fun hv => by rw [hs.stamps hv, hall]⟩,
    hX.trans hall⟩

/-- What a reachability pass from the tables `T` and the candidates `A` leaves. -/
structure Run.Spreads (t : Terrain N σ) (cursor : Nat → Nat) (T : Nat → Table N) (A : Finset N)
    (r r' : Run N σ) : Prop where
  size : r'.ledger.size = A.card
  states : r'.ledger.states = (t.spread A).card
  tables : ∃ T', r.Resumes t cursor T T' r' ∧
    t.Tallied r.ledger.round (t.spread A) (t.spread A) T'

variable [Std.TransOrd N] [Std.LawfulEqOrd N] {plan : Plan N σ} {r : Run N σ}
  {desk : Nat → Desk N} {cursor : Nat → Nat}

/-- What the workers begin a reachability pass with. -/
def Terrain.reachOpening (t : Terrain N σ) (l : Ledger N) (desk : Nat → Desk N)
    (cursor : Nat → Nat) : Opening N where
  seeds := t.nodesWhere (fun i => (desk i).table) Mark.isSeed
  desk i :=
    { desk i with
      ledger := { l with size := (t.nodesWhere (fun i => (desk i).table) Mark.isSeed i).length } }
  cursor := cursor

omit [DecidableEq N] [Std.TransOrd N] [Std.LawfulEqOrd N] in
theorem Terrain.yields_start_reach (t : Terrain N σ) (l : Ledger N) (desk : Nat → Desk N)
    (cursor : Nat → Nat) {i : Nat} (hi : i < t.peers) :
    Yields (Pass.reach.start t.graph) { desk i with ledger := l }
      (.ok ((t.reachOpening l desk cursor).seeds i)) ((t.reachOpening l desk cursor).desk i) := by
  have hnodes : t.nodesWhere (fun i => (desk i).table) Mark.isSeed i =
      ((desk i).table.entries.filter (Mark.isSeed ·.2)).map Prod.fst := if_pos hi
  simp only [Terrain.reachOpening, hnodes]
  exact yields_atDesk rfl

/-- What is known at every moment of a reachability pass. -/
theorem Check.reached_driveWorkers (hplan : plan.Covers t) (hr : r.cluster.Rests t desk cursor)
    (hT : t.Stocked fun i => (desk i).table)
    (hA : t.Cleared r.ledger.round A fun i => (desk i).table)
    (hseed : t.statesWhere (fun i => (desk i).table) Mark.isSeed = A) (henc : t.Encloses A)
    (left : Nat) :
    (driveWorkers plan .reach { r with left := left }).cluster.Orderly t .reach
        (t.reachOpening r.ledger.share desk cursor) ∧
      Reached t (fun i => (desk i).table) r.ledger.share A
        (expanded plan .reach { r with left := left })
        ((driveWorkers plan .reach { r with left := left }).cluster.scene
          (t.reachOpening r.ledger.share desk cursor)) :=
  tracks_driveWorkers hplan (Reaching.tracks t _ r.ledger.share A)
    (o := t.reachOpening r.ledger.share desk cursor) hr
    (fun _ hi => t.yields_start_reach _ _ _ hi)
    (fun _ _ hv => hT.parted.home_of_mem_nodesWhere hv)
    ⟨∅, rfl, Reaching.start_of_cleared hT hA hseed henc rfl rfl (fun _ => rfl) rfl⟩ left

/-- **A reachability pass takes in all that the accepting candidates reach**, from whatever cleared
tables it starts, and expands it, each state once; unless there are too many edges to count. -/
theorem answers_superstep_reach (hplan : plan.Covers t) (hr : r.cluster.Rests t desk cursor)
    (hT : t.Stocked fun i => (desk i).table)
    (hA : t.Cleared r.ledger.round A fun i => (desk i).table)
    (hseed : t.statesWhere (fun i => (desk i).table) Mark.isSeed = A) (henc : t.Encloses A)
    (left : Nat) :
    Answers
      (fun _ r' => r.Spreads t cursor (fun i => (desk i).table) A r' ∧
        Check.expanded plan .reach { r with left := left } = (t.spread A).val)
      (fun f r' => t.Overflows (t.handleOf fun i => (desk i).table) (t.spread A) f ∧
        r'.Names t (t.handleOf fun i => (desk i).table))
      (Check.superstep plan .reach { r with left := left }) := by
  have hstep := answers_superstep hplan (Reaching.tracks t _ r.ledger.share A)
    (o := t.reachOpening r.ledger.share desk cursor) hr
    (fun i hi => t.yields_start_reach _ _ _ hi)
    (fun i v hv => hT.parted.home_of_mem_nodesWhere hv)
    ⟨∅, rfl, Reaching.start_of_cleared hT hA hseed henc rfl rfl (fun _ => rfl) rfl⟩ left
  refine hstep.mono ?_ ?_
  · rintro - r' ⟨s, hleaves⟩
    obtain ⟨X, hX, hs⟩ := hleaves.holds
    obtain ⟨htally, rfl⟩ := hs.tallied hleaves.done hleaves.good
    refine ⟨⟨?_, ?_, s.tables, ⟨⟨s.desk, hleaves.rests, rfl⟩, hs.kept, hleaves.share hs.ledger, ?_⟩,
      htally⟩, hX⟩
    · rw [hleaves.size, hs.size]
    · rw [hleaves.states, hs.states]
    · rw [hleaves.generated]
      exact Nat.le_add_right _ _
  · rintro f r' ⟨s, i, ⟨X, -, hs⟩, hf, hrests'⟩
    exact ⟨hs.fault hf, s.desk, _, hrests', hs.kept.parted, hs.kept.handles⟩

/-- A reachability pass comes to its end if all workers get turns again and again. -/
theorem meets_superstep_reach (hplan : plan.Covers t) (hr : r.cluster.Rests t desk cursor)
    (hT : t.Stocked fun i => (desk i).table)
    (hA : t.Cleared r.ledger.round A fun i => (desk i).table)
    (hseed : t.statesWhere (fun i => (desk i).table) Mark.isSeed = A) (henc : t.Encloses A) :
    Meets plan.Fair (Check.superstep plan .reach) r
      (fun _ r' => r.Spreads t cursor (fun i => (desk i).table) A r')
      (fun f r' => t.Overflows (t.handleOf fun i => (desk i).table) (t.spread A) f ∧
        r'.Names t (t.handleOf fun i => (desk i).table)) where
  answers left := (answers_superstep_reach hplan hr hT hA hseed henc left).mono
    (fun _ _ h => h.1) fun _ _ h => h
  ends := (meets_superstep hplan (Reaching.tracks t _ r.ledger.share A).keeps
    (o := t.reachOpening r.ledger.share desk cursor) hr
    (fun _ hi => t.yields_start_reach _ _ _ hi)
    (fun _ _ hv => hT.parted.home_of_mem_nodesWhere hv)
    ⟨0, ∅, rfl, Reaching.start_of_cleared hT hA hseed henc rfl rfl (fun _ => rfl) rfl⟩).ends

/-- **In a round all that the accepting candidates reach is taken in**, unless there are too many
edges to count. -/
theorem meets_reach (hplan : plan.Covers t) {least : Nat}
    (hr : r.Holds t name l least T) (hA : t.Cleared l.round A T) (hlive : t.live T = A)
    (henc : t.Encloses A) :
    Meets plan.Fair (Check.reach plan) r
      (fun _ r' => ∃ T', r'.Holds t name l least T' ∧
        t.Tallied l.round (t.spread A) (t.spread A) T' ∧ r'.ledger.size = A.card)
      (fun f r' => t.Overflows name (t.spread A) f ∧ r'.Names t name) := by
  obtain ⟨desk, hrests, rfl⟩ := hr.rests
  have hround : r.ledger.round = l.round := by rw [← hr.share]; rfl
  have hname : (t.handleOf fun i => (desk i).table) = name := funext hr.known.names
  have hstep := meets_superstep_reach hplan hrests hr.known.toStocked (hround ▸ hA)
    (hr.known.statesWhere_isSeed.trans hlive) henc
  rw [hname] at hstep
  refine hstep.bind fun _ r' h => ?_
  obtain ⟨hsize, -, T', hresumes, htally⟩ := h
  rw [hround] at htally
  have hholds := hr.resume hresumes
  obtain ⟨desk', hrests', rfl⟩ := hholds.rests
  exact .ledger_bind (.record fun left =>
    ⟨_, { hholds with rests := ⟨desk', hrests'.record _, rfl⟩ }, htally, hsize⟩)

end Reach

end FairCycle
