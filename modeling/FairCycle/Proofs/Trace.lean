/-
# The trace of a cycle

The trace starts from the cycle state and goes through everything behind it.  Every state that it
comes to gets the stamp of the round and, as its new parent, the state that the trace came from; so
the parents of stamped states lead back to the cycle state.  An edge that leads back to the cycle
state gives that state a parent too, and the loop is closed.

The exploration may have stopped early, so the trace may have to store states that it comes to.
`Tracing` is what the handling of an edge keeps.
-/
import FairCycle.Proofs.Frontier
import FairCycle.Proofs.Search

namespace FairCycle

open Desk StepM

variable {N σ : Type} [Ord N]

/-! ## 1. Stamped states -/

/-- The mark bears a stamp. -/
def Mark.Bears (stamp : Nat) (m : Mark) : Prop := m.fields.iteration = stamp

namespace Terrain

/-- The states that bear a stamp. -/
noncomputable def stamped (t : Terrain N σ) (stamp : Nat) (T : Nat → Table N) : Finset N :=
  t.statesWhere T fun m => m.fields.iteration == stamp

/-- The parent of the cycle state `c` is a stamped state with an edge to `c`. -/
def Closes (t : Terrain N σ) (stamp : Nat) (c : N) (T : Nat → Table N) : Prop :=
  ∃ u m h, u ∈ t.stamped stamp T ∧ t.Edge u c ∧ t.markOf T c = some m ∧ m.parent = some h ∧
    t.handleOf T u = some h

variable {t : Terrain N σ} {T T' : Nat → Table N} {stamp : Nat} {v c : N} {m : Mark}

theorem Parted.mem_stamped (hT : t.Parted T) :
    v ∈ t.stamped stamp T ↔ ∃ m, t.markOf T v = some m ∧ m.Bears stamp := by
  rw [stamped, statesWhere, Finset.mem_filter, Option.any_eq_true]
  constructor
  · rintro ⟨-, m, hm, hstamp⟩
    exact ⟨m, hm, beq_iff_eq.mp hstamp⟩
  · rintro ⟨m, hm, hstamp⟩
    exact ⟨hT.mem_states hm, m, hm, beq_iff_eq.mpr hstamp⟩

theorem Parted.bears_iff (hT : t.Parted T) (hm : t.markOf T v = some m) :
    m.Bears stamp ↔ v ∈ t.stamped stamp T := by
  simp [hT.mem_stamped, hm]

theorem stamped_subset : t.stamped stamp T ⊆ t.states := Finset.filter_subset _ _

theorem Writes.stamped_insert [DecidableEq N] (hT : t.Parted T) (hw : t.Writes T v m T')
    (hm : m.Bears stamp) : t.stamped stamp T' = insert v (t.stamped stamp T) := by
  ext u
  rw [Finset.mem_insert, hw.parted.mem_stamped, hT.mem_stamped]
  rcases eq_or_ne u v with rfl | hne
  · exact ⟨fun _ => .inl rfl, fun _ => ⟨m, hw.mark_self, hm⟩⟩
  · rw [hw.mark_ne u hne, or_iff_right hne]

/-- Writing to a stamped state stamps no other. -/
theorem Writes.stamped_same (hT : t.Parted T) (hw : t.Writes T v m T') (hm : m.Bears stamp)
    (hv : v ∈ t.stamped stamp T) : t.stamped stamp T' = t.stamped stamp T := by
  classical
  rw [hw.stamped_insert hT hm, Finset.insert_eq_of_mem hv]

/-- A state that is stamped when it is expanded is one more in both regards. -/
theorem Writes.stamped_expand (hT : t.Parted T) (hw : t.Writes T v m T') (hm : m.Bears stamp)
    (hv : v ∉ t.stamped stamp T) {d : Desk N} {h : Handle} (hnode : d.table.node? h = some v)
    (targets : List N) :
    (t.stamped stamp T).val + expansions (.ok (.expand h targets)) d =
      (t.stamped stamp T').val := by
  classical
  rw [hw.stamped_insert hT hm, add_expansions_expand hnode hv]

/-- Stamping another state leaves the loop closed. -/
theorem Closes.write [DecidableEq N] (hT : t.Parted T) (hw : t.Writes T v m T')
    (hm : m.Bears stamp) (hne : c ≠ v) (h : t.Closes stamp c T) : t.Closes stamp c T' := by
  obtain ⟨u, mc, k, hu, hedge, hmc, hparent, hk⟩ := h
  refine ⟨u, mc, k, ?_, hedge, (hw.mark_ne c hne).trans hmc, hparent, hw.handle hk⟩
  rw [hw.stamped_insert hT hm]
  exact Finset.mem_insert_of_mem hu

end Terrain

/-! ## 2. What a trace keeps -/

/-- What the handling of an edge keeps in a trace from the state `c`, whose handle is `k`. -/
structure Tracing (t : Terrain N σ) (l : Ledger N) (stamp : Nat) (c : N) (k : Handle)
    (s : Scene N) : Prop where
  parted : t.Parted s.tables
  ledger : ∀ i, (s.desk i).ledger.share = l
  root : t.handleOf s.tables c = some k
  /-- Parents of stamped states lead back to the cycle state. -/
  climbs : ∀ {v}, v ∈ t.stamped stamp s.tables →
    ∃ path, Climbs t (Mark.Bears stamp) s.tables c path v
  /-- The stamped states are those that were visited; an edge to the cycle state closes the loop. -/
  frontier : s.Frontier t c (t.handleOf s.tables)
    (fun v => v ∈ t.stamped stamp s.tables ∧ v ≠ c) (t.stamped stamp s.tables)
  halted : ∀ {i}, s.halted i = true → t.Closes stamp c s.tables
  good : ∀ i, s.fault i = none

namespace Tracing

variable {t : Terrain N σ} {l : Ledger N} {stamp : Nat} {c : N} {k : Handle} {s s' : Scene N}
  {e : Edge N} {rest : Multiset (Edge N)} {m : Mark} {h : Handle}

theorem round_eq (hs : Tracing t l stamp c k s) (hstamp : l.round.toNat % 2 ^ 15 = stamp)
    (i : Nat) :
    (s.desk i).ledger.round.toNat % 2 ^ 15 = stamp := by
  rw [← hstamp, ← hs.ledger i]
  rfl

theorem cycleNode_eq (hs : Tracing t l stamp c k s) (hl : l.cycleNode = some k) (i : Nat) :
    (s.desk i).ledger.cycleNode = some k := by
  rw [← hl, ← hs.ledger i]
  rfl

/-- A stamped state is left alone. -/
theorem forget (hs : Tracing t l stamp c k s) (hp : s.pending = e ::ₘ rest)
    (hsource : e.source ≠ none) (hv : e.target ∈ t.stamped stamp s.tables) (hne : e.target ≠ c) :
    Tracing t l stamp c k
      (s.handled (t.home e.target) rest (.ok .next) (s.desk (t.home e.target))) := by
  generalize hs' : s.handled (t.home e.target) rest (.ok .next) (s.desk (t.home e.target)) = s'
  have htables : s'.tables = s.tables := by rw [← hs', Scene.tables_handled_same]
  have hhalted : s'.halted = s.halted := by rw [← hs', Scene.halted_handled rfl]
  have hmem : e ∈ s.pending := by rw [hp]; exact Multiset.mem_cons_self ..
  refine
    { parted := ?_, ledger := fun i => ?_, root := ?_, climbs := ?_, frontier := ?_
      halted := fun {i} hi => ?_, good := fun i => ?_ }
  · rw [htables]
    exact hs.parted
  · rw [← hs', Scene.desk_handled_same]
    exact hs.ledger i
  · rw [htables]
    exact hs.root
  · rw [htables]
    exact hs.climbs
  · rw [htables]
    refine hs.frontier.shrink hp (hs.frontier.mem_root hmem hsource) ?_ ?_ (fun hi => ?_)
      (fun h => h) (fun h => h) (.inl ⟨hv, hne⟩)
    · rw [← hs']
      exact add_zero rest
    · rw [← hs']
      exact Scene.total_handled_same _
    · rw [hhalted]
      exact hi
  · rw [htables]
    rw [hhalted] at hi
    exact hs.halted hi
  · rw [← hs', Scene.fault_handled]
    exact hs.good i

/-- An edge leads back to the cycle state, which gets a parent. -/
theorem close (hs : Tracing t l stamp c k s) {source : Handle} {d : Desk N}
    (hp : s.pending = ⟨some source, c⟩ ::ₘ rest) (hm : t.markOf s.tables c = some m)
    (hput : (s.desk (t.home c)).table.Puts c (m.replaceParent source) d.table)
    (hd : d.ledger = (s.desk (t.home c)).ledger) :
    Tracing t l stamp c k (s.handled (t.home c) rest (.ok .halt) d) := by
  classical
  have hmem : (⟨some source, c⟩ : Edge N) ∈ s.pending := by rw [hp]; exact Multiset.mem_cons_self ..
  obtain ⟨u, hu, hhandle, hedge⟩ := hs.frontier.edges hmem rfl
  have hc : c ∈ t.stamped stamp s.tables := hs.frontier.mem_root hmem nofun
  have hstamp : (m.replaceParent source).Bears stamp := by
    obtain ⟨m', hm', hbears⟩ := hs.parted.mem_stamped.mp hc
    obtain rfl := Option.some.inj (hm.symm.trans hm')
    rw [Mark.Bears, Mark.fields_replaceParent]
    exact hbears
  have hw : t.Writes s.tables c (m.replaceParent source)
      (s.handled (t.home c) rest (.ok .halt) d).tables := by
    rw [Scene.tables_handled]
    exact hs.parted.writes (hs.parted.mem_states hm) hput
  have hstamped : t.stamped stamp (s.handled (t.home c) rest (.ok .halt) d).tables =
      t.stamped stamp s.tables := hw.stamped_same hs.parted hstamp hc
  refine
    { parted := hw.parted, ledger := fun i => ?_, root := hw.handle hs.root, climbs := fun hv => ?_
      frontier := ?_, halted := fun _ => ?_, good := fun i => ?_ }
  · rcases eq_or_ne i (t.home c) with rfl | hne
    · rw [Scene.desk_handled_self, hd]
      exact hs.ledger _
    · rw [Scene.desk_handled_ne hne]
      exact hs.ledger i
  · -- the parent of the cycle state itself does not count for the others
    rw [hstamped] at hv
    obtain ⟨path, hpath⟩ := hs.climbs hv
    exact ⟨path, hpath.mono hw fun _ _ _ => ⟨hstamp, .inl rfl⟩⟩
  · rw [hstamped]
    refine hs.frontier.shrink hp hc (add_zero rest) ?_ Scene.halted_of_halted hw.handle (fun h => h)
      (.inr (by simp [Scene.handled, Scene.halts]))
    exact Scene.total_handled_of_eq (t.home_lt c) (by rw [hd])
  · exact ⟨u, _, source, by rw [hstamped]; exact hu, hedge, hw.mark_self,
      Mark.parent_replaceParent _ _, hw.handle hhandle⟩
  · rw [Scene.fault_handled]
    exact hs.good i

/-- A state is stamped and expanded. -/
theorem visit (hs : Tracing t l stamp c k s) (hp : s.pending = e ::ₘ rest)
    (hmark : s.Marked t e.target m (rest + (Edge.from h (t.targets e.target) : Multiset (Edge N)))
      (t.targets e.target).length 1 0 s')
    (hm : m.Bears stamp) (hnew : e.target ∉ t.stamped stamp s.tables)
    (hh : t.handleOf s'.tables e.target = some h)
    (hclimb : ∃ path, Climbs t (Mark.Bears stamp) s'.tables c path e.target)
    (hfirst : e.target ≠ c ∨ t.stamped stamp s.tables = ∅) : Tracing t l stamp c k s' := by
  classical
  have hw := hmark.writes
  have hstamped : t.stamped stamp s'.tables = insert e.target (t.stamped stamp s.tables) :=
    hw.stamped_insert hs.parted hm
  refine
    { parted := hw.parted, ledger := fun i => (hmark.share i).trans (hs.ledger i)
      root := hw.handle hs.root, climbs := fun {u} hu => ?_, frontier := ?_
      halted := fun {i} hi => ?_, good := fun i => by rw [hmark.fault]; exact hs.good i }
  · rw [hstamped, Finset.mem_insert] at hu
    rcases hu with rfl | hu
    · exact hclimb
    · obtain ⟨path, hpath⟩ := hs.climbs hu
      refine ⟨path, hpath.mono hw fun m₀ hm₀ hok => ?_⟩
      exact absurd (hs.parted.mem_stamped.mpr ⟨m₀, hm₀, hok⟩) hnew
  · rw [hstamped]
    exact hs.frontier.grow hp hnew hmark.pending hmark.generated hmark.halted hw.handle hh
      (fun hv => ⟨Finset.mem_insert_of_mem hv.1, hv.2⟩)
      (hfirst.imp_left fun hne => ⟨Finset.mem_insert_self .., hne⟩)
  · rw [hmark.halted] at hi
    have hclosed := hs.halted hi
    rcases hfirst with hne | hempty
    · exact hclosed.write hs.parted hw hm hne.symm
    · obtain ⟨u, _, _, hu, -⟩ := hclosed
      rw [hempty] at hu
      exact absurd hu (Finset.notMem_empty u)

end Tracing

/-! ## 3. Handling an edge -/

section Rule

variable {d : Desk N} {h : Handle} {m : Mark}

theorem traceEdge_seed (fresh : Bool) (hm : d.table.mark? h = some m) :
    (traceEdge none h fresh : DeskM N Action) d =
      (.ok .expand, { d with table := d.table.setMark h (m.setIteration d.ledger.round) }) := by
  rw [traceEdge, DeskM.get_bind]
  change (do updateMark h (·.setIteration d.ledger.round); return .expand : DeskM N Action) d = _
  rw [DeskM.bind_ok (updateMark_eq hm _)]
  rfl

/-- The trace comes back to the cycle state. -/
theorem traceEdge_back (source : Handle) (fresh : Bool) (hnode : d.ledger.cycleNode = some h)
    (hm : d.table.mark? h = some m) :
    (traceEdge (some source) h fresh : DeskM N Action) d =
      (.ok .terminate, { d with table := d.table.setMark h (m.replaceParent source) }) := by
  rw [traceEdge, DeskM.get_bind]
  dsimp only
  rw [DeskM.bind_ok (mark_eq hm), if_pos hnode]
  rfl

theorem traceEdge_stamped (source : Handle) (hnode : d.ledger.cycleNode ≠ some h)
    (hm : d.table.mark? h = some m) (hstamp : m.Bears (d.ledger.round.toNat % 2 ^ 15)) :
    (traceEdge (some source) h false : DeskM N Action) d = (.ok .forget, d) := by
  rw [traceEdge, DeskM.get_bind]
  dsimp only
  rw [DeskM.bind_ok (mark_eq hm), if_neg hnode, Mark.visitedIn_iff.mpr hstamp]
  rfl

theorem traceEdge_unstamped (source : Handle) {fresh : Bool} (hnode : d.ledger.cycleNode ≠ some h)
    (hm : d.table.mark? h = some m)
    (hnew : fresh = true ∨ ¬m.Bears (d.ledger.round.toNat % 2 ^ 15)) :
    (traceEdge (some source) h fresh : DeskM N Action) d =
      (.ok .expand, { d with
        table := d.table.setMark h ((m.setIteration d.ledger.round).replaceParent source) }) := by
  have hcond : (!fresh && m.visitedIn d.ledger.round) = false := by
    rcases hnew with rfl | hnew
    · rfl
    · rw [Bool.eq_false_iff.mpr fun hv => hnew (Mark.visitedIn_iff.mp hv), Bool.and_false]
  rw [traceEdge, DeskM.get_bind]
  dsimp only
  rw [DeskM.bind_ok (mark_eq hm), if_neg hnode, hcond]
  rfl

end Rule

section Handles

variable [Std.TransOrd N] [Std.LawfulEqOrd N]

/-- Storing a state at its home, known or not. -/
theorem Terrain.Parted.store_cases {t : Terrain N σ} {T : Nat → Table N} (hT : t.Parted T) {v : N}
    {d : Desk N} (hd : d.table = T (t.home v)) :
    ∃ table h fresh m, (T (t.home v)).Puts v m table ∧ table.find? v = some h ∧
      (Desk.store v (t.promise.hash v) : DeskM N (Handle × Bool)) d =
        (.ok (h, fresh), { d with table := table }) ∧
      (fresh = true ∧ t.markOf T v = none ∨ fresh = false ∧ t.markOf T v = some m) := by
  cases hv : t.handleOf T v with
  | some h =>
    obtain ⟨m, hm⟩ := Terrain.exists_markOf hv
    refine ⟨d.table, h, false, m, ?_, by rw [hd]; exact hv, hT.store_known hd hv, .inr ⟨rfl, hm⟩⟩
    rw [hd]
    exact .refl hm
  | none =>
    obtain ⟨table, h, hput, hfind, hst⟩ := hT.store_new hd hv
    exact ⟨table, h, true, {}, hput, hfind, hst, .inl ⟨rfl, Terrain.handleOf_eq_none_iff.mp hv⟩⟩

/-- How an edge is handled in a trace: with the result `r`, and leaving the desk `d`. -/
structure Scene.Traces (t : Terrain N σ) (l : Ledger N) (stamp : Nat) (c : N) (k : Handle)
    (s : Scene N) (e : Edge N) (rest : Multiset (Edge N)) (r : Except Stop (Progress N))
    (d : Desk N) : Prop where
  yields : Yields (handleEdge (t.task .trace) e) (s.desk (t.home e.target)) r d
  regular : Regular r
  transitions : d.ledger.transitions =
    (s.desk (t.home e.target)).ledger.transitions + (newEdges r).length
  next : Tracing t l stamp c k (s.handled (t.home e.target) rest r d)
  /-- A state is expanded exactly when it is stamped. -/
  expands : (t.stamped stamp s.tables).val + expansions r d =
    (t.stamped stamp (s.handled (t.home e.target) rest r d).tables).val
  advances : t.Advances (Mark.Bears stamp) c True s.tables e r
    (Function.update s.tables (t.home e.target) d.table)

namespace Tracing

variable {t : Terrain N σ} {l : Ledger N} {c : N} {k : Handle} {s : Scene N} {v : N}
  {rest : Multiset (Edge N)} {stamp : Nat}

omit [Std.TransOrd N] [Std.LawfulEqOrd N] in
/-- What is visited is what is stamped. -/
theorem not_visited (hs : Tracing t l stamp c k s) (hv : v ∉ t.stamped stamp s.tables) :
    v ∉ t.visited (Mark.Bears stamp) s.tables :=
  fun hmem => hv (hs.parted.mem_stamped.mpr hmem)

/-- The cycle state is stamped first. -/
theorem handles_seed (hs : Tracing t l stamp c k s) (hstamp : l.round.toNat % 2 ^ 15 = stamp)
    (hp : s.pending = ⟨none, v⟩ ::ₘ rest) :
    ∃ r d, s.Traces t l stamp c k ⟨none, v⟩ rest r d := by
  obtain ⟨-, hempty, heq⟩ :=
    hs.frontier.eq_seed (e := ⟨none, v⟩) (by rw [hp]; exact Multiset.mem_cons_self ..) rfl
  obtain rfl : v = c := congrArg Edge.target heq
  obtain ⟨m, hm⟩ := Terrain.exists_markOf hs.root
  have hfits := hs.parted.fits (t.home_lt v)
  have hst := hs.parted.store_known (d := s.desk (t.home v)) rfl hs.root
  have hbears : (m.setIteration (s.desk (t.home v)).ledger.round).Bears stamp := by
    rw [Mark.Bears, Mark.fields_setIteration]
    exact hs.round_eq hstamp _
  have hput := hfits.puts_setMark hs.root (m.setIteration (s.desk (t.home v)).ledger.round)
  have hnode : ((s.tables (t.home v)).setMark k
      (m.setIteration (s.desk (t.home v)).ledger.round)).node? k = some v := by
    rw [Table.node?_setMark]
    exact hs.parted.node?_eq hs.root
  have hstates := hs.parted.mem_states hm
  have hx := yields_expand_plain (t := t) (d := { s.desk (t.home v) with
    table := (s.tables (t.home v)).setMark k
      (m.setIteration (s.desk (t.home v)).ledger.round) }) .trace hstates rfl hnode
  have hnew : v ∉ t.stamped stamp s.tables := by
    rw [hempty]
    exact Finset.notMem_empty v
  have hw := hs.parted.writes hstates hput
  refine ⟨_, _, yields_expand hst (traceEdge_seed false ((hs.parted.mark?_eq hs.root).trans hm)) hx,
    trivial, ?_, ?_, ?_,
    .visits (hs.not_visited hnew) hw hbears (fun hne => absurd rfl hne) (hw.handle hs.root)⟩
  · rw [length_newEdges]
    rfl
  · have hmark := Scene.marked_expand hs.parted hstates (d := { s.desk (t.home v) with
      table := (s.tables (t.home v)).setMark k (m.setIteration (s.desk (t.home v)).ledger.round)
      ledger := (s.desk (t.home v)).ledger.expanded (t.targets v).length }) hput rfl rfl rfl 0 rfl
        rfl k rest
    exact hs.visit (e := ⟨none, v⟩) hp hmark hbears hnew (hmark.writes.handle hs.root)
      ⟨[v], .root hmark.writes.mark_self hbears⟩ (.inr hempty)
  · rw [Scene.tables_handled]
    exact hw.stamped_expand hs.parted hbears hnew hnode _

theorem handles_back (hs : Tracing t l stamp c k s) (hl : l.cycleNode = some k) {source : Handle}
    (hp : s.pending = ⟨some source, c⟩ ::ₘ rest) :
    ∃ r d, s.Traces t l stamp c k ⟨some source, c⟩ rest r d := by
  have hc : c ∈ t.stamped stamp s.tables :=
    hs.frontier.mem_root (e := ⟨some source, c⟩) (by rw [hp]; exact Multiset.mem_cons_self ..) nofun
  obtain ⟨m, hm, hbears⟩ := hs.parted.mem_stamped.mp hc
  have hst := hs.parted.store_known (d := s.desk (t.home c)) rfl hs.root
  have hback := traceEdge_back source false (hs.cycleNode_eq hl (t.home c))
    ((hs.parted.mark?_eq hs.root).trans hm)
  have hput := (hs.parted.fits (t.home_lt c)).puts_setMark hs.root (m.replaceParent source)
  have hbears' : (m.replaceParent source).Bears stamp := by
    rw [Mark.Bears, Mark.fields_replaceParent]
    exact hbears
  have hw := hs.parted.writes (hs.parted.mem_states hm) hput
  refine ⟨_, _, yields_halt hst hback, trivial, rfl, hs.close hp hm hput rfl, ?_,
    .closes trivial rfl ⟨m, hm, hbears⟩ hw hbears' (Mark.parent_replaceParent _ _)⟩
  rw [Scene.tables_handled]
  exact (add_zero _).trans (congrArg Finset.val (hw.stamped_same hs.parted hbears' hc).symm)

theorem handles_stamped (hs : Tracing t l stamp c k s) (hstamp : l.round.toNat % 2 ^ 15 = stamp)
    (hl : l.cycleNode = some k) {source : Handle} (hp : s.pending = ⟨some source, v⟩ ::ₘ rest)
    (hv : v ≠ c) (hin : v ∈ t.stamped stamp s.tables) :
    ∃ r d, s.Traces t l stamp c k ⟨some source, v⟩ rest r d := by
  obtain ⟨m, hm, hbears⟩ := hs.parted.mem_stamped.mp hin
  obtain ⟨h, hh⟩ := Terrain.exists_handleOf hm
  have hst := hs.parted.store_known (d := s.desk (t.home v)) rfl hh
  have hother : (s.desk (t.home v)).ledger.cycleNode ≠ some h := by
    rw [hs.cycleNode_eq hl]
    rintro ⟨⟩
    exact hv (hs.parted.handle_inj hh hs.root)
  have hforget := traceEdge_stamped source hother ((hs.parted.mark?_eq hh).trans hm)
    (by rw [hs.round_eq hstamp]; exact hbears)
  have hw := hs.parted.writes (hs.parted.mem_states hm) (.refl hm)
  refine ⟨_, _, yields_forget hst hforget, trivial, rfl,
    hs.forget (e := ⟨some source, v⟩) hp nofun hin hv, ?_,
    .skips ⟨m, hm, hbears⟩ (fun _ => ⟨hv, rfl⟩) hw hbears
      (fun hm₀ => congrArg _ (Option.some.inj (hm.symm.trans hm₀))) rfl⟩
  rw [Scene.tables_handled_same]
  exact add_zero _

/-- A state without the stamp gets it, whether it was stored before or not. -/
theorem handles_unstamped [t.Rooted] (hs : Tracing t l stamp c k s)
    (hstamp : l.round.toNat % 2 ^ 15 = stamp) (hl : l.cycleNode = some k) {source : Handle}
    (hp : s.pending = ⟨some source, v⟩ ::ₘ rest)
    (hv : v ≠ c) (hin : v ∉ t.stamped stamp s.tables) :
    ∃ r d, s.Traces t l stamp c k ⟨some source, v⟩ rest r d := by
  obtain ⟨u, hu, hhandle, hedge⟩ :=
    hs.frontier.edges (by rw [hp]; exact Multiset.mem_cons_self ..) rfl
  have hstates : v ∈ t.states := Terrain.mem_states_of_edge (Terrain.stamped_subset hu) hedge
  obtain ⟨table, h, fresh, m, hput, hfind, hst, hcases⟩ :=
    hs.parted.store_cases (d := s.desk (t.home v)) (v := v) rfl
  have hfits := hs.parted.fits_of_puts hstates hput
  have hmark? : table.mark? h = some m := by
    rw [hfits.mark?_eq hfind, hput.mark_self]
  have hother : (s.desk (t.home v)).ledger.cycleNode ≠ some h := by
    rw [hs.cycleNode_eq hl]
    rintro ⟨⟩
    have hw := hs.parted.writes hstates hput
    exact hv (hw.parted.handle_inj (Terrain.handleOf_update hfind) (hw.handle hs.root))
  have hnew : fresh = true ∨ ¬m.Bears ((s.desk (t.home v)).ledger.round.toNat % 2 ^ 15) := by
    rcases hcases with ⟨hf, -⟩ | ⟨-, hm⟩
    · exact .inl hf
    · rw [hs.round_eq hstamp]
      exact .inr fun hbears => hin (hs.parted.mem_stamped.mpr ⟨m, hm, hbears⟩)
  have hvisit := traceEdge_unstamped (d := { s.desk (t.home v) with table := table }) source hother
    hmark? hnew
  generalize hm' : (m.setIteration (s.desk (t.home v)).ledger.round).replaceParent source = m'
    at hvisit
  have hbears : m'.Bears stamp := by
    rw [← hm', Mark.Bears, Mark.fields_replaceParent, Mark.fields_setIteration]
    exact hs.round_eq hstamp _
  have hput' := hfits.puts_setMark hfind m'
  have hnode : (table.setMark h m').node? h = some v := by
    rw [Table.node?_setMark]
    exact hfits.node?_eq_some hfind
  have hx := yields_expand_plain (t := t) (d := { s.desk (t.home v) with
    table := table.setMark h m' }) .trace hstates rfl hnode
  have hparent : m'.parent = some source := by
    rw [← hm']
    exact Mark.parent_replaceParent _ _
  have hh : t.handleOf (Function.update s.tables (t.home v) (table.setMark h m')) v = some h :=
    Terrain.handleOf_update (hput'.find?_of_some hfind)
  have hw := hs.parted.writes hstates (hput.trans hput')
  refine ⟨_, _, yields_expand hst hvisit hx, trivial, ?_, ?_, ?_,
    .visits (hs.not_visited hin) hw hbears (fun _ => hparent) hh⟩
  · rw [length_newEdges]
    rfl
  · have hmark := Scene.marked_expand hs.parted hstates (d := { s.desk (t.home v) with
      table := table.setMark h m'
      ledger := (s.desk (t.home v)).ledger.expanded (t.targets v).length })
      (hput.trans hput') rfl rfl rfl 0 rfl rfl h rest
    refine hs.visit (e := ⟨some source, v⟩) hp hmark hbears hin ?_ ?_ (.inl hv)
    · rw [Scene.tables_handled]
      exact hh
    · obtain ⟨path, hpath⟩ := hs.climbs hu
      have hpath' := hpath.mono hmark.writes fun m₀ hm₀ hok =>
        absurd (hs.parted.mem_stamped.mpr ⟨m₀, hm₀, hok⟩) hin
      exact ⟨path ++ [v], .step hv hmark.writes.mark_self hbears hparent
        (hmark.writes.handle hhandle) hedge hpath'⟩
  · rw [Scene.tables_handled]
    exact hw.stamped_expand hs.parted hbears hin hnode _

/-- Every edge can be handled. -/
theorem traces [t.Rooted] (hs : Tracing t l stamp c k s) (hstamp : l.round.toNat % 2 ^ 15 = stamp)
    (hl : l.cycleNode = some k) {e : Edge N} (hp : s.pending = e ::ₘ rest) :
    ∃ r d, s.Traces t l stamp c k e rest r d := by
  obtain ⟨source, v⟩ := e
  cases source with
  | none => exact hs.handles_seed hstamp hp
  | some source =>
    by_cases hv : v = c
    · obtain rfl := hv
      exact hs.handles_back hl hp
    by_cases hin : v ∈ t.stamped stamp s.tables
    · exact hs.handles_stamped hstamp hl hp hv hin
    · exact hs.handles_unstamped hstamp hl hp hv hin

/-- **Handling an edge keeps the invariant of a trace.** -/
theorem keeps [t.Rooted] (hstamp : l.round.toNat % 2 ^ 15 = stamp) (hl : l.cycleNode = some k) :
    Scene.Keeps t .trace t.edgeCount (Tracing t l stamp c k) where
  peers hs i hi := hs.parted.peers i hi
  bound hs := hs.frontier.generated_le Terrain.stamped_subset
  step {_ s e rest} hs hp _ := by
    obtain ⟨r, d, h⟩ := hs.traces hstamp hl hp
    exact ⟨r, d, h.yields, h.regular, h.transitions, h.next⟩
  drop {_ s e rest} hs hp hh := by
    -- a worker halts only once the cycle state is stamped
    obtain ⟨u, -, -, hu, -⟩ := hs.halted hh
    refine { hs with frontier := hs.frontier.drop hp ?_ hh }
    rcases hs.frontier.origin with ⟨-, hempty⟩ | ⟨hc, -⟩
    · rw [hempty] at hu
      exact absurd hu (Finset.notMem_empty u)
    · exact hc
  stop {_ s i j} hs hf := by
    rw [hs.good j] at hf
    exact nomatch hf

/-- The same, with the states that have been expanded: they are the stamped ones. -/
theorem tracks [t.Rooted] (hstamp : l.round.toNat % 2 ^ 15 = stamp) (hl : l.cycleNode = some k) :
    Scene.Tracks t .trace t.edgeCount fun M s =>
      M = (t.stamped stamp s.tables).val ∧ Tracing t l stamp c k s where
  peers hs i hi := hs.2.parted.peers i hi
  bound hs := (keeps hstamp hl).bound (X := 0) hs.2
  step {M s e rest} hs hp _ := by
    obtain ⟨rfl, hs⟩ := hs
    obtain ⟨r, d, h⟩ := hs.traces hstamp hl hp
    exact ⟨r, d, h.yields, h.regular, h.transitions, h.expands, h.next⟩
  drop hs hp hh := ⟨hs.1, (keeps hstamp hl).drop (X := 0) hs.2 hp hh⟩
  stop hs hf := ⟨hs.1, (keeps hstamp hl).stop (X := 0) hs.2 hf⟩

end Tracing

end Handles

/-! ## 4. A whole trace -/

section Trace

variable {t : Terrain N σ} {l : Ledger N} {T : Nat → Table N} {stamp : Nat} {c : N} {k : Handle}

theorem Tracing.start_of_parted {o : Opening N} (htables : (o.scene t.peers).tables = T)
    (hT : t.Parted T) (hseeds : o.seeds = t.seedAt c) (hledger : ∀ i, (o.desk i).ledger = l)
    (hl : l.share = l) (hk : t.handleOf T c = some k)
    (hstamps : ∀ {v m}, t.markOf T v = some m → ¬m.Bears stamp) :
    Tracing t l stamp c k (o.scene t.peers) := by
  have hempty : t.stamped stamp T = ∅ := by
    refine Finset.eq_empty_of_forall_notMem fun v hv => ?_
    obtain ⟨m, hm, hbears⟩ := hT.mem_stamped.mp hv
    exact hstamps hm hbears
  have hpending := Opening.pending_seedAt (t := t) hseeds
  have hgenerated : (o.scene t.peers).generated t = 0 := by
    rw [Scene.generated, Scene.total]
    refine Finset.sum_eq_zero fun i _ => ?_
    change (o.desk i).ledger.transitions = 0
    rw [hledger, ← hl]
    rfl
  refine
    { parted := by rw [htables]; exact hT
      ledger := fun i => ?_
      root := by rw [htables]; exact hk
      climbs := fun hv => ?_
      frontier := by rw [htables, hempty]; exact .start hpending hgenerated
      halted := fun h => absurd h Bool.false_ne_true
      good := fun _ => rfl }
  · change (o.desk i).ledger.share = l
    rw [hledger, hl]
  · rw [htables, hempty] at hv
    exact absurd hv (Finset.notMem_empty _)

/-- **A trace from a state on a cycle closes the loop.** -/
theorem Tracing.closes {s : Scene N} (hs : Tracing t l stamp c k s) (hdone : s.pending = 0)
    (hcycle : t.OnCycle c) : t.Closes stamp c s.tables := by
  obtain ⟨hc, hsettled⟩ := hs.frontier.settled_of_done hdone
  by_contra hopen
  -- nobody has halted, so every edge from a stamped state was followed
  have hnext : ∀ {u v}, u ∈ t.stamped stamp s.tables → t.Edge u v →
      v ∈ t.stamped stamp s.tables ∧ v ≠ c := by
    intro u v hu hedge
    exact (hsettled hu hedge).resolve_right fun hhalt => hopen (hs.halted hhalt)
  obtain ⟨u, hreach, hedge⟩ := Relation.TransGen.tail'_iff.mp hcycle
  have hu : u ∈ t.stamped stamp s.tables := by
    clear hedge
    induction hreach with
    | refl => exact hc
    | tail _ hedge ih => exact (hnext ih hedge).1
  exact (hnext hu hedge).2 rfl

/-- A run after a trace: the parents from the cycle state `c` lead once around the cycle. -/
structure Run.Traced (t : Terrain N σ) (stamp : Nat) (c : N) (k : Handle) (desk : Nat → Desk N)
    (cursor : Nat → Nat) (r : Run N σ) : Prop where
  rests : r.cluster.Rests t desk cursor
  parted : t.Parted fun i => (desk i).table
  root : t.handleOf (fun i => (desk i).table) c = some k
  closes : t.Closes stamp c fun i => (desk i).table
  climbs : ∀ {v}, v ∈ t.stamped stamp (fun i => (desk i).table) →
    ∃ path, Climbs t (Mark.Bears stamp) (fun i => (desk i).table) c path v
  counted : (t.stamped stamp fun i => (desk i).table).card ≤ 1 + r.generated

/-- **What a trace leaves**, if it set out from a state on a cycle. -/
theorem Scene.Leaves.traced {s : Scene N} {cursor : Nat → Nat} {r r' : Run N σ}
    (h : s.Leaves t cursor (Tracing t l stamp c k) r r') (hcycle : t.OnCycle c) :
    r'.Traced t stamp c k s.desk cursor := by
  have hs := h.holds
  refine ⟨h.rests, hs.parted, hs.root, hs.closes h.done hcycle, hs.climbs, ?_⟩
  have hcount := hs.frontier.counted
  rw [h.generated]
  exact (Nat.le_of_add_right_le hcount).trans (by omega)

/-- What the workers begin a trace with. -/
def Terrain.tracing (t : Terrain N σ) (c : N) (desk : Nat → Desk N) (cursor : Nat → Nat)
    (l : Ledger N) : Opening N where
  seeds := t.seedAt c
  desk i := { desk i with ledger := l.share }
  cursor := cursor

variable {desk : Nat → Desk N} {cursor : Nat → Nat}

theorem yields_start_trace (hT : t.Parted fun i => (desk i).table)
    (hk : t.handleOf (fun i => (desk i).table) c = some k) (hnode : l.cycleNode = some k) :
    ∀ i < t.peers, Yields (Pass.trace.start t.graph) { desk i with ledger := l.share }
      (.ok ((t.tracing c desk cursor l).seeds i)) ((t.tracing c desk cursor l).desk i) := by
  intro i hi
  refine yields_atDesk ?_
  change ownNode l.cycleNode ((t.tracing c desk cursor l).desk i) = _
  rw [hnode]
  exact ownNode_eq hT hk hi rfl

variable [Std.TransOrd N] [Std.LawfulEqOrd N] {plan : Plan N σ} {r : Run N σ}

/-- What is known at every moment of a trace. -/
theorem Check.traced_driveWorkers [t.Rooted] (hplan : plan.Covers t)
    (hr : r.cluster.Rests t desk cursor) (hT : t.Parted fun i => (desk i).table)
    (hk : t.handleOf (fun i => (desk i).table) c = some k) (hnode : r.ledger.cycleNode = some k)
    (hstamps : ∀ {v m}, t.markOf (fun i => (desk i).table) v = some m →
      ¬m.Bears (r.ledger.round.toNat % 2 ^ 15)) (left : Nat) :
    (driveWorkers plan .trace { r with left := left }).cluster.Orderly t .trace
        (t.tracing c desk cursor r.ledger) ∧
      expanded plan .trace { r with left := left } =
        (t.stamped (r.ledger.round.toNat % 2 ^ 15)
          ((driveWorkers plan .trace { r with left := left }).cluster.scene
            (t.tracing c desk cursor r.ledger)).tables).val ∧
      Tracing t r.ledger.share (r.ledger.round.toNat % 2 ^ 15) c k
        ((driveWorkers plan .trace { r with left := left }).cluster.scene
          (t.tracing c desk cursor r.ledger)) := by
  have hstart : Tracing t r.ledger.share (r.ledger.round.toNat % 2 ^ 15) c k
      ((t.tracing c desk cursor r.ledger).scene t.peers) :=
    .start_of_parted rfl hT rfl (fun _ => rfl) rfl hk hstamps
  have htracks := Tracing.tracks (t := t) (c := c) (l := r.ledger.share) rfl hnode
  refine tracks_driveWorkers hplan htracks
    (o := t.tracing c desk cursor r.ledger) hr (yields_start_trace hT hk hnode)
    (fun i v hv => Terrain.home_of_mem_seedAt hv) ⟨?_, hstart⟩ left
  refine (Finset.val_eq_zero.mpr (Finset.eq_empty_of_forall_notMem fun v hv => ?_)).symm
  obtain ⟨m, hm, hbears⟩ := hT.mem_stamped.mp hv
  exact hstamps hm hbears

/-- **The trace gives every state on a cycle the state before it as its parent.** -/
theorem meets_trace [t.Rooted] (hplan : plan.Covers t) (hr : r.cluster.Rests t desk cursor)
    (hT : t.Parted fun i => (desk i).table)
    (hk : t.handleOf (fun i => (desk i).table) c = some k) (hnode : r.ledger.cycleNode = some k)
    (hstamps : ∀ {v m}, t.markOf (fun i => (desk i).table) v = some m →
      ¬m.Bears (r.ledger.round.toNat % 2 ^ 15))
    (hcycle : t.OnCycle c) :
    Meets plan.Fair (Check.superstep plan .trace) r
      (fun _ r' => ∃ desk', r'.Traced t (r.ledger.round.toNat % 2 ^ 15) c k desk' cursor)
      (fun _ _ => False) := by
  have hstep := meets_superstep hplan
    (Tracing.keeps (t := t) (c := c) (l := r.ledger.share) rfl hnode)
    (o := t.tracing c desk cursor r.ledger) hr (yields_start_trace hT hk hnode)
    (fun i v hv => Terrain.home_of_mem_seedAt hv)
    (Tracing.start_of_parted rfl hT rfl (fun _ => rfl) rfl hk hstamps)
  refine hstep.mono ?_ ?_
  · rintro - r' ⟨s, hleaves⟩
    exact ⟨s.desk, hleaves.traced hcycle⟩
  · rintro f r' ⟨s, i, hs, hf, -⟩
    rw [hs.good i] at hf
    exact nomatch hf

end Trace

end FairCycle
