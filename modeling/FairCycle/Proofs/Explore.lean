/-
# Exploration

The exploration stores every state that it comes to, notes the first parent of each, and marks the
accepting ones as candidates.  It may find out that an accepting state lies on a cycle, from an
edge that leads back to its source or, with one worker, from a rank that comes back; then the
worker stops.

`Exploring` is what the handling of an edge keeps, and `Explored` is what is left of it at the end:
a cycle state that does lie on a cycle, or all reachable states.
-/
import FairCycle.Proofs.Climb
import FairCycle.Proofs.Frontier
import FairCycle.Proofs.Marks
import FairCycle.Proofs.Superstep

namespace FairCycle

open Desk StepM

variable {N σ : Type} [Ord N]

/-! ## 1. Ranks that are handed on -/

/-- A rank that a state hands on: the largest it has seen, or its own if it is accepting. -/
def Carries (source : Handle) (m : Mark) (rank : UInt32) : Prop :=
  rank = m.ancestor ∨ m.fields.inF = true ∧ source.rank? = some rank

section Desk

variable {d : Desk N} {source target : Handle} {ms m : Mark} {v : N}

theorem rank_eq {h : Handle} {r : UInt32} (hr : h.rank? = some r) (d : Desk N) :
    (rank h : DeskM N UInt32) d = (.ok r, d) := by
  unfold rank
  rw [hr]
  rfl

theorem carriedRank_eq (hs : d.table.mark? source = some ms) (hr : source.rank?.isSome) :
    ∃ c, Carries source ms c ∧ (carriedRank source : DeskM N UInt32) d = (.ok c, d) := by
  obtain ⟨r, hr⟩ := Option.isSome_iff_exists.mp hr
  cases hf : ms.inF with
  | true =>
    refine ⟨max ms.ancestor r, ?_, ?_⟩
    · have hmax : max ms.ancestor r = if ms.ancestor ≤ r then r else ms.ancestor := rfl
      rw [hmax]
      split
      · exact .inr ⟨hf, hr⟩
      · exact .inl rfl
    · rw [carriedRank, DeskM.bind_ok (mark_eq hs), if_pos hf, DeskM.bind_ok (rank_eq hr d)]
      rfl
  | false =>
    refine ⟨ms.ancestor, .inl rfl, ?_⟩
    rw [carriedRank, DeskM.bind_ok (mark_eq hs), if_neg (by rw [hf]; decide)]
    rfl

/-- What comes of handing a rank on: an accepting state gets its own rank back, or the rank is
noted if it is larger than the one before. -/
theorem handOn_cases (hd : d.table.Fits) (hs : d.table.mark? source = some ms)
    (hsr : source.rank?.isSome) (ht : d.table.find? v = some target)
    (hm : d.table.markOf v = some m) (htr : target.rank?.isSome) :
    (∃ c, Carries source ms c ∧ c ≠ 0 ∧ m.fields.inF = true ∧ target.rank? = some c ∧
        (handOn source target : DeskM N Bool) d = (.ok true, d)) ∨
      ∃ m' table, d.table.Puts v m' table ∧ m'.fields = m.fields ∧ m'.parent = m.parent ∧
        (m'.ancestor = m.ancestor ∨ Carries source ms m'.ancestor) ∧
        (handOn source target : DeskM N Bool) d = (.ok false, { d with table := table }) := by
  obtain ⟨c, hc, hcarried⟩ := carriedRank_eq hs hsr
  obtain ⟨r, hr⟩ := Option.isSome_iff_exists.mp htr
  have hmark : (mark target : DeskM N Mark) d = (.ok m, d) :=
    mark_eq (by rw [hd.mark?_eq ht, hm])
  rw [handOn, DeskM.bind_ok hcarried]
  by_cases hc0 : c = 0
  · rw [if_pos hc0]
    exact .inr ⟨m, d.table, .refl hm, rfl, rfl, .inl rfl, rfl⟩
  rw [if_neg hc0, DeskM.bind_ok hmark]
  -- whether the rank that comes is the state's own
  have hback : ∀ k : Bool → DeskM N Bool,
      (if m.inF = true then do k (← (· == c) <$> rank target) else do k (← pure false)) d =
        k (m.inF && r == c) d := by
    intro k
    cases m.inF with
    | true =>
      rw [if_pos rfl, map_eq_pure_bind, bind_assoc, DeskM.bind_ok (rank_eq hr d)]
      rfl
    | false => rfl
  refine Or.imp ?_ ?_ (Bool.eq_false_or_eq_true (m.inF && r == c))
  · intro hown
    rw [Bool.and_eq_true, beq_iff_eq] at hown
    refine ⟨c, hc, hc0, hown.1, hown.2 ▸ hr, (hback _).trans ?_⟩
    rw [hown.1, hown.2, beq_self_eq_true]
    rfl
  · intro hother
    by_cases hlt : m.ancestor < c
    · refine ⟨m.setAncestor c, d.table.setMark target (m.setAncestor c), hd.puts_setMark ht _,
        Mark.fields_setAncestor m c, rfl, .inr hc, (hback _).trans ?_⟩
      rw [hother, if_neg (by decide), if_pos hlt]
      rfl
    · refine ⟨m, d.table, .refl hm, rfl, rfl, .inl rfl, (hback _).trans ?_⟩
      rw [hother, if_neg (by decide), if_neg hlt]
      rfl

/-! ## 2. Looking out for cycles -/

/-- Looking out either finds that an accepting state is on a cycle, by an edge from itself or by
its own rank, or notes a rank at most. -/
theorem lookOut_cases (hd : d.table.Fits)
    (hs : d.table.peers = 1 → d.table.mark? source = some ms ∧ source.rank?.isSome)
    (ht : d.table.find? v = some target) (hm : d.table.markOf v = some m)
    (htr : target.rank?.isSome) :
    (m.fields.inF = true ∧
        (source = target ∨ d.table.peers = 1 ∧ ∃ c, Carries source ms c ∧ c ≠ 0 ∧
          target.rank? = some c) ∧
        (lookOut source target : DeskM N Action) d =
          (.ok .terminate, { d with ledger := d.ledger.recordCycle target })) ∨
      ((source = target → m.fields.inF = false) ∧
        ∃ m' table, d.table.Puts v m' table ∧ m'.fields = m.fields ∧ m'.parent = m.parent ∧
          (m'.ancestor = m.ancestor ∨ d.table.peers = 1 ∧ Carries source ms m'.ancestor) ∧
          (lookOut source target : DeskM N Action) d =
            (.ok .follow, { d with table := table })) := by
  have hmark : (mark target : DeskM N Mark) d = (.ok m, d) :=
    mark_eq (by rw [hd.mark?_eq ht, hm])
  -- what is found at once, and what the rank tells
  have hlook : (lookOut source target : DeskM N Action) d =
      (if decide (source = target) && m.inF then do
        note (·.recordCycle target)
        return .terminate
      else if d.table.peers = 1 then do
        if ← handOn source target then
          note (·.recordCycle target)
          return .terminate
        else return .follow
      else return .follow : DeskM N Action) d := by
    unfold lookOut
    by_cases heq : source = target
    · simp only [if_pos heq, decide_eq_true heq, Bool.true_and]
      rw [map_eq_pure_bind, bind_assoc, DeskM.bind_ok hmark]
      cases m.inF
      · change (if d.table.peers = 1 then _ else _ : DeskM N Action) d = _
        split
        · rfl
        · rfl
      · rfl
    · simp only [if_neg heq, decide_eq_false heq, Bool.false_and]
      change (if d.table.peers = 1 then _ else _ : DeskM N Action) d = _
      split
      · rfl
      · rfl
  rw [hlook]
  by_cases hloop : (decide (source = target) && m.inF) = true
  · rw [if_pos hloop]
    rw [Bool.and_eq_true, decide_eq_true_iff] at hloop
    exact .inl ⟨hloop.2, .inl hloop.1, rfl⟩
  rw [if_neg hloop]
  have hself : source = target → m.fields.inF = false := by
    intro heq
    rw [decide_eq_true heq, Bool.true_and, Bool.not_eq_true] at hloop
    exact hloop
  by_cases hp : d.table.peers = 1
  · rw [if_pos hp]
    obtain ⟨hs, hsr⟩ := hs hp
    rcases handOn_cases hd hs hsr ht hm htr with
      ⟨c, hc, hc0, hf, hr, hand⟩ | ⟨m', table, hput, hfields, hparent, hanc, hand⟩
    · rw [DeskM.bind_ok hand]
      exact .inl ⟨hf, .inr ⟨hp, c, hc, hc0, hr⟩, rfl⟩
    · rw [DeskM.bind_ok hand]
      exact .inr ⟨hself, m', table, hput, hfields, hparent, hanc.imp_right fun h => ⟨hp, h⟩, rfl⟩
  · rw [if_neg hp]
    exact .inr ⟨hself, m, d.table, .refl hm, rfl, rfl, .inl rfl, rfl⟩

/-! ## 3. Expanding a state -/

/-- What exploration notes of a state that it expands. -/
def Mark.expanded (m : Mark) (accepting : Bool) : Mark := (m.setInF accepting).setInS accepting

@[simp] theorem Mark.fields_expanded (m : Mark) (accepting : Bool) :
    (m.expanded accepting).fields = { m.fields with inS := accepting, inF := accepting } := by
  simp [Mark.expanded]

theorem yields_expand_explore {t : Terrain N σ} (hv : v ∈ t.states) (hd : d.table.Fits)
    (ht : d.table.find? v = some target) (hm : d.table.markOf v = some m) :
    ∃ table, d.table.Puts v (m.expanded (t.accepting v)) table ∧
      Yields (expandState (t.task .explore) target) d (.ok (.expand target (t.targets v)))
        { d with
          table := table
          ledger := (d.ledger.noted (t.accepting v)).expanded (t.targets v).length } := by
  have hput := hd.puts_setMark ht (m.expanded (t.accepting v))
  have hmark : d.table.mark? target = some m := by rw [hd.mark?_eq ht, hm]
  refine ⟨_, hput, ?_⟩
  have hstate : Yields (Pass.explore.onState t.graph target) d (.ok ()) { d with
      table := d.table.setMark target (m.expanded (t.accepting v))
      ledger := d.ledger.noted (t.accepting v) } := by
    refine Yields.bind (yields_atDesk (node_eq (hd.node?_eq_some ht))) ?_
    refine Yields.bind (yields_demand (t.promise.accepting_eq v (t.known v hv)) d) ?_
    refine yields_atDesk ?_
    change (noteAcceptance target (t.accepting v) : DeskM N Unit) d = _
    generalize t.accepting v = accepting
    rw [noteAcceptance, DeskM.bind_ok (updateMark_eq hmark _)]
    cases accepting
    · rfl
    · rfl
  refine yields_expandState hv hstate ?_
  rw [Table.node?_setMark]
  exact hd.node?_eq_some ht

end Desk

/-! ## 4. What handling an edge keeps -/

/-- A state that the exploration has found to lie on an accepting cycle; only one worker alone
finds other cycles than loops. -/
def Terrain.Witnesses (t : Terrain N σ) (T : Nat → Table N) (state : Option Handle) : Prop :=
  ∃ v, state = t.handleOf T v ∧ v ∈ t.held T ∧ t.accepting v = true ∧ t.OnCycle v ∧
    (t.peers = 1 ∨ t.Edge v v)

/-- A rank is that of an accepting state from which another state is reached. -/
def Terrain.Ranks (t : Terrain N σ) (T : Nat → Table N) (rank : UInt32) (v : N) : Prop :=
  ∃ a h, t.handleOf T a = some h ∧ h.rank? = some rank ∧ t.accepting a = true ∧ t.Precedes a v

/-- What an exploration writes into the tables. -/
structure Terrain.Charted (t : Terrain N σ) (T : Nat → Table N) : Prop where
  parted : t.Parted T
  /-- Accepting states are candidates, and nothing is counted or stamped yet. -/
  fields : ∀ {v m}, t.markOf T v = some m → m.fields = ⟨0, 0, t.accepting v, t.accepting v⟩
  /-- Parents lead back to the initial state. -/
  climbs : ∀ {v}, v ∈ t.held T → ∃ path, Climbs t (fun _ => True) T t.graph.initial path v
  /-- The initial state has no parent. -/
  root : ∀ {m}, t.markOf T t.graph.initial = some m → m.parent = none
  /-- A rank that is handed on is that of an accepting state behind. -/
  ancestor : ∀ {v m}, t.markOf T v = some m → m.ancestor = 0 ∨ t.Ranks T m.ancestor v

/-- The handle of the initial state is noted where that state is stored; no desk notes another. -/
structure Scene.NotesInitial (t : Terrain N σ) (s : Scene N) : Prop where
  initial : ∀ i < t.peers, (s.desk i).ledger.chase.initial = none ∨
    (s.desk i).ledger.chase.initial = t.handleOf s.tables t.graph.initial
  recorded : t.graph.initial ∈ t.held s.tables →
    (s.desk (t.home t.graph.initial)).ledger.chase.initial =
      t.handleOf s.tables t.graph.initial

/-- A worker halts when it knows of an accepting cycle, and one that knows of a cycle is right. -/
structure Scene.NotesCycle (t : Terrain N σ) (s : Scene N) : Prop where
  found : ∀ i < t.peers, s.halted i = true → (s.desk i).ledger.cycleFound = true
  witness : ∀ i < t.peers, (s.desk i).ledger.cycleFound = true →
    t.Witnesses s.tables (s.desk i).ledger.cycleNode

/-- An accepting state with an edge to itself is not overlooked: the edge is still to be handled,
or the worker of the state has halted. -/
def Scene.MindsLoops (t : Terrain N σ) (s : Scene N) : Prop :=
  ∀ v h, t.handleOf s.tables v = some h → t.accepting v = true → t.Edge v v →
    (⟨some h, v⟩ : Edge N) ∈ s.pending ∨ s.halted (t.home v) = true

/-- What the handling of an edge keeps in an exploration. -/
structure Exploring (t : Terrain N σ) (s : Scene N) : Prop
    extends t.Charted s.tables, s.NotesInitial t, s.NotesCycle t where
  /-- The states that are stored are those that were visited. -/
  frontier : s.Frontier t t.graph.initial (t.handleOf s.tables) (· ∈ t.held s.tables)
    (t.held s.tables)
  states : s.total t (·.states) = (t.held s.tables).card
  accepting : s.total t (·.size) = ((t.held s.tables).filter fun v => t.accepting v).card
  loops : s.MindsLoops t
  good : ∀ i, s.fault i = none

theorem Terrain.Writes.witnesses {t : Terrain N σ} {T T' : Nat → Table N} {v : N} {m : Mark}
    (hT : t.Parted T) (hw : t.Writes T v m T') {state : Option Handle}
    (h : t.Witnesses T state) : t.Witnesses T' state := by
  obtain ⟨u, rfl, hu, ha, hc⟩ := h
  rw [hT.mem_held] at hu
  obtain ⟨k, hk⟩ := Option.isSome_iff_exists.mp ((Terrain.isSome_handleOf u).trans hu)
  exact ⟨u, hk.trans (hw.handle hk).symm, hw.parted.mem_held.mpr (hw.isSome hu), ha, hc⟩

theorem Terrain.Writes.ranks {t : Terrain N σ} {T T' : Nat → Table N} {v : N} {m : Mark}
    (hw : t.Writes T v m T') {rank : UInt32} {u : N} (h : t.Ranks T rank u) :
    t.Ranks T' rank u := by
  obtain ⟨a, k, hk, hr, ha, hp⟩ := h
  exact ⟨a, k, hw.handle hk, hr, ha, hp⟩

namespace Terrain.Charted

variable {t : Terrain N σ} {T T' : Nat → Table N} {v : N} {m : Mark}

theorem write_new (hT : t.Charted T) (hw : t.Writes T v m T') (hnew : t.markOf T v = none)
    (hfields : m.fields = ⟨0, 0, t.accepting v, t.accepting v⟩)
    (hclimb : ∃ path, Climbs t (fun _ => True) T' t.graph.initial path v)
    (hroot : t.graph.initial = v → m.parent = none)
    (hanc : m.ancestor = 0 ∨ t.Ranks T' m.ancestor v) : t.Charted T' := by
  classical
  refine
    { parted := hw.parted, fields := fun {u k} hk => ?_, climbs := fun {u} hu => ?_
      root := fun {k} hk => ?_, ancestor := fun {u k} hk => ?_ }
  · rcases hw.mark_cases hk with ⟨rfl, rfl⟩ | ⟨-, hk⟩
    · exact hfields
    · exact hT.fields hk
  · rw [hw.held_of_new, Finset.mem_insert] at hu
    rcases hu with rfl | hu
    · exact hclimb
    · obtain ⟨path, hpath⟩ := hT.climbs hu
      exact ⟨path, hpath.mono hw fun m₀ hm₀ => nomatch hnew.symm.trans hm₀⟩
  · rcases hw.mark_cases hk with ⟨heq, rfl⟩ | ⟨-, hk⟩
    · exact hroot heq
    · exact hT.root hk
  · rcases hw.mark_cases hk with ⟨rfl, rfl⟩ | ⟨-, hk⟩
    · exact hanc
    · exact (hT.ancestor hk).imp_right hw.ranks

/-- Only the rank of a state that is stored already may change. -/
theorem write_known {m₀ : Mark} (hT : t.Charted T) (hw : t.Writes T v m T')
    (hm₀ : t.markOf T v = some m₀) (hfields : m.fields = m₀.fields)
    (hparent : m.parent = m₀.parent) (hanc : m.ancestor = 0 ∨ t.Ranks T' m.ancestor v) :
    t.Charted T' := by
  refine
    { parted := hw.parted, fields := fun {u k} hk => ?_, climbs := fun {u} hu => ?_
      root := fun {k} hk => ?_, ancestor := fun {u k} hk => ?_ }
  · rcases hw.mark_cases hk with ⟨rfl, rfl⟩ | ⟨-, hk⟩
    · rw [hfields]
      exact hT.fields hm₀
    · exact hT.fields hk
  · rw [hw.held_of_known (by rw [hm₀]; rfl)] at hu
    obtain ⟨path, hpath⟩ := hT.climbs hu
    refine ⟨path, hpath.mono hw fun m₁ hm₁ _ => ⟨trivial, .inr ?_⟩⟩
    rw [Option.some.inj (hm₁.symm.trans hm₀), hparent]
  · rcases hw.mark_cases hk with ⟨heq, rfl⟩ | ⟨-, hk⟩
    · rw [hparent]
      exact hT.root (heq ▸ hm₀)
    · exact hT.root hk
  · rcases hw.mark_cases hk with ⟨rfl, rfl⟩ | ⟨-, hk⟩
    · exact hanc
    · exact (hT.ancestor hk).imp_right hw.ranks

/-- What an edge carries is the rank of its source or of an accepting state behind it. -/
theorem behind_of_carries {u : N} {h : Handle} (hT : t.Charted T) (hu : t.handleOf T u = some h)
    (hm : t.markOf T u = some m) {c : UInt32} (hc : Carries h m c) :
    c = 0 ∨ ∃ a k, t.handleOf T a = some k ∧ k.rank? = some c ∧ t.accepting a = true ∧
      t.Reaches a u := by
  rcases hc with rfl | ⟨hf, hr⟩
  · refine (hT.ancestor hm).imp_right ?_
    rintro ⟨a, k, hk, hr, ha, hp⟩
    exact ⟨a, k, hk, hr, ha, hp.to_reflTransGen⟩
  · rw [hT.fields hm] at hf
    exact .inr ⟨u, h, hu, hr, hf, .refl⟩

/-- So it is the rank of an accepting state behind its target. -/
theorem ranks_of_carries {u : N} {h : Handle} (hT : t.Charted T) (hu : t.handleOf T u = some h)
    (hm : t.markOf T u = some m) (hedge : t.Edge u v) {c : UInt32} (hc : Carries h m c) :
    c = 0 ∨ t.Ranks T c v := by
  refine (hT.behind_of_carries hu hm hc).imp_right ?_
  rintro ⟨a, k, hk, hr, ha, hreach⟩
  exact ⟨a, k, hk, hr, ha, .tail' hreach hedge⟩

end Terrain.Charted

section Notes

variable {t : Terrain N σ} {s : Scene N} {rest : Multiset (Edge N)} {v : N} {m : Mark} {h : Handle}
  {d : Desk N} {r : Except Stop (Progress N)}

/-- Other states do not touch what is noted of the initial state. -/
theorem Scene.NotesInitial.handled (hs : s.NotesInitial t)
    (hw : t.Writes s.tables v m (s.handled (t.home v) rest r d).tables)
    (hv : t.graph.initial ≠ v ∨ (t.markOf s.tables v).isSome)
    (hd : d.ledger.chase.initial = (s.desk (t.home v)).ledger.chase.initial) :
    (s.handled (t.home v) rest r d).NotesInitial t := by
  have hdesk : ∀ j, ((s.handled (t.home v) rest r d).desk j).ledger.chase.initial =
      (s.desk j).ledger.chase.initial := by
    intro j
    rcases eq_or_ne j (t.home v) with rfl | hne
    · rw [Scene.desk_handled_self, hd]
    · rw [Scene.desk_handled_ne hne]
  have hhandle : t.handleOf (s.handled (t.home v) rest r d).tables t.graph.initial =
      t.handleOf s.tables t.graph.initial := by
    by_cases hne : t.graph.initial = v
    · rw [← Terrain.isSome_handleOf, Option.isSome_iff_exists] at hv
      obtain ⟨k, hk⟩ := hv.resolve_left (not_not_intro hne)
      rw [hne, hk, hw.handle hk]
    · exact hw.handle_ne hne
  refine ⟨fun j hj => ?_, fun hin => ?_⟩
  · rw [hdesk, hhandle]
    exact hs.initial j hj
  · rw [hdesk, hhandle]
    refine hs.recorded ?_
    rw [Terrain.held, Finset.mem_filter, ← Terrain.isSome_handleOf] at hin ⊢
    rw [hhandle] at hin
    exact hin

/-- The handle of the initial state is noted when that state is stored. -/
theorem Scene.NotesInitial.note (hs : s.NotesInitial t)
    (hnone : t.handleOf s.tables t.graph.initial = none)
    (hh : t.handleOf (s.handled (t.home t.graph.initial) rest r d).tables t.graph.initial = some h)
    (hd : d.ledger.chase.initial = some h) :
    (s.handled (t.home t.graph.initial) rest r d).NotesInitial t := by
  have hself : ((s.handled (t.home t.graph.initial) rest r d).desk
      (t.home t.graph.initial)).ledger.chase.initial = some h := by
    rw [Scene.desk_handled_self, hd]
  refine ⟨fun j hj => ?_, fun _ => hself.trans hh.symm⟩
  rcases eq_or_ne j (t.home t.graph.initial) with rfl | hne
  · exact .inr (hself.trans hh.symm)
  · rw [Scene.desk_handled_ne hne]
    exact .inl ((hs.initial j hj).elim (fun h => h) fun h => h.trans hnone)

/-- A worker that is told of no new cycle goes on; one that finds a cycle may halt. -/
theorem Scene.NotesCycle.handled (hs : s.NotesCycle t) (hT : t.Parted s.tables)
    (hw : t.Writes s.tables v m (s.handled (t.home v) rest r d).tables)
    (hd : Scene.halts r = false ∧ d.ledger.cycleFound = (s.desk (t.home v)).ledger.cycleFound ∧
        d.ledger.cycleNode = (s.desk (t.home v)).ledger.cycleNode ∨
      d.ledger.cycleFound = true ∧
        t.Witnesses (s.handled (t.home v) rest r d).tables d.ledger.cycleNode) :
    (s.handled (t.home v) rest r d).NotesCycle t := by
  refine ⟨fun j hj hhalt => ?_, fun j hj hfound => ?_⟩
  · rcases eq_or_ne j (t.home v) with rfl | hne
    · rw [Scene.desk_handled_self]
      rcases hd with ⟨hr, hfound, -⟩ | ⟨hfound, -⟩
      · rw [Scene.halted_handled hr] at hhalt
        exact hfound.trans (hs.found _ hj hhalt)
      · exact hfound
    · rw [Scene.halted_handled_ne hne] at hhalt
      rw [Scene.desk_handled_ne hne]
      exact hs.found j hj hhalt
  · rcases eq_or_ne j (t.home v) with rfl | hne
    · rw [Scene.desk_handled_self] at hfound ⊢
      rcases hd with ⟨-, hsame, hnode⟩ | ⟨-, hwitness⟩
      · rw [hnode]
        exact hw.witnesses hT (hs.witness _ hj (hsame.symm.trans hfound))
      · exact hwitness
    · rw [Scene.desk_handled_ne hne] at hfound ⊢
      exact hw.witnesses hT (hs.witness j hj hfound)

/-- An edge is put away.  If it is the loop of an accepting state, the worker has to halt. -/
theorem Scene.MindsLoops.shrink {s' : Scene N} {e : Edge N} (hs : s.MindsLoops t)
    (hp : s.pending = e ::ₘ rest) (hpending : s'.pending = rest)
    (hhalted : ∀ {i}, s.halted i = true → s'.halted i = true)
    (hhandle : ∀ {u k}, t.handleOf s'.tables u = some k → t.handleOf s.tables u = some k)
    (hdone : ∀ k, t.handleOf s.tables e.target = some k → e.source = some k →
      t.accepting e.target = true → s'.halted (t.home e.target) = true) : s'.MindsLoops t := by
  intro u k hk hacc hloop
  rcases hs u k (hhandle hk) hacc hloop with hmem | hhalt
  · rw [hp, Multiset.mem_cons] at hmem
    rcases hmem with rfl | hmem
    · exact .inr (hdone k (hhandle hk) rfl hacc)
    · exact .inl (hpending ▸ hmem)
  · exact .inr (hhalted hhalt)

/-- A new state brings its loop along. -/
theorem Scene.MindsLoops.grow {s' : Scene N} {e : Edge N} (hs : s.MindsLoops t)
    (hp : s.pending = e ::ₘ rest)
    (hpending : s'.pending = rest + (Edge.from h (t.targets e.target) : Multiset (Edge N)))
    (hhalted : s'.halted = s.halted) (hself : t.handleOf s'.tables e.target = some h)
    (hother : ∀ {u}, u ≠ e.target → t.handleOf s'.tables u = t.handleOf s.tables u) :
    s'.MindsLoops t := by
  intro u k hk hacc hloop
  rw [hpending, hhalted]
  rcases eq_or_ne u e.target with rfl | hne
  · obtain rfl := Option.some.inj (hself.symm.trans hk)
    exact .inl (Multiset.mem_add.mpr (.inr (Multiset.mem_coe.mpr (List.mem_map_of_mem hloop))))
  · rw [hother hne] at hk
    refine (hs u k hk hacc hloop).imp_left fun hmem => Multiset.mem_add.mpr (.inl ?_)
    rw [hp, Multiset.mem_cons] at hmem
    exact hmem.resolve_left fun heq => hne (congrArg Edge.target heq)

end Notes

namespace Exploring

variable {t : Terrain N σ} {s : Scene N} {e : Edge N} {rest : Multiset (Edge N)} {m : Mark}
  {h : Handle} {d : Desk N}

/-- A new state is stored and expanded. -/
theorem discover (hs : Exploring t s) (hp : s.pending = e ::ₘ rest)
    (hnew : e.target ∉ t.held s.tables) {T' : Nat → Table N}
    (hT' : T' = Function.update s.tables (t.home e.target) d.table)
    (hw : t.Writes s.tables e.target m T') (hh : t.handleOf T' e.target = some h)
    (hfields : m.fields = ⟨0, 0, t.accepting e.target, t.accepting e.target⟩)
    (hclimb : ∃ path, Climbs t (fun _ => True) T' t.graph.initial path e.target)
    (hroot : t.graph.initial = e.target → m.parent = none)
    (hanc : m.ancestor = 0 ∨ t.Ranks T' m.ancestor e.target) {l : Ledger N}
    (hl : t.graph.initial ≠ e.target ∧ l = (s.desk (t.home e.target)).ledger ∨
      t.graph.initial = e.target ∧ l = { (s.desk (t.home e.target)).ledger with
        chase := { (s.desk (t.home e.target)).ledger.chase with initial := some h } })
    (hd : d.ledger = (l.noted (t.accepting e.target)).expanded (t.targets e.target).length) :
    Exploring t (s.handled (t.home e.target) rest (.ok (.expand h (t.targets e.target))) d) := by
  classical
  obtain ⟨source, v⟩ := e
  simp only at *
  obtain rfl : T' = (s.handled (t.home v) rest (.ok (.expand h (t.targets v))) d).tables :=
    hT'.trans Scene.tables_handled.symm
  have hheld := hw.held_of_new
  have hmark : t.markOf s.tables v = none := by
    rw [hs.parted.mem_held, Bool.not_eq_true, Option.isSome_eq_false_iff] at hnew
    exact Option.isNone_iff_eq_none.mp hnew
  -- the ledger that is written is the one before, but for the initial state
  obtain ⟨htrans, hlsize, hlstates, hfound, hnode⟩ :
      l.transitions = (s.desk (t.home v)).ledger.transitions ∧
      l.size = (s.desk (t.home v)).ledger.size ∧
      l.states = (s.desk (t.home v)).ledger.states ∧
      l.cycleFound = (s.desk (t.home v)).ledger.cycleFound ∧
      l.cycleNode = (s.desk (t.home v)).ledger.cycleNode := by
    rcases hl with ⟨-, rfl⟩ | ⟨-, rfl⟩
    · exact ⟨rfl, rfl, rfl, rfl, rfl⟩
    · exact ⟨rfl, rfl, rfl, rfl, rfl⟩
  refine
    { toCharted := hs.write_new hw hmark hfields hclimb hroot hanc
      toNotesInitial := ?_
      toNotesCycle := hs.toNotesCycle.handled hs.parted hw (.inl ⟨rfl, ?_, ?_⟩)
      frontier := ?_
      states := ?_
      accepting := ?_
      loops := hs.loops.grow hp rfl (Scene.halted_handled rfl) hh hw.handle_ne
      good := fun j => ?_ }
  · rcases hl with ⟨hv, rfl⟩ | ⟨rfl, rfl⟩
    · exact hs.toNotesInitial.handled hw (.inl hv) (by rw [hd]; rfl)
    · exact hs.toNotesInitial.note (Terrain.handleOf_eq_none_iff.mpr hmark) hh (by rw [hd]; rfl)
  · rw [hd]
    exact hfound
  · rw [hd]
    exact hnode
  · rw [hheld]
    refine hs.frontier.grow hp hnew rfl ?_ (Scene.halted_handled rfl) hw.handle hh
      Finset.mem_insert_of_mem (.inl (Finset.mem_insert_self ..))
    obtain ⟨others, hgen, hgen'⟩ := Scene.exists_total_handled s rest
      (.ok (.expand h (t.targets v))) d (·.transitions) (t.home_lt v)
    rw [Scene.generated, Scene.generated, hgen, hgen', hd, ← htrans]
    exact Nat.add_right_comm ..
  · obtain ⟨others, hstates, hstates'⟩ := Scene.exists_total_handled s rest
      (.ok (.expand h (t.targets v))) d (·.states) (t.home_lt v)
    have hcount := hs.states
    rw [hstates] at hcount
    rw [hstates', hd, hheld, Finset.card_insert_of_notMem hnew]
    change l.states + 1 + others = _
    omega
  · obtain ⟨others, hsize, hsize'⟩ := Scene.exists_total_handled s rest
      (.ok (.expand h (t.targets v))) d (·.size) (t.home_lt v)
    have hacc := hs.accepting
    rw [hsize] at hacc
    rw [hsize', hd, hheld, Finset.filter_insert]
    change l.size + (t.accepting v).toNat + others = _
    cases ha : t.accepting v with
    | true =>
      rw [if_pos rfl, Finset.card_insert_of_notMem fun hm => hnew (Finset.mem_filter.mp hm).1]
      simp only [Bool.toNat_true]
      omega
    | false =>
      rw [if_neg (by decide)]
      simp only [Bool.toNat_false]
      omega
  · rw [Scene.fault_handled]
    exact hs.good j

/-- An edge leads to a state that is stored already. -/
theorem revisit (hs : Exploring t s) (hp : s.pending = e ::ₘ rest) (hsource : e.source ≠ none)
    {m₀ : Mark} (hm₀ : t.markOf s.tables e.target = some m₀) {T' : Nat → Table N}
    (hT' : T' = Function.update s.tables (t.home e.target) d.table)
    (hw : t.Writes s.tables e.target m T') (hfields : m.fields = m₀.fields)
    (hparent : m.parent = m₀.parent)
    (hanc : m.ancestor = 0 ∨ t.Ranks T' m.ancestor e.target) {r : Except Stop (Progress N)}
    (hr : r = .ok .next ∧ d.ledger = (s.desk (t.home e.target)).ledger ∧
        (e.source = t.handleOf s.tables e.target → t.accepting e.target = false) ∨
      r = .ok .halt ∧ d.ledger = (s.desk (t.home e.target)).ledger.recordCycle h ∧
        t.handleOf T' e.target = some h ∧ t.accepting e.target = true ∧ t.OnCycle e.target ∧
        (t.peers = 1 ∨ t.Edge e.target e.target)) :
    Exploring t (s.handled (t.home e.target) rest r d) := by
  obtain ⟨source, v⟩ := e
  simp only at *
  obtain rfl : T' = (s.handled (t.home v) rest r d).tables := hT'.trans Scene.tables_handled.symm
  have hmem : (⟨source, v⟩ : Edge N) ∈ s.pending := by rw [hp]; exact Multiset.mem_cons_self ..
  have hknown : v ∈ t.held s.tables := by rw [hs.parted.mem_held, hm₀]; rfl
  have hheld := hw.held_of_known (by rw [hm₀]; rfl)
  -- nothing is counted, and nothing new is to be handled
  obtain ⟨htrans, hsize, hstates, hchase⟩ :
      d.ledger.transitions = (s.desk (t.home v)).ledger.transitions ∧
      d.ledger.size = (s.desk (t.home v)).ledger.size ∧
      d.ledger.states = (s.desk (t.home v)).ledger.states ∧
      d.ledger.chase = (s.desk (t.home v)).ledger.chase := by
    rcases hr with ⟨-, hl, -⟩ | ⟨-, hl, -⟩
    · rw [hl]; exact ⟨rfl, rfl, rfl, rfl⟩
    · rw [hl]; exact ⟨rfl, rfl, rfl, rfl⟩
  have hpending : (s.handled (t.home v) rest r d).pending = rest := by
    rcases hr with ⟨rfl, -⟩ | ⟨rfl, -⟩
    · exact add_zero rest
    · exact add_zero rest
  refine
    { toCharted := hs.write_known hw hm₀ hfields hparent hanc
      toNotesInitial := hs.toNotesInitial.handled hw (.inr (by rw [hm₀]; rfl)) (by rw [hchase])
      toNotesCycle := hs.toNotesCycle.handled hs.parted hw ?_
      frontier := ?_
      states := ?_
      accepting := ?_
      loops := hs.loops.shrink hp hpending Scene.halted_of_halted (fun {u k} hk => ?_)
        fun k hk hsource hacc => ?_
      good := fun j => ?_ }
  · rcases hr with ⟨rfl, hl, -⟩ | ⟨rfl, hl, hh, hacc, hcycle, hloop⟩
    · rw [hl]
      exact .inl ⟨rfl, rfl, rfl⟩
    · rw [hl]
      exact .inr ⟨rfl, v, hh.symm, by rw [hheld]; exact hknown, hacc, hcycle, hloop⟩
  · rw [hheld]
    exact hs.frontier.shrink hp (hs.frontier.mem_root hmem hsource) hpending
      (Scene.total_handled_of_eq (t.home_lt v) htrans) Scene.halted_of_halted hw.handle
      (fun h => h) (.inl hknown)
  · rw [Scene.total_handled_of_eq (t.home_lt v) hstates, hheld]
    exact hs.states
  · rw [Scene.total_handled_of_eq (t.home_lt v) hsize, hheld]
    exact hs.accepting
  · -- nothing was stored, so the handle was there before
    rcases eq_or_ne u v with rfl | hne
    · obtain ⟨k₀, hk₀⟩ := Terrain.exists_handleOf hm₀
      rw [← hk, hw.handle hk₀, hk₀]
    · rw [← hk, hw.handle_ne hne]
  · rcases hr with ⟨-, -, hself⟩ | ⟨rfl, -⟩
    · exact nomatch hacc.symm.trans (hself (hsource.trans hk.symm))
    · simp [Scene.handled, Scene.halts]
  · rcases hr with ⟨rfl, -⟩ | ⟨rfl, -⟩
    · rw [Scene.fault_handled]
      exact hs.good j
    · rw [Scene.fault_handled]
      exact hs.good j

end Exploring

theorem Terrain.Parted.isSome_rank {t : Terrain N σ} [t.Rooted] {T : Nat → Table N} {v : N}
    {h : Handle} (hT : t.Parted T) (hv : t.handleOf T v = some h) : h.rank?.isSome := by
  have hlt : h.slot.toNat < 2 ^ 32 - 1 :=
    calc h.slot.toNat < (T (t.home v)).size := hT.slot_lt hv
      _ ≤ _ := hT.size_le (t.home_lt v)
      _ ≤ t.states.card := Finset.card_filter_le _ _
      _ < 2 ^ 32 - 1 := Rooted.card_lt
  unfold Handle.rank?
  rw [if_neg fun heq => ?_]
  · rfl
  · rw [heq] at hlt
    exact absurd hlt (by decide)

/-- With one worker a rank belongs to one state. -/
theorem Terrain.Parted.rank_inj {t : Terrain N σ} {T : Nat → Table N} {u v : N} {h k : Handle}
    {c : UInt32} (hT : t.Parted T) (hone : t.peers = 1) (hu : t.handleOf T u = some h)
    (hv : t.handleOf T v = some k) (hh : h.rank? = some c) (hk : k.rank? = some c) : u = v := by
  have hslot : h.slot = k.slot := by
    unfold Handle.rank? at hh hk
    split at hh
    · exact nomatch hh
    · split at hk
      · exact nomatch hk
      · have hsum := Option.some.inj (hh.trans hk.symm)
        exact (UInt32.add_left_inj _).mp hsum
  have hworker : h.worker = k.worker := by
    rw [← UInt32.toNat_inj, hT.handle_worker hu, hT.handle_worker hv]
    have := t.home_lt u
    have := t.home_lt v
    omega
  have heq : h = k := by
    cases h; cases k
    simp_all
  exact hT.handle_inj hu (heq ▸ hv)

/-! ## 5. Handling an edge -/

/-- An edge leads to an accepting state and closes a cycle through it. -/
def Edge.ClosesCycle (t : Terrain N σ) (T : Nat → Table N) (e : Edge N) : Prop :=
  t.accepting e.target = true ∧ ∃ u h, e.source = some h ∧ t.handleOf T u = some h ∧
    t.Edge u e.target ∧ t.Reaches e.target u

/-- How an edge is handled in an exploration: with the result `r`, and leaving the desk `d`.  What
is stored is what was expanded, and a worker halts only because of a cycle. -/
structure Scene.Explores [Std.TransOrd N] [Std.LawfulEqOrd N] (t : Terrain N σ) (s : Scene N)
    (e : Edge N) (rest : Multiset (Edge N)) (r : Except Stop (Progress N)) (d : Desk N) :
    Prop where
  yields : Yields (handleEdge (t.task .explore) e) (s.desk (t.home e.target)) r d
  regular : Regular r
  transitions : d.ledger.transitions =
    (s.desk (t.home e.target)).ledger.transitions + (newEdges r).length
  expanded : (t.held s.tables).val + expansions r d =
    (t.held (s.handled (t.home e.target) rest r d).tables).val
  next : Exploring t (s.handled (t.home e.target) rest r d)
  halts : r = .ok .halt → e.ClosesCycle t s.tables
  advances : t.Advances (fun _ => True) t.graph.initial False s.tables e r
    (Function.update s.tables (t.home e.target) d.table)

theorem Scene.held_handled_new {t : Terrain N σ} {s : Scene N} {v : N} {m : Mark} {d : Desk N}
    {h : Handle} (hnew : v ∉ t.held s.tables)
    (hw : t.Writes s.tables v m (Function.update s.tables (t.home v) d.table))
    (hh : t.handleOf (Function.update s.tables (t.home v) d.table) v = some h)
    (targets : List N) (rest : Multiset (Edge N)) :
    (t.held s.tables).val + expansions (.ok (.expand h targets)) d =
      (t.held (s.handled (t.home v) rest (.ok (.expand h targets)) d).tables).val := by
  classical
  have hnode := hw.parted.node?_eq hh
  rw [Function.update_self] at hnode
  rw [add_expansions_expand hnode hnew, Scene.tables_handled, hw.held_of_new]

namespace Exploring

variable [Std.TransOrd N] [Std.LawfulEqOrd N] {t : Terrain N σ} {s : Scene N} {v : N}
  {rest : Multiset (Edge N)}

omit [Std.TransOrd N] [Std.LawfulEqOrd N] in
/-- What is visited is what is stored. -/
theorem not_visited (hs : Exploring t s) (hv : v ∉ t.held s.tables) :
    v ∉ t.visited (fun _ => True) s.tables := by
  rintro ⟨m, hm, -⟩
  exact hv (hs.parted.mem_held.mpr (by rw [hm]; rfl))

/-- The initial state is stored first. -/
theorem handles_seed [t.Rooted] (hs : Exploring t s) (hp : s.pending = ⟨none, v⟩ ::ₘ rest) :
    ∃ r d, s.Explores t ⟨none, v⟩ rest r d := by
  obtain ⟨-, hempty, heq⟩ :=
    hs.frontier.eq_seed (e := ⟨none, v⟩) (by rw [hp]; exact Multiset.mem_cons_self ..) rfl
  have hv : t.graph.initial = v := (congrArg Edge.target heq).symm
  have hstates : v ∈ t.states := hv ▸ t.initial_mem
  have hnew : v ∉ t.held s.tables := by rw [hempty]; exact Finset.notMem_empty v
  have hnone : t.handleOf s.tables v = none := by
    rw [Terrain.handleOf_eq_none_iff, ← Option.not_isSome_iff_eq_none, ← hs.parted.mem_held]
    exact hnew
  obtain ⟨table, h, hput, hfind, hst⟩ :=
    hs.parted.store_new (d := s.desk (t.home v)) (v := v) rfl hnone
  have hfits := hs.parted.fits_of_puts hstates hput
  -- the handle is noted, and the state expanded
  obtain ⟨table', hput', hx⟩ := yields_expand_explore (t := t) (v := v) (m := {})
    (d := { s.desk (t.home v) with
      table := table
      ledger := { (s.desk (t.home v)).ledger with
        chase := { (s.desk (t.home v)).ledger.chase with initial := some h } } })
    hstates hfits hfind hput.mark_self
  have hw := hs.parted.writes hstates (hput.trans hput')
  have hh : t.handleOf (Function.update s.tables (t.home v) table') v = some h :=
    Terrain.handleOf_update (hput'.find?_of_some hfind)
  refine ⟨_, _, yields_follow_new hst rfl hx, trivial, ?_,
    Scene.held_handled_new hnew hw hh _ _, ?_, fun hhalt => absurd hhalt (by simp),
    .visits (hs.not_visited hnew) hw trivial (fun hne => absurd hv.symm hne) hh⟩
  · rw [length_newEdges]
    rfl
  · refine hs.discover hp hnew rfl hw hh ?_ ?_ (fun _ => rfl) (.inl rfl) (.inr ⟨hv, rfl⟩) rfl
    · rw [Mark.fields_expanded, Mark.fields_blank]
    · refine ⟨[v], ?_⟩
      rw [hv]
      exact .root hw.mark_self trivial

/-- A state that is stored already is looked at. -/
theorem handles_known [t.Rooted] (hs : Exploring t s) {source h : Handle}
    (hp : s.pending = ⟨some source, v⟩ ::ₘ rest) (hv : t.handleOf s.tables v = some h) :
    ∃ r d, s.Explores t ⟨some source, v⟩ rest r d := by
  obtain ⟨u, -, hu, hedge⟩ := hs.frontier.edges (by rw [hp]; exact Multiset.mem_cons_self ..) rfl
  obtain ⟨m, hm⟩ := Terrain.exists_markOf hv
  obtain ⟨ms, hms⟩ := Terrain.exists_markOf hu
  have hst := hs.parted.store_known (d := s.desk (t.home v)) rfl hv
  have hpeers : (s.desk (t.home v)).table.peers = t.peers := hs.parted.peers _ (t.home_lt v)
  have hsource : (s.desk (t.home v)).table.peers = 1 →
      (s.desk (t.home v)).table.mark? source = some ms ∧ source.rank?.isSome := by
    intro hone
    have hhome : t.home u = t.home v := by
      have := t.home_lt u
      have := t.home_lt v
      omega
    exact ⟨by rw [← hms, ← hs.parted.mark?_eq hu, hhome]; rfl, hs.parted.isSome_rank hu⟩
  rcases lookOut_cases (hs.parted.fits (t.home_lt v)) hsource hv hm (hs.parted.isSome_rank hv) with
    ⟨hf, hwhy, he⟩ | ⟨hself, m', table, hput, hfields, hparent, hanc, he⟩
  · rw [← exploreEdge_known] at he
    rw [hs.fields hm] at hf
    -- the state reaches the source, because it is the source or because its own rank came back
    obtain ⟨hback, hloop⟩ : t.Reaches v u ∧ (t.peers = 1 ∨ t.Edge v v) := by
      rcases hwhy with rfl | ⟨hone, c, hc, hc0, hr⟩
      · obtain rfl := hs.parted.handle_inj hu hv
        exact ⟨.refl, .inr hedge⟩
      · obtain ⟨a, k, hk, hrk, -, hreach⟩ := (hs.behind_of_carries hu hms hc).resolve_left hc0
        obtain rfl := hs.parted.rank_inj (hpeers.symm.trans hone) hk hv hrk hr
        exact ⟨hreach, .inl (hpeers.symm.trans hone)⟩
    have hw := hs.parted.writes (hs.parted.mem_states hm) (Table.Puts.refl hm)
    refine ⟨_, _, yields_halt hst he, trivial, rfl, ?_, ?_,
      fun _ => ⟨hf, u, source, rfl, hu, hedge, hback⟩,
      .skips ⟨m, hm, trivial⟩ False.elim hw trivial
        (fun hm₀ => congrArg _ (Option.some.inj (hm.symm.trans hm₀))) rfl⟩
    · rw [Scene.tables_handled]
      exact (add_zero _).trans (congrArg Finset.val (hw.held_of_known (by rw [hm]; rfl)).symm)
    · exact hs.revisit (d := { s.desk (t.home v) with
          ledger := (s.desk (t.home v)).ledger.recordCycle h }) hp nofun hm rfl hw rfl rfl
        ((hs.ancestor hm).imp_right hw.ranks)
        (.inr ⟨rfl, rfl, hw.handle hv, hf, .tail' hback hedge, hloop⟩)
  · rw [← exploreEdge_known] at he
    have hw := hs.parted.writes (hs.parted.mem_states hm) hput
    refine ⟨_, _, yields_follow_known hst he, trivial, rfl, ?_, ?_,
      fun hhalt => absurd hhalt (by simp),
      .skips ⟨m, hm, trivial⟩ False.elim hw trivial
        (fun hm₀ => hparent.trans (congrArg _ (Option.some.inj (hm.symm.trans hm₀)))) rfl⟩
    · rw [Scene.tables_handled]
      exact (add_zero _).trans (congrArg Finset.val (hw.held_of_known (by rw [hm]; rfl)).symm)
    refine hs.revisit (h := h) hp nofun hm rfl hw hfields hparent ?_ (.inl ⟨rfl, rfl, fun hk => ?_⟩)
    · rcases hanc with hanc | ⟨-, hc⟩
      · rw [hanc]
        exact (hs.ancestor hm).imp_right hw.ranks
      · exact (hs.ranks_of_carries hu hms hedge hc).imp_right hw.ranks
    · have hno := hself (Option.some.inj (hk.trans hv))
      rw [hs.fields hm] at hno
      exact hno

/-- A new state gets its parent and is expanded. -/
theorem handles_new [t.Rooted] (hs : Exploring t s) {source : Handle}
    (hp : s.pending = ⟨some source, v⟩ ::ₘ rest) (hv : t.handleOf s.tables v = none) :
    ∃ r d, s.Explores t ⟨some source, v⟩ rest r d := by
  have hmem : (⟨some source, v⟩ : Edge N) ∈ s.pending := by rw [hp]; exact Multiset.mem_cons_self ..
  obtain ⟨u, hheld, hu, hedge⟩ := hs.frontier.edges hmem rfl
  obtain ⟨ms, hms⟩ := Terrain.exists_markOf hu
  have hmark : t.markOf s.tables v = none := Terrain.handleOf_eq_none_iff.mp hv
  have hnew : v ∉ t.held s.tables := by
    rw [hs.parted.mem_held, hmark]
    exact nofun
  have hne : u ≠ v := by
    rintro rfl
    exact nomatch hv.symm.trans hu
  have hstates : v ∈ t.states := Terrain.mem_states_of_edge (hs.parted.mem_states hms) hedge
  obtain ⟨table, h, hput, hfind, hst⟩ :=
    hs.parted.store_new (d := s.desk (t.home v)) (v := v) rfl hv
  -- the parent is noted
  have hput₁ := (hs.parted.fits_of_puts hstates hput).puts_setMark hfind
    (({} : Mark).setParentOnce source)
  have hfind₁ := hput₁.find?_of_some hfind
  have hparent : (updateMark h (·.setParentOnce source) : DeskM N Unit)
      { s.desk (t.home v) with table := table } = (.ok (), { s.desk (t.home v) with
        table := table.setMark h (({} : Mark).setParentOnce source) }) :=
    updateMark_eq (by rw [(hs.parted.fits_of_puts hstates hput).mark?_eq hfind, hput.mark_self]) _
  have hfits₁ := hs.parted.fits_of_puts hstates (hput.trans hput₁)
  -- a new state is on no cycle that is known yet
  have hsource : (table.setMark h (({} : Mark).setParentOnce source)).peers = 1 →
      (table.setMark h (({} : Mark).setParentOnce source)).mark? source = some ms ∧
        source.rank?.isSome := by
    intro hone
    rw [hput₁.peers, hput.peers, hs.parted.peers _ (t.home_lt v)] at hone
    have hhome : t.home u = t.home v := by
      have := t.home_lt u
      have := t.home_lt v
      omega
    have hu' : (s.tables (t.home v)).find? u = some source := by
      rw [← hhome]
      exact hu
    refine ⟨?_, hs.parted.isSome_rank hu⟩
    rw [hfits₁.mark?_eq ((hput.trans hput₁).find?_of_some hu'),
      (hput.trans hput₁).mark_ne u hne, ← hhome]
    exact hms
  have hrank : h.rank?.isSome :=
    (hs.parted.writes hstates hput).parted.isSome_rank (Terrain.handleOf_update hfind)
  rcases lookOut_cases (d := { s.desk (t.home v) with
      table := table.setMark h (({} : Mark).setParentOnce source) }) hfits₁ hsource hfind₁
      hput₁.mark_self hrank with ⟨hf, -⟩ | ⟨-, m', table', hput₂, hfields, hparent', hanc, he⟩
  · rw [Mark.fields_setParentOnce, Mark.fields_blank] at hf
    exact nomatch hf
  obtain ⟨table'', hput₃, hx⟩ := yields_expand_explore (t := t) (v := v) (m := m')
    (d := { s.desk (t.home v) with table := table' })
    hstates (hs.parted.fits_of_puts hstates ((hput.trans hput₁).trans hput₂))
    (hput₂.find?_of_some hfind₁) hput₂.mark_self
  have hw := hs.parted.writes hstates (((hput.trans hput₁).trans hput₂).trans hput₃)
  have hinit : t.graph.initial ≠ v := fun h => hnew (h ▸ hs.frontier.mem_root hmem nofun)
  have hrule : (exploreEdge (some source) h true : DeskM N Action)
      { s.desk (t.home v) with table := table } =
        (.ok .follow, { s.desk (t.home v) with table := table' }) := by
    rw [exploreEdge_new, DeskM.bind_ok hparent]
    exact he
  have hh : t.handleOf (Function.update s.tables (t.home v) table'') v = some h :=
    Terrain.handleOf_update (hput₃.find?_of_some (hput₂.find?_of_some hfind₁))
  refine ⟨_, _, yields_follow_new hst hrule hx, trivial, ?_,
    Scene.held_handled_new hnew hw hh _ _, ?_, fun hhalt => absurd hhalt (by simp),
    .visits (hs.not_visited hnew) hw trivial (fun _ => hparent') hh⟩
  · rw [length_newEdges]
    rfl
  · refine hs.discover hp hnew rfl hw hh ?_ ?_ (fun heq => absurd heq hinit) ?_
      (.inl ⟨hinit, rfl⟩) rfl
    · rw [Mark.fields_expanded, hfields, Mark.fields_setParentOnce, Mark.fields_blank]
    · obtain ⟨path, hpath⟩ := hs.climbs hheld
      have hpath' := hpath.mono hw fun m₀ hm₀ => nomatch hmark.symm.trans hm₀
      exact ⟨path ++ [v],
        .step hinit.symm hw.mark_self trivial hparent' (hw.handle hu) hedge hpath'⟩
    · rcases hanc with hanc | ⟨-, hc⟩
      · exact .inl hanc
      · exact (hs.ranks_of_carries hu hms hedge hc).imp_right hw.ranks

/-- Every edge can be handled. -/
theorem explores [t.Rooted] (hs : Exploring t s) {e : Edge N} (hp : s.pending = e ::ₘ rest) :
    ∃ r d, s.Explores t e rest r d := by
  obtain ⟨source, v⟩ := e
  cases source with
  | none => exact hs.handles_seed hp
  | some source =>
    cases hv : t.handleOf s.tables v with
    | some h => exact hs.handles_known hp hv
    | none => exact hs.handles_new hp hv

/-- **Handling an edge keeps the invariant of an exploration**, and that what is stored was
expanded, each state once. -/
theorem tracks (t : Terrain N σ) [t.Rooted] : Scene.Tracks t .explore t.edgeCount
    fun M s => M = (t.held s.tables).val ∧ Exploring t s where
  peers hs i hi := hs.2.parted.peers i hi
  bound hs := hs.2.frontier.generated_le (Finset.filter_subset _ _)
  step {M s e rest} hs hp hh := by
    obtain ⟨rfl, hs⟩ := hs
    obtain ⟨r, d, h⟩ := hs.explores hp
    exact ⟨r, d, h.yields, h.regular, h.transitions, h.expanded, h.next⟩
  drop {M s e rest} hs hp hh := by
    obtain ⟨hM, hs⟩ := hs
    -- a worker halts only once something is stored
    obtain ⟨v, -, hv, -⟩ := hs.witness _ (t.home_lt _) (hs.found _ (t.home_lt _) hh)
    refine ⟨hM, { hs with
      frontier := hs.frontier.drop hp ?_ hh
      loops := hs.loops.shrink hp rfl (fun h => h) (fun h => h) fun _ _ _ _ => hh }⟩
    rcases hs.frontier.origin with ⟨-, hempty⟩ | ⟨hinit, -⟩
    · rw [hempty] at hv
      exact absurd hv (Finset.notMem_empty v)
    · exact hinit
  stop {M s i j} hs hf := by
    rw [hs.2.good j] at hf
    exact nomatch hf

theorem keeps (t : Terrain N σ) [t.Rooted] :
    Scene.Keeps t .explore t.edgeCount (Exploring t) := by
  have heq : (fun s => ∃ M, M = (t.held s.tables).val ∧ Exploring t s) = Exploring t :=
    funext fun _ => propext exists_eq_left
  exact heq ▸ (tracks t).keeps

end Exploring

/-! ## 6. What is known after an exploration -/

/-- What is known after an exploration: parents lead back to the initial state, and either a cycle
was found or all reachable states were. -/
structure Explored (t : Terrain N σ) (T : Nat → Table N) (l : Ledger N) (generated : Nat) :
    Prop where
  parted : t.Parted T
  states : l.states = (t.held T).card
  transitions : l.transitions = ∑ v ∈ t.held T, (t.targets v).length
  accepting : l.size = ((t.held T).filter fun v => t.accepting v).card
  fields : ∀ {v m}, t.markOf T v = some m → m.fields = ⟨0, 0, t.accepting v, t.accepting v⟩
  climbs : ∀ {v}, v ∈ t.held T → ∃ path, Climbs t (fun _ => True) T t.graph.initial path v
  root : ∀ {m}, t.markOf T t.graph.initial = some m → m.parent = none
  counted : (t.held T).card ≤ 1 + generated
  initial : l.chase.initial = t.handleOf T t.graph.initial
  round : l.round = 0
  witness : l.cycleFound = true → t.Witnesses T l.cycleNode
  complete : l.cycleFound = false → t.held T = t.states ∧ l.cycleNode = none
  /-- No loop of an accepting state is overlooked. -/
  loops : l.cycleFound = false → ∀ v ∈ t.held T, t.accepting v = true → ¬t.Edge v v

section Begin

variable [Std.TransOrd N] [Std.LawfulEqOrd N] {t : Terrain N σ}

omit [Std.LawfulEqOrd N] in
/-- A cluster that was just created rests. -/
theorem Cluster.rests_create (t : Terrain N σ) (memory : σ) :
    (Cluster.create t.peers memory : Cluster N σ).Rests t
      (fun i => { table := .empty i t.peers }) (fun _ => 0) := by
  have hget : ∀ {i : Nat} {w : Worker N},
      (Cluster.create t.peers memory : Cluster N σ).workers[i]? = some w →
      w = { id := i, desk := { table := .empty i t.peers } } := by
    intro i w hw
    obtain ⟨hi, rfl⟩ := Array.getElem?_eq_some_iff.mp hw
    simp [create]
  exact ⟨still_create _ _, by simp [create], fun hw => by rw [hget hw], fun hw => by rw [hget hw]⟩

omit [Std.TransOrd N] [Std.LawfulEqOrd N] in
theorem yields_start_explore {d : Desk N} {i : Nat} (hw : d.table.worker = i)
    (hp : d.table.peers = t.peers) :
    Yields (Pass.explore.start t.graph) d (.ok (t.seedAt t.graph.initial i)) d := by
  refine Yields.bind (yields_ask (t.promise.hash_eq _) d) ?_
  refine Yields.bind (yields_atDesk (r := .ok d) (rfl : (get : DeskM N (Desk N)) d = _)) ?_
  have howns : d.table.owns (t.promise.hash t.graph.initial) =
      decide (t.home t.graph.initial = i) := by
    rw [Table.owns, hp, hw]
    rfl
  rw [howns, Terrain.seedAt]
  by_cases h : t.home t.graph.initial = i
  · rw [decide_eq_true h, if_pos rfl, if_pos h]
    exact yields_pure _ d
  · rw [decide_eq_false h, if_neg (by decide), if_neg h]
    exact yields_pure _ d

omit [Std.LawfulEqOrd N] in
/-- With empty tables nothing is known. -/
theorem Terrain.markOf_empty (v : N) : t.markOf (fun i => .empty i t.peers) v = none := by
  rw [Terrain.markOf, Table.markOf_eq_none_iff, Table.find?_eq_none_iff]
  intro slot hslot
  exact Option.some_ne_none v hslot.symm

omit [Std.LawfulEqOrd N] in
/-- The exploration begins with nothing but the initial state to go to. -/
theorem Exploring.start {o : Opening N} (hseeds : o.seeds = t.seedAt t.graph.initial)
    (hdesk : ∀ i, o.desk i = { table := .empty i t.peers }) :
    Exploring t (o.scene t.peers) := by
  have htables : (o.scene t.peers).tables = fun i => .empty i t.peers := by
    funext i
    exact congrArg Desk.table (hdesk i)
  have hledger : ∀ i, ((o.scene t.peers).desk i).ledger = {} := by
    intro i
    rw [show (o.scene t.peers).desk i = o.desk i from rfl, hdesk]
  have hpending := Opening.pending_seedAt (t := t) hseeds
  have hheld : t.held (o.scene t.peers).tables = ∅ := by
    rw [htables]
    exact Finset.filter_eq_empty_iff.mpr fun v _ => by rw [Terrain.markOf_empty]; exact nofun
  have hmark : ∀ {v m}, t.markOf (o.scene t.peers).tables v ≠ some m := by
    intro v m
    rw [htables, Terrain.markOf_empty]
    exact nofun
  have htotal : ∀ f : Ledger N → Nat, f {} = 0 → (o.scene t.peers).total t f = 0 := by
    intro f hf
    exact Finset.sum_eq_zero fun i _ => by rw [hledger, hf]
  refine
    { parted := ⟨fun i _ => by rw [htables]; rfl, fun i _ => by rw [htables]; rfl, ?_⟩
      fields := fun hm => absurd hm hmark
      climbs := fun hv => ?_
      root := fun hm => absurd hm hmark
      ancestor := fun hm => absurd hm hmark
      initial := fun i _ => .inl (by rw [hledger])
      recorded := fun hin => ?_
      found := fun i _ h => nomatch h
      witness := fun i _ h => ?_
      frontier := by rw [hheld]; exact .start hpending (htotal _ rfl)
      states := by rw [hheld]; exact htotal _ rfl
      accepting := ?_
      loops := fun v h hh => ?_
      good := fun i => rfl }
  · intro i _ v hv
    obtain ⟨m, hm⟩ := Option.isSome_iff_exists.mp hv
    obtain ⟨slot, hslot, -⟩ := Table.markOf_eq_some_iff.mp hm
    rw [htables] at hslot
    exact nomatch hslot
  · rw [hheld] at hv
    exact absurd hv (Finset.notMem_empty _)
  · rw [hheld] at hin
    exact absurd hin (Finset.notMem_empty _)
  · rw [hledger] at h
    exact nomatch h
  · rw [hheld]
    exact htotal _ rfl
  · obtain ⟨m, hm⟩ := Terrain.exists_markOf hh
    exact absurd hm hmark

omit [Std.TransOrd N] [Std.LawfulEqOrd N] in
/-- **What an exploration leaves.** -/
theorem Scene.Leaves.explored [t.Rooted] {cursor : Nat → Nat} {r r' : Run N σ} {s : Scene N}
    (h : s.Leaves t cursor (Exploring t) r r') (hl : r.ledger = {}) :
    Explored t s.tables r'.ledger r'.generated := by
  have hstates := h.states
  have htransitions := h.transitions
  have hsize := h.size
  obtain ⟨hs, hdone, -, -, hledger, hgen⟩ := h
  have hmem : ∀ {part}, part ∈ (List.range t.peers).map (fun i => (s.desk i).ledger) →
      ∃ i < t.peers, part = (s.desk i).ledger := fun hp => by
    obtain ⟨i, hi, rfl⟩ := List.mem_map.mp hp
    exact ⟨i, List.mem_range.mp hi, rfl⟩
  obtain ⟨hinit, hsettled⟩ := hs.frontier.settled_of_done hdone
  have hcases := Ledger.cycleNode_reduce_of_none (l := r.ledger)
    (P := fun k => t.Witnesses s.tables (some k))
    ((List.range t.peers).map fun i => (s.desk i).ledger) (by rw [hl])
    (by
      intro part hp hf
      obtain ⟨i, hi, rfl⟩ := hmem hp
      have hwit := hs.witness i hi hf
      obtain ⟨v, hv, hheld, -⟩ := hwit
      rw [hs.parted.mem_held, ← Terrain.isSome_handleOf, ← hv] at hheld
      obtain ⟨k, hk⟩ := Option.isSome_iff_exists.mp hheld
      exact ⟨k, hk, hk ▸ hs.witness i hi hf⟩)
  have hfound : r'.ledger.cycleFound =
      ((List.range t.peers).map fun i => (s.desk i).ledger).any (·.cycleFound) := by
    rw [hledger, Ledger.cycleFound_reduce, hl]
    rfl
  have hnone : r'.ledger.cycleFound = false →
      ∀ i < t.peers, (s.desk i).ledger.cycleFound = false := by
    intro hf i hi
    rw [hfound, List.any_eq_false] at hf
    exact Bool.eq_false_iff.mpr (hf _ (List.mem_map.mpr ⟨i, List.mem_range.mpr hi, rfl⟩))
  refine
    { parted := hs.parted, fields := hs.fields, climbs := hs.climbs, root := hs.root
      states := hstates.trans hs.states
      transitions := htransitions.trans hs.frontier.generated
      accepting := hsize.trans hs.accepting
      counted := ?_, initial := ?_, round := ?_, witness := fun hf => ?_, complete := fun hf => ?_
      loops := fun hf v hv hacc hloop => ?_ }
  · have hcount := hs.frontier.counted
    omega
  · rw [hledger]
    refine Ledger.initial_reduce (.inl (by rw [hl])) (fun part hp => ?_) (.inr ?_)
    · obtain ⟨i, hi, rfl⟩ := hmem hp
      exact hs.initial i hi
    · exact ⟨_, List.mem_map.mpr ⟨_, List.mem_range.mpr (t.home_lt _), rfl⟩, hs.recorded hinit⟩
  · rw [hledger, (Ledger.rounds_reduce _ _).1, hl]
  · rcases hcases with ⟨hall, -⟩ | ⟨k, hk, hwit⟩
    · rw [hfound, List.any_eq_true] at hf
      obtain ⟨part, hp, hpart⟩ := hf
      rw [hall part hp] at hpart
      exact nomatch hpart
    · rw [hledger, hk]
      exact hwit
  · have hnone := hnone hf
    have hall : t.held s.tables = t.states := by
      refine (Finset.filter_subset _ _).antisymm fun v hv => ?_
      have hreach : t.Reaches t.graph.initial v := t.mem_states.mp hv
      induction hreach with
      | refl => exact hinit
      | tail _ hedge ih =>
        rcases hsettled (ih (t.mem_states.mpr ‹_›)) hedge with hv | hhalt
        · exact hv
        · have := hs.found _ (t.home_lt _) hhalt
          rw [hnone _ (t.home_lt _)] at this
          exact nomatch this
    refine ⟨hall, ?_⟩
    rcases Ledger.cycleNode_reduce_of_none (l := r.ledger) (P := fun _ => False)
      ((List.range t.peers).map fun i => (s.desk i).ledger) (by rw [hl])
      (fun part hp hpart => by
        obtain ⟨i, hi, rfl⟩ := hmem hp
        exact nomatch (hnone i hi).symm.trans hpart) with ⟨-, hnode⟩ | ⟨_, _, hfalse⟩
    · rw [hledger, hnode]
    · exact hfalse.elim
  · rw [hs.parted.mem_held, ← Terrain.isSome_handleOf, Option.isSome_iff_exists] at hv
    obtain ⟨k, hk⟩ := hv
    rcases hs.loops v k hk hacc hloop with hmem | hhalt
    · rw [hdone] at hmem
      exact absurd hmem (Multiset.notMem_zero _)
    · exact nomatch (hnone hf _ (t.home_lt v)).symm.trans (hs.found _ (t.home_lt v) hhalt)

/-- What the workers begin the exploration with. -/
def Terrain.opening (t : Terrain N σ) : Opening N where
  seeds := t.seedAt t.graph.initial
  desk i := { table := .empty i t.peers }
  cursor _ := 0

/-- In every state of an exploration holds what the handling of an edge keeps, and what is stored
is what was expanded. -/
theorem Cluster.Rests.exploring_drive [t.Rooted] {c : Cluster N σ}
    (hc : c.Rests t (fun i => { table := .empty i t.peers }) (fun _ => 0)) (turns : Nat → Turn)
    (left time : Nat) :
    ((c.arm {}).drive (t.task .explore) turns left time).2.2.Orderly t .explore t.opening ∧
      (c.arm {}).gather (Worker.expands (t.task .explore)) (t.task .explore) turns left time =
        (t.held (((c.arm {}).drive (t.task .explore) turns left time).2.2.scene
          t.opening).tables).val ∧
      Exploring t (((c.arm {}).drive (t.task .explore) turns left time).2.2.scene t.opening) := by
  have horderly : (c.arm {}).Orderly t .explore t.opening :=
    hc.orderly_arm (fun i _ => yields_start_explore rfl rfl)
      (fun i v hv => Terrain.home_of_mem_seedAt hv) rfl
  have hstart : 0 = (t.held ((c.arm {}).scene t.opening).tables).val ∧
      Exploring t ((c.arm {}).scene t.opening) := by
    rw [hc.scene_arm]
    refine ⟨?_, .start rfl fun _ => rfl⟩
    refine (Finset.val_eq_zero.mpr (Finset.filter_eq_empty_iff.mpr fun v _ => ?_)).symm
    exact Option.not_isSome_iff_eq_none.mpr (Terrain.markOf_empty v)
  have hdrive := Cluster.Orderly.tracks_drive (Exploring.tracks t) turns left time horderly hstart
  rwa [zero_add] at hdrive

/-- **The exploration meets its end** with all that is to be known of it, and without a fault. -/
theorem meets_explore [t.Rooted] {plan : Plan N σ} (hplan : plan.Covers t) {r : Run N σ}
    (hr : r.cluster.Rests t (fun i => { table := .empty i t.peers }) (fun _ => 0))
    (hl : r.ledger = {}) :
    Meets plan.Fair (Check.explore plan) r
      (fun _ r' => ∃ desk, r'.cluster.Rests t desk (fun _ => 0) ∧
        Explored t (fun i => (desk i).table) r'.ledger r'.generated)
      (fun _ _ => False) := by
  have hstep := meets_superstep hplan (Exploring.keeps t) (o := t.opening) hr
    (fun i _ => by rw [hl]; exact yields_start_explore rfl rfl)
    (fun i v hv => Terrain.home_of_mem_seedAt hv) (Exploring.start rfl fun _ => rfl)
  refine (hstep.mono (fun _ r' h => h) ?_).bind fun _ r' h => ?_
  · rintro f r' ⟨s, i, hs, hf, -⟩
    rw [hs.good i] at hf
    exact nomatch hf
  · obtain ⟨s, hs⟩ := h
    have hexp := hs.explored hl
    refine .ledger_bind (Meets.bind (Q := fun _ r'' => r''.cluster.Rests t s.desk (fun _ => 0) ∧
      Explored t s.tables r''.ledger r''.generated) (.record fun _ => ⟨hs.rests.record _, hexp⟩) ?_)
    rintro - r'' ⟨hrests, hexp⟩
    split
    · refine Meets.bind (Q := fun _ r'' => r''.cluster.Rests t s.desk (fun _ => 0) ∧
        Explored t s.tables r''.ledger r''.generated)
        (.record fun _ => ⟨hrests.record _, hexp⟩) ?_
      rintro - r₃ ⟨hrests, hexp⟩
      exact .pure fun _ => ⟨s.desk, hrests, hexp⟩
    · exact .pure fun _ => ⟨s.desk, hrests, hexp⟩

end Begin

end FairCycle
