/-
# Searches of a worker alone

The exploration and the trace go out from one state.  A worker alone takes its edges in line, so
both go out breadth first: the states that were visited and the edges in line are the layers of a
search (`Terrain.Awaits`), and the chain of parents of every state that was visited is a shortest
path (`Terrain.Searched`).  When a trace comes back to where it started, its chain of parents is a
shortest cycle (`Terrain.Returns`).

The exploration stores states in the order in which it visits them, so deeper states come later in
the table (`Terrain.Ordered`).
-/
import FairCycle.Proofs.Breadth
import FairCycle.Proofs.Line
import FairCycle.Proofs.Trace

namespace FairCycle

variable {N σ : Type} [Ord N]

/-! ## 1. Steps and edges -/

section Edges

variable {t : Terrain N σ} {ok : Mark → Prop} {T T' : Nat → Table N} {v : N} {m : Mark}

/-- The edges for the steps of a search. -/
def Terrain.edgesOf (t : Terrain N σ) (T : Nat → Table N) (steps : List (N × N)) :
    List (FairCycle.Edge N) :=
  steps.map fun step => ⟨t.handleOf T step.1, step.2⟩

theorem Terrain.edgesOf_append (steps steps' : List (N × N)) :
    t.edgesOf T (steps ++ steps') = t.edgesOf T steps ++ t.edgesOf T steps' := List.map_append

/-- The steps from one state are the edges that come of expanding it. -/
theorem Terrain.edgesOf_from {h : Handle} (hv : t.handleOf T v = some h) (targets : List N) :
    t.edgesOf T (targets.map (v, ·)) = Edge.from h targets := by
  simp [edgesOf, Edge.from, hv]

theorem Terrain.Writes.visited_eq (hw : t.Writes T v m T') (hm : ok m) :
    t.visited ok T' = insert v (t.visited ok T) := by
  ext u
  rcases eq_or_ne u v with rfl | hne
  · exact ⟨fun _ => .inl rfl, fun _ => ⟨m, hw.mark_self, hm⟩⟩
  · simp [visited, hw.mark_ne u hne, hne]

theorem Terrain.exists_handleOf_of_visited (hv : v ∈ t.visited ok T) :
    ∃ h, t.handleOf T v = some h := by
  obtain ⟨m, hm, -⟩ := hv
  exact Terrain.exists_handleOf hm

/-- Writing a mark changes no edge in line. -/
theorem Terrain.Writes.edgesOf_eq (hw : t.Writes T v m T') {steps : List (N × N)}
    (hsteps : ∀ {step}, step ∈ steps → step.1 ∈ t.visited ok T) :
    t.edgesOf T' steps = t.edgesOf T steps := by
  refine List.map_congr_left fun step hstep => ?_
  obtain ⟨h, hh⟩ := Terrain.exists_handleOf_of_visited (hsteps hstep)
  rw [hw.handle hh, hh]

/-- The handle of a state that is stored does not change. -/
theorem Terrain.Writes.handle_of_known (hw : t.Writes T v m T') {m₀ : Mark}
    (hm₀ : t.markOf T v = some m₀) (u : N) : t.handleOf T' u = t.handleOf T u := by
  rcases eq_or_ne u v with rfl | hne
  · obtain ⟨h, hh⟩ := Terrain.exists_handleOf hm₀
    rw [hw.handle hh, hh]
  · exact hw.handle_ne hne

end Edges

/-! ## 2. What a search has found out -/

/-- What is before a search: its root, or the steps from the states that it has visited. -/
inductive Terrain.Awaits (t : Terrain N σ) (ok : Mark → Prop) (root : N) (closing : Prop)
    (T : Nat → Table N) : List (FairCycle.Edge N) → Prop
  | seed (hnone : t.visited ok T = ∅) : Awaits t ok root closing T [Edge.seed root]
  | steps {steps : List (N × N)} (h : Layers t.Edge root closing (t.visited ok T) steps) :
      Awaits t ok root closing T (t.edgesOf T steps)

/-- The parent of the root closes a shortest cycle. -/
def Terrain.Returns (t : Terrain N σ) (ok : Mark → Prop) (root : N) (T : Nat → Table N) : Prop :=
  ∃ u m h path, Climbs t ok T root path u ∧ t.markOf T root = some m ∧ m.parent = some h ∧
    t.handleOf T u = some h ∧ IsLeast {n | 0 < n ∧ Walk t.Edge root n root} path.length

/-- A search from `root` in which all went in line. -/
structure Terrain.Searched (t : Terrain N σ) (ok : Mark → Prop) (root : N) (closing : Prop)
    (halted : Bool) (line : List (FairCycle.Edge N)) (T : Nat → Table N) : Prop where
  /-- Parents lead to the root on a shortest path. -/
  climbs : ∀ {v}, v ∈ t.visited ok T →
    ∃ path, Climbs t ok T root path v ∧ path.length = depth t.Edge root v + 1
  awaits : halted = false → t.Awaits ok root closing T line
  returns : closing → halted = true → t.Returns ok root T

namespace Terrain.Searched

variable {t : Terrain N σ} {ok : Mark → Prop} {root : N} {closing : Prop} {T T' : Nat → Table N}
  {e : FairCycle.Edge N} {rest : List (FairCycle.Edge N)} {r : Except Stop (Progress N)}

theorem start (hnone : t.visited ok T = ∅) :
    t.Searched ok root closing false [Edge.seed root] T where
  climbs hv := by
    rw [hnone] at hv
    exact absurd hv (Set.notMem_empty _)
  awaits _ := .seed hnone
  returns _ h := absurd h Bool.false_ne_true

/-- The first edge is the root, or it is the first step from a state that was visited. -/
theorem head_cases (hs : t.Searched ok root closing false (e :: rest) T) :
    t.visited ok T = ∅ ∧ e = Edge.seed root ∧ rest = [] ∨
      ∃ u steps, Layers t.Edge root closing (t.visited ok T) ((u, e.target) :: steps) ∧
        t.handleOf T u = e.source ∧ rest = t.edgesOf T steps := by
  generalize hline : e :: rest = line at hs
  cases hs.awaits rfl with
  | seed hnone =>
    obtain ⟨rfl, rfl⟩ := List.cons.inj hline
    exact .inl ⟨hnone, rfl, rfl⟩
  | @steps steps h =>
    cases steps with
    | nil => exact absurd hline (List.cons_ne_nil _ _)
    | cons step steps =>
      obtain ⟨rfl, rfl⟩ := List.cons.inj hline
      exact .inr ⟨step.1, steps, h, rfl, rfl⟩

/-- An edge to a state that was visited before changes nothing. -/
theorem skip {m : Mark} (hs : t.Searched ok root closing false (e :: rest) T)
    (hv : e.target ∈ t.visited ok T) (hw : t.Writes T e.target m T') (hm : ok m)
    (hp : ∀ {m₀}, t.markOf T e.target = some m₀ → m.parent = m₀.parent) (hr : newEdges r = [])
    (hclosing : closing → e.target ≠ root ∧ Scene.halts r = false) :
    t.Searched ok root closing (Scene.halts r) (Worker.lineAfter rest r) T' := by
  have hvisited : t.visited ok T' = t.visited ok T := by
    rw [hw.visited_eq hm, Set.insert_eq_of_mem hv]
  refine ⟨fun {u} hu => ?_, fun hgo => ?_, fun hc hhalt => ?_⟩
  · rw [hvisited] at hu
    obtain ⟨path, hpath, hlen⟩ := hs.climbs hu
    exact ⟨path, hpath.mono hw fun m₀ hm₀ _ => ⟨hm, .inr (hp hm₀)⟩, hlen⟩
  · rcases hs.head_cases with ⟨hnone, -⟩ | ⟨u, steps, hlayers, -, rfl⟩
    · rw [hnone] at hv
      exact absurd hv (Set.notMem_empty _)
    · have hnext := hlayers.shrink hv fun hc => (hclosing hc).1
      have hline : Worker.lineAfter (t.edgesOf T steps) r = t.edgesOf T' steps := by
        rw [Worker.lineAfter, hgo, hr, hw.edgesOf_eq fun hstep => (hnext.edges hstep).1]
        simp
      rw [hline]
      exact .steps (hvisited ▸ hnext)
  · rw [(hclosing hc).2] at hhalt
    exact absurd hhalt Bool.false_ne_true

/-- The parent of a new state is one layer above it. -/
theorem climbs_visit {m : Mark} (hs : t.Searched ok root closing false (e :: rest) T)
    (hv : e.target ∉ t.visited ok T) (hw : t.Writes T e.target m T') (hm : ok m)
    (hp : e.target ≠ root → m.parent = e.source) {v : N} (hmem : v ∈ t.visited ok T') :
    ∃ path, Climbs t ok T' root path v ∧ path.length = depth t.Edge root v + 1 := by
  have hold : ∀ {u}, u ∈ t.visited ok T →
      ∃ path, Climbs t ok T' root path u ∧ path.length = depth t.Edge root u + 1 := by
    intro u hu
    obtain ⟨path, hpath, hlen⟩ := hs.climbs hu
    exact ⟨path, hpath.mono hw fun m₀ hm₀ hok => absurd ⟨m₀, hm₀, hok⟩ hv, hlen⟩
  rw [hw.visited_eq hm] at hmem
  rcases hmem with rfl | hmem
  · rcases hs.head_cases with ⟨-, rfl, -⟩ | ⟨u, steps, hlayers, hsource, -⟩
    · exact ⟨[root], .root hw.mark_self hm, by simp [Edge.seed]⟩
    · obtain ⟨hu, hedge⟩ := hlayers.edges List.mem_cons_self
      obtain ⟨path, hpath, hlen⟩ := hold hu
      obtain ⟨k, hk⟩ := Terrain.exists_handleOf_of_visited hu
      have hne : e.target ≠ root := fun heq => hv (heq ▸ hlayers.root_mem)
      have hparent : m.parent = some k := by rw [hp hne, ← hsource, hk]
      refine ⟨path ++ [e.target],
        .step hne hw.mark_self hm hparent (hw.handle hk) hedge hpath, ?_⟩
      rw [List.length_append, hlen, hlayers.depth_eq hv, List.length_singleton]
  · exact hold hmem

/-- The edges of a new state come last. -/
theorem awaits_visit {m : Mark} {h : Handle}
    (hs : t.Searched ok root closing false (e :: rest) T) (hv : e.target ∉ t.visited ok T)
    (hw : t.Writes T e.target m T') (hm : ok m) (hh : t.handleOf T' e.target = some h) :
    t.Awaits ok root closing T' (rest ++ Edge.from h (t.targets e.target)) := by
  have hvisited := hw.visited_eq hm
  rw [← Terrain.edgesOf_from hh]
  rcases hs.head_cases with ⟨hnone, rfl, rfl⟩ | ⟨u, steps, hlayers, -, rfl⟩
  · rw [List.nil_append]
    refine .steps ?_
    rw [hvisited, hnone, insert_empty_eq]
    exact .start _ Iff.rfl
  · rw [← hw.edgesOf_eq fun hstep => (hlayers.edges (List.mem_cons_of_mem _ hstep)).1,
      ← Terrain.edgesOf_append]
    refine .steps ?_
    rw [hvisited]
    exact hlayers.grow hv _ Iff.rfl

/-- The first edge back to the root closes a shortest cycle. -/
theorem close {m : Mark} (hs : t.Searched ok root closing false (e :: rest) T) (hclosing : closing)
    (htarget : e.target = root) (hv : e.target ∈ t.visited ok T) (hw : t.Writes T e.target m T')
    (hm : ok m) (hp : m.parent = e.source) : t.Searched ok root closing true [] T' := by
  have hold : ∀ {u path}, Climbs t ok T root path u → Climbs t ok T' root path u := by
    intro u path hpath
    exact hpath.mono hw fun _ _ _ => ⟨hm, .inl htarget⟩
  refine ⟨fun {u} hu => ?_, fun h => absurd h.symm Bool.false_ne_true, fun _ _ => ?_⟩
  · rw [hw.visited_eq hm, Set.insert_eq_of_mem hv] at hu
    obtain ⟨path, hpath, hlen⟩ := hs.climbs hu
    exact ⟨path, hold hpath, hlen⟩
  · rcases hs.head_cases with ⟨hnone, -⟩ | ⟨u, steps, hlayers, hsource, -⟩
    · rw [hnone] at hv
      exact absurd hv (Set.notMem_empty _)
    · rw [htarget] at hlayers
      obtain ⟨hu, -⟩ := hlayers.edges List.mem_cons_self
      obtain ⟨path, hpath, hlen⟩ := hs.climbs hu
      obtain ⟨k, hk⟩ := Terrain.exists_handleOf_of_visited hu
      refine ⟨u, m, k, path, hold hpath, htarget ▸ hw.mark_self, ?_, hw.handle hk, ?_⟩
      · rw [hp, ← hsource, hk]
      · rw [hlen]
        exact hlayers.isLeast_cycle hclosing

/-- **Handling the first edge in line keeps the layers.** -/
theorem advance (hs : t.Searched ok root closing false (e :: rest) T)
    (h : t.Advances ok root closing T e r T') :
    t.Searched ok root closing (Scene.halts r) (Worker.lineAfter rest r) T' := by
  cases h with
  | skips hv hclosing hw hm hp hr => exact hs.skip hv hw hm hp hr hclosing
  | visits hv hw hm hp hh =>
    exact ⟨hs.climbs_visit hv hw hm hp, fun _ => hs.awaits_visit hv hw hm hh,
      fun _ hhalt => absurd hhalt Bool.false_ne_true⟩
  | closes hclosing htarget hv hw hm hp => exact hs.close hclosing htarget hv hw hm hp

/-- **A search for the way back that has come to its end has found it**, if there is one. -/
theorem returns_of_done {halted : Bool} (hs : t.Searched ok root closing halted [] T)
    (hclosing : closing) (hcycle : t.OnCycle root) : t.Returns ok root T := by
  cases halted with
  | true => exact hs.returns hclosing rfl
  | false =>
    generalize hline : ([] : List (FairCycle.Edge N)) = line at hs
    cases hs.awaits rfl with
    | seed => exact absurd hline.symm (List.cons_ne_nil _ _)
    | @steps steps h =>
      obtain rfl : steps = [] := List.map_eq_nil_iff.mp hline.symm
      exact absurd hcycle (h.not_transGen hclosing)

end Terrain.Searched

/-! ## 3. The order of the slots -/

/-- States that are deeper have higher slots. -/
def Terrain.Ordered (t : Terrain N σ) (root : N) (T : Nat → Table N) : Prop :=
  ∀ u v h k, t.handleOf T u = some h → t.handleOf T v = some k → h.slot.toNat ≤ k.slot.toNat →
    depth t.Edge root u ≤ depth t.Edge root v

section Ordered

variable {t : Terrain N σ} {root : N} {T T' : Nat → Table N} {u v : N} {m : Mark} {h k : Handle}
  {e : FairCycle.Edge N} {rest : List (FairCycle.Edge N)} {r : Except Stop (Progress N)}

/-- A new state comes after all others in the only table. -/
theorem Terrain.Writes.slot_lt_of_new (hone : t.peers = 1) (hT : t.Parted T)
    (hw : t.Writes T v m T') (hnew : t.handleOf T v = none) (hv : t.handleOf T' v = some k)
    (hu : t.handleOf T u = some h) : h.slot.toNat < k.slot.toNat := by
  have hpos : 0 < t.peers := t.peers_pos
  have hlt := hT.slot_lt hu
  have hv' := hv
  rw [Terrain.home_eq_zero hone] at hlt
  rw [Terrain.handleOf, Terrain.home_eq_zero hone, Table.find?_eq_some_iff] at hv'
  obtain ⟨slot, hslot, hk⟩ := hv'
  have hsame : (T 0).handle slot = k := by
    rw [← hk, Table.handle, Table.handle, hT.worker 0 hpos, hw.parted.worker 0 hpos]
  have hslotk : k.slot.toNat = slot := by
    rw [← hk, (hw.parted.fits hpos).handle_slot (Table.slot_lt hslot)]
  rw [hslotk]
  -- an earlier slot is taken by another state
  by_contra hle
  obtain ⟨x, hx⟩ : ∃ x, (T 0).nodes[slot]? = some x :=
    ⟨_, Array.getElem?_eq_getElem (Nat.lt_of_le_of_lt (Nat.le_of_not_lt hle) hlt)⟩
  have hhandle : t.handleOf T x = some k := by
    rw [Terrain.handleOf, Terrain.home_eq_zero hone, Table.find?_eq_some_iff]
    exact ⟨slot, hx, hsame⟩
  obtain rfl := hw.parted.handle_inj (hw.handle hhandle) hv
  exact absurd (hnew.symm.trans hhandle) (by simp)

/-- **The exploration stores states in the order of their depths.** -/
theorem Terrain.Ordered.advance (ho : t.Ordered root T) (hone : t.peers = 1) (hT : t.Parted T)
    (hs : t.Searched (fun _ => True) root False false (e :: rest) T)
    (h : t.Advances (fun _ => True) root False T e r T') : t.Ordered root T' := by
  cases h with
  | skips hv hclosing hw hm hp hr =>
    obtain ⟨m₀, hm₀, -⟩ := hv
    intro u v h k hu hv hle
    rw [hw.handle_of_known hm₀] at hu hv
    exact ho u v h k hu hv hle
  | visits hv hw hm hp hh =>
    have hnew : t.handleOf T e.target = none := by
      rw [Terrain.handleOf_eq_none_iff]
      exact Option.eq_none_iff_forall_ne_some.mpr fun m₀ hm₀ => hv ⟨m₀, hm₀, trivial⟩
    intro u v h k hu hv' hle
    rcases eq_or_ne u e.target with rfl | hne
    · rcases eq_or_ne v e.target with rfl | hne'
      · exact Nat.le_refl _
      · rw [hw.handle_ne hne'] at hv'
        have hlt := hw.slot_lt_of_new hone hT hnew hu hv'
        omega
    · rw [hw.handle_ne hne] at hu
      rcases eq_or_ne v e.target with rfl | hne'
      · obtain ⟨m₀, hm₀⟩ := Terrain.exists_markOf hu
        have hmem : u ∈ t.visited (fun _ => True) T := ⟨m₀, hm₀, trivial⟩
        rcases hs.head_cases with ⟨hnone, -⟩ | ⟨w, steps, hlayers, -⟩
        · rw [hnone] at hmem
          exact absurd hmem (Set.notMem_empty u)
        · exact hlayers.depth_le_of_new hv hmem
      · rw [hw.handle_ne hne'] at hv'
        exact ho u v h k hu hv' hle
  | closes hclosing => exact hclosing.elim

end Ordered

/-! ## 4. The exploration and the trace -/

section Passes

variable [Std.TransOrd N] [Std.LawfulEqOrd N] {t : Terrain N σ}

/-- What holds of a line of an exploration. -/
structure Terrain.Charts (t : Terrain N σ) (halted : Bool) (line : List (FairCycle.Edge N))
    (T : Nat → Table N) : Prop where
  searched : t.Searched (fun _ => True) t.graph.initial False halted line T
  ordered : t.Ordered t.graph.initial T

theorem Exploring.follows [t.Rooted] (hone : t.peers = 1) :
    Scene.Follows t .explore (Exploring t) t.Charts where
  good hs := hs.good
  step {s e rest} hs hp hl := by
    obtain ⟨r, d, h⟩ := hs.explores hp
    exact ⟨r, d, h.yields, hl.searched.advance h.advances,
      hl.ordered.advance hone hs.parted hl.searched h.advances⟩

theorem Tracing.follows [t.Rooted] {l : Ledger N} {stamp : Nat} {c : N} {k : Handle}
    (hstamp : l.round.toNat % 2 ^ 15 = stamp) (hl : l.cycleNode = some k) :
    Scene.Follows t .trace (Tracing t l stamp c k) (t.Searched (Mark.Bears stamp) c True) where
  good hs := hs.good
  step {s e rest} hs hp hline := by
    obtain ⟨r, d, h⟩ := hs.traces hstamp hl hp
    exact ⟨r, d, h.yields, hline.advance h.advances⟩

end Passes

end FairCycle
