/-
# Passes that go out from one state

The exploration, a search and a trace each start from one state, their root, and go on from every
state that they visit along all of its edges.  `Scene.Frontier` says what such a pass looks like
at any moment: what is to be handled are edges from visited states, and no edge from a visited
state is lost.  An edge is done with when its target is settled, which means something else in each
of the passes, or when the worker that it leads to has halted.

An edge is either put away, and the frontier shrinks (`Frontier.shrink`), or its target is visited,
and the frontier grows (`Frontier.grow`).  At the end all edges from visited states are done with
(`Frontier.settled_of_done`).

What counts as visited can be read off the tables: the states with a mark of a certain kind.
`Terrain.Advances` lists what the handling of an edge does to them.
-/
import FairCycle.Proofs.Partition

namespace FairCycle

variable {N σ : Type} [Ord N]

/-! ## 1. The edges to be handled -/

/-- A pass that went out from `root` and has visited the states of `X`; `name` gives the handles of
states. -/
structure Scene.Frontier (t : Terrain N σ) (root : N) (name : N → Option Handle)
    (settled : N → Prop) (X : Finset N) (s : Scene N) : Prop where
  /-- The root comes first. -/
  origin : s.pending = {Edge.seed root} ∧ X = ∅ ∨ root ∈ X ∧ ∀ e ∈ s.pending, e.source ≠ none
  edges : ∀ {e h}, e ∈ s.pending → e.source = some h →
    ∃ u ∈ X, name u = some h ∧ t.Edge u e.target
  /-- No edge is lost, except by workers that have halted. -/
  onward : ∀ {u v}, u ∈ X → t.Edge u v →
    settled v ∨ (∃ e ∈ s.pending, e.target = v) ∨ s.halted (t.home v) = true
  counted : X.card + Multiset.card s.pending ≤ 1 + s.generated t
  generated : s.generated t = ∑ v ∈ X, (t.targets v).length

namespace Scene.Frontier

variable {t : Terrain N σ} {root : N} {name name' : N → Option Handle}
  {settled settled' : N → Prop} {X : Finset N} {s s' : Scene N} {e : Edge N}
  {rest : Multiset (Edge N)} {h : Handle}

/-- Before the first edge the root alone is to be visited. -/
theorem start (hpending : s.pending = {Edge.seed root}) (hgenerated : s.generated t = 0) :
    s.Frontier t root name settled ∅ where
  origin := .inl ⟨hpending, rfl⟩
  edges he hsource := by
    rw [hpending, Multiset.mem_singleton] at he
    rw [he] at hsource
    exact nomatch hsource
  onward hu := absurd hu (Finset.notMem_empty _)
  counted := by
    rw [hpending, hgenerated]
    exact Nat.le_refl 1
  generated := by rw [hgenerated, Finset.sum_empty]

/-- The root itself is the only edge from nowhere. -/
theorem eq_seed (hs : s.Frontier t root name settled X) (he : e ∈ s.pending)
    (hsource : e.source = none) : s.pending = {Edge.seed root} ∧ X = ∅ ∧ e = Edge.seed root := by
  rcases hs.origin with ⟨hpending, hX⟩ | ⟨-, hall⟩
  · rw [hpending, Multiset.mem_singleton] at he
    exact ⟨hpending, hX, he⟩
  · exact absurd hsource (hall e he)

/-- With anything but the root to be handled, the root was visited. -/
theorem mem_root (hs : s.Frontier t root name settled X) (he : e ∈ s.pending)
    (hsource : e.source ≠ none) : root ∈ X := by
  rcases hs.origin with ⟨hpending, -⟩ | ⟨hroot, -⟩
  · rw [hpending, Multiset.mem_singleton] at he
    rw [he] at hsource
    exact absurd rfl hsource
  · exact hroot

/-- What is left after a first edge does not come from nowhere. -/
theorem source_ne_none (hs : s.Frontier t root name settled X) (hp : s.pending = e ::ₘ rest)
    {e' : Edge N} (he' : e' ∈ rest) : e'.source ≠ none := by
  rcases hs.origin with ⟨hpending, -⟩ | ⟨-, hall⟩
  · rw [hpending, Multiset.singleton_eq_cons_iff] at hp
    rw [hp.2] at he'
    exact absurd he' (Multiset.notMem_zero e')
  · exact hall e' (by rw [hp]; exact Multiset.mem_cons_of_mem he')

/-- **An edge is put away.** -/
theorem shrink (hs : s.Frontier t root name settled X) (hp : s.pending = e ::ₘ rest)
    (hroot : root ∈ X) (hpending : s'.pending = rest) (hgenerated : s'.generated t = s.generated t)
    (hhalted : ∀ {i}, s.halted i = true → s'.halted i = true)
    (hname : ∀ {u h}, name u = some h → name' u = some h) (hsettled : ∀ {v}, settled v → settled' v)
    (hdone : settled' e.target ∨ s'.halted (t.home e.target) = true) :
    s'.Frontier t root name' settled' X where
  origin := by
    refine .inr ⟨hroot, fun e' he' => hs.source_ne_none hp ?_⟩
    rwa [hpending] at he'
  edges he' hsource := by
    rw [hpending] at he'
    obtain ⟨u, hu, hh, hedge⟩ := hs.edges (by rw [hp]; exact Multiset.mem_cons_of_mem he') hsource
    exact ⟨u, hu, hname hh, hedge⟩
  onward hu hedge := by
    rcases hs.onward hu hedge with hv | ⟨e', he', rfl⟩ | hhalt
    · exact .inl (hsettled hv)
    · rw [hp, Multiset.mem_cons] at he'
      rcases he' with rfl | he'
      · exact hdone.imp_right .inr
      · exact .inr (.inl ⟨e', by rw [hpending]; exact he', rfl⟩)
    · exact .inr (.inr (hhalted hhalt))
  counted := by
    have hcount := hs.counted
    rw [hp, Multiset.card_cons] at hcount
    rw [hpending, hgenerated]
    omega
  generated := hgenerated.trans hs.generated

/-- **The target of an edge is visited.**  The root is not settled by that when it is the target
of the first edge. -/
theorem grow [DecidableEq N] (hs : s.Frontier t root name settled X)
    (hp : s.pending = e ::ₘ rest) (hnew : e.target ∉ X)
    (hpending : s'.pending = rest + (Edge.from h (t.targets e.target) : Multiset (Edge N)))
    (hgenerated : s'.generated t = s.generated t + (t.targets e.target).length)
    (hhalted : s'.halted = s.halted) (hname : ∀ {u h}, name u = some h → name' u = some h)
    (hself : name' e.target = some h) (hsettled : ∀ {v}, settled v → settled' v)
    (hdone : settled' e.target ∨ X = ∅) :
    s'.Frontier t root name' settled' (insert e.target X) where
  origin := by
    refine .inr ⟨?_, fun e' he' => ?_⟩
    · rcases hs.origin with ⟨hpend, -⟩ | ⟨hroot, -⟩
      · rw [hpend, Multiset.singleton_eq_cons_iff] at hp
        rw [← hp.1]
        exact Finset.mem_insert_self ..
      · exact Finset.mem_insert_of_mem hroot
    · rw [hpending] at he'
      rcases Multiset.mem_add.mp he' with he' | he'
      · exact hs.source_ne_none hp he'
      · obtain ⟨w, -, rfl⟩ := List.mem_map.mp (Multiset.mem_coe.mp he')
        exact nofun
  edges he' hsource := by
    rw [hpending] at he'
    rcases Multiset.mem_add.mp he' with he' | he'
    · obtain ⟨u, hu, hh, hedge⟩ := hs.edges (by rw [hp]; exact Multiset.mem_cons_of_mem he') hsource
      exact ⟨u, Finset.mem_insert_of_mem hu, hname hh, hedge⟩
    · obtain ⟨w, hedge, rfl⟩ := List.mem_map.mp (Multiset.mem_coe.mp he')
      exact ⟨e.target, Finset.mem_insert_self .., hself.trans hsource, hedge⟩
  onward {u w} hu hedge := by
    rw [hpending, hhalted]
    rcases Finset.mem_insert.mp hu with rfl | hold
    · refine .inr (.inl ⟨⟨some h, w⟩, ?_, rfl⟩)
      exact Multiset.mem_add.mpr (.inr (Multiset.mem_coe.mpr (List.mem_map_of_mem hedge)))
    · rcases hs.onward hold hedge with hw | ⟨e', he', rfl⟩ | hhalt
      · exact .inl (hsettled hw)
      · rw [hp, Multiset.mem_cons] at he'
        rcases he' with rfl | he'
        · refine .inl (hdone.resolve_right fun hempty => ?_)
          rw [hempty] at hold
          exact absurd hold (Finset.notMem_empty u)
        · exact .inr (.inl ⟨e', Multiset.mem_add.mpr (.inl he'), rfl⟩)
      · exact .inr (.inr hhalt)
  counted := by
    have hcount := hs.counted
    rw [hp, Multiset.card_cons] at hcount
    rw [Finset.card_insert_of_notMem hnew, hpending, hgenerated, Multiset.card_add,
      Multiset.coe_card, Edge.from, List.length_map]
    omega
  generated := by rw [hgenerated, Finset.sum_insert hnew, hs.generated, Nat.add_comm]

/-- A worker that has halted drops an edge. -/
theorem drop (hs : s.Frontier t root name settled X) (hp : s.pending = e ::ₘ rest)
    (hroot : root ∈ X) (hhalt : s.halted (t.home e.target) = true) :
    ({ s with pending := rest } : Scene N).Frontier t root name settled X :=
  hs.shrink hp hroot rfl rfl (fun h => h) (fun h => h) (fun h => h) (.inr hhalt)

/-- A pass generates no more edges than there are. -/
theorem generated_le (hs : s.Frontier t root name settled X) (hX : X ⊆ t.states) :
    s.generated t ≤ t.edgeCount := by
  rw [hs.generated]
  exact Finset.sum_le_sum_of_subset hX

/-- **When nothing is left to do, every edge from a visited state is done with.** -/
theorem settled_of_done (hs : s.Frontier t root name settled X) (hdone : s.pending = 0) :
    root ∈ X ∧ ∀ {u v}, u ∈ X → t.Edge u v → settled v ∨ s.halted (t.home v) = true := by
  constructor
  · rcases hs.origin with ⟨hpending, -⟩ | ⟨hroot, -⟩
    · rw [hdone] at hpending
      exact absurd hpending.symm (Multiset.singleton_ne_zero _)
    · exact hroot
  · intro u v hu hedge
    rcases hs.onward hu hedge with hv | ⟨e, he, -⟩ | hhalt
    · exact .inl hv
    · rw [hdone] at he
      exact absurd he (Multiset.notMem_zero e)
    · exact .inr hhalt

end Scene.Frontier

/-! ## 2. What is visited -/

/-- The states with a mark that satisfies `ok`. -/
def Terrain.visited (t : Terrain N σ) (ok : Mark → Prop) (T : Nat → Table N) : Set N :=
  {v | ∃ m, t.markOf T v = some m ∧ ok m}

/-- How an edge is handled in a pass that goes out from `root`: with the result `r`, and leaving the
tables `T'`.  A pass that is `closing` ends when it comes back to its root. -/
inductive Terrain.Advances (t : Terrain N σ) (ok : Mark → Prop) (root : N) (closing : Prop)
    (T : Nat → Table N) (e : FairCycle.Edge N) :
    Except Stop (Progress N) → (Nat → Table N) → Prop
  /-- The target was visited before; its parent stays. -/
  | skips {m : Mark} {r : Except Stop (Progress N)} {T' : Nat → Table N}
      (hv : e.target ∈ t.visited ok T)
      (hclosing : closing → e.target ≠ root ∧ Scene.halts r = false)
      (hw : t.Writes T e.target m T') (hm : ok m)
      (hp : ∀ {m₀}, t.markOf T e.target = some m₀ → m.parent = m₀.parent) (hr : newEdges r = []) :
      Advances t ok root closing T e r T'
  /-- The target is visited, and all its edges are to be handled. -/
  | visits {m : Mark} {h : Handle} {T' : Nat → Table N} (hv : e.target ∉ t.visited ok T)
      (hw : t.Writes T e.target m T') (hm : ok m) (hp : e.target ≠ root → m.parent = e.source)
      (hh : t.handleOf T' e.target = some h) :
      Advances t ok root closing T e (.ok (.expand h (t.targets e.target))) T'
  /-- The root gets a parent. -/
  | closes {m : Mark} {T' : Nat → Table N} (hclosing : closing) (htarget : e.target = root)
      (hv : e.target ∈ t.visited ok T)
      (hw : t.Writes T e.target m T') (hm : ok m) (hp : m.parent = e.source) :
      Advances t ok root closing T e (.ok .halt) T'

end FairCycle
