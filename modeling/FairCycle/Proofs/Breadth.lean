/-
# Going out breadth first

A search goes out from a state, its root, along the edges of a relation.  It holds a line of steps
that it has yet to take, from states that it has visited to states that it may have visited or not,
and it always takes the first step of the line.  If that leads to a state not visited before, then
the steps from there come to the end of the line.

The line holds steps and not states, and a state counts as visited only when a step to it is taken.
So a state may be the target of many steps in the line.  `Layers` is what holds of the line all the
same: the sources of its steps stand in the order of their depths, and no state that was visited is
deeper than one below the first of them.  Whatever is not visited yet can be reached only through a
step of the line (`Layers.le_of_walk`), and so the first step to a state is the last one of a
shortest path (`Layers.depth_eq`).
-/
import Mathlib.Logic.Relation
import Mathlib.Order.Bounds.Basic
import Mathlib.Order.Lattice.Nat

namespace FairCycle

variable {α : Type} {r : α → α → Prop} {root u v w : α} {n : Nat}

/-! ## 1. Walks -/

/-- So many edges lead from `u` to a state. -/
inductive Walk (r : α → α → Prop) (u : α) : Nat → α → Prop
  | refl : Walk r u 0 u
  | tail {n : Nat} {v w : α} (h : Walk r u n v) (hedge : r v w) : Walk r u (n + 1) w

theorem exists_walk (h : Relation.ReflTransGen r u v) : ∃ n, Walk r u n v := by
  induction h with
  | refl => exact ⟨0, .refl⟩
  | tail _ hedge ih =>
    obtain ⟨n, hn⟩ := ih
    exact ⟨n + 1, hn.tail hedge⟩

/-- The number of edges on a shortest path, where there is a path. -/
noncomputable def depth (r : α → α → Prop) (u v : α) : Nat := sInf {n | Walk r u n v}

theorem depth_le (h : Walk r u n v) : depth r u v ≤ n := Nat.sInf_le h

theorem walk_depth (h : Walk r u n v) : Walk r u (depth r u v) v :=
  Nat.sInf_mem (s := {n | Walk r u n v}) ⟨n, h⟩

theorem isLeast_depth (h : Walk r u n v) : IsLeast {n | Walk r u n v} (depth r u v) :=
  ⟨walk_depth h, fun _ => depth_le⟩

@[simp] theorem depth_self (r : α → α → Prop) (u : α) : depth r u u = 0 :=
  Nat.le_zero.mp (depth_le .refl)

/-! ## 2. The line of a search -/

/-- A search from `root` that has visited the states of `X` and has these steps before it.  It may
be `closing`, out for a way back to its root. -/
structure Layers (r : α → α → Prop) (root : α) (closing : Prop) (X : Set α)
    (steps : List (α × α)) : Prop where
  root_mem : root ∈ X
  reach : ∀ {v}, v ∈ X → ∃ n, Walk r root n v
  edges : ∀ {step}, step ∈ steps → step.1 ∈ X ∧ r step.1 step.2
  /-- The line goes down from layer to layer. -/
  sorted : steps.Pairwise fun a b => depth r root a.1 ≤ depth r root b.1
  /-- What was visited is at most one layer below what the line starts from. -/
  near : ∀ {v step}, v ∈ X → step ∈ steps → depth r root v ≤ depth r root step.1 + 1
  /-- Edges to states that were not visited are in the line. -/
  onward : ∀ {u v}, u ∈ X → r u v → v ∈ X ∨ (u, v) ∈ steps
  /-- So are edges back to the root, if the search is out for them. -/
  back : closing → ∀ {u}, u ∈ X → r u root → (u, root) ∈ steps

namespace Layers

variable {closing : Prop} {X : Set α} {step : α × α} {rest steps : List (α × α)}

/-- The search begins at its root. -/
theorem start (targets : List α) (htargets : ∀ {v}, r root v ↔ v ∈ targets) :
    Layers r root closing {root} (targets.map (root, ·)) where
  root_mem := rfl
  reach hv := ⟨0, by rw [Set.mem_singleton_iff.mp hv]; exact .refl⟩
  edges hstep := by
    obtain ⟨v, hv, rfl⟩ := List.mem_map.mp hstep
    exact ⟨rfl, htargets.mpr hv⟩
  sorted := by
    rw [List.pairwise_map]
    exact List.pairwise_of_forall fun _ _ => Nat.le_refl _
  near hv _ := by
    rw [Set.mem_singleton_iff.mp hv, depth_self]
    exact Nat.zero_le _
  onward {u v} hu hedge := by
    obtain rfl := Set.mem_singleton_iff.mp hu
    exact .inr (List.mem_map_of_mem (htargets.mp hedge))
  back _ {u} hu hedge := by
    obtain rfl := Set.mem_singleton_iff.mp hu
    exact List.mem_map_of_mem (htargets.mp hedge)

/-- The depth of the first step bounds all others from below. -/
theorem depth_head_le (hs : Layers r root closing X (step :: rest)) {other : α × α}
    (hother : other ∈ step :: rest) : depth r root step.1 ≤ depth r root other.1 := by
  rcases List.mem_cons.mp hother with rfl | hrest
  · exact Nat.le_refl _
  · exact List.rel_of_pairwise_cons hs.sorted hrest

/-- **What is not visited is reached only through the line.**  A path to such a state leaves the
visited states along a step of the line, so it is at least as long as it takes to get there. -/
theorem le_of_walk (hs : Layers r root closing X steps) {bound : Nat}
    (hbound : ∀ step ∈ steps, bound ≤ depth r root step.1) (hw : Walk r root n w)
    (hedge : r w v) (hv : v ∉ X) : bound ≤ n := by
  have hstep : ∀ {n w v}, Walk r root n w → r w v → v ∉ X → w ∈ X → bound ≤ n := by
    intro n w v hw hedge hv hmem
    exact (hbound _ ((hs.onward hmem hedge).resolve_left hv)).trans (depth_le hw)
  induction hw generalizing v with
  | refl => exact hstep .refl hedge hv hs.root_mem
  | @tail n w' w hw' hedge' ih =>
    by_cases hmem : w ∈ X
    · exact hstep (hw'.tail hedge') hedge hv hmem
    · exact (ih hedge' hmem).trans (Nat.le_succ n)

/-- **The first step to a state ends a shortest path.** -/
theorem depth_eq (hs : Layers r root closing X ((u, v) :: rest)) (hv : v ∉ X) :
    depth r root v = depth r root u + 1 := by
  obtain ⟨hu, hedge⟩ := hs.edges List.mem_cons_self
  obtain ⟨n, hn⟩ := hs.reach hu
  have hwalk : Walk r root (depth r root u + 1) v := (walk_depth hn).tail hedge
  refine Nat.le_antisymm (depth_le hwalk) ?_
  generalize hd : depth r root v = d
  have hpath : Walk r root d v := hd ▸ walk_depth hwalk
  cases hpath with
  | refl => exact absurd hs.root_mem hv
  | tail hw hedge => exact Nat.succ_le_succ (hs.le_of_walk (fun _ => hs.depth_head_le) hw hedge hv)

/-- A state comes no earlier than those that are less deep. -/
theorem depth_le_of_new (hs : Layers r root closing X ((u, v) :: rest)) (hv : v ∉ X) (hw : w ∈ X) :
    depth r root w ≤ depth r root v := by
  rw [hs.depth_eq hv]
  exact hs.near hw List.mem_cons_self

/-- A step to a state that was visited is taken. -/
theorem shrink (hs : Layers r root closing X ((u, v) :: rest)) (hv : v ∈ X)
    (hroot : closing → v ≠ root) : Layers r root closing X rest where
  root_mem := hs.root_mem
  reach := hs.reach
  edges hstep := hs.edges (List.mem_cons_of_mem _ hstep)
  sorted := (List.pairwise_cons.mp hs.sorted).2
  near hw hstep := hs.near hw (List.mem_cons_of_mem _ hstep)
  onward {x y} hx hedge := by
    rcases hs.onward hx hedge with hy | hstep
    · exact .inl hy
    · rcases List.mem_cons.mp hstep with heq | hstep
      · obtain ⟨-, rfl⟩ := Prod.mk.inj heq
        exact .inl hv
      · exact .inr hstep
  back hclosing {x} hx hedge := by
    refine (List.mem_cons.mp (hs.back hclosing hx hedge)).resolve_left fun heq => ?_
    exact hroot hclosing (Prod.mk.inj heq).2.symm

/-- A step to a new state is taken; the steps from there come last. -/
theorem grow (hs : Layers r root closing X ((u, v) :: rest)) (hv : v ∉ X) (targets : List α)
    (htargets : ∀ {w}, r v w ↔ w ∈ targets) :
    Layers r root closing (insert v X) (rest ++ targets.map (v, ·)) := by
  have hdepth := hs.depth_eq hv
  obtain ⟨hu, hedge⟩ := hs.edges List.mem_cons_self
  -- an edge from a state visited before stays in the line, unless it is the one taken
  have hold : ∀ {x y}, (x, y) ∈ (u, v) :: rest → y = v ∨ (x, y) ∈ rest ++ targets.map (v, ·) := by
    intro x y hstep
    rcases List.mem_cons.mp hstep with heq | hstep
    · exact .inl (Prod.mk.inj heq).2
    · exact .inr (List.mem_append_left _ hstep)
  have hnew : ∀ {y}, r v y → (v, y) ∈ rest ++ targets.map (v, ·) := fun hy =>
    List.mem_append_right _ (List.mem_map_of_mem (htargets.mp hy))
  refine
    { root_mem := Set.mem_insert_of_mem v hs.root_mem
      reach := fun hw => ?_, edges := fun hstep => ?_, sorted := ?_
      near := fun {w step} hw hstep => ?_, onward := fun {x y} hx hxy => ?_
      back := fun hclosing {x} hx hxy => ?_ }
  · rcases hw with rfl | hw
    · obtain ⟨n, hn⟩ := hs.reach hu
      exact ⟨n + 1, hn.tail hedge⟩
    · exact hs.reach hw
  · rcases List.mem_append.mp hstep with hstep | hstep
    · obtain ⟨hsource, hstep⟩ := hs.edges (List.mem_cons_of_mem _ hstep)
      exact ⟨Set.mem_insert_of_mem v hsource, hstep⟩
    · obtain ⟨w, hw, rfl⟩ := List.mem_map.mp hstep
      exact ⟨Set.mem_insert v X, htargets.mpr hw⟩
  · refine List.pairwise_append.mpr ⟨(List.pairwise_cons.mp hs.sorted).2, ?_, fun a ha b hb => ?_⟩
    · rw [List.pairwise_map]
      exact List.pairwise_of_forall fun _ _ => Nat.le_refl _
    · obtain ⟨w, -, rfl⟩ := List.mem_map.mp hb
      exact hs.depth_le_of_new hv (hs.edges (List.mem_cons_of_mem _ ha)).1
  · rcases List.mem_append.mp hstep with hrest | hlast
    · rcases hw with rfl | hw
      · rw [hdepth]
        exact Nat.succ_le_succ (hs.depth_head_le (List.mem_cons_of_mem _ hrest))
      · exact hs.near hw (List.mem_cons_of_mem _ hrest)
    · obtain ⟨y, -, rfl⟩ := List.mem_map.mp hlast
      rcases hw with rfl | hw
      · exact Nat.le_succ _
      · exact (hs.depth_le_of_new hv hw).trans (Nat.le_succ _)
  · rcases hx with rfl | hx
    · exact .inr (hnew hxy)
    · rcases hs.onward hx hxy with hy | hstep
      · exact .inl (Set.mem_insert_of_mem v hy)
      · exact (hold hstep).imp_left .inl
  · rcases hx with rfl | hx
    · exact hnew hxy
    · exact (hold (hs.back hclosing hx hxy)).resolve_left fun heq => hv (heq ▸ hs.root_mem)

/-! ## 3. Coming back to the root -/

/-- **A way back to the root goes through the line** of a search that is out for it. -/
theorem le_of_walk_back (hs : Layers r root closing X steps) (hclosing : closing) {bound : Nat}
    (hbound : ∀ step ∈ steps, bound ≤ depth r root step.1) (hw : Walk r root n w)
    (hedge : r w root) : bound ≤ n := by
  by_cases hmem : w ∈ X
  · exact (hbound _ (hs.back hclosing hmem hedge)).trans (depth_le hw)
  · cases hw with
    | refl => exact absurd hs.root_mem hmem
    | tail hw' hedge' => exact (hs.le_of_walk hbound hw' hedge' hmem).trans (Nat.le_succ _)

/-- **The first step back to the root ends a shortest cycle.** -/
theorem isLeast_cycle (hs : Layers r root closing X ((u, root) :: rest)) (hclosing : closing) :
    IsLeast {n | 0 < n ∧ Walk r root n root} (depth r root u + 1) := by
  obtain ⟨hu, hedge⟩ := hs.edges List.mem_cons_self
  obtain ⟨n, hn⟩ := hs.reach hu
  refine ⟨⟨Nat.succ_pos _, (walk_depth hn).tail hedge⟩, ?_⟩
  rintro n ⟨hpos, hpath⟩
  cases hpath with
  | refl => exact absurd hpos (Nat.lt_irrefl 0)
  | tail hw hedge =>
    exact Nat.succ_le_succ (hs.le_of_walk_back hclosing (fun _ => hs.depth_head_le) hw hedge)

/-- If such a search comes to its end, then the root is on no cycle. -/
theorem not_transGen (hs : Layers r root closing X []) (hclosing : closing) :
    ¬Relation.TransGen r root root := by
  intro hcycle
  obtain ⟨w, hreach, hedge⟩ := Relation.TransGen.tail'_iff.mp hcycle
  obtain ⟨n, hn⟩ := exists_walk hreach
  have hle : n + 1 ≤ n :=
    hs.le_of_walk_back hclosing (fun _ h => absurd h List.not_mem_nil) hn hedge
  exact absurd hle (Nat.not_succ_le_self n)

end Layers

end FairCycle
