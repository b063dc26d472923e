/-
# Graphs that keep their promises

A graph keeps its promises when it answers equal questions equally and always: there are plain
functions that say what it answers, whatever it remembers (`Graph.Promise`).  It need not do so for
all the states that its type has, but for a set of known ones that no edge leads out of.  Such a
graph has edges in the usual sense, and what a check has to say about it is said in terms of paths
and cycles along them.

A `Terrain` is what a pass of a run is about: a graph with its promises, the successor lists that
the run follows, the number of workers, and the states that their tables may hold.  It carries the
two bounds that every handle relies on: the number of workers and the number of states of each
worker fit into the words of a handle.  In a check the states are the reachable ones
(`Terrain.Rooted`); a single pass may also start from other tables.

The last section is about finite sets of states alone: if every state of a finite set has an
ancestor in the set, then every state of it comes from a cycle inside the set
(`exists_cycle_of_ancestors`).
-/
import Mathlib.Data.Finset.Card
import Mathlib.Data.Finset.Lattice.Fold
import Mathlib.Data.Set.Card
import Mathlib.Algebra.BigOperators.Finprod
import Mathlib.Logic.Relation
import FairCycle.Fingerprint
import FairCycle.Graph

namespace FairCycle

/-! ## 1. Promises -/

/-- What a graph answers, when it answers equal questions about the states that it knows equally
and always.  A fingerprint can be asked of any state. -/
structure Graph.Promise {N σ : Type} (g : Graph N σ) where
  /-- The states that the graph knows. -/
  known : Set N
  /-- The successors of a state, in order. -/
  successors : N → List N
  /-- The reduced successors of a state, in order. -/
  reduced : N → List N
  /-- Whether a state is accepting. -/
  accepting : N → Bool
  /-- The fingerprint of a state. -/
  hash : N → UInt64
  initial_known : g.initial ∈ known
  successors_known : ∀ node ∈ known, ∀ target ∈ successors node, target ∈ known
  reduced_known : ∀ node ∈ known, ∀ target ∈ reduced node, target ∈ known
  successors_eq : ∀ node ∈ known, ∀ memory,
    (g.successors node memory).1 = some (successors node)
  reduced_eq : ∀ node ∈ known, ∀ memory, (g.reduced node memory).1 = some (reduced node)
  accepting_eq : ∀ node ∈ known, ∀ memory, (g.accepting node memory).1 = some (accepting node)
  hash_eq : ∀ node memory, (g.hash node memory).1 = hash node

namespace Graph.Promise

variable {N σ : Type} {g : Graph N σ} (p : g.Promise) (reduction : Bool)

/-- The successors that a run follows. -/
def targets (node : N) : List N := if reduction then p.reduced node else p.successors node

/-- There is an edge from `u` to `v`. -/
def Edge (u v : N) : Prop := v ∈ p.targets reduction u

/-- There is a path from `u` to `v`, which may be empty. -/
def Reaches : N → N → Prop := Relation.ReflTransGen (p.Edge reduction)

/-- There is a path from `u` back to itself, which is not empty. -/
def OnCycle (u : N) : Prop := Relation.TransGen (p.Edge reduction) u u

/-- The states that can be reached from the initial one. -/
def reachable : Set N := {node | p.Reaches reduction g.initial node}

/-- The number of edges from states of a set to a state, parallel edges counted each. -/
noncomputable def edgesInto [DecidableEq N] (sources : Set N) (target : N) : Nat :=
  ∑ᶠ u ∈ sources, (p.targets reduction u).count target

/-- The promise of a graph of plain functions. -/
def ofFunctions (initial : N) (successors reduced : N → List N) (accepting : N → Bool)
    (hash : N → UInt64) (describe : N → String) :
    (Graph.ofFunctions initial (some ∘ successors) (some ∘ reduced) (some ∘ accepting) hash
      describe).Promise where
  known := Set.univ
  successors := successors
  reduced := reduced
  accepting := accepting
  hash := hash
  initial_known := Set.mem_univ _
  successors_known _ _ _ _ := Set.mem_univ _
  reduced_known _ _ _ _ := Set.mem_univ _
  successors_eq _ _ _ := rfl
  reduced_eq _ _ _ := rfl
  accepting_eq _ _ _ := rfl
  hash_eq _ _ := rfl

variable {p reduction}

theorem expand_eq {node : N} (hnode : node ∈ p.known) (memory : σ) :
    (g.expand reduction node memory).1 = some (p.targets reduction node) := by
  cases reduction
  · exact p.successors_eq node hnode memory
  · exact p.reduced_eq node hnode memory

theorem Edge.known {u v : N} (h : p.Edge reduction u v) (hu : u ∈ p.known) : v ∈ p.known := by
  cases reduction
  · exact p.successors_known u hu v h
  · exact p.reduced_known u hu v h

/-- No path leads out of the known states. -/
theorem Reaches.known {u v : N} (h : p.Reaches reduction u v) (hu : u ∈ p.known) :
    v ∈ p.known := by
  induction h with
  | refl => exact hu
  | tail _ hedge ih => exact hedge.known ih

theorem reachable_subset : p.reachable reduction ⊆ p.known := fun _ h =>
  Reaches.known h p.initial_known

end Graph.Promise

/-! ## 2. Terrains -/

/-- What a pass of a run is about. -/
structure Terrain (N σ : Type) where
  graph : Graph N σ
  promise : graph.Promise
  /-- Whether the run follows the reduced successor lists. -/
  reduction : Bool
  /-- The number of workers. -/
  peers : Nat
  peers_pos : 0 < peers
  peers_le : peers ≤ 2 ^ 32
  /-- The states that the tables may hold. -/
  states : Finset N
  known : ∀ node ∈ states, node ∈ promise.known
  /-- Every worker has few enough of them to number them. -/
  few : ∀ i, (states.filter fun node => owner (promise.hash node) peers = i).card ≤ 2 ^ 32

namespace Terrain

variable {N σ : Type} (t : Terrain N σ)

/-- The successors that the run follows. -/
def targets : N → List N := t.promise.targets t.reduction

/-- There is an edge from `u` to `v`. -/
def Edge : N → N → Prop := t.promise.Edge t.reduction

/-- There is a path from `u` to `v`, which may be empty. -/
def Reaches : N → N → Prop := t.promise.Reaches t.reduction

/-- There is a path from `u` to `v` with at least one edge. -/
def Precedes : N → N → Prop := Relation.TransGen t.Edge

/-- There is a path from `u` back to itself, which is not empty. -/
def OnCycle (u : N) : Prop := t.promise.OnCycle t.reduction u

/-- Whether a state is accepting. -/
def accepting : N → Bool := t.promise.accepting

/-- The worker that owns a state. -/
def home (node : N) : Nat := owner (t.promise.hash node) t.peers

theorem home_lt (node : N) : t.home node < t.peers := owner_lt t.peers_pos

variable {t} in
/-- A worker alone owns everything. -/
theorem home_eq_zero (hone : t.peers = 1) (node : N) : t.home node = 0 := by
  have hlt := t.home_lt node
  omega

/-- The number of edges from the states; a pass generates no more. -/
noncomputable def edgeCount : Nat := ∑ v ∈ t.states, (t.targets v).length

variable {t}

theorem Reaches.trans {u v w : N} (h : t.Reaches u v) (h' : t.Reaches v w) : t.Reaches u w :=
  Relation.ReflTransGen.trans h h'

theorem Edge.precedes {u v : N} (h : t.Edge u v) : t.Precedes u v := Relation.TransGen.single h

theorem Reaches.precedes_of_edge {u v w : N} (h : t.Reaches u v) (h' : t.Edge v w) :
    t.Precedes u w := Relation.TransGen.tail' h h'

/-- The states are those that can be reached from the initial one, and they are few enough to be
numbered with one to spare. -/
class Rooted (t : Terrain N σ) : Prop where
  mem_iff : ∀ node, node ∈ t.states ↔ t.Reaches t.graph.initial node
  card_lt : t.states.card < 2 ^ 32 - 1

section Rooted

variable (t) [t.Rooted]

theorem mem_states {node : N} : node ∈ t.states ↔ t.Reaches t.graph.initial node :=
  Rooted.mem_iff node

theorem initial_mem : t.graph.initial ∈ t.states :=
  t.mem_states.mpr Relation.ReflTransGen.refl

variable {t}

/-- What an edge leads to from a reachable state is reachable. -/
theorem mem_states_of_edge {u v : N} (hu : u ∈ t.states) (h : t.Edge u v) : v ∈ t.states :=
  t.mem_states.mpr ((t.mem_states.mp hu).tail h)

theorem mem_states_of_reaches {u v : N} (hu : u ∈ t.states) (h : t.Reaches u v) : v ∈ t.states :=
  t.mem_states.mpr ((t.mem_states.mp hu).trans h)

end Rooted

end Terrain

/-! ## 3. Ancestors in a finite set -/

section Ancestors

variable {α : Type} {r : α → α → Prop}

/-- Going back along a chain of ancestors leads to an ancestor. -/
theorem transGen_iterate {f : α → α} {s : Set α} (hmem : ∀ x ∈ s, f x ∈ s)
    (hanc : ∀ x ∈ s, Relation.TransGen r (f x) x) {x : α} (hx : x ∈ s) (i k : Nat) :
    Relation.TransGen r (f^[i + k + 1] x) (f^[i] x) := by
  have hin : ∀ j, f^[j] x ∈ s := by
    intro j
    induction j with
    | zero => exact hx
    | succ j ih => rw [Function.iterate_succ_apply']; exact hmem _ ih
  induction k with
  | zero => rw [Nat.add_zero, Function.iterate_succ_apply']; exact hanc _ (hin i)
  | succ k ih =>
    rw [Function.iterate_succ_apply']
    exact (hanc _ (hin _)).trans ih

/-- **Every state of a finite set in which each has an ancestor comes from a cycle in it.**  Going
back from ancestor to ancestor inside the set must come to the same state twice. -/
theorem exists_cycle_of_ancestors {s : Finset α}
    (h : ∀ x ∈ s, ∃ y ∈ s, Relation.TransGen r y x) {x : α} (hx : x ∈ s) :
    ∃ y ∈ s, Relation.TransGen r y y ∧ Relation.ReflTransGen r y x := by
  classical
  choose! f hmem hanc using h
  have hin : ∀ j, f^[j] x ∈ s := by
    intro j
    induction j with
    | zero => exact hx
    | succ j ih => rw [Function.iterate_succ_apply']; exact hmem _ ih
  obtain ⟨i, -, j, -, hne, heq⟩ := Finset.exists_ne_map_eq_of_card_lt_of_maps_to
    (s := Finset.range (s.card + 1)) (t := s) (f := fun j => f^[j] x) (by simp)
    (fun j _ => hin j)
  wlog hlt : i < j generalizing i j
  · exact this j i hne.symm heq.symm (by omega)
  obtain ⟨k, rfl⟩ : ∃ k, j = i + k + 1 := ⟨j - i - 1, by omega⟩
  have hcycle : Relation.TransGen r (f^[i] x) (f^[i] x) := by
    have := transGen_iterate (s := (s : Set α)) hmem hanc hx i k
    rwa [show f^[i + k + 1] x = f^[i] x from heq.symm] at this
  refine ⟨f^[i] x, hin i, hcycle, ?_⟩
  cases i with
  | zero => exact Relation.ReflTransGen.refl
  | succ i =>
    have := transGen_iterate (s := (s : Set α)) hmem hanc hx 0 i
    simpa using this.to_reflTransGen

end Ancestors

end FairCycle
