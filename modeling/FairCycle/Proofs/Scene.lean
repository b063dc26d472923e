/-
# A pass as a set of edges

Seen from far enough, a pass is a set of edges that are still to be handled, wherever they are
just now: in a queue, in a letter, or not even handed out.  The order in which workers come to
take their turns decides in which order the edges are handled, and nothing else.  So a property
of a pass that handling one edge keeps, whichever edge it is, holds however the workers take their
turns.

A `Scene` is a pass seen like this, and `Scene.Keeps` says what is to be shown of a property: it
survives the handling of any edge, the dropping of edges by workers that have halted, and the
halting of workers once there is a fault.  `Scene.Tracks` is the same for a property that also
speaks of the states that were expanded so far, as often as they were.
-/
import Mathlib.Algebra.BigOperators.Group.Finset.Basic
import FairCycle.Proofs.Balance
import FairCycle.Proofs.Turns

namespace FairCycle

variable {N σ : Type} [Ord N]

/-- A pass, seen as a set of edges to be handled. -/
structure Scene (N : Type) [Ord N] where
  /-- What each worker has before it. -/
  desk : Nat → Desk N
  /-- The edges that are still to be handled. -/
  pending : Multiset (Edge N)
  /-- The workers that drop the rest of the pass. -/
  halted : Nat → Bool
  /-- The faults that workers have met. -/
  fault : Nat → Option Fault

namespace Scene

/-- Whether a worker halts after handling an edge. -/
def halts : Except Stop (Progress N) → Bool
  | .ok .halt | .error (.fault _) => true
  | _ => false

/-- The fault that a worker has met after handling an edge. -/
def faultAfter (before : Option Fault) : Except Stop (Progress N) → Option Fault
  | .error (.fault f) => some f
  | _ => before

/-- The scene after worker `i` has handled an edge with the result `r`: it has the desk `d` then,
and `rest` is what was to be handled besides the edge. -/
def handled (s : Scene N) (i : Nat) (rest : Multiset (Edge N)) (r : Except Stop (Progress N))
    (d : Desk N) : Scene N where
  desk := Function.update s.desk i d
  pending := rest + newEdges r
  halted := Function.update s.halted i (s.halted i || halts r)
  fault := Function.update s.fault i (faultAfter (s.fault i) r)

/-- A sum over the ledgers of all workers. -/
def total (t : Terrain N σ) (f : Ledger N → Nat) (s : Scene N) : Nat :=
  ∑ i ∈ Finset.range t.peers, f (s.desk i).ledger

/-- The edges that were generated in the pass. -/
def generated (t : Terrain N σ) (s : Scene N) : Nat := s.total t (·.transitions)

variable [Std.TransOrd N] [Std.LawfulEqOrd N]

/-- An edge can be handled, and the property `P` holds afterwards; the states of `X` were expanded
before, and `rest` is what is to be handled besides. -/
def HandlesAfter (t : Terrain N σ) (pass : Pass) (P : Multiset N → Scene N → Prop)
    (X : Multiset N) (s : Scene N) (e : Edge N) (rest : Multiset (Edge N)) : Prop :=
  ∃ r d, Yields (handleEdge (t.task pass) e) (s.desk (t.home e.target)) r d ∧ Regular r ∧
    d.ledger.transitions =
      (s.desk (t.home e.target)).ledger.transitions + (newEdges r).length ∧
    P (X + expansions r d) (s.handled (t.home e.target) rest r d)

/-- The same for a property of the scene alone. -/
def Handles (t : Terrain N σ) (pass : Pass) (P : Scene N → Prop) (s : Scene N) (e : Edge N)
    (rest : Multiset (Edge N)) : Prop :=
  s.HandlesAfter t pass (fun _ => P) 0 e rest

/-- What is to be shown of a property of scenes, and of the states that were expanded, so that a
whole pass keeps it.  `limit` bounds the edges that the pass generates. -/
structure Tracks (t : Terrain N σ) (pass : Pass) (limit : Nat)
    (P : Multiset N → Scene N → Prop) : Prop where
  /-- Every worker has the table of its own part. -/
  peers : ∀ {X s}, P X s → ∀ i < t.peers, (s.desk i).table.peers = t.peers
  /-- Only so many edges are generated. -/
  bound : ∀ {X s}, P X s → s.generated t ≤ limit
  /-- An edge can be handled, and the property holds afterwards. -/
  step : ∀ {X s e rest}, P X s → s.pending = e ::ₘ rest → s.halted (t.home e.target) = false →
    s.HandlesAfter t pass P X e rest
  /-- A worker that has halted may drop its edges. -/
  drop : ∀ {X s e rest}, P X s → s.pending = e ::ₘ rest → s.halted (t.home e.target) = true →
    P X { s with pending := rest }
  /-- After a fault any worker may halt. -/
  stop : ∀ {X s i j}, P X s → (s.fault j).isSome →
    P X { s with halted := Function.update s.halted i true }

/-- What is to be shown of a property of scenes so that a whole pass keeps it. -/
abbrev Keeps (t : Terrain N σ) (pass : Pass) (limit : Nat) (P : Scene N → Prop) : Prop :=
  Tracks t pass limit fun _ => P

variable {t : Terrain N σ} {pass : Pass} {limit : Nat} {P : Multiset N → Scene N → Prop}

/-- What speaks of the expanded states says something of the scene alone. -/
theorem Tracks.keeps (hP : Tracks t pass limit P) :
    Keeps t pass limit fun s => ∃ X, P X s where
  peers := fun ⟨_, hs⟩ => hP.peers hs
  bound := fun ⟨_, hs⟩ => hP.bound hs
  step := fun ⟨_, hs⟩ hp hh => by
    obtain ⟨r, d, hy, hr, hg, hnext⟩ := hP.step hs hp hh
    exact ⟨r, d, hy, hr, hg, _, hnext⟩
  drop := fun ⟨X, hs⟩ hp hh => ⟨X, hP.drop hs hp hh⟩
  stop := fun ⟨X, hs⟩ hf => ⟨X, hP.stop hs hf⟩

/-- A worker that has halted may drop any number of its edges. -/
theorem Tracks.drop_all (hP : Tracks t pass limit P) {X : Multiset N} {s : Scene N} {i : Nat}
    (hh : s.halted i = true) (dropped : Multiset (Edge N)) :
    ∀ {rest : Multiset (Edge N)}, P X s → s.pending = dropped + rest →
      (∀ e ∈ dropped, t.home e.target = i) → P X { s with pending := rest } := by
  induction dropped using Multiset.induction_on generalizing s with
  | empty =>
    intro rest hs hp _
    rw [zero_add] at hp
    rw [← hp]
    exact hs
  | cons e dropped ih =>
    intro rest hs hp hown
    have he : t.home e.target = i := hown e (Multiset.mem_cons_self e dropped)
    rw [Multiset.cons_add] at hp
    have hnext := hP.drop hs hp (by rw [he]; exact hh)
    exact ih (s := { s with pending := dropped + rest }) hh hnext rfl
      fun e' h' => hown e' (Multiset.mem_cons_of_mem h')

end Scene

end FairCycle
