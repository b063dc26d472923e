/-
# Automata as graphs

Not every word is the number of a state, so an automaton has no answer for every word.  But if all
numbers in it are those of states, then no edge leads to any other word; and if no state has more
edges than there are labels, then every state can be expanded (`Automaton.Sound`).  Such an
automaton is a graph that keeps its promises for the numbers of its states (`Automaton.promise`),
and all that is said about checks of such graphs is true of it.

What was read from a text or made by a builder is of this kind, apart from the labels
(`Automaton.sound_of_parse`, `Automaton.sound_of_build`).  So a text of few enough states has the
verdict that is read off the rows of its edges (`Automaton.holds_iff_of_parse`).
-/
import FairCycle.Proofs.Construction
import FairCycle.Proofs.Outcome
import Mathlib.Data.Set.Card

namespace FairCycle

namespace Automaton

/-! ## 1. Their promises -/

/-- Every number in the automaton is that of a state, and there are labels for all edges. -/
@[mk_iff]
structure Sound (a : Automaton) : Prop where
  initial : a.initial.toNat < a.size
  targets : a.Closed
  labels : ∀ s ∈ a.states, s.targets.size < 2 ^ 32

instance (a : Automaton) : Decidable a.Sound := decidable_of_iff _ (sound_iff a).symm

/-- There is an edge from `u` to `v`. -/
def Edge (a : Automaton) (u v : UInt32) : Prop :=
  ∃ targets, a.targets? u = some targets ∧ v ∈ targets

variable {a : Automaton}

theorem state?_of_lt {id : UInt32} (h : id.toNat < a.size) : ∃ s ∈ a.states, a.state? id = some s :=
  ⟨a.states[id.toNat], Array.getElem_mem h, Array.getElem?_eq_getElem h⟩

namespace Sound

variable (h : a.Sound)
include h

theorem successors?_eq {id : UInt32} (hid : id.toNat < a.size) :
    a.successors? id = some ((a.targets? id).getD []) := by
  obtain ⟨s, hs, hstate⟩ := state?_of_lt hid
  have htargets : a.targets? id = some s.targets.toList := by rw [targets?, hstate, Option.map_some]
  obtain ⟨edges, hedges, hfst, -⟩ := expand_of_lt htargets (by simpa using h.labels s hs)
  rw [successors?, hedges, Option.map_some, hfst, htargets, Option.getD_some]

theorem target_lt {id target : UInt32} (htarget : target ∈ (a.targets? id).getD []) :
    target.toNat < a.size := by
  cases hstate : a.state? id with
  | none => simp [targets?, hstate] at htarget
  | some s =>
    have hs : s ∈ a.states := Array.mem_of_getElem? hstate
    exact h.targets s hs target (by simpa [targets?, hstate] using htarget)

end Sound

/-- **What an automaton answers about its states.** -/
def promise (a : Automaton) (h : a.Sound) : a.graph.Promise where
  known := {id | id.toNat < a.size}
  successors id := (a.targets? id).getD []
  reduced id := (a.targets? id).getD []
  accepting id := (a.accepting? id).getD false
  hash := hash
  initial_known := h.initial
  successors_known _ _ _ := h.target_lt
  reduced_known _ _ _ := h.target_lt
  successors_eq _ hid _ := h.successors?_eq hid
  reduced_eq _ hid _ := h.successors?_eq hid
  accepting_eq id hid _ := by
    obtain ⟨s, -, hstate⟩ := state?_of_lt hid
    change a.accepting? id = _
    rw [accepting?, hstate]
    rfl
  hash_eq _ _ := rfl

theorem edge_promise (h : a.Sound) (reduction : Bool) : (a.promise h).Edge reduction = a.Edge := by
  have hmem : ∀ u v, v ∈ (a.targets? u).getD [] ↔ a.Edge u v := fun u v => by
    cases htargets : a.targets? u with
    | none => simp [Edge, htargets]
    | some targets => simp [Edge, htargets]
  funext u v
  cases reduction
  · exact propext (hmem u v)
  · exact propext (hmem u v)

theorem accepting_promise (h : a.Sound) (id : UInt32) :
    (a.promise h).accepting id = true ↔ a.accepting? id = some true := by
  change (a.accepting? id).getD false = true ↔ _
  cases a.accepting? id <;> simp

/-- An automaton reaches no more states than it has. -/
theorem encard_reachable_lt (h : a.Sound) (hsize : a.size < 2 ^ 32 - 1) (reduction : Bool) :
    ((a.promise h).reachable reduction).encard < 2 ^ 32 - 1 := by
  have hmaps : Set.MapsTo UInt32.toNat ((a.promise h).reachable reduction)
      (Finset.range a.size : Set Nat) := fun id hid =>
    Finset.mem_coe.mpr (Finset.mem_range.mpr (Graph.Promise.reachable_subset hid))
  have hle := Set.encard_le_encard_of_injOn hmaps fun _ _ _ _ => UInt32.toNat_inj.mp
  rw [Set.encard_coe_eq_coe_finsetCard, Finset.card_range] at hle
  exact lt_of_le_of_lt hle (by exact_mod_cast hsize)

end Automaton

/-! ## 2. Where they come from -/

/-- What a builder gives is sound, if there are labels for all edges. -/
theorem Builder.Shows.sound {b : Builder} {mentioned : List String} {targets : String → List String}
    {accepting initials recent : List String}
    (h : b.Shows mentioned targets accepting initials recent) {a : Automaton}
    (ha : b.build.1 = .ok a) (hlabels : ∀ s ∈ a.states, s.targets.size < 2 ^ 32) : a.Sound := by
  obtain ⟨hstates, hinitial, hfew⟩ := Builder.of_build_eq_ok ha
  obtain ⟨-, -, -, hfirst⟩ := h.initial_eq hstates hinitial
  refine ⟨hfirst, fun s hs id hid => ?_, hlabels⟩
  rw [h.size] at hfew
  rw [hstates, ← Array.mem_toList_iff, h.states (Nat.le_trans hfew (Nat.sub_le ..))] at hs
  obtain ⟨name, -, rfl⟩ := List.mem_map.mp hs
  obtain ⟨target, htarget, rfl⟩ := List.mem_map.mp (List.mem_toArray.mp hid)
  rw [h.size_eq hstates]
  exact toNat_numberOf_lt (List.mem_eraseDups.mpr (h.target_mem htarget))

namespace Automaton

variable {a : Automaton}

theorem sound_of_build {calls : List Builder.Call} (hcalls : Builder.Call.Fruitless calls)
    (ha : (Builder.after calls).build.1 = .ok a)
    (hlabels : ∀ s ∈ a.states, s.targets.size < 2 ^ 32) : a.Sound :=
  (Builder.shows_after hcalls).sound ha hlabels

theorem sound_of_parse {text : String} (ha : parse text = .ok a)
    (hlabels : ∀ s ∈ a.states, s.targets.size < 2 ^ 32) : a.Sound := by
  obtain ⟨result, hresult⟩ := Denotes.exists_result text
  obtain rfl := hresult.parse_eq.symm.trans ha
  cases hresult with
  | automaton hrows hds hfew hinitial hsame =>
    rw [parse_of_listed hrows hds] at ha
    exact (Builder.shows_directives hds).sound ha hlabels

/-- A text whose automaton has a loop. -/
example : (parse "INIT a\na -> b b\nb -> b\n").toOption.any (fun a => decide a.Sound) = true := by
  decide +kernel

/-! ## 3. Their verdict -/

/-- **The verdict on a text is read off its edges.**  A report on the automaton of a text says yes
exactly if no accepting state on a cycle can be reached from the initial one. -/
theorem holds_iff_of_parse {text : String} (ha : parse text = .ok a) (hsize : a.size < 2 ^ 32 - 1)
    (hlabels : ∀ s ∈ a.states, s.targets.size < 2 ^ 32) {config : Config}
    (hworkers : config.workers ≤ 2 ^ 32) {turns : Nat → Turn} {limit : Nat} {report : Report UInt32}
    (h : (checkInTurns a.graph config turns limit ()).1 = .ok report) :
    report.outcome.holds = .yes ↔
      ¬∃ id, Relation.ReflTransGen a.Edge a.initial id ∧ a.accepting? id = some true ∧
        Relation.TransGen a.Edge id id := by
  have hsound := sound_of_parse ha hlabels
  have htells := Report.tells_of_ok (a.promise hsound) hworkers
    (encard_reachable_lt hsound hsize config.reduction) h
  rw [htells.holds_yes_iff, not_iff_not]
  refine exists_congr fun id => ?_
  rw [Terrain.mem_accepted, Terrain.mem_states, and_assoc, ← accepting_promise hsound,
    ← edge_promise hsound config.reduction]
  rfl

end Automaton

end FairCycle
