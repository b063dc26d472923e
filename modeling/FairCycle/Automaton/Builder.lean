/-
# Building automata

A `Builder` collects states, edges, accepting states and the initial state by name.  A name that
was not mentioned before makes a new state; an index finds the place of a known one, and is right
by construction (`Builder.index_iff`, `Builder.index_eq_find?`).  The number of a state is its place
cut down to a word, so beyond `2 ^ 32` states numbers come again; but no automaton has as many
states (`Builder.stateLimit`).

A second, different initial state is remembered and reported when the automaton is to be
finished.  A finished automaton takes the states with it, and the builder goes on without any,
but it still knows the number of the initial state.

This is the `ExplicitGraphBuilder` of the checker, with `state`, `edge`, `accepting` (`accept`),
`initial` (`start`) and `build`; its `GraphError` is `AutomatonError`.
-/
import FairCycle.Automaton.Basic
import FairCycle.Index

namespace FairCycle

/-- Why there is no automaton. -/
inductive AutomatonError where
  /-- A line of the text is not a directive. -/
  | malformed (line : Nat) (message : String)
  /-- No state was declared initial. -/
  | missingInitial
  /-- Two states were declared initial. -/
  | duplicateInitial (first second : String)
  /-- A state is not known. -/
  | unknownState (name : String)
  /-- There are more states than can be numbered. -/
  | tooManyStates (limit : Nat)
deriving DecidableEq

/-- The wording of an error. -/
def AutomatonError.message : AutomatonError → String
  | .malformed line message => s!"line {line}: {message}"
  | .missingInitial => "no initial state declared"
  | .duplicateInitial first second =>
    s!"initial state declared twice ('{first}' and '{second}')"
  | .unknownState name => s!"unknown state '{name}'"
  | .tooManyStates limit => s!"too many states (limit {limit})"

/-- Without states there is no name to find. -/
theorem emptyIndex_iff (name : String) (place : Nat) :
    (∅ : Std.TreeMap String Nat)[name]? = some place ↔
      ((#[] : Array State).map State.name)[place]? = some name := by simp

/-- An automaton in the making. -/
structure Builder where
  states : Array State := #[]
  /-- The place of every state, by name. -/
  index : Std.TreeMap String Nat := ∅
  initial : Option UInt32 := none
  /-- The names of the first two states declared initial, if they differ. -/
  duplicate : Option (String × String) := none
  /-- The index finds a name exactly where it stands. -/
  index_iff : ∀ (name : String) (place : Nat),
    index[name]? = some place ↔ (states.map State.name)[place]? = some name := by
      exact emptyIndex_iff

namespace Builder

/-- The most states that an automaton can have. -/
def stateLimit : Nat := UInt32.size - 1

/-- The index finds what going through the states finds. -/
theorem index_eq_find? (b : Builder) (name : String) :
    b.index[name]? = State.find? b.states name := by
  have hnames : ∀ {id : Nat} {s : State}, b.states[id]? = some s → s.name = name →
      b.index[name]? = some id := fun hs hn => by
    rw [b.index_iff]
    simp [hs, hn]
  cases hf : State.find? b.states name with
  | some id =>
    obtain ⟨hid, hn, -⟩ := Array.findIdx?_eq_some_iff_getElem.mp hf
    exact hnames (Array.getElem?_eq_getElem hid) (by simpa using hn)
  | none =>
    cases hi : b.index[name]? with
    | none => rfl
    | some id =>
      rw [b.index_iff] at hi
      obtain ⟨s, hs, hn⟩ := Option.map_eq_some_iff.mp ((Array.getElem?_map ..).symm.trans hi)
      have := Array.findIdx?_eq_none_iff.mp hf s (Array.mem_of_getElem? hs)
      simp [hn] at this

/-- Declare a state.  Gives its number. -/
def state (b : Builder) (name : String) : UInt32 × Builder :=
  match h : b.index[name]? with
  | some place => (place.toUInt32, b)
  | none =>
    (b.states.size.toUInt32,
      { b with
        states := b.states.push { name := name }
        index := b.index.insert name b.states.size
        index_iff := by simpa using index_push b.index_iff h })

/-- Declare a list of states. -/
def declare (b : Builder) (names : List String) : Builder :=
  names.foldl (fun b name => (b.state name).2) b

/-- Change the state with a number, but not its name. -/
def update (b : Builder) (id : UInt32) (f : State → State) (hf : ∀ s, (f s).name = s.name) :
    Builder :=
  { b with
    states := b.states.modify id.toNat f
    index_iff := fun name place => by
      rw [b.index_iff, Array.getElem?_map, Array.getElem?_map, Array.getElem?_modify]
      split
      · simp [Option.map_map, Function.comp_def, hf]
      · rfl }

/-- Add an edge.  Several edges between the same states are all kept. -/
def edge (b : Builder) (source target : String) : Builder :=
  let (source, b) := b.state source
  let (target, b) := b.state target
  b.update source (fun s => { s with targets := s.targets.push target }) fun _ => rfl

/-- Make a state accepting. -/
def accept (b : Builder) (name : String) : Builder :=
  let (id, b) := b.state name
  b.update id (fun s => { s with accepting := true }) fun _ => rfl

/-- Declare a state initial.  Of several, the first one stays, and the first two that differ are
remembered by name.  `none` in place of success: the initial state that was declared before is no
state of this builder, so it has no name. -/
def start (b : Builder) (name : String) : Option Unit × Builder :=
  let (id, b) := b.state name
  match b.initial, b.duplicate with
  | none, _ => (some (), { b with initial := some id })
  | some _, some _ => (some (), b)
  | some earlier, none =>
    if earlier = id then (some (), b)
    else
      match b.states[earlier.toNat]? with
      | some s => (some (), { b with duplicate := some (s.name, name) })
      | none => (none, b)

/-- Finish the automaton. -/
def build (b : Builder) : Except AutomatonError Automaton × Builder :=
  match b.duplicate with
  | some (first, second) =>
    (.error (.duplicateInitial first second), { b with duplicate := none })
  | none =>
    if stateLimit < b.states.size then (.error (.tooManyStates stateLimit), b)
    else
      match b.initial with
      | none => (.error .missingInitial, b)
      | some initial =>
        (.ok ⟨b.states, initial⟩, { initial := b.initial, duplicate := b.duplicate })

end Builder

end FairCycle
