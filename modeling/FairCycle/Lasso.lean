/-
# Lassos

A counterexample is a lasso: a path from the initial state to an accepting state on a cycle, and
the cycle from that state back to itself.  The trail numbers its steps: at every state, the place
of the next one in the list of successors, counted from one.  `Lasso.isGenuine` replays a lasso
against a graph.

In the checker a lasso is a `Counterexample`, with `states`, `trail_string`, `write_trail` and
`write_text`.
-/
import FairCycle.Fault
import FairCycle.Graph
import FairCycle.Text.Record

namespace FairCycle

/-! ## 1. Lassos -/

/-- A path into an accepting cycle. -/
structure Lasso (N : Type) where
  /-- The states from the initial one up to the cycle state, which is left out. -/
  stem : List N
  /-- The cycle, with the cycle state at both ends. -/
  loop : List N
  /-- The number of every step through the stem and around the loop. -/
  trail : List Nat
deriving DecidableEq

namespace Lasso

variable {N σ : Type}

/-- The states, in order. -/
def states (l : Lasso N) : List N := l.stem ++ l.loop

/-- The trail, with commas. -/
def trailText (l : Lasso N) : String := ",".intercalate (l.trail.map toString)

/-- The trail, a step a line. -/
def trailLines (l : Lasso N) : List String := l.trail.map toString

/-- The trace, a state a line, under two headings; a state may have no description. -/
def traceLines (l : Lasso N) (describe : N → Option String) : List (Option String) :=
  [some "===== Trace from initial ====="] ++ l.stem.map describe ++
    [some "===== The cycle ====="] ++ l.loop.map describe

/-- The lasso on one line. -/
def text (l : Lasso N) (nodeText : N → String) : String :=
  Text.record "Counterexample" [("prefix", Text.sequence (l.stem.map nodeText)),
    ("cycle", Text.sequence (l.loop.map nodeText)),
    ("trail", Text.sequence (l.trail.map toString))]

/-! ## 2. Replay -/

/-- Whether the numbered steps lead through the states, given where the walk stands. -/
def replays [DecidableEq N] (g : Graph N σ) : N → List Nat → List N → StateM σ Bool
  | _, [], [] => pure true
  | node, step :: trail, next :: states => do
    let targets := (← g.successors node).getD []
    if step ≠ 0 ∧ targets[step - 1]? = some next then replays g next trail states
    else return false
  | _, _, _ => pure false

/-- Whether the lasso runs from the initial state of the graph into a cycle that starts and ends
at the same accepting state, every step where its number says. -/
def isGenuine [DecidableEq N] (g : Graph N σ) (l : Lasso N) : StateM σ Bool := do
  match l.states, l.loop with
  | first :: rest, cycleNode :: back =>
    let replayed ← replays g first l.trail rest
    let accepting := (← g.accepting cycleNode).getD false
    return replayed && accepting && first = g.initial && back.getLast? = some cycleNode
  | _, _ => return false

end Lasso

/-! ## 3. Writing lines -/

/-- A place to write bytes to, which may have a limit. -/
structure Sink where
  /-- The number of bytes that it will still take, if there is a limit. -/
  room : Option Nat := none
  /-- What it has taken. -/
  taken : List UInt8 := []

namespace Sink

/-- Write a text as far as there is room.  Gives whether there was room for all of it. -/
def put (s : Sink) (text : String) : Bool × Sink :=
  let bytes := text.toUTF8.toList
  match s.room with
  | none => (true, { s with taken := s.taken ++ bytes })
  | some room =>
    (bytes.length ≤ room, ⟨some (room - bytes.length), s.taken ++ bytes.take room⟩)

/-- Write lines, each with its end, up to the first that is not there or does not fit. -/
def putLines (s : Sink) : List (Option String) → Except Stop Unit × Sink
  | [] => (.ok (), s)
  | none :: _ => (.error .crash, s)
  | some line :: rest =>
    match s.put (line ++ "\n") with
    | (true, s) => s.putLines rest
    | (false, s) => (.error (.fault (.output "device full")), s)

end Sink

/-- The text of some lines, each with its end. -/
def unlines (lines : List String) : String := String.join (lines.map (· ++ "\n"))

end FairCycle
