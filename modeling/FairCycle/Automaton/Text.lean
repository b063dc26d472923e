/-
# The text of an automaton

An automaton is written down line by line:

    # comment
    STATES s0 s1 a     \* optional: fixes the numbers
    INIT s0
    ACCEPT a
    s0 -> s1 a         \* an edge for each target, in this order
    a -> a

`Automaton.parse` reads such a text, up to its first error; `Automaton.render` writes one.

The checker reads a text with `ExplicitGraph.parse`, which cuts comments off with `strip_comment`.
-/
import FairCycle.Automaton.Builder
import FairCycle.Text.Line

namespace FairCycle

open Text

/-! ## 1. Lines -/

/-- What a line of the text says. -/
inductive Directive where
  | states (names : List String)
  | initial (name : String)
  | accepting (names : List String)
  | edges (source : String) (targets : List String)
deriving DecidableEq

/-- What is wrong with a line. -/
inductive DirectiveFlaw where
  | noInitial
  | manyInitial
  | noAccepting
  | noTarget (source : String)
  | unknown (head : String)
deriving DecidableEq

/-- The wording of a flaw. -/
def DirectiveFlaw.message : DirectiveFlaw → String
  | .noInitial => "INIT requires a state name"
  | .manyInitial => "INIT takes exactly one state"
  | .noAccepting => "ACCEPT requires at least one state name"
  | .noTarget source => s!"edge from '{source}' has no target"
  | .unknown head => s!"unknown directive '{head}'"

/-- The directive that the words of a line write; a line without words writes none. -/
def Directive.ofWords? : List String → Except DirectiveFlaw (Option Directive)
  | [] => .ok none
  | "STATES" :: names => .ok (some (.states names))
  | ["INIT"] => .error .noInitial
  | ["INIT", name] => .ok (some (.initial name))
  | "INIT" :: _ => .error .manyInitial
  | ["ACCEPT"] => .error .noAccepting
  | "ACCEPT" :: names => .ok (some (.accepting names))
  | [source, "->"] => .error (.noTarget source)
  | source :: "->" :: targets => .ok (some (.edges source targets))
  | head :: _ => .error (.unknown head)

/-- Do what a directive says.  A builder that starts without states never lacks the name of its
initial state. -/
def Builder.apply (b : Builder) : Directive → Builder
  | .states names => b.declare names
  | .initial name => (b.start name).2
  | .accepting names => names.foldl accept b
  | .edges source targets => targets.foldl (fun b target => b.edge source target) b

/-! ## 2. Reading -/

/-- A comment runs from one of these marks to the end of the line. -/
def commentMarks : List (List Char) := [['#'], ['\\', '*']]

/-- Take in the words of a numbered line. -/
def Builder.readLine (b : Builder) : Nat × List String → Except AutomatonError Builder
  | (line, words) =>
    match Directive.ofWords? words with
    | .error flaw => .error (.malformed line flaw.message)
    | .ok none => .ok b
    | .ok (some directive) => .ok (b.apply directive)

/-- The automaton that a text writes, or its first error. -/
def Automaton.parse (text : String) : Except AutomatonError Automaton :=
  match (numberedWords commentMarks text).foldlM Builder.readLine {} with
  | .error e => .error e
  | .ok b => b.build.1

/-! ## 3. Writing -/

/-- The words of a directive. -/
def Directive.words : Directive → List String
  | .states names => "STATES" :: names
  | .initial name => ["INIT", name]
  | .accepting names => "ACCEPT" :: names
  | .edges source targets => source :: "->" :: targets

/-- The directives that write an automaton: all its states, the initial one, the accepting ones
if there are any, and the edges of each state that has some. -/
def Automaton.directives (a : Automaton) : List Directive :=
  let name (id : UInt32) : String := (a.name? id).getD ""
  let accepting := (a.states.toList.filter (·.accepting)).map (·.name)
  [.states (a.states.toList.map (·.name)), .initial (name a.initial)] ++
    (if accepting.isEmpty then [] else [.accepting accepting]) ++
    (a.states.toList.filter (!·.targets.isEmpty)).map fun s =>
      .edges s.name (s.targets.toList.map name)

/-- The text of an automaton. -/
def Automaton.render (a : Automaton) : String :=
  String.join (a.directives.map fun d => " ".intercalate d.words ++ "\n")

end FairCycle
