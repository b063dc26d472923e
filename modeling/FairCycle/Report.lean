/-
# Reports

What a check has to say: whether the property holds, whether the whole graph was explored, what
kind of evidence there is, the figures of the exploration, and the counterexample if one was
built.

In the checker these are `Report`, `CheckResult` (`Outcome`), `Ternary` (`Answer`), `CeType`
(`Evidence`) and `Stats`.
-/
import FairCycle.Lasso

namespace FairCycle

/-- An answer that may be open. -/
inductive Answer where
  | yes
  | no
  | unknown
deriving DecidableEq

/-- A definite answer. -/
def Answer.ofBool (b : Bool) : Answer := if b then .yes else .no

/-- The wording of an answer. -/
def Answer.text : Answer → String
  | .yes => "Yes"
  | .no => "No"
  | .unknown => "Unknown"

/-- What kind of counterexample there is. -/
inductive Evidence where
  | none
  | cycle
deriving DecidableEq

/-- The wording of the kind. -/
def Evidence.text : Evidence → String
  | .none => "None"
  | .cycle => "Cycle"

/-- The figures of a run. -/
structure Stats where
  /-- The states expanded by the exploration. -/
  states : Nat := 0
  /-- The edges generated by the exploration. -/
  transitions : Nat := 0
  /-- The accepting states that the exploration found. -/
  accepting : Nat := 0
  /-- The rounds completed. -/
  rounds : Nat := 0
  /-- The number of states that each worker stored. -/
  perWorker : List Nat := []
deriving DecidableEq

/-- The outcome of a check. -/
structure Outcome where
  /-- Whether no accepting cycle can be reached. -/
  holds : Answer := .unknown
  /-- Whether the exploration went through the whole graph. -/
  explored : Answer := .unknown
  /-- The kind of counterexample. -/
  evidence : Evidence := .none
  /-- The figures. -/
  stats : Stats := {}
deriving DecidableEq

namespace Outcome

/-- The outcome in four lines. -/
def summary (o : Outcome) : String :=
  s!"Property holds: {o.holds.text}\nFully explored: {o.explored.text}\n" ++
    s!"{o.stats.states} states, {o.stats.transitions} transitions, {o.stats.accepting} accepting\n"
    ++ s!"{o.stats.rounds} fixpoint iterations"

/-- The outcome on one line. -/
def text (o : Outcome) : String :=
  Text.record "CheckResult" [("ltl_property_holds", o.holds.text),
    ("fully_explored", o.explored.text), ("ce_type", o.evidence.text),
    ("stats", Text.record "Stats" [("states", toString o.stats.states),
      ("transitions", toString o.stats.transitions), ("accepting", toString o.stats.accepting),
      ("iterations", toString o.stats.rounds),
      ("per_worker", Text.sequence (o.stats.perWorker.map toString))])]

/-- A compact object of named values, which are written already. -/
def object (members : List (String × String)) : String :=
  "\x7b" ++ ",".intercalate (members.map fun (name, value) => "\"" ++ name ++ "\":" ++ value)
    ++ "\x7d"

/-- The outcome in the notation of JSON. -/
def json (o : Outcome) : String :=
  let quoted (word : String) := "\"" ++ word ++ "\""
  object [("ltl_property_holds", quoted o.holds.text), ("fully_explored", quoted o.explored.text),
    ("ce_type", quoted o.evidence.text),
    ("stats", object [("states", toString o.stats.states),
      ("transitions", toString o.stats.transitions), ("accepting", toString o.stats.accepting),
      ("iterations", toString o.stats.rounds),
      ("per_worker", "[" ++ ",".intercalate (o.stats.perWorker.map toString) ++ "]")])]

end Outcome

/-- What a check reports. -/
structure Report (N : Type) where
  outcome : Outcome := {}
  lasso : Option (Lasso N) := none
deriving DecidableEq

/-- Whether no accepting cycle can be reached. -/
def Report.holds {N : Type} (r : Report N) : Bool := r.outcome.holds = .yes

end FairCycle
