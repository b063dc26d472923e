/-
# Configuration

A check is run by a number of workers, with or without reconstruction of a counterexample, and
over the full or the reduced successor lists (`Config`).  The settings can be written in a text
of one directive a line:

    \* two workers, no counterexample
    WORKERS 2
    COUNTEREXAMPLE FALSE
    POR FALSE

`Settings.parse` reads it.  What is not written keeps its default; of two lines on one subject
the later one counts; the first line that is wrong is reported and ends the reading.

In the checker the settings are a `CheckConfig`, with `with_workers`, `with_counterexample`,
`with_por`, `parse` and `from_file`.
-/
import FairCycle.Text.Line
import FairCycle.Text.Numeral
import FairCycle.Text.Record

namespace FairCycle

open Text

/-! ## 1. Configurations -/

/-- How a check is run. -/
structure Config where
  /-- The number of workers, and of partitions of the state space. -/
  workers : Nat
  /-- Whether a counterexample is built when the property fails. -/
  counterexample : Bool := true
  /-- Whether states are expanded by the reduced successor lists. -/
  reduction : Bool := false
deriving DecidableEq

namespace Config

/-- The number of partitions: at least one. -/
def peers (c : Config) : Nat := max c.workers 1

theorem peers_pos (c : Config) : 0 < c.peers := by
  unfold peers; omega

/-- Set the number of workers; there is at least one. -/
def withWorkers (c : Config) (workers : Nat) : Config := { c with workers := max workers 1 }

/-- Ask for a counterexample or not. -/
def withCounterexample (c : Config) (on : Bool) : Config := { c with counterexample := on }

/-- Switch the reduction on or off. -/
def withReduction (c : Config) (on : Bool) : Config := { c with reduction := on }

/-- The configuration on one line. -/
def text (c : Config) : String :=
  record "CheckConfig" [("workers", toString c.workers),
    ("counterexample", truth c.counterexample), ("por", truth c.reduction)]

end Config

/-! ## 2. What can be wrong with a text -/

/-- What is wrong with one line of settings. -/
inductive SettingFlaw where
  | missingValue (directive : String)
  | trailing (extra directive value : String)
  | notANumber (value : String)
  | notATruthValue (value : String)
  | unknownDirective (directive : String)
  | noWorkers
deriving DecidableEq

/-- Why settings could not be had. -/
inductive ConfigError where
  /-- A line is not a directive. -/
  | malformed (line : Nat) (message : String)
  /-- A line asks for no workers. -/
  | noWorkers (line : Nat)
  /-- The file could not be read. -/
  | unreadable (reason : String)
deriving DecidableEq

/-- The wording of an error. -/
def ConfigError.message : ConfigError → String
  | .malformed line message => s!"config line {line}: {message}"
  | .noWorkers line => s!"config line {line}: WORKERS must be at least 1"
  | .unreadable reason => s!"cannot read config file: {reason}"

/-- The error that a flaw in a line amounts to. -/
def SettingFlaw.error (line : Nat) : SettingFlaw → ConfigError
  | .missingValue directive => .malformed line s!"{directive} requires a value"
  | .trailing extra directive value =>
    .malformed line s!"unexpected '{extra}' after {directive} {value}"
  | .notANumber value => .malformed line s!"WORKERS expects a number, got '{value}'"
  | .notATruthValue value => .malformed line s!"expected TRUE or FALSE, got '{value}'"
  | .unknownDirective directive => .malformed line s!"unknown directive '{directive}'"
  | .noWorkers => .noWorkers line

/-! ## 3. Reading settings -/

/-- What a text says.  It may leave the number of workers to the machine. -/
structure Settings where
  workers : Option Nat := none
  counterexample : Bool := true
  reduction : Bool := false
deriving DecidableEq

/-- The configuration that settings amount to on a machine with so many processors. -/
def Settings.config (s : Settings) (processors : Nat) : Config :=
  ⟨s.workers.getD processors, s.counterexample, s.reduction⟩

/-- One line of settings. -/
inductive Setting where
  | workers (count : Nat)
  | counterexample (on : Bool)
  | reduction (on : Bool)
deriving DecidableEq

/-- A truth value of the format. -/
def truthValue : String → Except SettingFlaw Bool
  | "TRUE" => .ok true
  | "FALSE" => .ok false
  | value => .error (.notATruthValue value)

/-- A number of workers. -/
def workerCount (value : String) : Except SettingFlaw Nat :=
  match count? value with
  | none => .error (.notANumber value)
  | some 0 => .error .noWorkers
  | some count => .ok count

/-- The setting that the words of a line write; a line without words writes none. -/
def Setting.ofWords? : List String → Except SettingFlaw (Option Setting)
  | [] => .ok none
  | [directive] => .error (.missingValue directive)
  | directive :: value :: extra :: _ => .error (.trailing extra directive value)
  | ["WORKERS", value] => (workerCount value).map (some ∘ Setting.workers)
  | ["COUNTEREXAMPLE", value] => (truthValue value).map (some ∘ Setting.counterexample)
  | ["POR", value] => (truthValue value).map (some ∘ Setting.reduction)
  | [directive, _] => .error (.unknownDirective directive)

/-- Settings with one more line taken in. -/
def Settings.set (s : Settings) : Setting → Settings
  | .workers count => { s with workers := some count }
  | .counterexample on => { s with counterexample := on }
  | .reduction on => { s with reduction := on }

/-- Take in the words of a numbered line. -/
def Settings.readLine (s : Settings) : Nat × List String → Except ConfigError Settings
  | (line, words) =>
    match Setting.ofWords? words with
    | .error flaw => .error (flaw.error line)
    | .ok none => .ok s
    | .ok (some setting) => .ok (s.set setting)

/-- A comment of the format runs from this mark to the end of the line. -/
def settingsCommentMarks : List (List Char) := [['\\', '*']]

/-- The settings that a text writes, or its first error. -/
def Settings.parse (text : String) : Except ConfigError Settings :=
  (numberedWords settingsCommentMarks text).foldlM Settings.readLine {}

/-! ## 4. Settings files -/

/-- Why a file gave no bytes. -/
inductive Unreadable where
  | missing
  | directory
deriving DecidableEq

/-- The wording of the operating system. -/
def Unreadable.message : Unreadable → String
  | .missing => "No such file or directory (os error 2)"
  | .directory => "Is a directory (os error 21)"

/-- The settings in a file, given what reading the file at `path` gave. -/
def Settings.ofFile (path : String) (content : Except Unreadable ByteArray) :
    Except ConfigError Settings :=
  match content with
  | .error reason => .error (.unreadable s!"{path}: {reason.message}")
  | .ok bytes =>
    match String.fromUTF8? bytes with
    | none => .error (.unreadable s!"{path}: stream did not contain valid UTF-8")
    | some text => Settings.parse text

end FairCycle
