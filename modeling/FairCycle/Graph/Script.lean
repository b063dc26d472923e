/-
# Scripted graphs

A scripted graph says for every state what it answers, and may answer badly: it can fail to give
the successors of a state, give others at every call, or change its mind about a fingerprint.  It
remembers how often it was asked (`Script.Memory`).
-/
import Std.Data.TreeMap.Basic
import Std.Data.TreeSet.Basic
import FairCycle.Fingerprint
import FairCycle.Graph

namespace FairCycle

/-- Where the fingerprints of a scripted graph come from. -/
inductive HashRule where
  /-- All states have the same. -/
  | uniform (hash : UInt64)
  /-- Each state has its own, as listed. -/
  | listed (hashes : Array UInt64)
  /-- The fingerprint of the state's number. -/
  | natural

/-- A graph that answers as written. -/
structure Script where
  initial : Nat := 0
  /-- The successors of each state. -/
  targets : Array (List Nat)
  /-- The reduced successors of each state, if they differ. -/
  reduced : Option (Array (List Nat)) := none
  accepting : Std.TreeSet Nat := ∅
  hash : HashRule := .natural
  /-- The states whose successors cannot be had. -/
  broken : Std.TreeSet Nat := ∅
  /-- The states with changing successors: the lists given one call after the other, the last of
  them for good. -/
  replies : Std.TreeMap Nat (Array (List Nat)) := ∅
  /-- The states with changing fingerprints, likewise. -/
  hashReplies : Std.TreeMap Nat (Array UInt64) := ∅

namespace Script

/-- How often a scripted graph was asked, state by state. -/
structure Memory where
  /-- The calls for successors. -/
  expanded : Std.TreeMap Nat Nat := ∅
  /-- The calls for fingerprints. -/
  hashed : Std.TreeMap Nat Nat := ∅

/-- The reply to a call, given the number of calls before: the last one is given for good. -/
def reply? {α : Type} (replies : Array α) (calls : Nat) : Option α :=
  replies[min calls (replies.size - 1)]?

/-- The successors of a state, out of one of the two listings. -/
def expand (s : Script) (listing : Array (List Nat)) (node : Nat) :
    StateM Memory (Option (List Nat)) := do
  if s.broken.contains node then return none
  else
    match s.replies[node]? with
    | none => return listing[node]?
    | some replies =>
      let calls := (← get).expanded.getD node 0
      modify fun m => { m with expanded := m.expanded.insert node (calls + 1) }
      return reply? replies calls

/-- The fingerprint of a state, when it does not change. -/
def fixedHash (s : Script) (node : Nat) : UInt64 :=
  match s.hash with
  | .uniform hash => hash
  | .listed hashes => hashes[node]?.getD 0
  | .natural => fingerprint (.word node.toUInt64)

/-- The fingerprint of a state. -/
def hashOf (s : Script) (node : Nat) : StateM Memory UInt64 := do
  match s.hashReplies[node]? with
  | none => return s.fixedHash node
  | some replies =>
    let calls := (← get).hashed.getD node 0
    modify fun m => { m with hashed := m.hashed.insert node (calls + 1) }
    return (reply? replies calls).getD (s.fixedHash node)

/-- The graph. -/
def graph (s : Script) : Graph Nat Memory where
  initial := s.initial
  successors := s.expand s.targets
  reduced := s.expand (s.reduced.getD s.targets)
  accepting node := pure (some (s.accepting.contains node))
  hash := s.hashOf
  describe := toString

end Script

end FairCycle
