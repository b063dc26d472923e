/-
# Marks

Every stored state carries a mark, which only its owner reads and writes: the parent it was first
reached from, the largest rank of an accepting ancestor seen so far, and four small fields that
share one word of thirty-two bits.

    bit   31    30    29 ........ 15   14 ........ 0
          inF   inS   stamp (15 bits)  predecessors (15 bits)

The predecessor count never wraps: counting past its maximum is a fault, and so is counting below
zero.  The stamp of a round is only ever compared for equality and is kept modulo `2 ^ 15`.
`Mark.fields` reads the word back as the plain record that it packs.

In the checker a mark is an `Extension` with `parent`, `map` (`ancestor`), `pred_count`
(`predecessors`), `iteration`, `in_s` and `in_f`; `countUp` and `countDown` are
`increment_pred_count` and `decrement_pred_count`, and `stamp` is `iteration_stamp`.
-/
import FairCycle.Fault

namespace FairCycle

/-- The bits of a counter, in place. -/
def counterMask : UInt32 := 0x7fff

/-- How far the stamp is shifted. -/
def stampShift : UInt32 := 15

/-- The bit of membership in the candidate set. -/
def candidateBit : UInt32 := 0x40000000

/-- The bit of acceptance. -/
def acceptingBit : UInt32 := 0x80000000

/-- The largest number of predecessors that can be counted. -/
def maxPredecessors : UInt32 := counterMask

/-- A round's number, cut down to the width of a stamp. -/
def stamp (round : UInt32) : UInt32 := round &&& counterMask

/-- What a worker notes of a stored state. -/
structure Mark where
  /-- The state it was reached from. -/
  parent : Option Handle := none
  /-- The largest rank of an accepting ancestor seen so far, zero for none. -/
  ancestor : UInt32 := 0
  /-- The packed fields. -/
  word : UInt32 := 0
deriving DecidableEq

namespace Mark

/-! ## 1. Parent and ancestor -/

/-- Note a parent, unless one is noted already. -/
def setParentOnce (m : Mark) (parent : Handle) : Mark :=
  match m.parent with
  | some _ => m
  | none => { m with parent := some parent }

/-- Note a parent in place of whatever was noted. -/
def replaceParent (m : Mark) (parent : Handle) : Mark := { m with parent := some parent }

/-- Note an ancestor's rank. -/
def setAncestor (m : Mark) (rank : UInt32) : Mark := { m with ancestor := rank }

/-! ## 2. The predecessor count -/

/-- The number of predecessors counted. -/
def predecessors (m : Mark) : UInt32 := m.word &&& counterMask

/-- The mark with the count set to zero. -/
def resetPredecessors (m : Mark) : Mark := { m with word := m.word &&& ~~~counterMask }

/-- The mark with the count set; `count` has at most fifteen bits. -/
def setPredecessors (m : Mark) (count : UInt32) : Mark :=
  { m with word := (m.word &&& ~~~counterMask) ||| count }

/-- Count one more predecessor of `state`. -/
def countUp (m : Mark) (state : Handle) : Except Fault Mark :=
  if m.predecessors = maxPredecessors then .error (.predecessorOverflow state maxPredecessors)
  else .ok (m.setPredecessors (m.predecessors + 1))

/-- Count one predecessor of `state` less. -/
def countDown (m : Mark) (state : Handle) : Except Fault Mark :=
  if m.predecessors = 0 then .error (.predecessorUnderflow state)
  else .ok (m.setPredecessors (m.predecessors - 1))

/-! ## 3. The stamp -/

/-- The stamp of the last round that visited the state. -/
def iteration (m : Mark) : UInt32 := (m.word >>> stampShift) &&& counterMask

/-- Stamp the state with a round. -/
def setIteration (m : Mark) (round : UInt32) : Mark :=
  { m with word := (m.word &&& ~~~(counterMask <<< stampShift)) ||| (stamp round <<< stampShift) }

/-- Whether the state bears the stamp of a round. -/
def visitedIn (m : Mark) (round : UInt32) : Bool := m.iteration == stamp round

/-! ## 4. The two sets -/

/-- The word with a bit set or cleared. -/
def putBit (word bit : UInt32) (on : Bool) : UInt32 :=
  if on then word ||| bit else word &&& ~~~bit

/-- Whether the state is a candidate: it may still lie on an accepting cycle. -/
def inS (m : Mark) : Bool := m.word &&& candidateBit != 0

/-- Take the state into the candidate set or out of it. -/
def setInS (m : Mark) (on : Bool) : Mark := { m with word := putBit m.word candidateBit on }

/-- Whether the state is accepting; settled when it is first expanded. -/
def inF (m : Mark) : Bool := m.word &&& acceptingBit != 0

/-- Note whether the state is accepting. -/
def setInF (m : Mark) (on : Bool) : Mark := { m with word := putBit m.word acceptingBit on }

/-- Whether a round starts from the state: an accepting candidate. -/
def isSeed (m : Mark) : Bool := m.inS && m.inF

/-- What the start of a round does to a mark: the count goes back to zero, a seed gets the stamp
of the round, and every other state leaves the candidate set under the stamp of the round
before. -/
def startRound (m : Mark) (round : UInt32) : Mark :=
  let m := m.resetPredecessors
  if m.isSeed then m.setIteration round else (m.setInS false).setIteration (round - 1)

/-! ## 5. The fields as a record -/

/-- The packed fields, side by side. -/
structure Fields where
  predecessors : Nat
  iteration : Nat
  inS : Bool
  inF : Bool
deriving DecidableEq

/-- The fields that the word packs. -/
def fields (m : Mark) : Fields :=
  ⟨m.predecessors.toNat, m.iteration.toNat, m.inS, m.inF⟩

/-! ## 6. Calls -/

/-- A call that changes a mark. -/
inductive Call where
  | setParentOnce (parent : Handle)
  | replaceParent (parent : Handle)
  | setAncestor (rank : UInt32)
  | resetPredecessors
  | countUp (state : Handle)
  | countDown (state : Handle)
  | setIteration (round : UInt32)
  | setInS (on : Bool)
  | setInF (on : Bool)
deriving DecidableEq

/-- What a call answers. -/
inductive Answer where
  | done
  /-- Whether a parent was written. -/
  | written (fresh : Bool)
  /-- How many predecessors are left. -/
  | left (count : Nat)
  | failed (fault : Fault)
deriving DecidableEq

/-- What a call answers and what it makes of the mark; one that fails leaves the mark as it was. -/
def call (m : Mark) : Call → Answer × Mark
  | .setParentOnce parent => (.written m.parent.isNone, m.setParentOnce parent)
  | .replaceParent parent => (.done, m.replaceParent parent)
  | .setAncestor rank => (.done, m.setAncestor rank)
  | .resetPredecessors => (.done, m.resetPredecessors)
  | .countUp state =>
    match m.countUp state with
    | .ok next => (.done, next)
    | .error fault => (.failed fault, m)
  | .countDown state =>
    match m.countDown state with
    | .ok next => (.left next.predecessors.toNat, next)
    | .error fault => (.failed fault, m)
  | .setIteration round => (.done, m.setIteration round)
  | .setInS on => (.done, m.setInS on)
  | .setInF on => (.done, m.setInF on)

/-- The mark on one line. -/
def text (m : Mark) : String :=
  Text.record "Extension" [("parent", Text.optional (m.parent.map Handle.text)),
    ("map", toString m.ancestor), ("word", toString m.word)]

end Mark

end FairCycle
