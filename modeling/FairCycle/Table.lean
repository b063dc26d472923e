/-
# Tables

The state space is split between the workers by fingerprint, and every worker keeps its part in a
`Table`: the states in the order in which they came, a mark for each, and an index from states to
slots.  States are never removed, so a slot names a state for the whole run.

The index is right by construction (`Table.index_iff`): it sends a state to a slot exactly when
the state stands there.  So no state stands in two slots (`Table.slot_unique`).  Reading after
writing is settled by `mark?_setMark_self` and `mark?_setMark_of_ne`, storing by `insert_of_known`
and `insert_of_new`.

The checker has a `Table` with `owns`, `store`, `fetch`, `state` (`node?`), `extension` (`mark?`),
`refs` (`handles`) and `iter` (`entries`).
-/
import FairCycle.Fingerprint
import FairCycle.Index
import FairCycle.Mark

namespace FairCycle

/-- One worker's part of the state space. -/
structure Table (N : Type) [Ord N] where
  /-- The worker that owns the part. -/
  worker : Nat
  /-- The number of parts. -/
  peers : Nat
  /-- The states, in the order in which they were stored. -/
  nodes : Array N
  /-- The marks of the states. -/
  marks : Array Mark
  /-- The slot of every state. -/
  index : Std.TreeMap N Nat
  /-- There is a mark for every state. -/
  size_marks : marks.size = nodes.size
  /-- The index finds a state exactly where it stands. -/
  index_iff : ∀ (node : N) (slot : Nat), index[node]? = some slot ↔ nodes[slot]? = some node

namespace Table

variable {N : Type} [Ord N]

/-- A state stands in one slot only. -/
theorem slot_unique (t : Table N) {node : N} {i j : Nat} (hi : t.nodes[i]? = some node)
    (hj : t.nodes[j]? = some node) : i = j :=
  place_unique t.index_iff hi hj

/-! ## 1. Reading -/

/-- The number of states stored. -/
def size (t : Table N) : Nat := t.nodes.size

/-- Whether states with a fingerprint belong here. -/
def owns (t : Table N) (hash : UInt64) : Bool := owner hash t.peers == t.worker

/-- The handle of a slot. -/
def handle (t : Table N) (slot : Nat) : Handle := ⟨t.worker.toUInt32, slot.toUInt32⟩

/-- The slot that a handle names here; none for a handle of another worker. -/
def slot? (t : Table N) (h : Handle) : Option Nat :=
  if h.worker.toNat = t.worker then some h.slot.toNat else none

/-- The state behind a handle. -/
def node? (t : Table N) (h : Handle) : Option N := (t.slot? h).bind (t.nodes[·]?)

/-- The mark behind a handle. -/
def mark? (t : Table N) (h : Handle) : Option Mark := (t.slot? h).bind (t.marks[·]?)

/-- The handles of all states, in slot order. -/
def handles (t : Table N) : List Handle := (List.range t.size).map t.handle

/-- The states with their marks, in slot order. -/
def entries (t : Table N) : List (N × Mark) := t.nodes.toList.zip t.marks.toList

/-- The handle of a state, if it is stored here. -/
def find? (t : Table N) (node : N) : Option Handle := t.index[node]?.map t.handle

/-- The handle of a state with a fingerprint, if it is stored; the state must belong here. -/
def fetch (t : Table N) (node : N) (hash : UInt64) : Except Fault (Option Handle) :=
  if t.owns hash then .ok (t.find? node) else .error (.notOwner t.worker (owner hash t.peers))

/-! ## 2. Writing -/

/-- Put a mark in place of the one behind a handle. -/
def setMark (t : Table N) (h : Handle) (m : Mark) : Table N :=
  if h.worker.toNat = t.worker then
    { t with
      marks := t.marks.setIfInBounds h.slot.toNat m
      size_marks := by simpa using t.size_marks }
  else t

@[simp] theorem nodes_setMark (t : Table N) (h : Handle) (m : Mark) :
    (t.setMark h m).nodes = t.nodes := by
  unfold setMark; split <;> rfl

@[simp] theorem worker_setMark (t : Table N) (h : Handle) (m : Mark) :
    (t.setMark h m).worker = t.worker := by
  unfold setMark; split <;> rfl

@[simp] theorem peers_setMark (t : Table N) (h : Handle) (m : Mark) :
    (t.setMark h m).peers = t.peers := by
  unfold setMark; split <;> rfl

/-- Writing a mark moves no state. -/
@[simp] theorem node?_setMark (t : Table N) (h k : Handle) (m : Mark) :
    (t.setMark h m).node? k = t.node? k := by
  simp [node?, slot?]

/-- There is a mark behind a handle exactly when there is a state. -/
theorem isSome_mark? (t : Table N) (h : Handle) : (t.mark? h).isSome = (t.node? h).isSome := by
  unfold mark? node?
  cases t.slot? h with
  | none => rfl
  | some slot =>
    rw [Bool.eq_iff_iff]
    simp [Option.isSome_iff_ne_none, t.size_marks]

/-- What was written is read back. -/
theorem mark?_setMark_self {t : Table N} {h : Handle} (m : Mark) (hs : (t.node? h).isSome) :
    (t.setMark h m).mark? h = some m := by
  rw [← isSome_mark?] at hs
  unfold mark? slot? at *
  by_cases hw : h.worker.toNat = t.worker
  · simp only [setMark, hw, if_true] at *
    simp_all
  · simp [hw] at hs

/-- Writing behind one handle leaves the others alone. -/
theorem mark?_setMark_of_ne (t : Table N) {h k : Handle} (m : Mark) (hne : k ≠ h) :
    (t.setMark h m).mark? k = t.mark? k := by
  unfold mark? slot? setMark
  by_cases hw : h.worker.toNat = t.worker
  · simp only [hw, if_true]
    split
    · rename_i hk
      have hslot : h.slot.toNat ≠ k.slot.toNat := fun heq => hne (by
        cases h; cases k
        simp only [UInt32.toNat_inj] at *
        simp_all [← UInt32.toNat_inj])
      simp [Array.getElem?_setIfInBounds, hslot]
    · rfl
  · simp [hw]

/-- Change every mark. -/
def mapMarks (t : Table N) (f : Mark → Mark) : Table N :=
  { t with
    marks := t.marks.map f
    size_marks := by simpa using t.size_marks }

variable [Std.TransOrd N]

/-- The empty part of a worker. -/
def empty (worker peers : Nat) : Table N where
  worker := worker
  peers := peers
  nodes := #[]
  marks := #[]
  index := ∅
  size_marks := rfl
  index_iff := by simp

/-- The empty part of a worker, if there is such a worker among the peers. -/
def empty? (worker peers : Nat) : Option (Table N) :=
  if worker < peers then some (empty worker peers) else none

variable [Std.LawfulEqOrd N]

/-- Store a state, if it is not there yet.  Gives its slot and whether it is new; a new state
bears a blank mark. -/
def insert (t : Table N) (node : N) : Nat × Bool × Table N :=
  match h : t.index[node]? with
  | some slot => (slot, false, t)
  | none =>
    (t.nodes.size, true,
      { t with
        nodes := t.nodes.push node
        marks := t.marks.push {}
        index := t.index.insert node t.nodes.size
        size_marks := by simp [t.size_marks]
        index_iff := index_push t.index_iff h })

/-- Storing a state that stands in a slot finds that slot. -/
theorem insert_of_known {t : Table N} {node : N} {slot : Nat} (h : t.nodes[slot]? = some node) :
    t.insert node = (slot, false, t) := by
  rw [← t.index_iff] at h
  unfold insert
  split
  · rename_i found hf
    rw [Option.some.inj (hf.symm.trans h)]
  · rename_i hn
    rw [h] at hn
    exact absurd hn (by simp)

/-- Storing a new state puts it behind the others, with a blank mark. -/
theorem insert_of_new {t : Table N} {node : N} (h : ∀ slot : Nat, t.nodes[slot]? ≠ some node) :
    ∃ t' : Table N, t.insert node = (t.size, true, t') ∧ t'.worker = t.worker ∧
      t'.peers = t.peers ∧ t'.nodes = t.nodes.push node ∧ t'.marks = t.marks.push {} := by
  unfold insert
  split
  · rename_i found hf
    exact absurd ((t.index_iff node found).mp hf) (h found)
  · exact ⟨_, rfl, rfl, rfl, rfl, rfl⟩

/-- Store a state with a fingerprint; it must belong here.  Gives its handle and whether it is
new. -/
def store (t : Table N) (node : N) (hash : UInt64) : Except Fault (Handle × Bool) × Table N :=
  if t.owns hash then
    let (slot, fresh, t) := t.insert node
    (.ok (t.handle slot, fresh), t)
  else (.error (.notOwner t.worker (owner hash t.peers)), t)

end Table

namespace Table

variable {N : Type} [Ord N]

/-- The table on one line. -/
def text (t : Table N) : String :=
  Text.record "Table" [("worker", toString t.worker), ("peers", toString t.peers),
    ("states", toString t.size)]

end Table

end FairCycle
