/-
# Queues

A queue hands out its elements in the order in which they came.  It is kept as two lists, the
back one in reverse, and is understood through the one list that they spell (`Queue.toList`).
The lemmas at the end say what the operations do to that list; in particular `popLike?` takes
elements of the same key in the order in which they came (`popLike?_eq_some`).
-/
namespace FairCycle

/-- A first-in first-out queue. -/
structure Queue (α : Type) where
  /-- The oldest elements, the oldest first. -/
  front : List α := []
  /-- The newest elements, the newest first. -/
  back : List α := []

namespace Queue

variable {α : Type}

/-- The elements, the oldest first. -/
def toList (q : Queue α) : List α := q.front ++ q.back.reverse

/-- The queue of a list. -/
def ofList (elements : List α) : Queue α := ⟨elements, []⟩

/-- Add an element at the end. -/
def push (q : Queue α) (a : α) : Queue α := { q with back := a :: q.back }

/-- Add a list at the end. -/
def append (q : Queue α) (elements : List α) : Queue α := elements.foldl push q

/-- Take the oldest element off. -/
def pop? (q : Queue α) : Option (α × Queue α) :=
  match q.front with
  | a :: front => some (a, ⟨front, q.back⟩)
  | [] =>
    match q.back.reverse with
    | a :: front => some (a, ⟨front, []⟩)
    | [] => none

/-- Take off the oldest element that has the same key as the element at a place; the oldest of
all if there is no such place. -/
def popLike? {κ : Type} [DecidableEq κ] (key : α → κ) (place : Nat) (q : Queue α) :
    Option (α × Queue α) :=
  if place = 0 then q.pop?
  else
    match q.toList[place]? with
    | none => q.pop?
    | some b =>
      (q.toList.find? (key · = key b)).map fun a => (a, ofList (q.toList.eraseP (key · = key b)))

/-! ## What the operations do to the list -/

@[simp] theorem toList_empty : ({} : Queue α).toList = [] := rfl

@[simp] theorem toList_ofList (elements : List α) : (ofList elements).toList = elements := by
  simp [ofList, toList]

@[simp] theorem toList_push (q : Queue α) (a : α) : (q.push a).toList = q.toList ++ [a] := by
  simp [push, toList]

@[simp] theorem toList_append (q : Queue α) (elements : List α) :
    (q.append elements).toList = q.toList ++ elements := by
  induction elements generalizing q with
  | nil => simp [append]
  | cons a rest ih =>
    have := ih (q.push a)
    simp_all [append]

/-- Popping takes the head of the list. -/
theorem pop?_eq_some {q q' : Queue α} {a : α} (h : q.pop? = some (a, q')) :
    q.toList = a :: q'.toList := by
  unfold pop? at h
  unfold toList
  split at h
  · rename_i b front hf
    cases h
    simp [hf]
  · rename_i hf
    split at h
    · rename_i b front hb
      cases h
      simp [hf, hb]
    · exact absurd h (by simp)

/-- There is nothing to pop exactly when the list is empty. -/
@[simp] theorem pop?_eq_none_iff {q : Queue α} : q.pop? = none ↔ q.toList = [] := by
  unfold pop? toList
  split
  · rename_i hf
    simp [hf]
  · rename_i hf
    split
    · rename_i hb
      simp [hf, hb]
    · rename_i hb
      simp [hf, hb]

section Keys

variable {κ : Type} [DecidableEq κ] {key : α → κ} {place : Nat}

/-- What is taken off is the oldest element with its key, and the others keep their order. -/
theorem popLike?_eq_some {q q' : Queue α} {a : α} (h : q.popLike? key place = some (a, q')) :
    ∃ older newer, q.toList = older ++ a :: newer ∧ q'.toList = older ++ newer ∧
      ∀ b ∈ older, key b ≠ key a := by
  have hpop : q.pop? = some (a, q') → ∃ older newer, q.toList = older ++ a :: newer ∧
      q'.toList = older ++ newer ∧ ∀ b ∈ older, key b ≠ key a :=
    fun h => ⟨[], q'.toList, by simpa using pop?_eq_some h, by simp, by simp⟩
  unfold popLike? at h
  split at h
  · exact hpop h
  · split at h
    · exact hpop h
    · rename_i b hb
      obtain ⟨c, hc, heq⟩ := Option.map_eq_some_iff.mp h
      cases heq
      obtain ⟨hkey, older, newer, hq, hold⟩ := List.find?_eq_some_iff_append.mp hc
      have hkey : key a = key b := by simpa using hkey
      have hold : ∀ d ∈ older, ¬decide (key d = key b) = true := fun d hd => by
        simpa using hold d hd
      refine ⟨older, newer, hq, ?_, fun d hd => ?_⟩
      · rw [toList_ofList, hq, List.eraseP_append_right _ hold, List.eraseP_cons_of_pos]
        simpa using hkey
      · simpa [hkey] using hold d hd

/-- There is nothing to take off exactly when the list is empty. -/
@[simp] theorem popLike?_eq_none_iff {q : Queue α} :
    q.popLike? key place = none ↔ q.toList = [] := by
  unfold popLike?
  split
  · exact pop?_eq_none_iff
  · split
    · exact pop?_eq_none_iff
    · rename_i b hb
      have hmem : b ∈ q.toList := List.mem_of_getElem? hb
      constructor
      · intro h
        have := List.find?_eq_none.mp (Option.map_eq_none_iff.mp h) b hmem
        simp at this
      · intro h
        simp [h] at hmem

end Keys

end Queue

end FairCycle
