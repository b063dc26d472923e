/-
# Indices

Keys stand in an array in the order in which they came, and an index finds their places.  An index
is right when it sends a key to a place exactly when the key stands there.  Then no key stands in
two places (`place_unique`), and a key that the index does not know can be put behind the others
(`index_push`).

So the array holds the keys that have come, each where it came first.  A key that comes again adds
nothing to them (`eraseDups_append_of_mem`), and a new one comes last
(`eraseDups_append_of_notMem`).
-/
import Std.Data.TreeMap.Lemmas

namespace FairCycle

section Place

variable {α : Type} [Ord α] {keys : Array α} {index : Std.TreeMap α Nat}

/-- A key stands in one place only. -/
theorem place_unique
    (hindex : ∀ (key : α) (place : Nat), index[key]? = some place ↔ keys[place]? = some key)
    {key : α} {i j : Nat} (hi : keys[i]? = some key) (hj : keys[j]? = some key) : i = j := by
  rw [← hindex] at hi hj
  exact Option.some.inj (hi ▸ hj)

/-- Appending a key that the index does not know keeps the index right. -/
theorem index_push [Std.TransOrd α] [Std.LawfulEqOrd α]
    (hindex : ∀ (key : α) (place : Nat), index[key]? = some place ↔ keys[place]? = some key)
    {new : α} (h : index[new]? = none) (key : α) (place : Nat) :
    (index.insert new keys.size)[key]? = some place ↔ (keys.push new)[place]? = some key := by
  rw [Std.TreeMap.getElem?_insert, Array.getElem?_push]
  have hkey := hindex key place
  by_cases hc : compare new key = .eq
  · obtain rfl := Std.LawfulEqOrd.eq_of_compare hc
    have hne : ∀ i : Nat, keys[i]? ≠ some new := fun i hi => by
      simp [(hindex new i).2 hi] at h
    by_cases hs : place = keys.size <;> simp_all [eq_comm]
  · have hne : key ≠ new := fun h => hc (by simp [h])
    by_cases hs : place = keys.size
    · subst hs
      simp_all [eq_comm]
    · simp_all

end Place

section First

variable {α : Type} [BEq α] [LawfulBEq α] {came : List α} {key : α}

/-- A key that comes again adds nothing. -/
theorem eraseDups_append_of_mem (h : key ∈ came) (more : List α) :
    (came ++ key :: more).eraseDups = (came ++ more).eraseDups := by
  rw [List.eraseDups_append, List.eraseDups_append, List.removeAll, List.filter_cons,
    if_neg (by simpa using h)]
  rfl

/-- A new key comes last. -/
theorem eraseDups_append_of_notMem (h : key ∉ came) :
    (came ++ [key]).eraseDups = came.eraseDups ++ [key] := by
  simp [List.eraseDups_append, List.removeAll, h, List.eraseDups_cons]

end First

end FairCycle
