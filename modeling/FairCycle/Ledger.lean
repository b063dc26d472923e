/-
# Ledgers

The master keeps a ledger of the run.  At the start of a superstep every worker gets a copy with
the counters cleared (`Ledger.share`), and at its end the master folds the copies back into its
own (`Ledger.reduce`): counters are added up, a cycle found by one is found by all, and of several
cycle states or initial states the first worker's wins.

In the checker a ledger is a `Shared` with a `CeShared` in it (`Chase`); `share` is `for_superstep`,
and `reduce` is `reduce`.
-/
import FairCycle.Handle

namespace FairCycle

/-- The part of the ledger that the reconstruction of a counterexample works with. -/
structure Chase (N : Type) where
  /-- The initial state. -/
  initial : Option Handle := none
  /-- The state that the chase along parents has come to. -/
  current : Option Handle := none
  /-- Whether its owner has been visited in this pass around the ring. -/
  moved : Bool := false
  /-- The state that the chase was at before its last hop. -/
  node : Option N := none
  /-- The candidate that the cycle search starts from. -/
  seed : Option Handle := none
deriving DecidableEq

/-- What the master and the workers keep in common.  `size`, `oldSize`, `states` and `transitions`
are words of the machine's width in the checker and numbers without a bound here: a count that
would overflow such a word is not modelled. -/
structure Ledger (N : Type) where
  /-- A count whose meaning depends on the pass: accepting states, seeds, or eliminated ones. -/
  size : Nat := 0
  /-- The number of accepting candidates before this round. -/
  oldSize : Nat := 0
  /-- An accepting state that lies on a cycle. -/
  cycleNode : Option Handle := none
  /-- Whether such a state was found. -/
  cycleFound : Bool := false
  /-- The number of the round. -/
  round : UInt32 := 0
  /-- The states expanded in this superstep. -/
  states : Nat := 0
  /-- The edges generated in this superstep. -/
  transitions : Nat := 0
  /-- The state of the reconstruction. -/
  chase : Chase N := {}
deriving DecidableEq

namespace Ledger

variable {N : Type}

/-- The copy that a worker gets at the start of a superstep. -/
def share (l : Ledger N) : Ledger N := { l with size := 0, states := 0, transitions := 0 }

/-- Note a state that lies on an accepting cycle. -/
def recordCycle (l : Ledger N) (state : Handle) : Ledger N :=
  { l with cycleFound := true, cycleNode := some state }

/-- Take one worker's copy in: its counters are added and its findings kept unless there are
earlier ones. -/
def absorb (l part : Ledger N) : Ledger N :=
  { l with
    size := l.size + part.size
    states := l.states + part.states
    transitions := l.transitions + part.transitions
    cycleFound := l.cycleFound || part.cycleFound
    cycleNode := if part.cycleFound then l.cycleNode <|> part.cycleNode else l.cycleNode
    chase := { l.chase with initial := l.chase.initial <|> part.chase.initial } }

/-- The master's ledger at the end of a superstep, given the workers' copies in order. -/
def reduce (l : Ledger N) (parts : List (Ledger N)) : Ledger N := parts.foldl absorb l.share

/-! ## What a reduction leaves -/

/-- A cycle is known afterwards if it was known before or one of the workers found one. -/
@[simp] theorem cycleFound_reduce (l : Ledger N) (parts : List (Ledger N)) :
    (l.reduce parts).cycleFound = (l.cycleFound || parts.any (·.cycleFound)) := by
  suffices ∀ l : Ledger N, (parts.foldl absorb l).cycleFound =
      (l.cycleFound || parts.any (·.cycleFound)) from this l.share
  intro l
  induction parts generalizing l with
  | nil => simp
  | cons part rest ih => rw [List.foldl_cons, ih, List.any_cons, ← Bool.or_assoc]; rfl

/-- Nothing that the workers find changes the number of the round or the size before it. -/
theorem rounds_reduce (l : Ledger N) (parts : List (Ledger N)) :
    (l.reduce parts).round = l.round ∧ (l.reduce parts).oldSize = l.oldSize := by
  suffices ∀ l : Ledger N, (parts.foldl absorb l).round = l.round ∧
      (parts.foldl absorb l).oldSize = l.oldSize from this l.share
  intro l
  induction parts generalizing l with
  | nil => exact ⟨rfl, rfl⟩
  | cons part rest ih => exact ih (l.absorb part)

theorem share_absorb (l part : Ledger N) : (l.absorb part).share = l.share.absorb part.share := rfl

theorem absorb_share_self (l : Ledger N) : l.share.absorb l.share = l.share := by
  obtain ⟨_, _, node, found, _, _, _, ⟨initial, _, _, _, _⟩⟩ := l
  cases found <;> cases node <;> cases initial <;> rfl

/-- Copies in which nothing but the counters has changed leave everything but the counters. -/
theorem share_reduce {l : Ledger N} {parts : List (Ledger N)}
    (hp : ∀ part ∈ parts, part.share = l.share) : (l.reduce parts).share = l.share := by
  suffices ∀ k : Ledger N, k.share = l.share → (parts.foldl absorb k).share = l.share from
    this l.share rfl
  intro k hk
  induction parts generalizing k with
  | nil => exact hk
  | cons part rest ih =>
    refine ih (fun p hmem => hp p (List.mem_cons_of_mem part hmem)) (k.absorb part) ?_
    rw [share_absorb, hk, hp part List.mem_cons_self, absorb_share_self]

/-- If some workers have found one and the same cycle state, then that is known afterwards. -/
theorem share_reduce_of_record {l : Ledger N} {parts : List (Ledger N)} {h : Handle}
    (hnode : l.cycleNode = none)
    (hp : ∀ part ∈ parts, part.share = l.share ∨ part.share = (l.recordCycle h).share) :
    (∀ part ∈ parts, part.share = l.share) ∧ (l.reduce parts).share = l.share ∨
      (∃ part ∈ parts, part.share = (l.recordCycle h).share) ∧
        (l.reduce parts).share = (l.recordCycle h).share := by
  obtain ⟨hnew, hold⟩ : l.share.absorb (l.recordCycle h).share = (l.recordCycle h).share ∧
      (l.recordCycle h).share.absorb l.share = (l.recordCycle h).share := by
    obtain ⟨_, _, node, found, _, _, _, ⟨initial, _, _, _, _⟩⟩ := l
    obtain rfl : node = none := hnode
    cases found <;> cases initial <;> exact ⟨rfl, rfl⟩
  -- what is found stays found
  have hfound : ∀ (parts : List (Ledger N)) (k : Ledger N),
      (∀ part ∈ parts, part.share = l.share ∨ part.share = (l.recordCycle h).share) →
      k.share = (l.recordCycle h).share →
      (parts.foldl absorb k).share = (l.recordCycle h).share := by
    intro parts
    induction parts with
    | nil => exact fun k _ hk => hk
    | cons part rest ih =>
      intro k hp hk
      refine ih (k.absorb part) (fun p hmem => hp p (List.mem_cons_of_mem part hmem)) ?_
      rcases hp part List.mem_cons_self with hpart | hpart
      · rw [share_absorb, hk, hpart, hold]
      · rw [share_absorb, hk, hpart, absorb_share_self]
  suffices ∀ k : Ledger N, k.share = l.share →
      (∀ part ∈ parts, part.share = l.share) ∧ (parts.foldl absorb k).share = l.share ∨
        (∃ part ∈ parts, part.share = (l.recordCycle h).share) ∧
          (parts.foldl absorb k).share = (l.recordCycle h).share from this l.share rfl
  intro k hk
  induction parts generalizing k with
  | nil => exact .inl ⟨nofun, hk⟩
  | cons part rest ih =>
    have hrest := fun p hmem => hp p (List.mem_cons_of_mem part hmem)
    rcases hp part List.mem_cons_self with hpart | hpart
    · have hnext : (k.absorb part).share = l.share := by
        rw [share_absorb, hk, hpart, absorb_share_self]
      rcases ih hrest (k.absorb part) hnext with ⟨hall, hsame⟩ | ⟨⟨p, hmem, hrec⟩, hdone⟩
      · exact .inl ⟨List.forall_mem_cons.mpr ⟨hpart, hall⟩, hsame⟩
      · exact .inr ⟨⟨p, List.mem_cons_of_mem part hmem, hrec⟩, hdone⟩
    · refine .inr ⟨⟨part, List.mem_cons_self, hpart⟩, hfound rest (k.absorb part) hrest ?_⟩
      rw [share_absorb, hk, hpart, hnew]

theorem cycleNode_foldl_absorb {l : Ledger N} {parts : List (Ledger N)} {h : Handle}
    (hl : l.cycleNode = some h) : (parts.foldl absorb l).cycleNode = some h := by
  induction parts generalizing l with
  | nil => exact hl
  | cons part rest ih =>
    refine ih ?_
    simp only [absorb, hl]
    split <;> rfl

/-- Of a cycle state that was not known before, all is known that is known of what the workers
found. -/
theorem cycleNode_reduce_of_none {l : Ledger N} (parts : List (Ledger N)) {P : Handle → Prop}
    (hl : l.cycleNode = none)
    (hp : ∀ part ∈ parts, part.cycleFound = true → ∃ h, part.cycleNode = some h ∧ P h) :
    (∀ part ∈ parts, part.cycleFound = false) ∧ (l.reduce parts).cycleNode = none ∨
      ∃ h, (l.reduce parts).cycleNode = some h ∧ P h := by
  suffices ∀ l : Ledger N, l.cycleNode = none →
      (∀ part ∈ parts, part.cycleFound = false) ∧ (parts.foldl absorb l).cycleNode = none ∨
        ∃ h, (parts.foldl absorb l).cycleNode = some h ∧ P h from this l.share hl
  intro l hl
  induction parts generalizing l with
  | nil => exact .inl ⟨nofun, hl⟩
  | cons part rest ih =>
    have hrest : ∀ p ∈ rest, p.cycleFound = true → ∃ h, p.cycleNode = some h ∧ P h :=
      fun p hmem => hp p (List.mem_cons_of_mem part hmem)
    cases hf : part.cycleFound with
    | true =>
      obtain ⟨h, hh, hP⟩ := hp part List.mem_cons_self hf
      have hnode : (l.absorb part).cycleNode = some h := by
        simp only [absorb, hf, hl, hh]
        rfl
      exact .inr ⟨h, cycleNode_foldl_absorb (l := l.absorb part) hnode, hP⟩
    | false =>
      have hnode : (l.absorb part).cycleNode = none := by simp only [absorb, hf, hl]; rfl
      rcases ih hrest (l.absorb part) hnode with ⟨hall, hnone⟩ | hsome
      · refine .inl ⟨fun p hmem => ?_, hnone⟩
        rcases List.mem_cons.mp hmem with rfl | hmem
        · exact hf
        · exact hall p hmem
      · exact .inr hsome

/-- The initial state is known afterwards if one of the workers has noted it and no other has
noted anything else. -/
theorem initial_reduce {l : Ledger N} {parts : List (Ledger N)} {h : Option Handle}
    (hl : l.chase.initial = none ∨ l.chase.initial = h)
    (hp : ∀ part ∈ parts, part.chase.initial = none ∨ part.chase.initial = h)
    (hsome : l.chase.initial = h ∨ ∃ part ∈ parts, part.chase.initial = h) :
    (l.reduce parts).chase.initial = h := by
  suffices ∀ l : Ledger N, l.chase.initial = none ∨ l.chase.initial = h →
      (l.chase.initial = h ∨ ∃ part ∈ parts, part.chase.initial = h) →
      (parts.foldl absorb l).chase.initial = h from this l.share hl hsome
  clear hl hsome
  intro l hl hsome
  induction parts generalizing l with
  | nil => exact hsome.elim (fun h => h) fun ⟨_, hmem, _⟩ => nomatch hmem
  | cons part rest ih =>
    have hpart := hp part List.mem_cons_self
    have horelse : (l.absorb part).chase.initial = (l.chase.initial <|> part.chase.initial) := rfl
    refine ih (fun p hmem => hp p (List.mem_cons_of_mem part hmem)) (l.absorb part) ?_ ?_
    · rw [horelse]
      rcases hl with hl | hl
      · rw [hl]; exact hpart
      · rw [hl]; cases h with
        | none => exact hpart
        | some h => exact .inr rfl
    · rw [horelse]
      rcases hsome with hl | ⟨p, hmem, hph⟩
      · left
        rw [hl]
        cases h with
        | none => exact hpart.elim (fun h => h) fun h => h
        | some h => rfl
      · rcases List.mem_cons.mp hmem with rfl | hmem
        · left
          rcases hl with hl | hl
          · rw [hl, hph]; rfl
          · rw [hl, hph]; cases h <;> rfl
        · exact .inr ⟨p, hmem, hph⟩

end Ledger

end FairCycle
