/-
# The fields of a mark

The word of a mark packs four fields.  This module says, bit by bit, where each field is read
(`getLsbD_predecessors`, `getLsbD_iteration`, `inS_eq_getLsbD`, `inF_eq_getLsbD`), and from that,
operation by operation, that writing one field leaves the others alone (`fields_setInS` and its
neighbours).
-/
import FairCycle.Mark
import Mathlib.Algebra.Group.Nat.Defs

namespace FairCycle

/-! ## 1. The masks, bit by bit -/

/-- Two words with the same bits are the same. -/
theorem word_ext {a b : UInt32} (h : ∀ i, a.toBitVec.getLsbD i = b.toBitVec.getLsbD i) : a = b :=
  UInt32.toBitVec_inj.mp (BitVec.eq_of_getLsbD_eq fun i _ => h i)

theorem getLsbD_counterMask (i : Nat) : counterMask.toBitVec.getLsbD i = decide (i < 15) := by
  rcases Nat.lt_or_ge i 32 with hi | hi
  · revert i; decide
  · rw [BitVec.getLsbD_of_ge _ _ hi, eq_comm, decide_eq_false_iff_not]
    omega

theorem getLsbD_stampMask (i : Nat) :
    (counterMask <<< stampShift).toBitVec.getLsbD i = decide (15 ≤ i ∧ i < 30) := by
  rcases Nat.lt_or_ge i 32 with hi | hi
  · revert i; decide
  · rw [BitVec.getLsbD_of_ge _ _ hi, eq_comm, decide_eq_false_iff_not]
    omega

theorem getLsbD_candidateBit (i : Nat) : candidateBit.toBitVec.getLsbD i = decide (i = 30) := by
  rcases Nat.lt_or_ge i 32 with hi | hi
  · revert i; decide
  · rw [BitVec.getLsbD_of_ge _ _ hi, eq_comm, decide_eq_false_iff_not]
    omega

theorem getLsbD_acceptingBit (i : Nat) : acceptingBit.toBitVec.getLsbD i = decide (i = 31) := by
  rcases Nat.lt_or_ge i 32 with hi | hi
  · revert i; decide
  · rw [BitVec.getLsbD_of_ge _ _ hi, eq_comm, decide_eq_false_iff_not]
    omega

/-- Where a stamp lies once it is in place. -/
theorem getLsbD_stamp_shifted (round : UInt32) (i : Nat) :
    (stamp round <<< stampShift).toBitVec.getLsbD i =
      (decide (15 ≤ i ∧ i < 30) && round.toBitVec.getLsbD (i - 15)) := by
  simp only [stamp, stampShift, UInt32.toBitVec_shiftLeft, UInt32.toBitVec_and]
  simp [getLsbD_counterMask]
  grind

namespace Mark

/-! ## 2. Where the fields are read -/

theorem getLsbD_predecessors (m : Mark) (i : Nat) :
    m.predecessors.toBitVec.getLsbD i = (decide (i < 15) && m.word.toBitVec.getLsbD i) := by
  simp [predecessors, getLsbD_counterMask, Bool.and_comm]

theorem getLsbD_iteration (m : Mark) (i : Nat) :
    m.iteration.toBitVec.getLsbD i = (decide (i < 15) && m.word.toBitVec.getLsbD (15 + i)) := by
  simp [iteration, stampShift, getLsbD_counterMask, Bool.and_comm]

/-- A word has a bit in common with a single bit exactly when it has that bit. -/
theorem and_bit_ne_zero {word bit : UInt32} {k : Nat} (hbit : bit ≠ 0)
    (h : ∀ i, bit.toBitVec.getLsbD i = decide (i = k)) :
    (word &&& bit != 0) = word.toBitVec.getLsbD k := by
  have hand : word &&& bit = if word.toBitVec.getLsbD k then bit else 0 := by
    refine word_ext fun i => ?_
    by_cases hi : i = k
    · subst hi
      cases hw : word.toBitVec.getLsbD i <;> simp [h, hw]
    · cases word.toBitVec.getLsbD k <;> simp [h, hi]
  rw [hand]
  cases word.toBitVec.getLsbD k <;> simp [hbit]

theorem inS_eq_getLsbD (m : Mark) : m.inS = m.word.toBitVec.getLsbD 30 :=
  and_bit_ne_zero (by decide) getLsbD_candidateBit

theorem inF_eq_getLsbD (m : Mark) : m.inF = m.word.toBitVec.getLsbD 31 :=
  and_bit_ne_zero (by decide) getLsbD_acceptingBit

/-- A mark has the fields whose bits its word has in their places. -/
theorem fields_eq_of_getLsbD {m : Mark} (predecessors iteration : UInt32) (inS inF : Bool)
    (h : ∀ i, m.word.toBitVec.getLsbD i =
      if i < 15 then predecessors.toBitVec.getLsbD i
      else if i < 30 then iteration.toBitVec.getLsbD (i - 15)
      else if i = 30 then inS else (i == 31 && inF))
    (hp : ∀ i, 15 ≤ i → predecessors.toBitVec.getLsbD i = false)
    (hi : ∀ i, 15 ≤ i → iteration.toBitVec.getLsbD i = false) :
    m.fields = ⟨predecessors.toNat, iteration.toNat, inS, inF⟩ := by
  have hpred : m.predecessors = predecessors := word_ext fun i => by
    rw [getLsbD_predecessors, h]
    grind
  have hiter : m.iteration = iteration := word_ext fun i => by
    rw [getLsbD_iteration, h]
    grind
  rw [fields, hpred, hiter, inS_eq_getLsbD, inF_eq_getLsbD, h, h]
  rfl

/-- The bits of a word are those of its fields. -/
theorem getLsbD_word (m : Mark) (i : Nat) : m.word.toBitVec.getLsbD i =
    if i < 15 then m.predecessors.toBitVec.getLsbD i
    else if i < 30 then m.iteration.toBitVec.getLsbD (i - 15)
    else if i = 30 then m.inS else (i == 31 && m.inF) := by
  rw [getLsbD_predecessors, getLsbD_iteration, inS_eq_getLsbD, inF_eq_getLsbD]
  have : 32 ≤ i → m.word.toBitVec.getLsbD i = false := BitVec.getLsbD_of_ge _ _
  grind

theorem getLsbD_predecessors_of_ge (m : Mark) (i : Nat) (hi : 15 ≤ i) :
    m.predecessors.toBitVec.getLsbD i = false := by
  rw [getLsbD_predecessors]
  grind

theorem getLsbD_iteration_of_ge (m : Mark) (i : Nat) (hi : 15 ≤ i) :
    m.iteration.toBitVec.getLsbD i = false := by
  rw [getLsbD_iteration]
  grind

/-! ## 3. What the operations do to the fields -/

theorem fields_setPredecessors (m : Mark) {count : UInt32} (h : count &&& counterMask = count) :
    (m.setPredecessors count).fields = { m.fields with predecessors := count.toNat } := by
  have hc : ∀ i, 15 ≤ i → count.toBitVec.getLsbD i = false := fun i hi => by
    rw [← h, UInt32.toBitVec_and, BitVec.getLsbD_and, getLsbD_counterMask]
    grind
  refine fields_eq_of_getLsbD count m.iteration m.inS m.inF (fun i => ?_) hc
    m.getLsbD_iteration_of_ge
  simp only [setPredecessors, UInt32.toBitVec_or, UInt32.toBitVec_and, UInt32.toBitVec_not,
    BitVec.getLsbD_or, BitVec.getLsbD_and, BitVec.getLsbD_not, getLsbD_counterMask, getLsbD_word]
  grind

theorem fields_resetPredecessors (m : Mark) :
    m.resetPredecessors.fields = { m.fields with predecessors := 0 } := by
  refine fields_eq_of_getLsbD 0 m.iteration m.inS m.inF (fun i => ?_) (by simp)
    m.getLsbD_iteration_of_ge
  simp only [resetPredecessors, UInt32.toBitVec_and, UInt32.toBitVec_not, BitVec.getLsbD_and,
    BitVec.getLsbD_not, getLsbD_counterMask, getLsbD_word]
  simp
  grind

/-- A stamp is the number of the round modulo `2 ^ 15`. -/
theorem toNat_stamp (round : UInt32) : (stamp round).toNat = round.toNat % 2 ^ 15 := by
  rw [stamp, UInt32.toNat_and]
  exact Nat.and_two_pow_sub_one_eq_mod _ 15

theorem getLsbD_stamp (round : UInt32) (i : Nat) :
    (stamp round).toBitVec.getLsbD i = (decide (i < 15) && round.toBitVec.getLsbD i) := by
  rw [stamp, UInt32.toBitVec_and, BitVec.getLsbD_and, getLsbD_counterMask, Bool.and_comm]

theorem fields_setIteration (m : Mark) (round : UInt32) :
    (m.setIteration round).fields = { m.fields with iteration := round.toNat % 2 ^ 15 } := by
  rw [← toNat_stamp]
  refine fields_eq_of_getLsbD m.predecessors (stamp round) m.inS m.inF (fun i => ?_)
    m.getLsbD_predecessors_of_ge (fun i hi => by rw [getLsbD_stamp]; grind)
  simp only [setIteration, UInt32.toBitVec_or, UInt32.toBitVec_and, UInt32.toBitVec_not,
    BitVec.getLsbD_or, BitVec.getLsbD_and, BitVec.getLsbD_not, getLsbD_stampMask,
    getLsbD_stamp_shifted, getLsbD_stamp, getLsbD_word]
  grind

/-- A bit put into a word is there, and the others stay. -/
theorem getLsbD_putBit {word bit : UInt32} {k : Nat} (on : Bool) (hk : k < 32)
    (h : ∀ i, bit.toBitVec.getLsbD i = decide (i = k)) (i : Nat) :
    (putBit word bit on).toBitVec.getLsbD i =
      if i = k then on else word.toBitVec.getLsbD i := by
  have hword : 32 ≤ i → word.toBitVec.getLsbD i = false := BitVec.getLsbD_of_ge _ _
  cases on
  · simp only [putBit, UInt32.toBitVec_and, UInt32.toBitVec_not, BitVec.getLsbD_and,
      BitVec.getLsbD_not, h, Bool.false_eq_true, if_false]
    grind
  · simp only [putBit, UInt32.toBitVec_or, BitVec.getLsbD_or, h, if_true]
    grind

theorem fields_setInS (m : Mark) (on : Bool) :
    (m.setInS on).fields = { m.fields with inS := on } := by
  refine fields_eq_of_getLsbD m.predecessors m.iteration on m.inF (fun i => ?_)
    m.getLsbD_predecessors_of_ge m.getLsbD_iteration_of_ge
  rw [setInS, getLsbD_putBit on (by decide) getLsbD_candidateBit, getLsbD_word]
  grind

theorem fields_setInF (m : Mark) (on : Bool) :
    (m.setInF on).fields = { m.fields with inF := on } := by
  refine fields_eq_of_getLsbD m.predecessors m.iteration m.inS on (fun i => ?_)
    m.getLsbD_predecessors_of_ge m.getLsbD_iteration_of_ge
  rw [setInF, getLsbD_putBit on (by decide) getLsbD_acceptingBit, getLsbD_word]
  grind

end Mark

end FairCycle
