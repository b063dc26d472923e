/-
# What the passes do to a mark

The passes change a mark by a handful of operations.  Each is described here by what it does to
the three parts of a mark: the parent, the rank of the ancestor, and the packed fields read as a
plain record (`Mark.fields`).  Later modules never look at the word itself.
-/
import FairCycle.Mark.Fields

namespace FairCycle

namespace Mark

/-! ## 1. Reading the record -/

theorem inS_eq (m : Mark) : m.inS = m.fields.inS := rfl

theorem inF_eq (m : Mark) : m.inF = m.fields.inF := rfl

theorem isSeed_eq (m : Mark) : m.isSeed = (m.fields.inS && m.fields.inF) := rfl

theorem predecessors_eq_iff {m : Mark} {count : UInt32} :
    m.predecessors = count ↔ m.fields.predecessors = count.toNat :=
  UInt32.toNat_inj.symm

/-- A state bears the stamp of a round modulo the width of a stamp. -/
theorem visitedIn_iff {m : Mark} {round : UInt32} :
    m.visitedIn round = true ↔ m.fields.iteration = round.toNat % 2 ^ 15 := by
  rw [visitedIn, beq_iff_eq, ← UInt32.toNat_inj, toNat_stamp]
  rfl

theorem predecessors_toNat (m : Mark) : m.fields.predecessors = m.word.toNat % 2 ^ 15 := by
  change (m.word &&& counterMask).toNat = m.word.toNat % 2 ^ 15
  rw [UInt32.toNat_and]
  exact Nat.and_two_pow_sub_one_eq_mod _ 15

theorem predecessors_le (m : Mark) : m.fields.predecessors ≤ 32767 := by
  have hlt : m.word.toNat % 2 ^ 15 < 2 ^ 15 := Nat.mod_lt _ (by decide)
  rw [predecessors_toNat]
  omega

/-! ## 2. Writing the record -/

@[simp] theorem fields_blank : ({} : Mark).fields = ⟨0, 0, false, false⟩ := by decide

@[simp] theorem fields_replaceParent (m : Mark) (h : Handle) :
    (m.replaceParent h).fields = m.fields := rfl

@[simp] theorem fields_setParentOnce (m : Mark) (h : Handle) :
    (m.setParentOnce h).fields = m.fields := by
  unfold setParentOnce
  split <;> rfl

@[simp] theorem fields_setAncestor (m : Mark) (rank : UInt32) :
    (m.setAncestor rank).fields = m.fields := rfl

attribute [simp] fields_setInS fields_setInF fields_setIteration fields_resetPredecessors

@[simp] theorem parent_replaceParent (m : Mark) (h : Handle) :
    (m.replaceParent h).parent = some h := rfl

@[simp] theorem parent_setInS (m : Mark) (on : Bool) : (m.setInS on).parent = m.parent := rfl

@[simp] theorem parent_setInF (m : Mark) (on : Bool) : (m.setInF on).parent = m.parent := rfl

@[simp] theorem parent_setIteration (m : Mark) (round : UInt32) :
    (m.setIteration round).parent = m.parent := rfl

@[simp] theorem parent_setAncestor (m : Mark) (rank : UInt32) :
    (m.setAncestor rank).parent = m.parent := rfl

@[simp] theorem parent_resetPredecessors (m : Mark) : m.resetPredecessors.parent = m.parent := rfl

@[simp] theorem ancestor_setInS (m : Mark) (on : Bool) : (m.setInS on).ancestor = m.ancestor := rfl

@[simp] theorem ancestor_setInF (m : Mark) (on : Bool) : (m.setInF on).ancestor = m.ancestor := rfl

@[simp] theorem ancestor_setIteration (m : Mark) (round : UInt32) :
    (m.setIteration round).ancestor = m.ancestor := rfl

@[simp] theorem ancestor_setAncestor (m : Mark) (rank : UInt32) :
    (m.setAncestor rank).ancestor = rank := rfl

/-! ## 3. Counting -/

/-- Counting past the maximum is a fault. -/
theorem countUp_of_full {m : Mark} (state : Handle) (h : m.fields.predecessors = 32767) :
    m.countUp state = .error (.predecessorOverflow state maxPredecessors) := by
  rw [countUp, if_pos (predecessors_eq_iff.mpr h)]

/-- Below the maximum one more predecessor is counted, and nothing else changes. -/
theorem countUp_of_room {m : Mark} (state : Handle) (h : m.fields.predecessors ≠ 32767) :
    ∃ m', m.countUp state = .ok m' ∧ m'.parent = m.parent ∧ m'.ancestor = m.ancestor ∧
      m'.fields = { m.fields with predecessors := m.fields.predecessors + 1 } := by
  have hle := m.predecessors_le
  have hnat : (m.predecessors + 1).toNat = m.fields.predecessors + 1 := by
    rw [UInt32.toNat_add]
    exact Nat.mod_eq_of_lt (by change m.fields.predecessors + 1 < 2 ^ 32; omega)
  have hmask : (m.predecessors + 1) &&& counterMask = m.predecessors + 1 := by
    rw [← UInt32.toNat_inj, UInt32.toNat_and, hnat]
    refine (Nat.and_two_pow_sub_one_eq_mod _ 15).trans (Nat.mod_eq_of_lt ?_)
    omega
  refine ⟨m.setPredecessors (m.predecessors + 1), ?_, rfl, rfl, ?_⟩
  · rw [countUp, if_neg fun heq => h (predecessors_eq_iff.mp heq)]
  · rw [fields_setPredecessors m hmask, hnat]

/-- Above zero one predecessor less is counted, and nothing else changes. -/
theorem countDown_of_pos {m : Mark} (state : Handle) (h : 0 < m.fields.predecessors) :
    ∃ m', m.countDown state = .ok m' ∧ m'.parent = m.parent ∧ m'.ancestor = m.ancestor ∧
      m'.fields = { m.fields with predecessors := m.fields.predecessors - 1 } := by
  have hle := m.predecessors_le
  have hone : (1 : UInt32) ≤ m.predecessors := UInt32.le_iff_toNat_le.mpr h
  have hnat : (m.predecessors - 1).toNat = m.fields.predecessors - 1 :=
    UInt32.toNat_sub_of_le _ _ hone
  have hmask : (m.predecessors - 1) &&& counterMask = m.predecessors - 1 := by
    rw [← UInt32.toNat_inj, UInt32.toNat_and, hnat]
    refine (Nat.and_two_pow_sub_one_eq_mod _ 15).trans (Nat.mod_eq_of_lt ?_)
    omega
  refine ⟨m.setPredecessors (m.predecessors - 1), ?_, rfl, rfl, ?_⟩
  · have hne : m.predecessors ≠ 0 := by
      intro heq
      rw [predecessors_eq_iff.mp heq] at h
      exact absurd h (by decide)
    rw [countDown, if_neg hne]
  · rw [fields_setPredecessors m hmask, hnat]

theorem fields_countUp {m m' : Mark} {h : Handle} (hm : m.countUp h = .ok m') :
    m'.fields = { m.fields with predecessors := m.fields.predecessors + 1 } := by
  by_cases hfull : m.fields.predecessors = 32767
  · rw [countUp_of_full h hfull] at hm
    exact absurd hm (by simp)
  · obtain ⟨k, hk, -, -, hfields⟩ := countUp_of_room h hfull
    obtain rfl := Except.ok.inj (hk.symm.trans hm)
    exact hfields

theorem fields_countDown {m m' : Mark} {h : Handle} (hm : m.countDown h = .ok m') :
    0 < m.fields.predecessors ∧
      m'.fields = { m.fields with predecessors := m.fields.predecessors - 1 } := by
  rcases Nat.eq_zero_or_pos m.fields.predecessors with hzero | hpos
  · rw [countDown, if_pos (predecessors_eq_iff.mpr hzero)] at hm
    exact absurd hm (by simp)
  · obtain ⟨k, hk, -, -, hfields⟩ := countDown_of_pos h hpos
    obtain rfl := Except.ok.inj (hk.symm.trans hm)
    exact ⟨hpos, hfields⟩

theorem parent_countUp {m m' : Mark} {h : Handle} (hm : m.countUp h = .ok m') :
    m'.parent = m.parent := by
  unfold countUp at hm
  split at hm
  · exact absurd hm (by simp)
  · rw [← Except.ok.inj hm]
    rfl

theorem parent_countDown {m m' : Mark} {h : Handle} (hm : m.countDown h = .ok m') :
    m'.parent = m.parent := by
  unfold countDown at hm
  split at hm
  · exact absurd hm (by simp)
  · rw [← Except.ok.inj hm]
    rfl

/-! ## 4. The start of a round -/

/-- The start of a round clears the count, keeps only seeds as candidates, and stamps them with
the round and every other state with the round before. -/
theorem fields_startRound (m : Mark) (round : UInt32) :
    (m.startRound round).fields =
      ⟨0, if m.isSeed then round.toNat % 2 ^ 15 else (round - 1).toNat % 2 ^ 15,
        m.isSeed, m.fields.inF⟩ := by
  have hseed : m.resetPredecessors.isSeed = m.isSeed := by
    rw [isSeed_eq, isSeed_eq, fields_resetPredecessors]
  unfold startRound
  simp only [hseed]
  cases hs : m.isSeed with
  | true =>
    have hin : m.fields.inS = true := by
      rw [isSeed_eq, Bool.and_eq_true] at hs; exact hs.1
    simp [hin]
  | false => simp

@[simp] theorem parent_startRound (m : Mark) (round : UInt32) :
    (m.startRound round).parent = m.parent := by
  simp only [startRound]
  split <;> rfl

@[simp] theorem ancestor_startRound (m : Mark) (round : UInt32) :
    (m.startRound round).ancestor = m.ancestor := by
  simp only [startRound]
  split <;> rfl

@[simp] theorem isSeed_startRound (m : Mark) (round : UInt32) :
    (m.startRound round).isSeed = m.isSeed := by
  rw [isSeed_eq, fields_startRound, isSeed_eq]
  cases m.fields.inS <;> cases m.fields.inF <;> rfl

/-- Two rounds that follow each other have different stamps. -/
theorem stamp_pred_ne (round : UInt32) : (round - 1).toNat % 2 ^ 15 ≠ round.toNat % 2 ^ 15 := by
  have h : (round - 1).toNat = (2 ^ 32 - 1 + round.toNat) % 2 ^ 32 := UInt32.toNat_sub _ _
  omega

/-- The stamp of the next round differs from that of this one and of the one before. -/
theorem stamp_succ_ne (round : UInt32) :
    (round + 1).toNat % 2 ^ 15 ≠ round.toNat % 2 ^ 15 ∧
      (round + 1).toNat % 2 ^ 15 ≠ (round - 1).toNat % 2 ^ 15 := by
  have h : (round - 1).toNat = (2 ^ 32 - 1 + round.toNat) % 2 ^ 32 := UInt32.toNat_sub _ _
  have h' : (round + 1).toNat = (round.toNat + 1) % 2 ^ 32 := UInt32.toNat_add _ _
  omega

/-! ## 5. What no round changes -/

/-- A mark has the parent, the ancestor and the acceptance of another one. -/
structure Agrees (m m₀ : Mark) : Prop where
  parent : m.parent = m₀.parent
  ancestor : m.ancestor = m₀.ancestor
  inF : m.fields.inF = m₀.fields.inF

theorem Agrees.refl (m : Mark) : m.Agrees m := ⟨rfl, rfl, rfl⟩

theorem Agrees.trans {m m₁ m₂ : Mark} (h : m.Agrees m₁) (h' : m₁.Agrees m₂) : m.Agrees m₂ :=
  ⟨h.parent.trans h'.parent, h.ancestor.trans h'.ancestor, h.inF.trans h'.inF⟩

theorem agrees_setInS (m : Mark) (inS : Bool) : (m.setInS inS).Agrees m :=
  ⟨rfl, rfl, by rw [fields_setInS]⟩

theorem agrees_startRound (m : Mark) (round : UInt32) : (m.startRound round).Agrees m :=
  ⟨m.parent_startRound round, m.ancestor_startRound round, by rw [fields_startRound]⟩

end Mark

end FairCycle
