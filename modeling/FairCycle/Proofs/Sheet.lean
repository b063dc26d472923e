/-
# Marks as plain records

The word of a mark packs four fields, and every call writes some bits of it under a mask.  A `Sheet`
is the record that this is meant to be: six fields of their own, with no bits to mix up.  The two
counters of a mark have fifteen bits each, so neither of them can be told from a field that holds a
number up to 32767.

A mark and its sheet answer every call alike, and the sheet of what a call leaves is what the same
call leaves of the sheet (`Mark.sheet_call`).  So they answer any calls alike that are made one
after the other (`inTurn_map`, `calls_refine_sheet`).
-/
import FairCycle.Proofs.Marks

namespace FairCycle

namespace Mark

/-! ## 1. Sheets -/

/-- A mark as it is meant to be: the packed fields beside the others. -/
structure Sheet extends Fields where
  parent : Option Handle
  ancestor : UInt32
deriving DecidableEq

/-- The sheet of a mark, as the fields of the mark are read. -/
def sheet (m : Mark) : Sheet := { m.fields with parent := m.parent, ancestor := m.ancestor }

namespace Sheet

/-- A sheet on which nothing is written. -/
def blank : Sheet := ⟨⟨0, 0, false, false⟩, none, 0⟩

/-- What a call answers and what it makes of a sheet: it writes one field. -/
def call (s : Sheet) : Call → Answer × Sheet
  | .setParentOnce parent =>
    if s.parent = none then (.written true, { s with parent := some parent })
    else (.written false, s)
  | .replaceParent parent => (.done, { s with parent := some parent })
  | .setAncestor rank => (.done, { s with ancestor := rank })
  | .resetPredecessors => (.done, { s with predecessors := 0 })
  | .countUp state =>
    if s.predecessors = 32767 then (.failed (.predecessorOverflow state 32767), s)
    else (.done, { s with predecessors := s.predecessors + 1 })
  | .countDown state =>
    if s.predecessors = 0 then (.failed (.predecessorUnderflow state), s)
    else (.left (s.predecessors - 1), { s with predecessors := s.predecessors - 1 })
  | .setIteration round => (.done, { s with iteration := round.toNat % 2 ^ 15 })
  | .setInS on => (.done, { s with inS := on })
  | .setInF on => (.done, { s with inF := on })

/-- The word that packs a sheet. -/
def word (s : Sheet) : Nat :=
  s.inF.toNat * 2 ^ 31 + s.inS.toNat * 2 ^ 30 + s.iteration * 2 ^ 15 + s.predecessors

end Sheet

theorem sheet_eq_of_fields {m m' : Mark} {fields : Fields} (hfields : m'.fields = fields)
    (hparent : m'.parent = m.parent) (hancestor : m'.ancestor = m.ancestor) :
    m'.sheet = { fields with parent := m.parent, ancestor := m.ancestor } := by
  unfold sheet
  rw [hfields, hparent, hancestor]

/-! ## 2. The word -/

theorem iteration_toNat (m : Mark) : m.fields.iteration = m.word.toNat / 2 ^ 15 % 2 ^ 15 := by
  change ((m.word >>> stampShift) &&& counterMask).toNat = m.word.toNat / 2 ^ 15 % 2 ^ 15
  rw [UInt32.toNat_and, UInt32.toNat_shiftRight, Nat.shiftRight_eq_div_pow]
  exact Nat.and_two_pow_sub_one_eq_mod _ 15

/-- A bit of a word is a digit of the number. -/
theorem toNat_getLsbD (word : UInt32) (i : Nat) :
    (word.toBitVec.getLsbD i).toNat = word.toNat / 2 ^ i % 2 := by
  have hbit : word.toBitVec.getLsbD i = decide (word.toNat / 2 ^ i % 2 = 1) := by
    rw [BitVec.getLsbD, Nat.testBit_eq_decide_div_mod_eq]
    rfl
  rw [hbit]
  rcases Nat.mod_two_eq_zero_or_one (word.toNat / 2 ^ i) with h | h <;> simp [h]

/-- **The word of a mark packs its sheet**, whatever the word. -/
theorem word_sheet (m : Mark) : m.sheet.word = m.word.toNat := by
  have hpred : m.sheet.predecessors = m.word.toNat % 2 ^ 15 := m.predecessors_toNat
  have hiter : m.sheet.iteration = m.word.toNat / 2 ^ 15 % 2 ^ 15 := m.iteration_toNat
  have hinS : m.sheet.inS.toNat = m.word.toNat / 2 ^ 30 % 2 := by
    rw [← toNat_getLsbD, ← inS_eq_getLsbD]
    rfl
  have hinF : m.sheet.inF.toNat = m.word.toNat / 2 ^ 31 % 2 := by
    rw [← toNat_getLsbD, ← inF_eq_getLsbD]
    rfl
  have hlt : m.word.toNat < 2 ^ 32 := m.word.toNat_lt
  unfold Sheet.word
  rw [hpred, hiter, hinS, hinF]
  omega

/-! ## 3. One call -/

theorem sheet_setParentOnce (m : Mark) (parent : Handle) :
    Prod.map id sheet (m.call (.setParentOnce parent)) = m.sheet.call (.setParentOnce parent) := by
  have hparent : m.sheet.parent = m.parent := rfl
  unfold call Sheet.call
  cases h : m.parent with
  | none => simp [setParentOnce, h, sheet, fields, predecessors, iteration, inS, inF]
  | some earlier => simp [setParentOnce, hparent, h]

theorem sheet_countUp (m : Mark) (state : Handle) :
    Prod.map id sheet (m.call (.countUp state)) = m.sheet.call (.countUp state) := by
  have hcount : m.sheet.predecessors = m.fields.predecessors := rfl
  unfold call Sheet.call
  by_cases hfull : m.fields.predecessors = 32767
  · simp only [countUp_of_full state hfull, hcount, if_pos hfull]
    rfl
  · obtain ⟨next, hnext, hparent, hancestor, hfields⟩ := countUp_of_room state hfull
    simp only [hnext, hcount, Prod.map_apply]
    rw [if_neg hfull, sheet_eq_of_fields hfields hparent hancestor]
    rfl

theorem sheet_countDown (m : Mark) (state : Handle) :
    Prod.map id sheet (m.call (.countDown state)) = m.sheet.call (.countDown state) := by
  have hcount : m.sheet.predecessors = m.fields.predecessors := rfl
  unfold call Sheet.call
  rcases Nat.eq_zero_or_pos m.fields.predecessors with hzero | hpos
  · have hfail : m.countDown state = .error (.predecessorUnderflow state) := by
      rw [countDown, if_pos (predecessors_eq_iff.mpr hzero)]
    simp only [hfail, hcount, if_pos hzero]
    rfl
  · obtain ⟨next, hnext, hparent, hancestor, hfields⟩ := countDown_of_pos state hpos
    have hleft : next.predecessors.toNat = m.fields.predecessors - 1 :=
      congrArg Fields.predecessors hfields
    simp only [hnext, hcount, Prod.map_apply, hleft]
    rw [if_neg (Nat.pos_iff_ne_zero.mp hpos), sheet_eq_of_fields hfields hparent hancestor]
    rfl

/-- **A call does to a mark what it does to the sheet.**  Each call writes its field and leaves the
other five alone. -/
theorem sheet_call (m : Mark) (c : Call) :
    Prod.map id sheet (m.call c) = m.sheet.call c := by
  cases c with
  | setParentOnce parent => exact m.sheet_setParentOnce parent
  | replaceParent parent => rfl
  | setAncestor rank => rfl
  | resetPredecessors =>
    exact congrArg (Prod.mk _) (sheet_eq_of_fields (fields_resetPredecessors m) rfl rfl)
  | countUp state => exact m.sheet_countUp state
  | countDown state => exact m.sheet_countDown state
  | setIteration round =>
    exact congrArg (Prod.mk _) (sheet_eq_of_fields (fields_setIteration m round) rfl rfl)
  | setInS on => exact congrArg (Prod.mk _) (sheet_eq_of_fields (fields_setInS m on) rfl rfl)
  | setInF on => exact congrArg (Prod.mk _) (sheet_eq_of_fields (fields_setInF m on) rfl rfl)

/-! ## 4. Calls one after the other -/

/-- The answers to calls that are made one after the other, and what they leave. -/
def inTurn {α : Type} (call : α → Call → Answer × α) : List Call → α → List Answer × α
  | [], a => ([], a)
  | c :: calls, a =>
    let (answer, a) := call a c
    let (answers, a) := inTurn call calls a
    (answer :: answers, a)

theorem inTurn_map {α β : Type} {call : α → Call → Answer × α} {call' : β → Call → Answer × β}
    {f : α → β} (h : ∀ a c, Prod.map id f (call a c) = call' (f a) c) (calls : List Call) (a : α) :
    Prod.map id f (inTurn call calls a) = inTurn call' calls (f a) := by
  induction calls generalizing a with
  | nil => rfl
  | cons c calls ih =>
    have hstep := h a c
    have hrest := ih (call a c).2
    simp only [inTurn, ← hstep, Prod.map_fst, Prod.map_snd, id_eq, ← hrest]
    rfl

theorem sheet_blank : ({} : Mark).sheet = Sheet.blank := by decide

theorem failed_countUp_iff (s : Sheet) (state : Handle) :
    (∃ fault, (s.call (.countUp state)).1 = .failed fault) ↔ s.predecessors = 32767 := by
  unfold Sheet.call
  by_cases h : s.predecessors = 32767 <;> simp [h]

theorem failed_countDown_iff (s : Sheet) (state : Handle) :
    (∃ fault, (s.call (.countDown state)).1 = .failed fault) ↔ s.predecessors = 0 := by
  unfold Sheet.call
  by_cases h : s.predecessors = 0 <;> simp [h]

theorem call_of_failed {m : Mark} {c : Call} {fault : Fault} (h : (m.call c).1 = .failed fault) :
    (m.call c).2 = m := by
  unfold call at h ⊢
  cases c with
  | countUp state => cases hcount : m.countUp state <;> simp_all
  | countDown state => cases hcount : m.countDown state <;> simp_all
  | _ => simp at h

/-- **A mark is a record with six fields of their own.**  Whatever calls are made on a new mark,
they are answered as on a blank sheet, and what is read off the mark afterwards is what stands on
the sheet.  Counting up fails exactly at 32767 and counting down exactly at zero, and a call that
fails changes nothing at all. -/
theorem calls_refine_sheet (calls : List Call) :
    ∃ (answers : List Answer) (m : Mark) (s : Sheet),
      inTurn call calls {} = (answers, m) ∧ inTurn Sheet.call calls .blank = (answers, s) ∧
      m.parent = s.parent ∧ m.ancestor = s.ancestor ∧
      m.predecessors.toNat = s.predecessors ∧ s.predecessors ≤ 32767 ∧
      m.iteration.toNat = s.iteration ∧ s.iteration ≤ 32767 ∧
      m.inS = s.inS ∧ m.inF = s.inF ∧ m.isSeed = (s.inS && s.inF) ∧
      (∀ round, m.visitedIn round = true ↔ s.iteration = round.toNat % 2 ^ 15) ∧
      m.word.toNat =
        s.inF.toNat * 2 ^ 31 + s.inS.toNat * 2 ^ 30 + s.iteration * 2 ^ 15 + s.predecessors ∧
      (∀ c, (m.call c).1 = (s.call c).1) ∧
      (∀ state, (∃ fault, (m.call (.countUp state)).1 = .failed fault) ↔
        s.predecessors = 32767) ∧
      (∀ state, (∃ fault, (m.call (.countDown state)).1 = .failed fault) ↔ s.predecessors = 0) ∧
      ∀ c fault, (m.call c).1 = .failed fault → (m.call c).2 = m := by
  rcases hrun : inTurn call calls {} with ⟨answers, m⟩
  have hsheet : inTurn Sheet.call calls .blank = (answers, m.sheet) := by
    rw [← sheet_blank, ← inTurn_map sheet_call, hrun]
    rfl
  have hanswer : ∀ c, (m.call c).1 = (m.sheet.call c).1 := by
    intro c
    rw [← sheet_call]
    rfl
  have hiter : m.sheet.iteration ≤ 32767 := by
    have hlt : m.word.toNat / 2 ^ 15 % 2 ^ 15 < 2 ^ 15 := Nat.mod_lt _ (by decide)
    have heq : m.sheet.iteration = m.word.toNat / 2 ^ 15 % 2 ^ 15 := m.iteration_toNat
    omega
  refine ⟨answers, m, m.sheet, rfl, hsheet, rfl, rfl, rfl, m.predecessors_le, rfl, hiter, rfl, rfl,
    rfl, fun round => visitedIn_iff, m.word_sheet.symm, hanswer, ?_, ?_, ?_⟩
  · intro state
    rw [hanswer]
    exact failed_countUp_iff m.sheet state
  · intro state
    rw [hanswer]
    exact failed_countDown_iff m.sheet state
  · intro c fault
    exact call_of_failed

end Mark

end FairCycle
