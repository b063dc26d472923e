/-
# Rounds

A round takes the accepting candidates `A` to those that are reached from a cycle through
something that `A` reaches.  No accepting state on a cycle is ever lost, so that there is none
once no candidate is left.  If a round leaves as many accepting candidates as there were, then it
leaves the same ones; each of them has an ancestor among them, and so they all come from accepting
states on cycles.  Hence what is left at the end is exact: `Terrain.core Terrain.accepted`, the
states that are reached from an accepting state on a cycle.

How many rounds there are is a matter of the candidates at the beginning (`Terrain.Ends`), and so is
all that the rounds leave (`Run.Finished`).
-/
import FairCycle.Proofs.Eliminate
import FairCycle.Proofs.Explore

namespace FairCycle

variable {N σ : Type} [Ord N]

/-! ## 1. One round, as a step on sets -/

namespace Terrain

variable {t : Terrain N σ} {T T' : Nat → Table N} {A : Finset N} {v : N}

/-- The accepting states. -/
noncomputable def accepted (t : Terrain N σ) : Finset N := t.states.filter fun v => t.accepting v

/-- What a round makes of a set of candidates: the states that are reached from a cycle behind an
accepting one. -/
noncomputable def sift (t : Terrain N σ) (S : Finset N) : Finset N :=
  t.core (t.spread (S.filter fun v => t.accepting v))

/-- Every accepting state that a set of states reaches is in the set. -/
def Catches (t : Terrain N σ) (A : Finset N) : Prop :=
  ∀ v ∈ t.spread A, t.accepting v = true → v ∈ A

omit [Ord N]

theorem mem_accepted : v ∈ t.accepted ↔ v ∈ t.states ∧ t.accepting v = true := Finset.mem_filter

theorem accepted_subset : t.accepted ⊆ t.states := Finset.filter_subset _ _

theorem catches_accepted : t.Catches t.accepted := fun _ hv ha =>
  mem_accepted.mpr ⟨spread_subset hv, ha⟩

theorem core_spread_subset : t.core (t.spread A) ⊆ t.spread A := by
  intro v hv
  obtain ⟨hstates, y, hy, -, hreach⟩ := mem_core.mp hv
  obtain ⟨-, a, ha, hay⟩ := mem_spread.mp hy
  exact mem_spread.mpr ⟨hstates, a, ha, hay.trans hreach⟩

theorem Catches.filter_spread (hA : t.Catches A) (hacc : A ⊆ t.accepted) :
    ((t.spread A).filter fun v => t.accepting v) = A := by
  ext v
  rw [Finset.mem_filter]
  refine ⟨fun h => hA v h.1 h.2, fun hv => ⟨?_, (mem_accepted.mp (hacc hv)).2⟩⟩
  exact subset_spread (hacc.trans accepted_subset) hv

/-- A round loses no accepting state on a cycle. -/
theorem core_accepted_subset (hall : ∀ {v}, v ∈ t.accepted → t.OnCycle v → v ∈ A) :
    t.core t.accepted ⊆ t.core (t.spread A) := by
  intro v hv
  obtain ⟨hstates, y, hy, hcycle, hreach⟩ := mem_core.mp hv
  refine mem_core.mpr ⟨hstates, y, ?_, hcycle, hreach⟩
  exact mem_spread.mpr ⟨accepted_subset hy, y, hall hy hcycle, Relation.ReflTransGen.refl⟩

theorem core_eq_empty {S : Finset N} (h : ∀ v ∈ S, ¬t.OnCycle v) : t.core S = ∅ :=
  Finset.eq_empty_of_forall_notMem fun v hv => by
    obtain ⟨-, y, hy, hcycle, -⟩ := mem_core.mp hv
    exact h y hy hcycle

/-- **If a round loses none of the accepting candidates, then all that is left comes from
accepting states on cycles.**  Each of the accepting candidates has an ancestor among them. -/
theorem core_spread_subset_core_accepted (hacc : A ⊆ t.accepted) (hA : A ⊆ t.core (t.spread A)) :
    t.core (t.spread A) ⊆ t.core t.accepted := by
  have hancestor : ∀ a ∈ A, ∃ b ∈ A, Relation.TransGen t.Edge b a := by
    intro a ha
    obtain ⟨-, y, hy, hcycle, hreach⟩ := mem_core.mp (hA ha)
    obtain ⟨-, b, hb, hby⟩ := mem_spread.mp hy
    exact ⟨b, hb, Relation.TransGen.trans_right hby (Relation.TransGen.trans_left hcycle hreach)⟩
  intro v hv
  obtain ⟨hstates, y, hy, -, hyv⟩ := mem_core.mp hv
  obtain ⟨-, b, hb, hby⟩ := mem_spread.mp hy
  obtain ⟨c, hc, hcycle, hcb⟩ := exists_cycle_of_ancestors hancestor hb
  exact mem_core.mpr ⟨hstates, c, hacc hc, hcycle, (hcb.trans hby).trans hyv⟩

end Terrain

/-! ## 2. Runs between rounds -/

section Rounds

variable [DecidableEq N]

/-- A run between two rounds. -/
structure Run.Between (t : Terrain N σ) (name : N → Option Handle) (least : Nat)
    (T : Nat → Table N) (r : Run N σ) : Prop where
  holds : r.Holds t name r.ledger.share least T
  size : r.ledger.size = (t.live T).card
  found : r.ledger.cycleFound = false
  node : r.ledger.cycleNode = none
  initial : r.ledger.chase.initial = name t.graph.initial
  catches : t.Catches (t.live T)
  /-- No accepting state on a cycle was lost. -/
  complete : ∀ {v}, v ∈ t.accepted → t.OnCycle v → v ∈ t.live T
  stamps : ∀ {v}, v ∈ t.states →
    (t.fieldsOf T v).iteration = r.ledger.round.toNat % 2 ^ 15 ∨
      (t.fieldsOf T v).iteration = (r.ledger.round - 1).toNat % 2 ^ 15
  /-- The edges between candidates are counted, but before the first round nothing is. -/
  counted : (∀ v, (t.fieldsOf T v).predecessors = t.inflow (t.candidates T) v) ∨
    t.candidates T = t.live T ∧ ∀ v, (t.fieldsOf T v).predecessors = 0

variable {t : Terrain N σ} {name : N → Option Handle} {least : Nat} {T : Nat → Table N}
  {r : Run N σ}

omit [DecidableEq N] in
theorem Terrain.live_subset_accepted : t.live T ⊆ t.accepted := fun _ hv =>
  Terrain.mem_accepted.mpr
    ⟨Terrain.candidates_subset (Terrain.mem_live.mp hv).1, (Terrain.mem_live.mp hv).2⟩

omit [Ord N] in
/-- Fewer states overflow a count less. -/
theorem Terrain.Overflows.mono {S S' : Finset N} {f : Fault} (h : t.Overflows name S f)
    (hsub : S ⊆ S') : t.Overflows name S' f := by
  obtain ⟨v, k, hv, hk, hf, hlt⟩ := h
  exact ⟨v, k, hv, hk, hf, hlt.trans_le (t.inflow_mono hsub v)⟩

omit [DecidableEq N] in
theorem Terrain.predecessors_le (v : N) : (t.fieldsOf T v).predecessors ≤ 32767 :=
  Mark.predecessors_le _

/-- What one round leaves. -/
structure Run.After (t : Terrain N σ) (name : N → Option Handle) (least : Nat) (round : UInt32)
    (T : Nat → Table N) (T' : Nat → Table N) (r' : Run N σ) : Prop where
  round_eq : r'.ledger.round = round + 1
  between : r'.Between t name least T'
  oldSize : r'.ledger.oldSize = (t.live T).card
  candidates : t.candidates T' = t.sift (t.candidates T)
  counted : ∀ v, (t.fieldsOf T' v).predecessors = t.inflow (t.candidates T') v
  stamps : ∀ {v}, v ∈ t.states →
    (t.fieldsOf T' v).iteration = Terrain.stampIn r'.ledger.round (t.spread (t.live T)) v
  room : ∀ v, t.inflow (t.spread (t.live T)) v ≤ 32767

/-- A round loses accepting candidates, but gets none back. -/
theorem Run.After.live_subset {T' : Nat → Table N} {round : UInt32}
    (h : r.After t name least round T T') (hT : t.Catches (t.live T)) : t.live T' ⊆ t.live T := by
  intro v hv
  obtain ⟨hcand, hacc⟩ := Terrain.mem_live.mp hv
  rw [h.candidates] at hcand
  exact hT v (Terrain.core_spread_subset hcand) hacc

/-- If it does not lose any, then the candidates are exact. -/
theorem Run.After.candidates_eq {T' : Nat → Table N} {round : UInt32}
    (h : r.After t name least round T T') (hT : t.Catches (t.live T))
    (hcomplete : ∀ {v}, v ∈ t.accepted → t.OnCycle v → v ∈ t.live T)
    (hsize : r.ledger.oldSize = r.ledger.size) : t.candidates T' = t.core t.accepted := by
  have hlive : t.live T' = t.live T :=
    Finset.eq_of_subset_of_card_le (h.live_subset hT)
      (by rw [← h.oldSize, ← h.between.size, hsize])
  rw [h.candidates]
  refine Finset.Subset.antisymm ?_ (Terrain.core_accepted_subset hcomplete)
  refine Terrain.core_spread_subset_core_accepted Terrain.live_subset_accepted ?_
  change t.live T ⊆ t.sift (t.candidates T)
  rw [← h.candidates]
  exact hlive ▸ Terrain.live_subset

variable [Std.TransOrd N] [Std.LawfulEqOrd N] {plan : Plan N σ}

/-- **What one round does.** -/
theorem meets_round [t.Rooted] (hplan : plan.Covers t) (hr : r.Between t name least T) :
    Meets plan.Fair (Check.round plan) r
      (fun _ r' => ∃ T', r'.After t name least r.ledger.round T T')
      (fun f r' => t.Overflows name (t.spread (t.live T)) f ∧ r'.Names t name) := by
  obtain ⟨desk, hrests, hdesk⟩ := hr.holds.rests
  let l : Ledger N := { r.ledger with round := r.ledger.round + 1, oldSize := r.ledger.size }
  have hstates := Terrain.candidates_subset (t := t) (T := T)
  -- what is left of the ledger at the end of the round
  have hafter : ∀ {r' : Run N σ} {T' : Nat → Table N}, r'.Holds t name l.share least T' →
      t.Tallied l.round (t.spread (t.live T)) (t.core (t.spread (t.live T))) T' →
      r'.ledger.size = (t.live T').card →
      (∀ v, t.inflow (t.spread (t.live T)) v ≤ 32767) →
      r'.After t name least r.ledger.round T T' := by
    intro r' T' hholds htally hsize hroom
    have hfields : r'.ledger.share = l.share := hholds.share
    have hround : r'.ledger.round = l.round := (congrArg Ledger.round hfields :)
    have hnext : t.candidates T' = t.core (t.spread (t.live T)) := htally.candidates
    refine ⟨hround, ?_, (congrArg Ledger.oldSize hfields).trans hr.size, hnext, ?_,
      fun hv => by rw [htally.stamps hv, hround], hroom⟩
    · refine
        { holds := by rw [hfields]; exact hholds
          size := hsize
          found := (congrArg Ledger.cycleFound hfields).trans hr.found
          node := (congrArg Ledger.cycleNode hfields).trans hr.node
          initial := (congrArg (·.chase.initial) hfields).trans hr.initial
          catches := fun v hv ha => ?_
          complete := fun {v} hv hcycle => ?_
          stamps := fun {v} hv => by
            rw [htally.stamps hv, hround]
            exact Terrain.stampIn_eq l.round _ v
          counted := .inl fun v => by rw [htally.predecessors, hnext] }
      · obtain ⟨-, a, hlive, hreach⟩ := Terrain.mem_spread.mp hv
        refine Terrain.mem_live.mpr ⟨?_, ha⟩
        have hcand := (Terrain.mem_live.mp hlive).1
        rw [hnext] at hcand ⊢
        induction hreach with
        | refl => exact hcand
        | tail hpath hedge ih =>
          refine Terrain.mem_core_of_edge ?_ hedge
          obtain ⟨hstate, y, hy, hcycle, hya⟩ := Terrain.mem_core.mp hcand
          exact Terrain.mem_core.mpr
            ⟨Terrain.mem_states_of_reaches hstate hpath, y, hy, hcycle, hya.trans hpath⟩
      · refine Terrain.mem_live.mpr ⟨?_, (Terrain.mem_accepted.mp hv).2⟩
        rw [hnext]
        refine Terrain.core_accepted_subset hr.complete (Terrain.mem_core.mpr ?_)
        exact ⟨Terrain.accepted_subset hv, v, hv, hcycle, Relation.ReflTransGen.refl⟩
    · intro v
      rw [htally.predecessors, hnext]
  refine (Meets.note (Q := fun _ r₁ => r₁.Holds t name l.share least T)
    fun left => ⟨⟨desk, hrests, hdesk⟩, hr.holds.known, rfl, hr.holds.generated⟩).bind ?_
  intro _ r₁ hr₁
  refine ((meets_reset hplan hr₁ hr.size).mono (fun _ _ h => h) fun _ _ h => h.elim).bind ?_
  rintro - r₂ ⟨T₂, hr₂, hcleared, -⟩
  have hlive : t.live T₂ = t.live T := by
    rw [Terrain.live, hcleared.candidates, Terrain.live, Finset.filter_filter]
    simp only [and_self]
  have henc : t.Encloses (t.live T) :=
    Terrain.encloses_of_subset (Terrain.live_subset_accepted.trans Terrain.accepted_subset)
  refine (meets_reach hplan hr₂ hcleared hlive henc).bind ?_
  rintro - r₃ ⟨T₃, hr₃, htally, hsize⟩
  have hroom : ∀ v, t.inflow (t.spread (t.live T)) v ≤ 32767 := by
    intro v
    rw [← htally.predecessors]
    exact Terrain.predecessors_le v
  rw [← hr.catches.filter_spread Terrain.live_subset_accepted] at hsize
  refine (meets_eliminate hplan hr₃ htally henc.closed hsize).mono ?_ fun _ _ h => h.elim
  rintro - r₄ ⟨T₄, hr₄, htally₄, hsize₄⟩
  exact ⟨T₄, hafter hr₄ htally₄ hsize₄ hroom⟩

end Rounds

/-! ## 3. All rounds -/

section Decided

variable [DecidableEq N]

/-- A run after the last round: no accepting candidate is left, or the candidates are exact. -/
structure Run.Decided (t : Terrain N σ) (name : N → Option Handle) (least : Nat)
    (T : Nat → Table N) (r : Run N σ) : Prop where
  between : r.Between t name least T
  counted : ∀ v, (t.fieldsOf T v).predecessors = t.inflow (t.candidates T) v
  exact : r.ledger.size = 0 ∨ 0 < r.ledger.size ∧ t.candidates T = t.core t.accepted

variable {t : Terrain N σ} {name : N → Option Handle} {least : Nat} {T : Nat → Table N}
  {r : Run N σ}

theorem Run.Decided.record (h : r.Decided t name least T) (e : Event) (left : Nat) :
    ({ r with cluster := r.cluster.record e, left := left } : Run N σ).Decided t name least T := by
  obtain ⟨⟨desk, hrests, hT⟩, hknown, hshare, hgenerated⟩ := h.between.holds
  exact { h with between := { h.between with
    holds := ⟨⟨desk, hrests.record e, hT⟩, hknown, hshare, hgenerated⟩ } }

theorem Run.Between.live_eq_empty (hr : r.Between t name least T) (hsize : r.ledger.size = 0) :
    t.live T = ∅ :=
  Finset.card_eq_zero.mp (hr.size.symm.trans hsize)

/-- Without accepting candidates there is nothing left to do. -/
theorem Run.Between.decided (hr : r.Between t name least T) (hsize : r.ledger.size = 0) :
    r.Decided t name least T := by
  refine ⟨hr, fun v => ?_, .inl hsize⟩
  rcases hr.counted with hcount | ⟨hcand, hzero⟩
  · exact hcount v
  · rw [hzero, hcand, hr.live_eq_empty hsize]
    rfl

/-- **An accepting state lies on a cycle exactly when accepting candidates are left.** -/
theorem Run.Decided.size_eq_zero_iff (hr : r.Decided t name least T) :
    r.ledger.size = 0 ↔ ∀ v ∈ t.accepted, ¬t.OnCycle v := by
  constructor
  · intro hsize v hv hcycle
    have hlive := hr.between.complete hv hcycle
    rw [hr.between.live_eq_empty hsize] at hlive
    exact Finset.notMem_empty v hlive
  · intro hnone
    rcases hr.exact with hsize | ⟨hpos, hcand⟩
    · exact hsize
    · rw [hr.between.size, Finset.card_pos] at hpos
      obtain ⟨v, hv⟩ := hpos
      have hv := Terrain.live_subset hv
      rw [hcand] at hv
      obtain ⟨-, y, hy, hcycle, -⟩ := Terrain.mem_core.mp hv
      exact absurd hcycle (hnone y hy)

omit [Ord N] in
theorem Terrain.inflow_spread_empty (v : N) : t.inflow (t.spread ∅) v = 0 := by
  have hempty : t.spread ∅ = ∅ := Finset.eq_empty_of_forall_notMem fun u hu => by
    obtain ⟨-, a, ha, -⟩ := Terrain.mem_spread.mp hu
    exact Finset.notMem_empty a ha
  rw [hempty]
  rfl

/-- How many rounds it takes: none without accepting candidates, and none after one that leaves as
many of them as there were. -/
inductive Terrain.Ends (t : Terrain N σ) : Finset N → Nat → Prop
  | idle {S : Finset N} (hnone : (S.filter fun v => t.accepting v).card = 0) : t.Ends S 0
  | last {S : Finset N} (hsome : (S.filter fun v => t.accepting v).card ≠ 0)
      (hsame : (S.filter fun v => t.accepting v).card =
        ((t.sift S).filter fun v => t.accepting v).card) : t.Ends S 1
  | more {S : Finset N} {n : Nat} (hsome : (S.filter fun v => t.accepting v).card ≠ 0)
      (hless : (S.filter fun v => t.accepting v).card ≠
        ((t.sift S).filter fun v => t.accepting v).card) (hrest : t.Ends (t.sift S) n) :
      t.Ends S (n + 1)

/-- What `n` rounds leave that begin with the tables `T` after `round` others. -/
structure Run.Finished (t : Terrain N σ) (name : N → Option Handle) (least : Nat) (round : UInt32)
    (T : Nat → Table N) (n : Nat) (T' : Nat → Table N) (r' : Run N σ) : Prop where
  decided : r'.Decided t name least T'
  candidates : t.candidates T' = t.sift^[n] (t.candidates T)
  ends : t.Ends (t.candidates T) n
  idle : n = 0 → T' = T
  /-- The states that the last round came to bear its stamp, and the others that of the one before,
  whatever they had. -/
  stamps : ∀ {m v}, n = m + 1 → v ∈ t.states → (t.fieldsOf T' v).iteration =
    Terrain.stampIn (round + UInt32.ofNat n)
      (t.spread ((t.sift^[m] (t.candidates T)).filter fun u => t.accepting u)) v

namespace Run.Finished

variable {round : UInt32} {n : Nat} {T' T'' : Nat → Table N} {r' : Run N σ}

theorem left (h : r.Finished t name least round T n T') (left : Nat) :
    ({ r with left := left } : Run N σ).Finished t name least round T n T' := by
  obtain ⟨hrests, hknown, hshare, hgenerated⟩ := h.decided.between.holds
  exact { h with decided := { h.decided with between := { h.decided.between with
    holds := ⟨hrests, hknown, hshare, hgenerated⟩ } } }

/-- Without accepting candidates there are no rounds. -/
theorem none (hr : r.Between t name least T) (hsize : r.ledger.size = 0) :
    r.Finished t name least round T 0 T where
  decided := hr.decided hsize
  candidates := rfl
  ends := .idle (hr.size.symm.trans hsize)
  idle _ := rfl
  stamps := nofun

/-- One round that leaves as many accepting candidates as there were. -/
theorem last (hr : r.Between t name least T) (hafter : r'.After t name least round T T')
    (hsize : r.ledger.size ≠ 0) (hsame : r'.ledger.oldSize = r'.ledger.size) :
    r'.Finished t name least round T 1 T' where
  decided := by
    refine ⟨hafter.between, hafter.counted, .inr ⟨?_, ?_⟩⟩
    · rw [← hsame, hafter.oldSize, ← hr.size]
      exact Nat.pos_of_ne_zero hsize
    · exact hafter.candidates_eq hr.catches hr.complete hsame
  candidates := hafter.candidates
  ends := by
    rw [hafter.oldSize, hafter.between.size, Terrain.live, Terrain.live, hafter.candidates] at hsame
    exact .last (fun hzero => hsize (hr.size.trans hzero)) hsame
  idle := nofun
  stamps {m v} hm hv := by
    obtain rfl : m = 0 := (Nat.succ.inj hm).symm
    rw [hafter.stamps hv, hafter.round_eq]
    rfl

/-- A round that leaves fewer, and the others after it. -/
theorem more (hr : r.Between t name least T) (hafter : r'.After t name least round T T')
    (hsize : r.ledger.size ≠ 0) (hless : r'.ledger.oldSize ≠ r'.ledger.size) {r'' : Run N σ}
    (h : r''.Finished t name least r'.ledger.round T' n T'') :
    r''.Finished t name least round T (n + 1) T'' where
  decided := h.decided
  candidates := by rw [h.candidates, hafter.candidates, Function.iterate_succ_apply]
  ends := by
    rw [hafter.oldSize, hafter.between.size, Terrain.live, Terrain.live, hafter.candidates] at hless
    exact .more (fun hzero => hsize (hr.size.trans hzero)) hless (hafter.candidates ▸ h.ends)
  idle := nofun
  stamps {m v} hm hv := by
    obtain rfl : m = n := (Nat.succ.inj hm).symm
    cases m with
    | zero =>
      rw [h.idle rfl, hafter.stamps hv, hafter.round_eq]
      rfl
    | succ m =>
      rw [h.stamps rfl hv, hafter.round_eq, hafter.candidates, Function.iterate_succ_apply,
        UInt32.add_assoc, UInt32.ofNat_add (m + 1) 1, UInt32.add_comm (UInt32.ofNat (m + 1))]
      rfl

end Run.Finished

variable [Std.TransOrd N] [Std.LawfulEqOrd N] {plan : Plan N σ}

/-- **What the rounds do.**  They end with a run that is decided, and fail only if there are too
many edges to count; `bound` is never used up. -/
theorem meets_rounds_finished [t.Rooted] (hplan : plan.Covers t) (bound : Nat)
    (hr : r.Between t name least T) (hbound : r.ledger.size ≤ bound) :
    Meets plan.Fair (Check.rounds plan bound) r
      (fun n r' => (∃ T', r'.Finished t name least r.ledger.round T n T') ∧
        ∀ v, t.inflow (t.spread (t.live T)) v ≤ 32767)
      (fun f r' => t.Overflows name (t.spread (t.live T)) f ∧ r'.Names t name) := by
  -- nothing is left to do, and nothing was counted
  have hdone : ∀ {r : Run N σ} {T : Nat → Table N} (left : Nat), r.Between t name least T →
      r.ledger.size = 0 →
      (∃ T', ({ r with left := left } : Run N σ).Finished t name least r.ledger.round T 0 T') ∧
        ∀ v, t.inflow (t.spread (t.live T)) v ≤ 32767 := by
    intro r T left hr hsize
    refine ⟨⟨T, (Run.Finished.none hr hsize).left left⟩, fun v => ?_⟩
    rw [hr.live_eq_empty hsize, Terrain.inflow_spread_empty]
    exact Nat.zero_le _
  induction bound generalizing r T with
  | zero => exact .pure fun left => hdone left hr (Nat.le_zero.mp hbound)
  | succ bound ih =>
    refine .ledger_bind ?_
    rw [hr.found, Bool.false_or]
    cases hsize : r.ledger.size == 0 with
    | true =>
      rw [if_pos rfl]
      exact .pure fun left => hdone left hr (eq_of_beq hsize)
    | false =>
      rw [if_neg (by decide)]
      have hpos : r.ledger.size ≠ 0 := ne_of_beq_false hsize
      refine (meets_round hplan hr).bind ?_
      rintro - r' ⟨T', hafter⟩
      have hsub := hafter.live_subset hr.catches
      refine .ledger_bind ?_
      by_cases hsame : r'.ledger.oldSize = r'.ledger.size
      · rw [if_pos hsame]
        exact .pure fun left =>
          ⟨⟨T', (Run.Finished.last hr hafter hpos hsame).left left⟩, hafter.room⟩
      · rw [if_neg hsame]
        have hlt : r'.ledger.size ≤ bound := by
          have hle := Finset.card_le_card hsub
          rw [← hafter.between.size, ← hafter.oldSize] at hle
          have hold := hafter.oldSize.trans hr.size.symm
          omega
        refine ((ih hafter.between hlt).mono (fun _ _ h => h) ?_).bind ?_
        · exact fun f _ hf => ⟨hf.1.mono (Terrain.spread_mono hsub), hf.2⟩
        · rintro n r'' ⟨⟨T'', hfinished⟩, -⟩
          exact .pure fun left =>
            ⟨⟨T'', (Run.Finished.more hr hafter hpos hsame hfinished).left left⟩, hafter.room⟩

/-- In particular the candidates are what as many steps on sets leave. -/
theorem meets_rounds [t.Rooted] (hplan : plan.Covers t) (bound : Nat)
    (hr : r.Between t name least T) (hbound : r.ledger.size ≤ bound) :
    Meets plan.Fair (Check.rounds plan bound) r
      (fun n r' => (∃ T', r'.Decided t name least T' ∧
          t.candidates T' = t.sift^[n] (t.candidates T)) ∧
        ∀ v, t.inflow (t.spread (t.live T)) v ≤ 32767)
      (fun f r' => t.Overflows name (t.spread (t.live T)) f ∧ r'.Names t name) := by
  refine (meets_rounds_finished hplan bound hr hbound).mono ?_ fun _ _ h => h
  rintro n r' ⟨⟨T', h⟩, hroom⟩
  exact ⟨⟨T', h.decided, h.candidates⟩, hroom⟩

end Decided

/-! ## 4. From the exploration to the verdict -/

section Explored

variable [DecidableEq N] {t : Terrain N σ} {desk : Nat → Desk N} {r : Run N σ}

omit [DecidableEq N] in
theorem Explored.candidates_eq {T : Nat → Table N} {l : Ledger N} {generated : Nat}
    (h : Explored t T l generated) (hall : t.held T = t.states) :
    t.candidates T = t.accepted := by
  refine Finset.filter_congr fun v hv => ?_
  rw [← hall, h.parted.mem_held] at hv
  obtain ⟨m, hm⟩ := Option.isSome_iff_exists.mp hv
  rw [Terrain.fieldsOf_eq hm, h.fields hm]

/-- An exploration that found no cycle is where the rounds begin. -/
theorem Explored.between (hrests : r.cluster.Rests t desk (fun _ => 0))
    (h : Explored t (fun i => (desk i).table) r.ledger r.generated)
    (hfound : r.ledger.cycleFound = false) :
    r.Between t (t.handleOf fun i => (desk i).table) (t.states.card - 1)
        (fun i => (desk i).table) ∧
      t.live (fun i => (desk i).table) = t.accepted := by
  obtain ⟨hall, hnode⟩ := h.complete hfound
  have hcand := h.candidates_eq hall
  have hlive : t.live (fun i => (desk i).table) = t.accepted := by
    rw [Terrain.live, hcand, Terrain.accepted, Finset.filter_filter]
    simp only [and_self]
  have hfields : ∀ {v}, v ∈ t.states →
      t.fieldsOf (fun i => (desk i).table) v = ⟨0, 0, t.accepting v, t.accepting v⟩ := by
    intro v hv
    rw [← hall, h.parted.mem_held] at hv
    obtain ⟨m, hm⟩ := Option.isSome_iff_exists.mp hv
    rw [Terrain.fieldsOf_eq hm, h.fields hm]
  have hknown : t.Known (t.handleOf fun i => (desk i).table) (fun i => (desk i).table) :=
    { parted := h.parted
      all := hall
      names := fun _ => rfl
      accepting := fun hv => by rw [hfields hv]
      climbs := fun hv => h.climbs (by rw [hall]; exact hv) }
  have hcount := h.counted
  refine ⟨?_, hlive⟩
  refine
    { holds := ⟨⟨desk, hrests, rfl⟩, hknown, rfl, ?_⟩
      size := by rw [h.accepting, hall, hlive]; rfl
      found := hfound
      node := hnode
      initial := h.initial
      catches := by rw [hlive]; exact Terrain.catches_accepted
      complete := fun hv _ => by rw [hlive]; exact hv
      stamps := fun hv => .inl (by rw [hfields hv, h.round]; rfl)
      counted := .inr ⟨by rw [hlive, hcand], fun v => ?_⟩ }
  · rw [hall] at hcount
    omega
  · by_cases hv : v ∈ t.states
    · rw [hfields hv]
    · rw [hknown.fieldsOf_of_notMem hv]

end Explored

end FairCycle
