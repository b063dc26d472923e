/-
# Picking a seed

When a counterexample is wanted, the accepting candidates are tried one after the other.  Which
one is next is found out by an errand around the ring: every worker keeps a cursor into its table
and moves it to the next accepting candidate, until one is found.

Seen from outside the cursors are a set of candidates that were not tried yet
(`Terrain.untried`), and an errand takes the first of these out as long as there is any
(`Cluster.Rests.ring_pick`).  First is what comes first in the order of workers and slots
(`Terrain.Ahead`).
-/
import FairCycle.Proofs.Chase
import FairCycle.Proofs.Reach

namespace FairCycle

variable {N σ : Type} [Ord N]

/-! ## 1. Slots -/

namespace Terrain

variable {t : Terrain N σ} {T : Nat → Table N} {u v : N}

/-- The slot of a state that is stored. -/
def slotOf (t : Terrain N σ) (T : Nat → Table N) (v : N) : Nat :=
  ((t.handleOf T v).map (·.slot.toNat)).getD 0

theorem slotOf_eq {h : Handle} (hv : t.handleOf T v = some h) : t.slotOf T v = h.slot.toNat := by
  rw [slotOf, hv]
  rfl

theorem Parted.nodes_slotOf (hT : t.Parted T) {h : Handle} (hv : t.handleOf T v = some h) :
    (T (t.home v)).nodes[t.slotOf T v]? = some v := by
  obtain ⟨slot, hslot, rfl⟩ := Table.find?_eq_some_iff.mp hv
  rwa [slotOf_eq hv, (hT.fits (t.home_lt v)).handle_slot (Table.slot_lt hslot)]

/-- What stands in a slot. -/
theorem Parted.of_nodes (hT : t.Parted T) {i k : Nat} (hi : i < t.peers)
    (hk : (T i).nodes[k]? = some v) : t.home v = i ∧ t.slotOf T v = k ∧ v ∈ t.states := by
  have hfind : (T i).find? v = some ((T i).handle k) := Table.find?_eq_some_iff.mpr ⟨k, hk, rfl⟩
  obtain ⟨rfl, hstates⟩ := hT.stored i hi (by rw [Table.isSome_markOf, hfind]; rfl)
  refine ⟨rfl, ?_, hstates⟩
  rw [slotOf_eq hfind, (hT.fits hi).handle_slot (Table.slot_lt hk)]

/-- Two states of one worker are in different slots. -/
theorem Parted.slotOf_inj (hT : t.Parted T) {h k : Handle} (hu : t.handleOf T u = some h)
    (hv : t.handleOf T v = some k) (hhome : t.home u = t.home v)
    (hslot : t.slotOf T u = t.slotOf T v) : u = v := by
  have hn := hT.nodes_slotOf hu
  rw [hhome, hslot, hT.nodes_slotOf hv] at hn
  exact (Option.some.inj hn).symm

/-- The state `u` comes before `v` in the order of workers and slots, or is `v`. -/
def Ahead (t : Terrain N σ) (T : Nat → Table N) (u v : N) : Prop :=
  t.home u < t.home v ∨ t.home u = t.home v ∧ t.slotOf T u ≤ t.slotOf T v

/-- The accepting candidates that the cursors have not passed. -/
noncomputable def untried (t : Terrain N σ) (T : Nat → Table N) (cursor : Nat → Nat) : Finset N :=
  (t.live T).filter fun v => cursor (t.home v) ≤ t.slotOf T v

theorem mem_untried {cursor : Nat → Nat} :
    v ∈ t.untried T cursor ↔ v ∈ t.live T ∧ cursor (t.home v) ≤ t.slotOf T v :=
  Finset.mem_filter

/-- The slots that hold an accepting candidate are those of the accepting candidates. -/
theorem Known.isSeed_iff {name : N → Option Handle} (hT : t.Known name T) {k : Nat}
    (hk : (T (t.home v)).nodes[k]? = some v) :
    ((T (t.home v)).marks[k]?.map Mark.isSeed).getD false = true ↔ v ∈ t.live T := by
  obtain ⟨-, -, hstates⟩ := hT.parted.of_nodes (t.home_lt v) hk
  obtain ⟨m, hm, hfields⟩ := hT.exists_mark hstates
  have hmark : (T (t.home v)).marks[k]? = some m := by
    rw [markOf, Table.markOf, Table.index_eq_some.mpr hk] at hm
    exact hm
  rw [hmark, Option.map_some, Option.getD_some, Mark.isSeed_eq, Bool.and_eq_true, ← hfields,
    hT.accepting hstates, mem_live, mem_candidates, and_iff_right hstates]

end Terrain

/-! ## 2. One worker -/

namespace Worker

/-- Whether a slot holds an accepting candidate. -/
def seedIn (marks : Array Mark) (slot : Nat) : Bool := (marks[slot]?.map Mark.isSeed).getD false

theorem seedFrom?_eq_none {marks : Array Mark} {count slot : Nat}
    (h : seedFrom? marks count slot = none) :
    ∀ k, slot ≤ k → k < slot + count → seedIn marks k = false := by
  induction count generalizing slot with
  | zero => intro k _ _; omega
  | succ count ih =>
    intro k hle hlt
    rw [seedFrom?] at h
    split at h
    · exact nomatch h
    · rename_i hnot
      rcases Nat.eq_or_lt_of_le hle with rfl | hlt'
      · exact Bool.eq_false_iff.mpr hnot
      · exact ih h k hlt' (by omega)

theorem seedFrom?_eq_some {marks : Array Mark} {count slot found : Nat}
    (h : seedFrom? marks count slot = some found) :
    slot ≤ found ∧ found < slot + count ∧ seedIn marks found = true ∧
      ∀ k, slot ≤ k → k < found → seedIn marks k = false := by
  induction count generalizing slot with
  | zero => exact nomatch h
  | succ count ih =>
    rw [seedFrom?] at h
    split at h
    · rename_i hseed
      obtain rfl := Option.some.inj h
      exact ⟨le_rfl, by omega, hseed, fun k _ _ => by omega⟩
    · rename_i hnot
      obtain ⟨hle, hlt, hseed, hnone⟩ := ih h
      refine ⟨by omega, by omega, hseed, fun k hk hk' => ?_⟩
      rcases Nat.eq_or_lt_of_le hk with rfl | hlt'
      · exact Bool.eq_false_iff.mpr hnot
      · exact hnone k hlt' hk'

end Worker

/-- The ledger with a seed named. -/
def Ledger.seeded (l : Ledger N) (seed : Option Handle) : Ledger N :=
  { l with chase := { l.chase with seed := seed } }

omit [Ord N] in
theorem Ledger.seeded_none {l : Ledger N} (h : l.chase.seed = none) : l.seeded none = l := by
  obtain ⟨_, _, _, _, _, _, _, ⟨_, _, _, _, seed⟩⟩ := l
  obtain rfl : seed = none := h
  rfl

section Pick

variable [DecidableEq N] {t : Terrain N σ} {name : N → Option Handle} {T : Nat → Table N}
  {c : Cluster N σ} {l : Ledger N} {desk : Nat → Desk N} {cursor : Nat → Nat}

/-- What comes of the errand: no candidate is left to try, or the first one is named and no longer
left. -/
def Picks (t : Terrain N σ) (T : Nat → Table N) (name : N → Option Handle) (left : Finset N)
    (seed : Option Handle) (left' : Finset N) : Prop :=
  seed = none ∧ left' = left ∨
    ∃ v ∈ left, (∀ u ∈ left, t.Ahead T v u) ∧ seed = name v ∧ seed.isSome ∧ left' = left.erase v

omit [DecidableEq N] in
/-- Moving one cursor changes what is left of one worker's states. -/
theorem Terrain.mem_untried_update {i n : Nat} {v : N} :
    v ∈ t.untried T (Function.update cursor i n) ↔
      v ∈ t.live T ∧ if t.home v = i then n ≤ t.slotOf T v
        else cursor (t.home v) ≤ t.slotOf T v := by
  rw [Terrain.mem_untried, Function.update_apply]
  split <;> rfl

section Search

variable {i slot : Nat} {v : N}

omit [DecidableEq N] in
theorem Terrain.Known.nodes_of_live (hT : t.Known name T) (hv : v ∈ t.live T) :
    (T (t.home v)).nodes[t.slotOf T v]? = some v := by
  obtain ⟨h, hh⟩ := hT.exists_name (Terrain.candidates_subset (Terrain.live_subset hv))
  exact hT.parted.nodes_slotOf ((hT.names v).trans hh)

omit [DecidableEq N] in
theorem Terrain.Known.seedIn_of_live (hT : t.Known name T) (hv : v ∈ t.live T) :
    Worker.seedIn (T (t.home v)).marks (t.slotOf T v) = true :=
  (hT.isSeed_iff (hT.nodes_of_live hv)).mpr hv

omit [DecidableEq N] in
/-- If a worker comes to no candidate, then whoever is left to try belongs to another. -/
theorem Terrain.Known.home_ne_of_none (hT : t.Known name T)
    (hfrom : Worker.seedFrom? (T i).marks ((T i).size - cursor i) (cursor i) = none)
    (hv : v ∈ t.untried T cursor) : t.home v ≠ i := by
  rintro rfl
  obtain ⟨hlive, hle⟩ := Terrain.mem_untried.mp hv
  have hlt := Table.slot_lt (hT.nodes_of_live hlive)
  have hnot := Worker.seedFrom?_eq_none hfrom _ hle (by omega)
  rw [hT.seedIn_of_live hlive] at hnot
  cases hnot

omit [DecidableEq N] in
theorem Terrain.Known.untried_of_none (hT : t.Known name T)
    (hfrom : Worker.seedFrom? (T i).marks ((T i).size - cursor i) (cursor i) = none) :
    t.untried T (Function.update cursor i (max (cursor i) (T i).size)) = t.untried T cursor := by
  ext v
  rw [Terrain.mem_untried_update, Terrain.mem_untried]
  refine and_congr_right fun hlive => ?_
  split
  · rename_i hhome
    have hlt := Table.slot_lt (hT.nodes_of_live hlive)
    rw [hhome] at hlt
    refine iff_of_false (by omega) fun hle => ?_
    exact hT.home_ne_of_none hfrom (Terrain.mem_untried.mpr ⟨hlive, hle⟩) hhome
  · rfl

omit [DecidableEq N] in
/-- Before the slot that a worker comes to first there is no accepting candidate. -/
theorem Terrain.Known.le_slotOf (hT : t.Known name T)
    (hfrom : Worker.seedFrom? (T i).marks ((T i).size - cursor i) (cursor i) = some slot)
    (hv : v ∈ t.live T) (hhome : t.home v = i) (hle : cursor i ≤ t.slotOf T v) :
    slot ≤ t.slotOf T v := by
  subst hhome
  by_contra hlt
  have hnot := (Worker.seedFrom?_eq_some hfrom).2.2.2 _ hle (not_le.mp hlt)
  rw [hT.seedIn_of_live hv] at hnot
  cases hnot

/-- The candidate that a worker comes to first is the only one that is no longer left. -/
theorem Terrain.Known.untried_of_some (hT : t.Known name T)
    (hv : (T (t.home v)).nodes[slot]? = some v)
    (hfrom : Worker.seedFrom? (T (t.home v)).marks ((T (t.home v)).size - cursor (t.home v))
      (cursor (t.home v)) = some slot) :
    t.untried T (Function.update cursor (t.home v) (slot + 1)) = (t.untried T cursor).erase v := by
  obtain ⟨hle, -⟩ := Worker.seedFrom?_eq_some hfrom
  obtain ⟨-, hvslot, -⟩ := hT.parted.of_nodes (t.home_lt v) hv
  ext u
  rw [Terrain.mem_untried_update, Finset.mem_erase, Terrain.mem_untried, ← and_assoc,
    and_comm (a := u ≠ v), and_assoc]
  refine and_congr_right fun hu => ?_
  split
  · rename_i hhome
    constructor
    · intro hgt
      refine ⟨?_, by rw [hhome]; omega⟩
      rintro rfl
      omega
    · rintro ⟨hne, hge⟩
      rw [hhome] at hge
      rcases (hT.le_slotOf hfrom hu hhome hge).eq_or_lt with heq | hlt
      · have hn := hT.nodes_of_live hu
        rw [hhome, ← heq, hv] at hn
        exact absurd (Option.some.inj hn).symm hne
      · omega
  · rename_i hhome
    refine ⟨fun h => ⟨?_, h⟩, fun h => h.2⟩
    rintro rfl
    exact hhome rfl

end Search

/-- One worker looks for a candidate, when those before it have none. -/
theorem Worker.exists_pick (hT : t.Known name T) {i : Nat} (hi : i < t.peers) {w : Worker N}
    (htable : w.desk.table = T i) (hcursor : w.cursor = cursor i) (hl : l.chase.seed = none)
    (hleft : ∀ v ∈ t.untried T cursor, i ≤ t.home v) :
    ∃ seed n, w.run .pickSeed l = .ok (l.seeded seed, { w with cursor := n }) ∧
      Picks t T name (t.untried T cursor) seed (t.untried T (Function.update cursor i n)) ∧
      (seed = none → ∀ v ∈ t.untried T cursor, t.home v ≠ i) := by
  have hrun : w.run .pickSeed l = w.pickSeed l := rfl
  rw [hrun, Worker.pickSeed, hl, htable, hcursor]
  cases hfrom : seedFrom? (T i).marks ((T i).size - cursor i) (cursor i) with
  | none =>
    refine ⟨none, max (cursor i) (T i).size, ?_, .inl ⟨rfl, hT.untried_of_none hfrom⟩,
      fun _ v hv => hT.home_ne_of_none hfrom hv⟩
    rw [Ledger.seeded_none hl]
    rfl
  | some slot =>
    obtain ⟨hle, hlt, hfound, -⟩ := seedFrom?_eq_some hfrom
    have hslot : slot < (T i).nodes.size := by
      change slot < (T i).size
      omega
    obtain ⟨v, hv⟩ : ∃ v, (T i).nodes[slot]? = some v := ⟨_, Array.getElem?_eq_getElem hslot⟩
    obtain ⟨rfl, hvslot, hstates⟩ := hT.parted.of_nodes hi hv
    have hlive : v ∈ t.live T := (hT.isSeed_iff hv).mp hfound
    have hname : some ((T (t.home v)).handle slot) = name v := by
      rw [← hT.names v]
      exact (Table.find?_eq_some_iff.mpr ⟨slot, hv, rfl⟩).symm
    refine ⟨some ((T (t.home v)).handle slot), slot + 1, rfl,
      .inr ⟨v, ?_, fun u hu => ?_, hname, rfl, hT.untried_of_some hv hfrom⟩, fun h => by cases h⟩
    · rw [Terrain.mem_untried, hvslot]
      exact ⟨hlive, hle⟩
    · obtain ⟨hulive, hule⟩ := Terrain.mem_untried.mp hu
      rcases (hleft u hu).eq_or_lt with heq | hlt
      · rw [← heq] at hule
        exact .inr ⟨heq, hvslot ▸ hT.le_slotOf hfrom hulive heq.symm hule⟩
      · exact .inl hlt

/-! ## 3. Around the ring -/

omit [DecidableEq N] in
/-- A worker may move its cursor while all rest. -/
theorem Cluster.Rests.move {i : Nat} {w : Worker N} (hc : c.Rests t desk cursor)
    (hw : c.workers[i]? = some w) (n : Nat) (log : Array Event) :
    ({ workers := c.workers.setIfInBounds i { w with cursor := n }
       commons := { c.commons with log := log } } : Cluster N σ).Rests t desk
      (Function.update cursor i n) := by
  have hdesk : ({ w with cursor := n } : Worker N).desk = desk i := (hc.desk hw :)
  refine
    { still := hc.still.replace hw rfl rfl rfl rfl rfl
      size := size_replace.trans hc.size
      desk := forall_replace (P := fun j v => v.desk = desk j) hw hdesk hc.desk
      cursor := fun {j v} hv => ?_ }
  rcases eq_or_ne j i with rfl | hne
  · obtain rfl := Option.some.inj ((replace_self hw).symm.trans hv)
    rw [Function.update_self]
  · rw [Function.update_of_ne hne]
    exact hc.cursor ((replace_of_ne hne).symm.trans hv)

omit [DecidableEq N] in
/-- Once a seed is named, nobody looks for another. -/
theorem Worker.pickSeed_seeded (w : Worker N) (h : l.chase.seed.isSome) :
    w.run .pickSeed l = .ok (l, w) := by
  change w.pickSeed l = _
  rw [Worker.pickSeed, if_pos h]

theorem Cluster.Rests.ringFrom_pick (hT : t.Known name fun i => (desk i).table)
    (hl : l.chase.seed = none) (count i : Nat) (hi : i + count = t.peers)
    (hc : c.Rests t desk cursor)
    (hleft : ∀ v ∈ t.untried (fun i => (desk i).table) cursor, i ≤ t.home v) :
    ∃ seed c' cursor', c.ringFrom .pickSeed count i l = (.ok (l.seeded seed), c') ∧
      c'.Rests t desk cursor' ∧
      Picks t (fun i => (desk i).table) name (t.untried (fun i => (desk i).table) cursor) seed
        (t.untried (fun i => (desk i).table) cursor') ∧
      (seed = none → t.untried (fun i => (desk i).table) cursor = ∅) := by
  induction count generalizing i c cursor with
  | zero =>
    refine ⟨none, c, cursor, by rw [Ledger.seeded_none hl]; rfl, hc, .inl ⟨rfl, rfl⟩, fun _ => ?_⟩
    refine Finset.eq_empty_of_forall_notMem fun v hv => ?_
    have hge := hleft v hv
    have hlt := t.home_lt v
    omega
  | succ count ih =>
    have hlt : i < c.workers.size := by rw [hc.size]; omega
    obtain ⟨w, hw⟩ : ∃ w, c.workers[i]? = some w := ⟨_, Array.getElem?_eq_getElem hlt⟩
    obtain ⟨seed, n, hrun, hpick, hnone⟩ := Worker.exists_pick (w := w) hT
      (i := i) (by omega) (by rw [hc.desk hw]) (hc.cursor hw) hl hleft
    obtain ⟨log, hvisit⟩ : ∃ log, c.visit .pickSeed l i = (.ok (l.seeded seed),
        { workers := c.workers.setIfInBounds i { w with cursor := n }
          commons := { c.commons with log := log } }) := by
      simp only [visit, hw, hrun]
      exact ⟨_, rfl⟩
    have hc₁ := hc.move hw n log
    rw [ringFrom, hvisit]
    rcases hpick with ⟨rfl, hsame⟩ | ⟨v, hv, hfirst, hseed, hsome, herase⟩
    · -- the ledger goes on as it was
      rw [Ledger.seeded_none hl]
      obtain ⟨seed', c', cursor', hring, hrests, hpick', hnone'⟩ := ih (i + 1) (by omega) hc₁
        fun v hv => by
          rw [hsame] at hv
          have hge := hleft v hv
          have hne := hnone rfl v hv
          omega
      rw [hsame] at hpick' hnone'
      exact ⟨seed', c', cursor', hring, hrests, hpick', hnone'⟩
    · obtain ⟨c', hring, halike⟩ := ringFrom_idle (l := l.seeded seed) .pickSeed
        count (i + 1) fun _ _ w _ => w.pickSeed_seeded hsome
      refine ⟨seed, c', _, hring, halike.rests hc₁, .inr ⟨v, hv, hfirst, hseed, hsome, herase⟩, ?_⟩
      rintro rfl
      cases hsome

/-- **The errand names the first candidate that was not tried yet**, as long as there is any. -/
theorem Cluster.Rests.ring_pick (hc : c.Rests t desk cursor)
    (hT : t.Known name fun i => (desk i).table) (hl : l.chase.seed = none)
    (hleft : (t.untried (fun i => (desk i).table) cursor).Nonempty) :
    ∃ v k c' cursor', v ∈ t.untried (fun i => (desk i).table) cursor ∧
      (∀ u ∈ t.untried (fun i => (desk i).table) cursor, t.Ahead (fun i => (desk i).table) v u) ∧
      name v = some k ∧ c.ring .pickSeed l = (.ok (l.seeded (some k)), c') ∧
      c'.Rests t desk cursor' ∧
      t.untried (fun i => (desk i).table) cursor' =
        (t.untried (fun i => (desk i).table) cursor).erase v := by
  obtain ⟨seed, c', cursor', hring, hrests, hpick, hnone⟩ :=
    hc.ringFrom_pick hT hl c.workers.size 0 (by rw [hc.size]; exact Nat.zero_add _)
      fun v _ => Nat.zero_le _
  cases seed with
  | none =>
    rw [hnone rfl] at hleft
    exact absurd hleft Finset.not_nonempty_empty
  | some k =>
    rcases hpick with ⟨hseed, -⟩ | ⟨v, hv, hfirst, hseed, -, herase⟩
    · exact nomatch hseed
    · exact ⟨v, k, c', cursor', hv, hfirst, hseed.symm, hring, hrests, herase⟩

end Pick

end FairCycle
