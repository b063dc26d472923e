/-
# Following parents

The parent of a state is noted by the worker that owns it, so that following a parent takes the
ledger around the ring once: every worker but the owner passes it on.  A chase follows parents in
this way until it comes to the state that it is to stop at, and so reads a path of the graph off
the tables (`meets_chase`).  It needs as many hops as the path has states, which is never more
than it may make.
-/
import FairCycle.Proofs.Climb
import FairCycle.Proofs.Superstep

namespace FairCycle

variable {N σ : Type} [Ord N]

/-! ## 1. Errands around the ring -/

namespace Cluster

variable {c c' c'' : Cluster N σ} {errand : Errand} {l : Ledger N}

/-- Two clusters that differ in their logs at most. -/
def Alike (c c' : Cluster N σ) : Prop :=
  ∃ log, c' = { c with commons := { c.commons with log := log } }

theorem Alike.refl (c : Cluster N σ) : c.Alike c := ⟨c.commons.log, rfl⟩

theorem Alike.trans (h : c.Alike c') (h' : c'.Alike c'') : c.Alike c'' := by
  obtain ⟨log, rfl⟩ := h
  obtain ⟨log', rfl⟩ := h'
  exact ⟨log', rfl⟩

theorem Alike.workers (h : c.Alike c') : c'.workers = c.workers := by
  obtain ⟨log, rfl⟩ := h
  rfl

theorem Alike.rests (h : c.Alike c') {t : Terrain N σ} {desk : Nat → Desk N} {cursor : Nat → Nat}
    (hc : c.Rests t desk cursor) : c'.Rests t desk cursor := by
  obtain ⟨log, rfl⟩ := h
  exact ⟨{ hc.still with }, hc.size, hc.desk, hc.cursor⟩

theorem setIfInBounds_self {workers : Array (Worker N)} {i : Nat} {w : Worker N}
    (h : workers[i]? = some w) : workers.setIfInBounds i w = workers := by
  obtain ⟨hi, rfl⟩ := Array.getElem?_eq_some_iff.mp h
  simp [Array.setIfInBounds, hi]

/-- A worker without a part in the errand passes the ledger on. -/
theorem visit_idle (errand : Errand) {i : Nat}
    (h : ∀ w : Worker N, c.workers[i]? = some w → w.run errand l = .ok (l, w)) :
    ∃ c', c.visit errand l i = (.ok l, c') ∧ c.Alike c' := by
  unfold visit
  cases hw : c.workers[i]? with
  | none => exact ⟨c, rfl, .refl c⟩
  | some w =>
    simp only [h w hw, setIfInBounds_self hw]
    exact ⟨_, rfl, _, rfl⟩

/-- If no worker has a part in the errand, then the ledger comes back as it was. -/
theorem ringFrom_idle (errand : Errand) (count i : Nat)
    (h : ∀ j, i ≤ j → ∀ w : Worker N, c.workers[j]? = some w → w.run errand l = .ok (l, w)) :
    ∃ c', c.ringFrom errand count i l = (.ok l, c') ∧ c.Alike c' := by
  induction count generalizing i c with
  | zero => exact ⟨c, rfl, .refl c⟩
  | succ count ih =>
    obtain ⟨c₁, hvisit, hc₁⟩ := visit_idle errand (h i le_rfl)
    obtain ⟨c₂, hring, hc₂⟩ := ih (c := c₁) (i + 1) fun j hj w hw =>
      h j (by omega) w (by rwa [hc₁.workers] at hw)
    refine ⟨c₂, ?_, hc₁.trans hc₂⟩
    rw [ringFrom, hvisit]
    exact hring

end Cluster

/-! ## 2. One hop -/

/-- The ledger after a hop from a state to its parent. -/
def Ledger.hopped (l : Ledger N) (node : N) (parent : Option Handle) : Ledger N :=
  { l with chase := { l.chase with node := some node, current := parent, moved := true } }

section Hop

variable {t : Terrain N σ} {c : Cluster N σ} {l : Ledger N} {h : Handle} {v : N} {m : Mark}
  {desk : Nat → Desk N} {cursor : Nat → Nat}

/-- Once the chase has moved on, nobody else has a part in it. -/
theorem Worker.hop_moved (w : Worker N) (hm : l.chase.moved = true) :
    w.run .hop l = .ok (l, w) := by
  change w.hop l = _
  unfold hop
  rw [hm]
  split <;> rfl

theorem Worker.hop_other {w : Worker N} (hc : l.chase.current = some h)
    (hw : h.worker.toNat ≠ w.id) : w.run .hop l = .ok (l, w) := by
  change w.hop l = _
  unfold hop
  rw [hc]
  simp only [bne_iff_ne.mpr hw, Bool.or_true, if_true]

theorem Worker.hop_owner {w : Worker N} (hc : l.chase.current = some h)
    (hm : l.chase.moved = false) (hw : h.worker.toNat = w.id)
    (hnode : w.desk.table.node? h = some v) (hmark : w.desk.table.mark? h = some m) :
    w.run .hop l = .ok (l.hopped v m.parent, w) := by
  change w.hop l = _
  unfold hop
  rw [hc]
  simp only [hm, hw, bne_self_eq_false, Bool.or_false, Bool.false_eq_true, if_false, hnode, hmark]
  rfl

/-- The ledger comes to the owner of the state, and from there on nobody changes it. -/
theorem Cluster.ringFrom_hop {w : Worker N}
    (hid : ∀ {j : Nat} {w : Worker N}, c.workers[j]? = some w → w.id = j)
    (hw : c.workers[h.worker.toNat]? = some w) (hc : l.chase.current = some h)
    (hm : l.chase.moved = false) (hnode : w.desk.table.node? h = some v)
    (hmark : w.desk.table.mark? h = some m) (count i : Nat) (hi : i ≤ h.worker.toNat)
    (hcount : h.worker.toNat < i + count) :
    ∃ c', c.ringFrom .hop count i l = (.ok (l.hopped v m.parent), c') ∧ c.Alike c' := by
  induction count generalizing i c with
  | zero => omega
  | succ count ih =>
    rcases Nat.eq_or_lt_of_le hi with rfl | hlt
    · have hrun := Worker.hop_owner hc hm (hid hw).symm hnode hmark
      let c₁ : Cluster N σ := (c.visit .hop l h.worker.toNat).2
      have hvisit : c.visit .hop l h.worker.toNat = (.ok (l.hopped v m.parent), c₁) ∧
          c.Alike c₁ := by
        simp only [c₁, visit, hw, hrun, setIfInBounds_self hw, true_and]
        exact ⟨_, rfl⟩
      obtain ⟨c₂, hring, hc₂⟩ := ringFrom_idle (c := c₁)
        (l := l.hopped v m.parent) .hop count (h.worker.toNat + 1) fun _ _ w _ => w.hop_moved rfl
      refine ⟨c₂, ?_, hvisit.2.trans hc₂⟩
      rw [ringFrom, hvisit.1]
      exact hring
    · obtain ⟨c₁, hvisit, hc₁⟩ := visit_idle (c := c) (l := l) .hop (i := i)
        fun w hw' => Worker.hop_other hc (by rw [hid hw']; omega)
      obtain ⟨c₂, hring, hc₂⟩ := ih (c := c₁)
        (fun hw' => hid (by rwa [hc₁.workers] at hw')) (by rwa [hc₁.workers]) (i + 1) hlt
        (by omega)
      refine ⟨c₂, ?_, hc₁.trans hc₂⟩
      rw [ringFrom, hvisit]
      exact hring

/-- A hop around the ring finds a state that is stored, and its parent. -/
theorem Cluster.Rests.ring_hop (hc : c.Rests t desk cursor)
    (hT : t.Parted fun i => (desk i).table)
    (hv : t.handleOf (fun i => (desk i).table) v = some h)
    (hm : t.markOf (fun i => (desk i).table) v = some m) (hl : l.chase.current = some h)
    (hmoved : l.chase.moved = false) :
    ∃ c', c.ring .hop l = (.ok (l.hopped v m.parent), c') ∧ c'.Rests t desk cursor := by
  have howner := hT.handle_worker hv
  have hlt : h.worker.toNat < c.workers.size := by
    rw [howner, hc.size]
    exact t.home_lt v
  obtain ⟨w, hw⟩ : ∃ w, c.workers[h.worker.toNat]? = some w := ⟨_, Array.getElem?_eq_getElem hlt⟩
  have hdesk : w.desk.table = (desk (t.home v)).table := by rw [hc.desk hw, howner]
  obtain ⟨c', hring, halike⟩ := Cluster.ringFrom_hop (fun hw => hc.id hw) hw hl hmoved
    (by rw [hdesk]; exact hT.node?_eq hv) (by rw [hdesk]; exact (hT.mark?_eq hv).trans hm)
    c.workers.size 0 (Nat.zero_le _) (by omega)
  exact ⟨c', hring, halike.rests hc⟩

end Hop

/-! ## 3. Chases -/

/-- The ledger without the traces of a chase. -/
def Ledger.still (l : Ledger N) : Ledger N :=
  { l with chase := { l.chase with current := none, moved := false, node := none } }

/-- A run that rests; of the ledger only what a chase does not touch is told. -/
structure Run.Stands (t : Terrain N σ) (desk : Nat → Desk N) (cursor : Nat → Nat) (l : Ledger N)
    (generated : Nat) (r : Run N σ) : Prop where
  rests : r.cluster.Rests t desk cursor
  ledger : r.ledger.still = l
  generated : r.generated = generated

section Chase

variable {t : Terrain N σ} {desk : Nat → Desk N} {cursor : Nat → Nat} {l : Ledger N}
  {generated : Nat} {r : Run N σ} {fair : Prop} {F : Fault → Run N σ → Prop} {h : Handle} {v : N}
  {m : Mark}

theorem meets_ring {errand : Errand} {l' : Ledger N} {c' : Cluster N σ}
    (hring : r.cluster.ring errand r.ledger = (.ok l', c')) :
    Meets fair (Check.ring errand) r
      (fun _ r' => r'.cluster = c' ∧ r'.ledger = l' ∧ r'.generated = r.generated) F := by
  exact .of_eq (a := ()) (f := fun r => { r with cluster := c', ledger := l' })
    (fun left => Check.ring_of_eq (r := { r with left := left }) hring) fun _ => ⟨rfl, rfl, rfl⟩

theorem meets_hop (hr : r.Stands t desk cursor l generated) (hT : t.Parted fun i => (desk i).table)
    (hv : t.handleOf (fun i => (desk i).table) v = some h)
    (hm : t.markOf (fun i => (desk i).table) v = some m) :
    Meets fair (Check.hop h) r
      (fun a r' => a = (v, m.parent) ∧ r'.Stands t desk cursor l generated) F := by
  refine (Meets.note (Q := fun _ r₁ => r₁.Stands t desk cursor l generated ∧
    r₁.ledger.chase.current = some h ∧ r₁.ledger.chase.moved = false)
    fun left => ⟨⟨hr.rests, hr.ledger, hr.generated⟩, rfl, rfl⟩).bind ?_
  rintro - r₁ ⟨hr₁, hcurrent, hmoved⟩
  obtain ⟨c₂, hring, hrests⟩ := hr₁.rests.ring_hop hT hv hm hcurrent hmoved
  refine (meets_ring hring).bind ?_
  rintro - r₂ ⟨hc₂, hl₂, hgen₂⟩
  refine .ledger_bind ?_
  rw [hl₂]
  refine (Meets.note (Q := fun _ r₃ => r₃.Stands t desk cursor l generated)
    fun left => ⟨?_, ?_, ?_⟩).bind fun _ r₃ hr₃ => .pure fun left =>
      ⟨rfl, hr₃.rests, hr₃.ledger, hr₃.generated⟩
  · exact hc₂ ▸ hrests
  · change ({ r₂.ledger with chase := { r₂.ledger.chase with node := none } } : Ledger N).still = l
    rw [hl₂, ← hr₁.ledger]
    rfl
  · exact hgen₂.trans hr₁.generated

/-- One hop of a chase. -/
theorem Check.chase_eq (stop : Handle) (closed : Bool) (left : Nat) (current : Handle)
    (passed : List N) :
    (chase stop closed left current passed : RunM N σ (List N)) =
      hop current >>= fun x =>
        if current = stop ∧ (closed = false ∨ passed ≠ []) then pure (x.1 :: passed)
        else
          match left, x.2 with
          | left + 1, some parent => chase stop closed left parent (x.1 :: passed)
          | _, _ => RunM.fail (.brokenParentChain current) := by
  delta chase
  cases left with
  | zero =>
    refine congrArg (hop current >>= ·) (funext fun (x : N × Option Handle) => ?_)
    obtain ⟨node, parent⟩ := x
    cases parent <;> rfl
  | succ left =>
    refine congrArg (hop current >>= ·) (funext fun (x : N × Option Handle) => ?_)
    obtain ⟨node, parent⟩ := x
    cases parent <;> rfl

/-- **A chase along a chain of parents gives the path that the chain describes**, provided it may
make as many hops as that takes. -/
theorem meets_chase {ok : Mark → Prop} {root : N} {stop : Handle} {path : List N}
    (hT : t.Parted fun i => (desk i).table)
    (hroot : t.handleOf (fun i => (desk i).table) root = some stop)
    (hpath : Climbs t ok (fun i => (desk i).table) root path v) :
    ∀ {r : Run N σ} {h : Handle} {closed : Bool} {left : Nat} {passed : List N},
      r.Stands t desk cursor l generated →
      t.handleOf (fun i => (desk i).table) v = some h → path.length ≤ left + 1 →
      (closed = false ∨ passed ≠ []) →
      Meets fair (Check.chase stop closed left h passed) r
        (fun states r' => states = path ++ passed ∧ r'.Stands t desk cursor l generated) F := by
  induction hpath with
  | root hm hok =>
    intro r h closed left passed hr hv _ hopen
    obtain rfl : h = stop := Option.some.inj (hv.symm.trans hroot)
    rw [Check.chase_eq]
    refine (meets_hop hr hT hv hm).bind ?_
    rintro - r' ⟨rfl, hr'⟩
    simp only [true_and, hopen, if_true]
    exact .pure fun left => ⟨rfl, hr'.rests, hr'.ledger, hr'.generated⟩
  | @step path u v m k hne hm hok hp hu he hpath ih =>
    intro r h closed left passed hr hv hlen _
    have hstop : h ≠ stop := by
      rintro rfl
      exact hne (hT.handle_inj hv hroot)
    obtain ⟨left, rfl⟩ : ∃ n, left = n + 1 := by
      cases left with
      | zero =>
        have hpos : 0 < path.length := List.length_pos_iff.mpr fun hnil => by
          rw [hnil] at hpath
          exact nomatch hpath.head?
        simp only [List.length_append, List.length_singleton] at hlen
        omega
      | succ n => exact ⟨n, rfl⟩
    rw [Check.chase_eq]
    refine (meets_hop hr hT hv hm).bind ?_
    rintro - r' ⟨rfl, hr'⟩
    simp only [hstop, false_and, if_false, hp]
    rw [List.length_append, List.length_singleton] at hlen
    rw [List.append_assoc, List.singleton_append]
    exact ih hr' hu (by omega) (.inr (List.cons_ne_nil _ _))

end Chase

end FairCycle
