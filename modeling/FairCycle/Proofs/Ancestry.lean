/-
# Chases and ancestors

A chase takes the ledger around the ring again and again, and each time the worker that owns the
current state moves it on to the parent that it has noted.  The next owner may come later on the
same way around, but it finds the ledger moved already: one pass is one hop
(`Cluster.Linked.ring_hop`).

So a chase reads off the tables what a reader with all tables at hand would find by following
parents: the states on the way from the start (`Cluster.ancestor?`, `Cluster.along`).  Nothing is
asked of the tables but that the parents in them are handles of stored states; chains may end or
run in circles.  A chase ends where `stop` first stands on the way, and otherwise breaks off where
there is no parent or where it has grown too long (`Check.chase_chased`).
-/
import FairCycle.Proofs.Verdict
import Mathlib.Algebra.Group.Nat.Defs
import Mathlib.Tactic.MkIffOfInductiveProp

namespace FairCycle

variable {N σ : Type} [Ord N]

/-! ## 1. Following parents in the tables -/

namespace Cluster

/-- The state behind a handle. -/
def node? (c : Cluster N σ) (h : Handle) : Option N :=
  c.workers[h.worker.toNat]?.bind fun w => w.desk.table.nodes[h.slot.toNat]?

/-- The parent of the state behind a handle. -/
def parent? (c : Cluster N σ) (h : Handle) : Option Handle :=
  c.workers[h.worker.toNat]?.bind fun w => w.desk.table.marks[h.slot.toNat]?.bind Mark.parent

/-- What comes after a number of parents. -/
def ancestor? (c : Cluster N σ) : (count : Nat) → Handle → Option Handle
  | 0, h => some h
  | count + 1, h => (c.parent? h).bind (c.ancestor? count)

/-- The state after a number of parents. -/
def along (c : Cluster N σ) (start : Handle) (count : Nat) : Option N :=
  (c.ancestor? count start).bind c.node?

/-- Workers have their places, and the parents in their tables are stored states. -/
@[mk_iff]
structure Linked (c : Cluster N σ) : Prop where
  id : ∀ i < c.workers.size, ∀ w ∈ c.workers[i]?, w.id = i ∧ w.desk.table.worker = i
  parents : ∀ w ∈ c.workers, ∀ m ∈ w.desk.table.marks, ∀ k ∈ m.parent, (c.node? k).isSome

instance (c : Cluster N σ) : Decidable c.Linked := decidable_of_iff _ (linked_iff c).symm

variable {c : Cluster N σ} {h k : Handle} {v : N}

theorem along_zero (c : Cluster N σ) (h : Handle) : c.along h 0 = c.node? h := rfl

theorem along_succ (hk : c.parent? h = some k) (count : Nat) :
    c.along h (count + 1) = c.along k count := by
  rw [along, along, ancestor?, hk, Option.bind_some]

theorem Linked.worker (hc : c.Linked) (hv : c.node? h = some v) :
    ∃ w m, c.workers[h.worker.toNat]? = some w ∧ w.id = h.worker.toNat ∧
      w.desk.table.node? h = some v ∧ w.desk.table.mark? h = some m ∧ c.parent? h = m.parent := by
  obtain ⟨w, hw, hnode⟩ := Option.bind_eq_some_iff.mp hv
  obtain ⟨hlt, -⟩ := Array.getElem?_eq_some_iff.mp hw
  obtain ⟨hid, hworker⟩ := hc.id _ hlt w hw
  have hslot : h.slot.toNat < w.desk.table.marks.size := by
    rw [w.desk.table.size_marks]
    exact (Array.getElem?_eq_some_iff.mp hnode).1
  have hplace : w.desk.table.slot? h = some h.slot.toNat := if_pos hworker.symm
  refine ⟨w, w.desk.table.marks[h.slot.toNat], hw, hid, ?_, ?_, ?_⟩
  · rw [Table.node?, hplace, Option.bind_some, hnode]
  · rw [Table.mark?, hplace, Option.bind_some, Array.getElem?_eq_getElem hslot]
  · rw [parent?, hw, Option.bind_some, Array.getElem?_eq_getElem hslot, Option.bind_some]

theorem Linked.isSome_node? (hc : c.Linked) (hk : c.parent? h = some k) : (c.node? k).isSome := by
  obtain ⟨w, hw, hk⟩ := Option.bind_eq_some_iff.mp hk
  obtain ⟨m, hm, hk⟩ := Option.bind_eq_some_iff.mp hk
  exact hc.parents w (Array.mem_of_getElem? hw) m (Array.mem_of_getElem? hm) k hk

/-! ## 2. One pass, one hop -/

/-- **A pass is one hop**: the ledger comes back with the state that the chase was at and with its
parent, not with a later ancestor. -/
theorem Linked.ring_hop (hc : c.Linked) {c₁ : Cluster N σ} (hworkers : c₁.workers = c.workers)
    (hv : c.node? h = some v) {l : Ledger N} (hl : l.chase.current = some h)
    (hmoved : l.chase.moved = false) :
    ∃ c', c₁.ring .hop l = (.ok (l.hopped v (c.parent? h)), c') ∧ c'.workers = c.workers := by
  obtain ⟨w, m, hw, -, hnode, hmark, hparent⟩ := hc.worker hv
  obtain ⟨hlt, -⟩ := Array.getElem?_eq_some_iff.mp hw
  have hid : ∀ {j : Nat} {w : Worker N}, c₁.workers[j]? = some w → w.id = j := by
    intro j w hj
    rw [hworkers] at hj
    exact (hc.id j (Array.getElem?_eq_some_iff.mp hj).1 w hj).1
  obtain ⟨c', hring, halike⟩ := ringFrom_hop hid (by rw [hworkers, hw]) hl hmoved hnode hmark
    c₁.workers.size 0 (Nat.zero_le _) (by rw [hworkers]; omega)
  exact ⟨c', hparent ▸ hring, halike.workers.trans hworkers⟩

/-- Every worker on the way of a ledger writes one event in the log. -/
theorem size_log_ringFrom {errand : Errand} {count i : Nat} {l l' : Ledger N} {c c' : Cluster N σ}
    (hi : i + count ≤ c.workers.size) (h : c.ringFrom errand count i l = (.ok l', c')) :
    c'.commons.log.size = c.commons.log.size + count := by
  induction count generalizing i l c with
  | zero =>
    obtain ⟨-, rfl⟩ := Prod.mk.inj h
    rfl
  | succ count ih =>
    have hw : c.workers[i]? = some c.workers[i] := Array.getElem?_eq_getElem (by omega)
    rw [ringFrom, visit, hw] at h
    dsimp only at h
    cases hrun : (c.workers[i]).run errand l with
    | error stop =>
      rw [hrun] at h
      exact absurd (Prod.mk.inj h).1 (by simp)
    | ok next =>
      rw [hrun] at h
      have hrest := ih (by simpa using (by omega : i + 1 + count ≤ c.workers.size)) h
      rw [hrest]
      simp only [Commons.record, Array.size_push]
      omega

end Cluster

/-- What a number of hops makes of a run: the log grows by an event for each worker and hop, and
beside the traces of the chase nothing else changes. -/
structure Run.Hopped (hops : Nat) (r r' : Run N σ) : Prop where
  workers : r'.cluster.workers = r.cluster.workers
  log : r'.cluster.commons.log.size = r.cluster.commons.log.size + hops * r.cluster.workers.size
  ledger : r'.ledger.still = r.ledger.still
  generated : r'.generated = r.generated

theorem Run.Hopped.trans {hops hops' : Nat} {r r' r'' : Run N σ} (h : Hopped hops r r')
    (h' : Hopped hops' r' r'') : Hopped (hops + hops') r r'' where
  workers := h'.workers.trans h.workers
  log := by rw [h'.log, h.log, h.workers, Nat.add_mul, Nat.add_assoc]
  ledger := h'.ledger.trans h.ledger
  generated := h'.generated.trans h.generated

section Chase

variable {c : Cluster N σ} {r : Run N σ} {h : Handle} {v : N}

theorem Check.hop_eq (hc : c.Linked) (hr : r.cluster.workers = c.workers)
    (hv : c.node? h = some v) :
    ∃ r', Check.hop h r = (.ok (v, c.parent? h), r') ∧ r.Hopped 1 r' := by
  let l : Ledger N := { r.ledger with
    chase := { r.ledger.chase with current := some h, moved := false, node := none } }
  let r₁ : Run N σ := { r with ledger := l }
  obtain ⟨c', hring, hworkers⟩ := hc.ring_hop hr hv (show l.chase.current = some h from rfl) rfl
  have hlog := Cluster.size_log_ringFrom (Nat.zero_add _).le hring
  let l₂ : Ledger N := l.hopped v (c.parent? h)
  let r₂ : Run N σ := { r₁ with cluster := c', ledger := l₂ }
  let r₃ : Run N σ := { r₂ with ledger := { l₂ with chase := { l₂.chase with node := none } } }
  have hnoted : RunM.note (fun l => { l with
      chase := { l.chase with current := some h, moved := false, node := none } }) r =
        (.ok (), r₁) := rfl
  have hsent : Check.ring .hop r₁ = (.ok (), r₂) := Check.ring_of_eq (r := r₁) hring
  refine ⟨r₃, ?_, hworkers.trans hr.symm, by rw [Nat.one_mul]; exact hlog, rfl, rfl⟩
  unfold Check.hop
  rw [RunM.bind_ok hnoted, RunM.bind_ok hsent]
  rfl

/-! ## 3. Many hops -/

/-- A chase may end after this many hops: it has come to where it is to stop, and if it is `closed`,
it has left its start. -/
def Cluster.Ends (c : Cluster N σ) (start stop : Handle) (closed : Bool) (count : Nat) : Prop :=
  c.ancestor? count start = some stop ∧ (closed = true → 0 < count)

instance (c : Cluster N σ) (start stop : Handle) (closed : Bool) (count : Nat) :
    Decidable (c.Ends start stop closed count) :=
  inferInstanceAs (Decidable (_ ∧ _))

theorem Cluster.ends_zero {start stop : Handle} {closed : Bool} :
    c.Ends start stop closed 0 ↔ start = stop ∧ closed = false := by
  simp [Ends, ancestor?]

theorem Cluster.ends_succ {start stop k : Handle} (hk : c.parent? start = some k) (closed : Bool)
    (count : Nat) : c.Ends start stop closed (count + 1) ↔ c.Ends k stop false count := by
  simp [Ends, ancestor?, hk]

/-- Behind a state without a parent there is nothing. -/
theorem Cluster.ancestor?_of_parent {start : Handle} {count : Nat}
    (hcount : c.ancestor? count start = some h) (hnone : c.parent? h = none) {more : Nat}
    (hmore : count < more) : c.ancestor? more start = none := by
  obtain ⟨more, rfl⟩ : ∃ n, more = n + 1 := ⟨more - 1, by omega⟩
  induction count generalizing start more with
  | zero =>
    obtain rfl : start = h := Option.some.inj hcount
    rw [ancestor?, hnone, Option.bind_none]
  | succ count ih =>
    obtain ⟨k, hk, hcount⟩ := Option.bind_eq_some_iff.mp hcount
    obtain ⟨more, rfl⟩ : ∃ n, more = n + 1 := ⟨more - 1, by omega⟩
    rw [ancestor?, hk, Option.bind_some]
    exact ih hcount more (by omega)

/-- What a reader of the tables finds by following parents from `start`, over at most `left` of
them: after `i` hops either the way has come to its end or it breaks off. -/
inductive Cluster.Chased (c : Cluster N σ) (start stop : Handle) (closed : Bool) (left i : Nat) :
    Except Handle (List N) → Prop
  | found {nodes : List N} (hi : i ≤ left) (hbefore : ∀ j < i, ¬c.Ends start stop closed j)
      (hends : c.Ends start stop closed i)
      (hnodes : nodes.map some = (List.range (i + 1)).map (c.along start)) :
      Chased c start stop closed left i (.ok nodes)
  | broken {h : Handle} (hi : i ≤ left) (hbefore : ∀ j ≤ i, ¬c.Ends start stop closed j)
      (hh : c.ancestor? i start = some h) (hbroken : c.parent? h = none ∨ i = left) :
      Chased c start stop closed left i (.error h)

namespace Cluster.Chased

variable {stop k : Handle} {closed : Bool} {left i : Nat} {result : Except Handle (List N)}

theorem here (hv : c.node? h = some v) (hends : c.Ends h stop closed 0) :
    c.Chased h stop closed left 0 (.ok [v]) :=
  .found (Nat.zero_le _) (fun j hj => absurd hj (Nat.not_lt_zero j)) hends
    (by simp [along_zero, hv])

theorem stuck (hends : ¬c.Ends h stop closed 0) (hbroken : c.parent? h = none ∨ left = 0) :
    c.Chased h stop closed left 0 (.error h) := by
  refine .broken (Nat.zero_le _) (fun j hj => ?_) rfl (hbroken.imp_right Eq.symm)
  obtain rfl : j = 0 := Nat.le_zero.mp hj
  exact hends

/-- The way from a state goes on as the way from its parent. -/
theorem cons (hv : c.node? h = some v) (hends : ¬c.Ends h stop closed 0)
    (hk : c.parent? h = some k) (hrest : c.Chased k stop false left i result) :
    c.Chased h stop closed (left + 1) (i + 1) (result.map (v :: ·)) := by
  have hsucc : ∀ j, c.Ends h stop closed (j + 1) ↔ c.Ends k stop false j := ends_succ hk closed
  cases hrest with
  | @found nodes hi hbefore hend hnodes =>
    refine .found (Nat.succ_le_succ hi) (fun j hj => ?_) ((hsucc i).mpr hend) ?_
    · cases j with
      | zero => exact hends
      | succ j => exact mt (hsucc j).mp (hbefore j (Nat.lt_of_succ_lt_succ hj))
    · rw [List.map_cons, hnodes, @List.range_succ_eq_map (i + 1), List.map_cons, List.map_map,
        along_zero, hv]
      refine congrArg (some v :: ·) (List.map_congr_left fun j _ => ?_)
      exact (along_succ hk j).symm
  | @broken far hi hbefore hfar hbroken =>
    refine .broken (Nat.succ_le_succ hi) (fun j hj => ?_) ?_ (hbroken.imp_right (congrArg (· + 1)))
    · cases j with
      | zero => exact hends
      | succ j => exact mt (hsucc j).mp (hbefore j (Nat.le_of_succ_le_succ hj))
    · rw [ancestor?, hk, Option.bind_some, hfar]

end Cluster.Chased

/-- The answer of a chase that has found these states behind those passed already. -/
def Check.chaseAnswer (passed : List N) : Except Handle (List N) → Except Stop (List N)
  | .ok nodes => .ok (nodes.reverse ++ passed)
  | .error h => .error (.fault (.brokenParentChain h))

section Steps

variable {stop : Handle} {closed : Bool} {passed : List N} {left : Nat}

theorem Cluster.ends_iff :
    c.Ends h stop (closed && passed.isEmpty) 0 ↔ h = stop ∧ (closed = false ∨ passed ≠ []) := by
  rw [ends_zero, Bool.and_eq_false_iff, List.isEmpty_eq_false_iff]

variable (hc : c.Linked) (hr : r.cluster.workers = c.workers) (hv : c.node? h = some v)
include hc hr hv

/-- The chase ends here. -/
theorem Check.chase_of_ends (hends : c.Ends h stop (closed && passed.isEmpty) 0) :
    ∃ r', Check.chase stop closed left h passed r = (.ok (v :: passed), r') ∧ r.Hopped 1 r' := by
  obtain ⟨r', hhop, hr'⟩ := Check.hop_eq hc hr hv
  refine ⟨r', ?_, hr'⟩
  rw [Check.chase_eq, RunM.bind_ok hhop, if_pos (Cluster.ends_iff.mp hends)]
  rfl

/-- The chase breaks off here. -/
theorem Check.chase_of_broken (hends : ¬c.Ends h stop (closed && passed.isEmpty) 0)
    (hbroken : c.parent? h = none ∨ left = 0) :
    ∃ r', Check.chase stop closed left h passed r =
      (.error (.fault (.brokenParentChain h)), r') ∧ r.Hopped 1 r' := by
  obtain ⟨r', hhop, hr'⟩ := Check.hop_eq hc hr hv
  refine ⟨r', ?_, hr'⟩
  rw [Check.chase_eq, RunM.bind_ok hhop, if_neg (mt Cluster.ends_iff.mpr hends)]
  rcases hbroken with hnone | rfl
  · rw [hnone]
    cases left <;> rfl
  · rfl

/-- The chase comes to its end here, in one way or the other. -/
theorem Check.chase_here (hstop : c.Ends h stop (closed && passed.isEmpty) 0 ∨
      c.parent? h = none ∨ left = 0) :
    ∃ result r', c.Chased h stop (closed && passed.isEmpty) left 0 result ∧
      Check.chase stop closed left h passed r = (Check.chaseAnswer passed result, r') ∧
      r.Hopped 1 r' := by
  by_cases hends : c.Ends h stop (closed && passed.isEmpty) 0
  · obtain ⟨r', hchase, hr'⟩ := Check.chase_of_ends hc hr hv hends
    exact ⟨_, r', .here hv hends, hchase, hr'⟩
  · have hbroken := hstop.resolve_left hends
    obtain ⟨r', hchase, hr'⟩ := Check.chase_of_broken hc hr hv hends hbroken
    exact ⟨_, r', .stuck hends hbroken, hchase, hr'⟩

/-- The chase goes on with the parent. -/
theorem Check.chase_of_parent (hends : ¬c.Ends h stop (closed && passed.isEmpty) 0) {k : Handle}
    (hk : c.parent? h = some k) (left : Nat) :
    ∃ r', Check.chase stop closed (left + 1) h passed r =
      Check.chase stop closed left k (v :: passed) r' ∧ r.Hopped 1 r' := by
  obtain ⟨r', hhop, hr'⟩ := Check.hop_eq hc hr hv
  refine ⟨r', ?_, hr'⟩
  rw [Check.chase_eq, RunM.bind_ok hhop, if_neg (mt Cluster.ends_iff.mpr hends), hk]

end Steps

/-- **A chase finds what a reader of the tables finds**, with a pass around the ring for each state
on the way. -/
theorem Check.chase_chased (hc : c.Linked) (stop : Handle) (closed : Bool) (left : Nat)
    {current : Handle} (passed : List N) {r : Run N σ} (hr : r.cluster.workers = c.workers)
    (hcurrent : (c.node? current).isSome) :
    ∃ i result r', c.Chased current stop (closed && passed.isEmpty) left i result ∧
      Check.chase stop closed left current passed r = (Check.chaseAnswer passed result, r') ∧
      r.Hopped (i + 1) r' := by
  induction left generalizing current passed r with
  | zero =>
    obtain ⟨v, hv⟩ := Option.isSome_iff_exists.mp hcurrent
    exact ⟨0, Check.chase_here hc hr hv (.inr (.inr rfl))⟩
  | succ left ih =>
    obtain ⟨v, hv⟩ := Option.isSome_iff_exists.mp hcurrent
    by_cases hends : c.Ends current stop (closed && passed.isEmpty) 0
    · exact ⟨0, Check.chase_here hc hr hv (.inl hends)⟩
    · cases hparent : c.parent? current with
      | none => exact ⟨0, Check.chase_here hc hr hv (.inr (.inl hparent))⟩
      | some k =>
        obtain ⟨r₁, hchase, hr₁⟩ := Check.chase_of_parent hc hr hv hends hparent left
        obtain ⟨i, result, r', hchased, hrest, hr'⟩ :=
          ih (v :: passed) (hr₁.workers.trans hr) (hc.isSome_node? hparent)
        rw [List.isEmpty_cons, Bool.and_false] at hchased
        refine ⟨i + 1, _, r', hchased.cons hv hends hparent, ?_, ?_⟩
        · rw [hchase, hrest]
          cases result with
          | error far => rfl
          | ok nodes => simp [Check.chaseAnswer, Except.map]
        · rw [Nat.add_comm (i + 1)]
          exact hr₁.trans hr'

end Chase

/-- **A chase along parents equals following them in the tables.**  The tables are those of a
cluster whose parents are all stored; the ways in them may end or run in circles.

A pass around the ring is exactly one hop.  If `stop` stands on the way from `start`, for a closed
chase behind the start, and comes after no more than `generated + 2` parents, then the chase gives
the states up to its first place, the last one in front.  Otherwise it fails, and names the state
that has no parent or that comes after `generated + 2` of them.  There are as many passes as states,
and the tables stay as they are. -/
theorem chain_follows_parents (r : Run N σ) (hc : r.cluster.Linked) (start stop : Handle)
    (hstart : (r.cluster.node? start).isSome) (closed : Bool) :
    (∀ h v l, r.cluster.node? h = some v → l.chase.current = some h → l.chase.moved = false →
        ∃ c', r.cluster.ring .hop l = (.ok (l.hopped v (r.cluster.parent? h)), c') ∧
          c'.workers = r.cluster.workers) ∧
      (∀ i ≤ r.generated + 2, r.cluster.Ends start stop closed i →
        (∀ j < i, ¬r.cluster.Ends start stop closed j) →
        ∃ (nodes : List N) (r' : Run N σ),
          nodes.map some = (List.range (i + 1)).map (r.cluster.along start) ∧
          Check.chain start stop closed r = (.ok nodes.reverse, r') ∧ r.Hopped (i + 1) r') ∧
      ((∀ i ≤ r.generated + 2, ¬r.cluster.Ends start stop closed i) →
        ∃ (i : Nat) (h : Handle) (r' : Run N σ), i ≤ r.generated + 2 ∧
          r.cluster.ancestor? i start = some h ∧
          (r.cluster.parent? h = none ∨ i = r.generated + 2) ∧
          Check.chain start stop closed r = (.error (.fault (.brokenParentChain h)), r') ∧
          r.Hopped (i + 1) r') := by
  obtain ⟨i, result, r', hchased, hchase, hr'⟩ :=
    Check.chase_chased hc stop closed (r.generated + 2) [] (r := r) rfl hstart
  rw [List.isEmpty_nil, Bool.and_true] at hchased
  have hchain : Check.chain start stop closed r = (Check.chaseAnswer [] result, r') := hchase
  refine ⟨fun h v l hv hl hmoved => hc.ring_hop rfl hv hl hmoved, ?_, ?_⟩
  · intro n hn hends hbefore
    cases hchased with
    | @found nodes hi hbefore' hends' hnodes =>
      obtain rfl : i = n := by
        rcases Nat.lt_trichotomy i n with hlt | rfl | hlt
        · exact absurd hends' (hbefore i hlt)
        · rfl
        · exact absurd hends (hbefore' n hlt)
      exact ⟨nodes, r', hnodes, by simpa [Check.chaseAnswer] using hchain, hr'⟩
    | broken hi hnone hh hbroken =>
      have hlt : i < n := Nat.lt_of_not_le fun hle => hnone n hle hends
      rcases hbroken with hparent | rfl
      · exact absurd (hends.1.symm.trans (Cluster.ancestor?_of_parent hh hparent hlt)) (by simp)
      · omega
  · intro hnone
    cases hchased with
    | found hi _ hends _ => exact absurd hends (hnone i hi)
    | @broken h hi _ hh hbroken => exact ⟨i, h, r', hi, hh, hbroken, hchain, hr'⟩

/-- Two workers have explored the small graph; the parents of its last state lead from one worker to
the other and back.  A closed chase does not come back to where it began, and breaks off. -/
theorem chain_follows_parents_pendant :
    ∃ (r r₁ r₂ : Run (Fin 3) Unit) (i : Nat) (h : Handle),
      (Check.explore ⟨pendant 1, { workers := 2 }, Turn.roundRobin⟩
        (Run.begin { workers := 2 } () 300)).2 = r ∧
      r.cluster.Linked ∧ (r.cluster.node? ⟨0, 1⟩).isSome ∧
      Check.chain ⟨0, 1⟩ ⟨0, 0⟩ false r = (.ok [0, 1, 2], r₁) ∧ r.Hopped 3 r₁ ∧
      r.cluster.ancestor? i ⟨0, 1⟩ = some h ∧
      (r.cluster.parent? h = none ∨ i = r.generated + 2) ∧
      Check.chain ⟨0, 1⟩ ⟨0, 1⟩ true r = (.error (.fault (.brokenParentChain h)), r₂) := by
  generalize hr : (Check.explore ⟨pendant 1, { workers := 2 }, Turn.roundRobin⟩
    (Run.begin { workers := 2 } () 300)).2 = r
  have hlinked : r.cluster.Linked := by rw [← hr]; decide +kernel
  have hstart : (r.cluster.node? ⟨0, 1⟩).isSome := by rw [← hr]; decide +kernel
  have hgenerated : r.generated + 2 = 5 := by rw [← hr]; decide +kernel
  have hends : r.cluster.Ends ⟨0, 1⟩ ⟨0, 0⟩ false 2 := by rw [← hr]; decide +kernel
  have hbefore : ∀ j < 2, ¬r.cluster.Ends ⟨0, 1⟩ ⟨0, 0⟩ false j := by rw [← hr]; decide +kernel
  have hnone : ∀ i ≤ 5, ¬r.cluster.Ends ⟨0, 1⟩ ⟨0, 1⟩ true i := by rw [← hr]; decide +kernel
  have halong : (List.range 3).map (r.cluster.along ⟨0, 1⟩) = [2, 1, 0].map some := by
    rw [← hr]; decide +kernel
  obtain ⟨-, hfound, -⟩ := chain_follows_parents r hlinked ⟨0, 1⟩ ⟨0, 0⟩ hstart false
  obtain ⟨nodes, r₁, hnodes, hchain, hr₁⟩ := hfound 2 (by omega) hends hbefore
  obtain rfl : nodes = [2, 1, 0] :=
    List.map_injective_iff.mpr (Option.some_injective _) (hnodes.trans halong)
  obtain ⟨-, -, hbroken⟩ := chain_follows_parents r hlinked ⟨0, 1⟩ ⟨0, 1⟩ hstart true
  obtain ⟨i, h, r₂, -, hh, hwhy, hchain₂, -⟩ := hbroken (by rwa [hgenerated])
  exact ⟨r, r₁, r₂, i, h, rfl, hlinked, hstart, hchain, hr₁, hh, hwhy, hchain₂⟩

end FairCycle
