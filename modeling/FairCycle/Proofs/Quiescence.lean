/-
# When a pass is over

A worker leaves a pass when it reads zero off the shared counter.  It must not read zero as long as
anybody has anything to do: an edge that is still in a letter then would be lost, and with it
whatever lies behind it.

`drive_detects_end` says that this does not happen, over every graph and in whatever order the
workers take their turns.  The counter is always the number of active workers plus the number of
letters that were counted and not yet uncounted; once it is zero it stays zero, and nothing is left
in any queue or inbox; and if nobody halted on the way, then every edge that was generated was
offered to the rule of the pass, as often as it was generated.
-/
import FairCycle.Proofs.Traffic
import FairCycle.Proofs.Verdict

namespace FairCycle

variable {N σ : Type} [Ord N]

/-! ## 1. What the counter counts -/

/-- Whether a worker has a letter in hand: one that it has counted and not yet sent, or one that it
has taken and not yet uncounted. -/
def Worker.hasLetter (w : Worker N) : Bool :=
  match w.stance with
  | .posting .. | .holding _ | .queueing _ => true
  | _ => false

namespace Cluster

/-- The number of active workers.  One that waits for its first turn is active. -/
def activeWorkers (c : Cluster N σ) : Nat := c.workers.toList.countP (·.active)

/-- The number of letters that were counted and not yet uncounted. -/
def unsettled (c : Cluster N σ) : Nat :=
  c.workers.toList.countP (·.hasLetter) + (c.commons.inboxes.toList.map (·.toList.length)).sum

/-- Nobody has anything to do, and no letter is on its way. -/
structure Quiet (c : Cluster N σ) : Prop where
  pending : c.commons.pending = 0
  queue : ∀ w ∈ c.workers, w.queue.toList = []
  active : ∀ w ∈ c.workers, w.active = false
  inbox : ∀ q ∈ c.commons.inboxes, q.toList = []
  unsettled : c.unsettled = 0

end Cluster

theorem Worker.counted_eq (w : Worker N) : w.counted = w.active.toNat + w.hasLetter.toNat := by
  rw [counted, hasLetter]
  cases w.stance
  all_goals rfl

/-- What the workers count for is that they are active and that they have letters. -/
theorem sum_counted (workers : List (Worker N)) :
    (workers.map Worker.counted).sum =
      workers.countP (·.active) + workers.countP (·.hasLetter) := by
  induction workers with
  | nil => rfl
  | cons w workers ih =>
    rw [List.map_cons, List.sum_cons, ih, w.counted_eq, List.countP_cons, List.countP_cons]
    cases w.active
    all_goals
      cases w.hasLetter
      all_goals simp only [Bool.toNat_true, Bool.toNat_false, if_true, Bool.false_eq_true, if_false]
      all_goals omega

omit [Ord N] in
theorem Commons.card_letters (k : Commons N σ) :
    Multiset.card k.letters = (k.inboxes.toList.map (·.toList.length)).sum := by
  rw [letters]
  induction k.inboxes.toList with
  | nil => rfl
  | cons q rest ih =>
    rw [List.map_cons, List.sum_cons, Multiset.card_add, ih, List.map_cons, List.sum_cons,
      Multiset.coe_card, List.length_map]

namespace Cluster.Balanced

variable {c : Cluster N σ}

/-- **The counter counts the active workers and the letters on their way.** -/
theorem pending_eq (hc : c.Balanced) :
    c.commons.pending = ((c.activeWorkers + c.unsettled : Nat) : Int) := by
  rw [hc.pending, sum_counted, Commons.card_letters, activeWorkers, Cluster.unsettled,
    Nat.add_assoc]

theorem isQuiet_iff (hc : c.Balanced) : c.commons.isQuiet = true ↔ c.commons.pending = 0 := by
  simp [Commons.isQuiet, hc.lost]

/-- When the counter is zero all is quiet. -/
theorem quiet (hc : c.Balanced) (h : c.commons.pending = 0) : c.Quiet := by
  obtain ⟨hcalm, hletters⟩ := hc.calm h
  have hidle : ∀ w ∈ c.workers, w.active = false ∧ w.queue.toList = [] := by
    intro w hw
    obtain ⟨i, hi⟩ := Array.mem_iff_getElem?.mp hw
    exact (hc.poised hi).placed.queue_eq_nil (hcalm hi)
  have hcount := hc.pending_eq
  refine
    { pending := h
      queue := fun w hw => (hidle w hw).2
      active := fun w hw => (hidle w hw).1
      inbox := fun q hq => ?_
      unsettled := by omega }
  obtain ⟨i, hi⟩ := Array.mem_iff_getElem?.mp hq
  exact Commons.letters_eq_zero hletters hi

variable [Std.TransOrd N] [Std.LawfulEqOrd N]

/-- Once the counter is zero nobody touches it any more, and nobody breaks down. -/
theorem pending_turn (hc : c.Balanced) (h : c.commons.pending = 0) (task : Task N σ)
    (turn : Turn) :
    (c.turn task turn).Balanced ∧ (c.turn task turn).commons.pending = 0 := by
  rcases c.turn_cases task turn with ⟨-, heq⟩ | ⟨w, w', k', memory, log, hw, hmove, heq⟩
  · rw [heq]
    exact ⟨hc, h⟩
  · obtain ⟨hpending, hlost⟩ := hmove.pending_of_counted (hc.poised hw) ((hc.calm h).1 hw)
    rw [heq]
    exact ⟨hc.replace hw hmove (hlost.trans hc.lost), hpending.trans h⟩

/-- **Once the counter is zero all stays quiet.** -/
theorem quiet_drive {task : Task N σ} (turns : Nat → Turn) :
    ∀ (left time : Nat) {c : Cluster N σ}, c.Balanced → c.commons.pending = 0 →
      (c.drive task turns left time).2.2.Quiet
  | 0, _, _, hc, h => hc.quiet h
  | left + 1, time, c, hc, h => by
    rw [Cluster.drive]
    split
    · exact hc.quiet h
    · obtain ⟨hc, h⟩ := hc.pending_turn h task (turns time)
      exact quiet_drive turns left (time + 1) hc h

end Cluster.Balanced

/-! ## 2. Offered edges and generated edges -/

section Ghosts

variable [Std.TransOrd N] [Std.LawfulEqOrd N]

namespace Worker

/-- The edge that a worker offers to the rule of the pass in its next turn: the one that it takes
off its queue, if its target can be stored. -/
def offers (task : Task N σ) (w : Worker N) (k : Commons N σ) : Multiset (Edge N) :=
  match w.upNext k with
  | none => 0
  | some e =>
    match (w.desk.table.store e.target (task.graph.hash e.target k.memory).1).1 with
    | .ok _ => {e}
    | .error _ => 0

end Worker

/-- The edges that come from a state: all but the seeds of the pass. -/
def Edge.inner (edges : Multiset (Edge N)) : Multiset (Edge N) :=
  edges.filter fun e => e.source.isSome

namespace Edge

omit [Ord N] [Std.TransOrd N] [Std.LawfulEqOrd N]

theorem inner_add (a b : Multiset (Edge N)) : inner (a + b) = inner a + inner b :=
  Multiset.filter_add ..

theorem inner_seeds (seeds : List N) :
    inner ((seeds.map Edge.seed : List (Edge N)) : Multiset (Edge N)) = 0 := by
  rw [inner, Multiset.filter_eq_nil]
  intro e he
  obtain ⟨v, -, rfl⟩ := List.mem_map.mp (Multiset.mem_coe.mp he)
  exact Bool.false_ne_true

theorem inner_newEdges (r : Except Stop (Progress N)) :
    inner (newEdges r : Multiset (Edge N)) = newEdges r := by
  rw [inner, Multiset.filter_eq_self]
  intro e he
  cases r with
  | error stop => exact absurd he (Multiset.notMem_zero e)
  | ok progress =>
    cases progress with
    | next | halt => exact absurd he (Multiset.notMem_zero e)
    | expand source targets =>
      obtain ⟨v, -, rfl⟩ := List.mem_map.mp (Multiset.mem_coe.mp he)
      rfl

end Edge

/-! ## 3. No edge gets lost -/

/-- An edge that is handled without a fault is offered to the rule of the pass. -/
theorem store_of_handleEdge {task : Task N σ} {e : Edge N} {d : Desk N} {memory : σ}
    {x : Progress N} {p : Desk N × σ} (hx : handleEdge task e (d, memory) = (.ok x, p)) :
    ∃ found, (d.table.store e.target (task.graph.hash e.target memory).1).1 = .ok found := by
  obtain ⟨target, fresh, -, -, -, hstore, -⟩ := exists_of_handleEdge hx
  exact ⟨(target, fresh), hstore⟩

namespace Worker

variable {task : Task N σ} {o : Opening N} {size : Nat} {w w' : Worker N} {k k' : Commons N σ}
  {memory : σ} {log : Array Event} {e : Edge N}

theorem offers_of_none (h : w.upNext k = none) : w.offers task k = 0 := by simp only [offers, h]

theorem offers_of_some (h : w.upNext k = some e) {x : Progress N} {p : Desk N × σ}
    (hx : handleEdge task e (w.desk, k.memory) = (.ok x, p)) : w.offers task k = {e} := by
  obtain ⟨found, hfound⟩ := store_of_handleEdge hx
  simp only [offers, h, hfound]

omit [Std.TransOrd N] [Std.LawfulEqOrd N] in
/-- A worker that does not halt takes up what comes of handling an edge. -/
theorem backlog_taken {r : Except Stop (Progress N)} (hs : w.stance = .ready) (hr : Regular r)
    (hh : (w.taken r).halted = false) :
    (∃ x, r = .ok x) ∧ (w.taken r).backlog o = w.queue.toList + newEdges r := by
  match r with
  | .ok .next =>
    refine ⟨⟨.next, rfl⟩, ?_⟩
    simp only [taken, backlog, hand, hs, newEdges]
  | .ok (.expand source targets) => exact ⟨⟨.expand source targets, rfl⟩, rfl⟩
  | .ok .halt | .error (.fault _) => simp [taken, halt] at hh
  | .error .crash | .error .outOfTurns => exact hr.elim

/-- **An edge that is handled is offered, and what it gives is to be handled.**  Seeds are left out
of the account, so it does not depend on the opening. -/
theorem Moves.conserves (h : w.Moves task k memory log w' k') (hw : w.Poised size)
    (hsize : k.inboxes.size = size) (hlost : k'.lost = none) (hhalted : w'.halted = false) :
    Edge.inner (w'.backlog o + k'.letters) + Edge.inner (w.offers task k) =
      Edge.inner (w.backlog o + k.letters) + w.generates task k := by
  have moved (hnone : w.upNext k = none)
      (heq : w'.backlog o + k'.letters = w.backlog o + k.letters) :
      Edge.inner (w'.backlog o + k'.letters) + Edge.inner (w.offers task k) =
        Edge.inner (w.backlog o + k.letters) + w.generates task k := by
    rw [heq, offers_of_none hnone, generates_of_none hnone]
    rfl
  have hedges := h.backlog_eq (o := o) hw hsize
  cases h with
  | @begins seeds d hs hrun =>
    have hnone : w.upNext k = none := by simp only [upNext, hs]
    have hletters : Commons.letters { k with memory := memory, log := log } = k.letters := rfl
    rw [offers_of_none hnone, generates_of_none hnone, hletters]
    simp only [backlog, hand, hs, Queue.toList_append, ← Multiset.coe_add, Edge.inner_add,
      Edge.inner_seeds, Multiset.coe_nil, add_zero]
    exact add_zero _
  | @handles e q r d hs hh ha hq hr hrun =>
    have hnext := upNext_eq_some hs hh ha hq
    have hback : w.backlog o = {e} + (q.toList : Multiset (Edge N)) := by
      simp only [backlog, hand, hs, hq, Multiset.coe_nil, add_zero, Multiset.singleton_add,
        Multiset.cons_coe]
    obtain ⟨⟨x, rfl⟩, htaken⟩ :=
      backlog_taken (w := { w with queue := q, desk := d }) (o := o) hs hr hhalted
    have hletters : Commons.letters { k with
        memory := memory, log := log,
        aborted := k.aborted || isFault (.ok x : Except Stop (Progress N)) } = k.letters := rfl
    rw [offers_of_some hnext hrun, generates_of_some hnext, hrun, htaken, hback, hletters]
    simp only [Edge.inner_add, Edge.inner_newEdges]
    ac_rfl
  | fails hs hrun | breaks hs hh hq hr hrun => simp [Commons.lose] at hlost
  | stops hs hh ha => simp [go, halt] at hhalted
  | drains hs hq =>
    have hnone : w.upNext k = none := by
      rcases hq with hh | hq
      · simp [upNext, hs, hh]
      · simp [upNext, hs, hq]
    exact moved hnone (hedges (by simp [hs]) (fun _ => ⟨rfl, rfl⟩) (by simp [hs]))
  | receives hs hq hq' =>
    rcases hs with hs | hs
    all_goals
      exact moved (by simp only [upNext, hs])
        (hedges (by simp [hs]) (by simp [hs]) (by simp [hs]))
  | queues hs =>
    exact moved (by simp only [upNext, hs])
      (hedges (by simp [hs]) (by simp [hs]) fun _ _ => hhalted)
  | stays hs =>
    rcases hs with hs | hs
    all_goals exact moved (by simp only [upNext, hs]) rfl
  | routed hs | keeps hs hv | addresses hs | posts hs | rests hs hq | wakes hs hq | holds hs
  | settles hs | quits hs hk | dozes hs hk | leaves hs =>
    exact moved (by simp only [upNext, hs]) (hedges (by simp [hs]) (by simp [hs]) (by simp [hs]))

end Worker

/-- Nobody has halted, and the pass is not to be broken off. -/
structure Cluster.Undisturbed (c : Cluster N σ) : Prop where
  aborted : c.commons.aborted = false
  halted : ∀ {i : Nat} {w : Worker N}, c.workers[i]? = some w → w.halted = false

namespace Cluster

variable {task : Task N σ} {o : Opening N} {c : Cluster N σ}

/-- Who has halted stays halted. -/
theorem Undisturbed.of_turn {turn : Turn} (h : (c.turn task turn).Undisturbed) :
    c.Undisturbed := by
  rcases c.turn_cases task turn with ⟨-, heq⟩ | ⟨w, w', k', memory, log, hw, hmove, heq⟩
  · rwa [heq] at h
  · rw [heq] at h
    obtain ⟨-, -, -, haborted, hhalted⟩ := hmove.frame
    refine ⟨haborted h.aborted, fun {j v} hv => ?_⟩
    rcases eq_or_ne j (turn.worker % c.workers.size) with rfl | hj
    · obtain rfl := Option.some.inj (hw.symm.trans hv)
      exact hhalted (h.halted (replace_self hw))
    · exact h.halted (by rw [replace_of_ne hj]; exact hv)

theorem Undisturbed.of_drive {turns : Nat → Turn} :
    ∀ {left time : Nat} {c : Cluster N σ},
      (c.drive task turns left time).2.2.Undisturbed → c.Undisturbed
  | 0, _, _, h => h
  | left + 1, time, c, h => by
    rw [drive] at h
    split at h
    · exact h
    · exact of_turn (of_drive h)

/-- A turn offers what is no longer to be handled, and what it generates is to be handled. -/
theorem Balanced.conserves_turn (hc : c.Balanced) {turn : Turn}
    (hlost : (c.turn task turn).commons.lost = none) (hcalm : (c.turn task turn).Undisturbed) :
    Edge.inner ((c.turn task turn).scene o).pending +
        Edge.inner (c.atTurn (Worker.offers task) turn) =
      Edge.inner (c.scene o).pending + c.atTurn (Worker.generates task) turn := by
  rcases c.turn_cases task turn with ⟨hnone, heq⟩ | ⟨w, w', k', memory, log, hw, hmove, heq⟩
  · rw [heq]
    simp only [atTurn, hnone]
    rfl
  · rw [heq] at hlost hcalm ⊢
    obtain ⟨rest, hpend, hscene⟩ := scene_replace (o := o) hw w' k'
    have hmoved := hmove.conserves (o := o) (hc.poised hw) hc.inboxes hlost
      (hcalm.halted (replace_self hw))
    rw [hscene, hpend]
    simp only [atTurn, hw]
    rw [add_right_comm, add_right_comm (w.backlog o), Edge.inner_add _ rest, Edge.inner_add _ rest,
      add_right_comm, hmoved, add_right_comm]

/-- **No edge gets lost**: as long as nobody halts, what was generated was offered or is still to be
handled. -/
theorem Balanced.conserves_drive {turns : Nat → Turn} :
    ∀ {left time : Nat} {c : Cluster N σ}, c.Balanced →
      (c.drive task turns left time).2.2.commons.lost = none →
      (c.drive task turns left time).2.2.Undisturbed →
      Edge.inner ((c.drive task turns left time).2.2.scene o).pending +
          Edge.inner (c.gather (Worker.offers task) task turns left time) =
        Edge.inner (c.scene o).pending + c.gather (Worker.generates task) task turns left time
  | 0, _, _, _, _, _ => rfl
  | left + 1, time, c, hc, hlost, hcalm => by
    by_cases hs : c.isSettled = true
    · simp only [Cluster.drive, gather, hs, if_true]
      rfl
    · simp only [Cluster.drive, gather, hs, Bool.false_eq_true, if_false] at hlost hcalm ⊢
      have hlost₁ := lost_of_drive hlost
      have hturn := hc.conserves_turn (o := o) hlost₁ hcalm.of_drive
      have hrest := conserves_drive (hc.turn hlost₁) hlost hcalm
      rw [Edge.inner_add, add_left_comm, hrest, ← add_assoc, add_comm (Edge.inner _), hturn,
        add_assoc]

omit [Std.TransOrd N] [Std.LawfulEqOrd N] in
/-- What the workers are armed with is seeds only. -/
theorem Still.inner_arm (hc : c.Still) (l : Ledger N) :
    Edge.inner ((c.arm l).scene o).pending = 0 := by
  have hback : ∀ w ∈ (c.arm l).workers.toList, Edge.inner (w.backlog o) = 0 := by
    intro w hw
    obtain ⟨i, hi⟩ := List.mem_iff_getElem?.mp hw
    rw [Array.getElem?_toList] at hi
    obtain ⟨v, hv, rfl⟩ := getElem?_arm hi
    have hq : v.queue.toList = [] := hc.queue hv
    simp only [Worker.backlog, Worker.hand, hq, Edge.inner_add, Edge.inner_seeds]
    rfl
  have hletters : (c.arm l).commons.letters = 0 := hc.letters
  rw [scene, hletters, add_zero]
  generalize (c.arm l).workers.toList = workers at hback
  induction workers with
  | nil => rfl
  | cons w workers ih =>
    rw [List.map_cons, List.sum_cons, Edge.inner_add, hback w List.mem_cons_self,
      ih fun v hv => hback v (List.mem_cons_of_mem w hv), add_zero]

end Cluster

/-! ## 4. The end of a pass -/

/-- **The end of a pass is detected when it has come, and not before.**  In every state of a pass in
which nobody broke down, the counter is the number of active workers plus the number of letters that
were counted and not uncounted, and so is never negative.  If a worker finds that all is quiet, or
has left, then all is quiet and stays so; and if nobody has halted, then every edge that was
generated has been offered to the rule of the pass, as often as it was generated.  The workers begin
the next pass with nothing queued and nothing on its way. -/
theorem drive_detects_end (task : Task N σ) {c c' : Cluster N σ} (hc : c.Still) (l : Ledger N)
    {turns : Nat → Turn} {left time : Nat}
    (hdrive : ((c.arm l).drive task turns left time).2.2 = c') (hlost : c'.commons.lost = none) :
    (c'.commons.pending = c'.activeWorkers + c'.unsettled ∧ 0 ≤ c'.commons.pending) ∧
    ((∃ w ∈ c'.workers, w.stance = .leaving ∨ w.stance = .gone) → c'.commons.isQuiet = true) ∧
    (c'.commons.isQuiet = true →
      (∀ turns' left' time', (c'.drive task turns' left' time').2.2.Quiet) ∧
      (c'.commons.aborted = false → (∀ w ∈ c'.workers, w.halted = false) →
        Edge.inner ((c.arm l).gather (Worker.offers task) task turns left time) =
          (c.arm l).gather (Worker.generates task) task turns left time)) ∧
    (c'.isSettled = true → c'.Still) := by
  subst hdrive
  have hbalanced := (hc.balanced_arm l).drive hlost
  have hcount := hbalanced.pending_eq
  have hquiet := hbalanced.isQuiet_iff
  refine ⟨⟨by exact_mod_cast hcount, by omega⟩, fun ⟨w, hw, hs⟩ => ?_, fun hq => ⟨?_, ?_⟩,
    hbalanced.still⟩
  · obtain ⟨i, hi⟩ := Array.mem_iff_getElem?.mp hw
    exact hquiet.mpr (hbalanced.leaving hi hs)
  · intro turns' left' time'
    exact Cluster.Balanced.quiet_drive turns' left' time' hbalanced (hquiet.mp hq)
  · intro haborted hhalted
    -- the seeds do not matter, so any opening will do
    let o : Opening N := ⟨fun _ => [], fun _ => { table := .empty 0 0 }, fun _ => 0⟩
    have hconserved := (hc.balanced_arm l).conserves_drive (o := o) hlost
      ⟨haborted, fun hw => hhalted _ (Array.mem_of_getElem? hw)⟩
    rw [hbalanced.scene_pending (hquiet.mp hq), hc.inner_arm, zero_add] at hconserved
    exact (zero_add _).symm.trans hconserved

/-- Two workers explore the small graph to the end. -/
theorem drive_pendant_detects_end :
    let task : Task (Fin 3) Unit := ⟨pendant 1, false, .explore⟩
    let c : Cluster (Fin 3) Unit := .create 2 ()
    let c' := ((c.arm {}).drive task Turn.roundRobin 60 0).2.2
    c.Still ∧ c'.commons.lost = none ∧ c'.commons.isQuiet = true ∧ c'.isSettled = true ∧ c'.Still ∧
      Edge.inner ((c.arm {}).gather (Worker.offers task) task Turn.roundRobin 60 0) =
        (c.arm {}).gather (Worker.generates task) task Turn.roundRobin 60 0 := by
  intro task c c'
  have hc : c.Still := Cluster.still_create 2 ()
  have hlost : c'.commons.lost = none := by decide +kernel
  have hquiet : c'.commons.isQuiet = true := by decide +kernel
  have hsettled : c'.isSettled = true := by decide +kernel
  have haborted : c'.commons.aborted = false := by decide +kernel
  have hhalted : c'.workers.all (!·.halted) = true := by decide +kernel
  obtain ⟨-, -, hend, hstill⟩ := drive_detects_end task hc {} rfl hlost
  refine ⟨hc, hlost, hquiet, hsettled, hstill hsettled, (hend hquiet).2 haborted fun w hw => ?_⟩
  simpa using Array.all_eq_true_iff_forall_mem.mp hhalted w hw

end Ghosts

end FairCycle
