/-
# Supersteps come to an end

A pass in which only so many edges come up comes to its end however the workers take their turns,
as long as every one of them gets a turn again and again (`Turn.Fair`).  That holds of every graph,
also when somebody breaks down on the way.

The argument weighs what is left to do.  Every edge weighs less the closer it is to being handled,
an edge that may still come up weighs most, and a worker weighs more the further it is from
leaving.  A turn makes the weight smaller, or it is a step on the circle of an idle worker, who
looks into the inbox, sees that not all is quiet, and waits (`Worker.Moves.headway`).  Then
somebody else has something to do, and the weight falls as soon as that worker has come to it.

The last section applies this to passes over a terrain.
-/
import FairCycle.Proofs.Traffic

namespace FairCycle

variable {N σ : Type} [Ord N]

/-! ## 1. What is left to do -/

/-- What a worker still has to do. -/
def Worker.effort (w : Worker N) : Nat :=
  2 * w.queue.toList.length +
    match w.stance with
    | .waiting => 6
    | .ready => if w.active then 5 else 2
    | .routing _ targets => 6 + 10 * targets.length
    | .posting _ _ rest => 15 + 10 * rest.length
    | .listening => if w.active then 4 else 2
    | .holding _ => if w.active then 11 else 9
    | .queueing _ => 8
    | .resting => if w.active then 3 else 2
    | .testing | .dozing => 2
    | .leaving => 1
    | .gone | .lost => 0

/-- What all workers still have to do, apart from the edges that may still come up. -/
def Cluster.effort (c : Cluster N σ) : Nat :=
  (c.workers.toList.map Worker.effort).sum + 8 * Multiset.card c.commons.letters

/-- The edge that a worker takes off its queue in its next turn, if it takes one. -/
def Worker.takesOff (w : Worker N) (k : Commons N σ) : Multiset (Edge N) := (w.upNext k).toList

/-- The edges that come up in the next turn of a worker: the seeds that it begins with, or the
edges that it generates. -/
def Worker.takesOn [Std.TransOrd N] [Std.LawfulEqOrd N] (task : Task N σ) (w : Worker N)
    (k : Commons N σ) : Multiset (Edge N) :=
  match w.stance with
  | .waiting =>
    match (task.pass.start task.graph (w.desk, k.memory)).1 with
    | .ok seeds => seeds.map Edge.seed
    | .error _ => 0
  | _ => w.generates task k

/-! ## 2. Headway -/

/-- A step on the circle of an idle worker. -/
inductive Worker.Idles (w : Worker N) (k : Commons N σ) (w' : Worker N) : Prop
  | drains (hs : w.stance = .ready) (hs' : w'.stance = .listening)
  | rests (hs : w.stance = .listening) (hs' : w'.stance = .resting) (hq : w.inbox k = [])
  | settles (hs : w.stance = .resting) (hs' : w'.stance = .testing)
  | dozes (hs : w.stance = .testing) (hs' : w'.stance = .dozing) (hk : k.isQuiet = false)
  | wakes (hs : w.stance = .dozing) (hs' : w'.stance = .ready) (hq : w.inbox k = [])
  | stays (hs : w.stance = .gone ∨ w.stance = .lost) (hs' : w'.stance = w.stance)

section Rules

variable [Std.TransOrd N] [Std.LawfulEqOrd N] {task : Task N σ} {size : Nat} {w w' : Worker N}
  {k k' : Commons N σ}

/-- The weight falls in a turn, more than the edges that come up in it make up for. -/
def Worker.Gains (task : Task N σ) (w : Worker N) (k : Commons N σ) (w' : Worker N)
    (k' : Commons N σ) : Prop :=
  w'.effort + 8 * Multiset.card k'.letters <
    w.effort + 8 * Multiset.card k.letters + 10 * Multiset.card (w.takesOn task k)

/-- A worker that is idle or lost takes a step on its circle, and nothing else happens. -/
structure Worker.Circles (w : Worker N) (k : Commons N σ) (w' : Worker N)
    (k' : Commons N σ) : Prop where
  idle : w.active = true → w.stance = .lost
  step : w.Idles k w'
  next : w.upNext k = none
  inboxes : k'.inboxes = k.inboxes
  quiet : k'.isQuiet = k.isQuiet
  effort : w'.effort = w.effort

theorem Worker.takesOn_of_ne {w : Worker N} (hs : w.stance ≠ .waiting) :
    w.takesOn task k = w.generates task k := by
  unfold takesOn
  split
  · rename_i hw
    exact absurd hw hs
  · rfl

theorem Worker.takesOn_of_start {seeds : List N} {p : Desk N × σ} (hs : w.stance = .waiting)
    (hrun : task.pass.start task.graph (w.desk, k.memory) = (.ok seeds, p)) :
    w.takesOn task k = (seeds.map Edge.seed : List (Edge N)) := by
  simp only [takesOn, hs, hrun]

/-- Most turns leave the letters alone. -/
theorem Worker.Gains.of_effort (hl : k'.letters = k.letters) (he : w'.effort < w.effort) :
    w.Gains task k w' k' := by
  rw [Gains, hl]
  omega

/-- An edge that is handled weighs more than all that comes of it. -/
theorem Worker.gains_taken {e : Edge N} {q : Queue (Edge N)} {r : Except Stop (Progress N)}
    {d : Desk N} {memory : σ} (place : w.Placed size) (hs : w.stance = .ready)
    (hh : w.halted = false) (ha : k.aborted = false) (hq : w.queue.toList = e :: q.toList)
    (hr : Regular r) (hrun : handleEdge task e (w.desk, k.memory) = (r, d, memory))
    (hk : k'.letters = k.letters) :
    w.Gains task k ({ w with queue := q, desk := d }.taken r) k' := by
  have hact : w.active = true := place.active hs hq
  have hbefore : w.effort = 2 * (q.toList.length + 1) + 5 := by
    simp only [effort, hs, hq, hact, List.length_cons, if_true]
  have htakes : w.takesOn task k = newEdges r := by
    rw [takesOn_of_ne (by simp [hs]), generates_of_some (upNext_eq_some hs hh ha hq), hrun]
  rcases r with (_ | _ | _) | (_ | _ | ⟨source, targets⟩)
  case error.crash | error.outOfTurns => exact hr.elim
  case ok.next =>
    refine .of_effort hk ?_
    rw [hbefore]
    simp only [effort, taken, hs, hact, if_true]
    omega
  case ok.expand =>
    have heffort : ({ w with queue := q, desk := d }.taken (.ok (.expand source targets))).effort =
        2 * q.toList.length + (6 + 10 * targets.length) := rfl
    rw [Gains, htakes, heffort, hbefore, hk, Multiset.coe_card, length_newEdges]
    omega
  case error.fault | ok.halt =>
    refine .of_effort hk ?_
    rw [hbefore]
    simp only [effort, taken, halt, hs, hact, if_true, Queue.toList_empty, List.length_nil]
    omega

/-- A letter weighs less than the edge that it is written for. -/
theorem Worker.gains_posted {l : Letter N} {receiver : Nat} {rest : List N}
    (hs : w.stance = .posting receiver l rest) (hreceiver : receiver < k.inboxes.size)
    (hk : k'.letters = (k.deliver receiver l).letters) :
    w.Gains task k (w.go (.routing l.source rest)) k' := by
  rw [Gains, hk, Commons.letters_deliver hreceiver l, Multiset.card_cons]
  simp only [effort, go, hs]
  omega

/-- A letter weighs more in an inbox than in the hand of the worker that takes it out. -/
theorem Worker.gains_received {l : Letter N} (place : w.Placed size)
    (hs : w.stance = .listening ∨ w.stance = .dozing) (hk : k.letters = l.edge ::ₘ k'.letters) :
    w.Gains task k (w.go (.holding l)) k' := by
  have heffort : (w.go (.holding l)).effort < w.effort + 8 := by
    rcases hs with hs | hs
    · cases hact : w.active
      all_goals
        simp only [effort, go, hs, hact, Bool.false_eq_true, if_false, if_true]
        omega
    · simp only [Placed, hs] at place
      simp only [effort, go, hs, place.2, Bool.false_eq_true, if_false]
      omega
  rw [Gains, hk, Multiset.card_cons]
  omega

variable {memory : σ} {log : Array Event}

/-- **A turn makes headway, or a worker that is idle goes around.** -/
theorem Worker.Moves.headway (h : w.Moves task k memory log w' k')
    (place : w.stance = .lost ∨ w.Placed size) (hsize : k.inboxes.size = size) :
    w.Gains task k w' k' ∨ w.Circles k w' k' := by
  rcases place with hlost | place
  · cases h with
    | stays hs =>
      refine .inr ⟨fun _ => hlost, .stays hs rfl, ?_, rfl, rfl, rfl⟩
      simp only [upNext, hlost]
    | receives hs => exact absurd hlost (by rcases hs with hs | hs <;> simp [hs])
    | _ => simp_all
  cases h with
  | begins hs hrun =>
    left
    simp only [Placed, hs] at place
    rw [Gains, takesOn_of_start hs hrun, Multiset.coe_card, List.length_map]
    change _ + 8 * Multiset.card k.letters < _
    simp only [effort, hs, place.1, Queue.toList_append, List.length_append, List.length_map,
      if_true]
    omega
  | fails hs hrun =>
    left
    refine .of_effort rfl ?_
    simp only [effort, go, hs]
    omega
  | handles hs hh ha hq hr hrun => exact .inl (gains_taken place hs hh ha hq hr hrun rfl)
  | breaks hs hh hq hr hrun =>
    left
    refine .of_effort rfl ?_
    simp only [effort, go, hs, hq, List.length_cons]
    omega
  | stops hs hh ha =>
    cases hact : w.active with
    | true =>
      left
      refine .of_effort rfl ?_
      simp only [effort, go, halt, hs, hact, if_true, Queue.toList_empty, List.length_nil]
      omega
    | false =>
      right
      simp only [Placed, hs] at place
      refine ⟨fun h => absurd (hact.symm.trans h) (by decide), .drains hs rfl, ?_, rfl, rfl, ?_⟩
      · simp only [upNext, hs, ha, Bool.or_true, if_true]
      · simp only [effort, go, halt, hs, hact, place hact, Queue.toList_empty, Bool.false_eq_true,
          if_false]
  | drains hs hq =>
    cases hact : w.active with
    | true =>
      left
      refine .of_effort rfl ?_
      simp only [effort, go, hs, hact, if_true]
      omega
    | false =>
      right
      refine ⟨fun h => absurd (hact.symm.trans h) (by decide), .drains hs rfl, ?_, rfl, rfl, ?_⟩
      · rcases hq with hh | hq
        · simp [upNext, hs, hh]
        · simp [upNext, hs, hq]
      · simp only [effort, go, hs, hact, Bool.false_eq_true, if_false]
  | routed hs =>
    left
    simp only [Placed, hs] at place
    refine .of_effort rfl ?_
    simp only [effort, go, hs, place.1, if_true]
    omega
  | keeps hs hv =>
    left
    refine .of_effort rfl ?_
    simp only [effort, hs, Queue.toList_push, List.length_append, List.length_cons,
      List.length_nil]
    omega
  | addresses hs =>
    left
    refine .of_effort rfl ?_
    simp only [effort, go, hs, List.length_cons]
    omega
  | posts hs =>
    left
    simp only [Placed, hs] at place
    exact gains_posted hs (by rw [hsize]; exact place.2.2) rfl
  | receives hs hq hq' =>
    left
    obtain ⟨q₀, hq₀, hlist⟩ := exists_inbox hq
    exact gains_received place hs (Commons.letters_receive hq₀ hlist hq' rfl)
  | rests hs hq =>
    cases hact : w.active with
    | true =>
      left
      refine .of_effort rfl ?_
      simp only [effort, go, hs, hact, if_true]
      omega
    | false =>
      right
      refine ⟨fun h => absurd (hact.symm.trans h) (by decide), .rests hs rfl hq, ?_, rfl, rfl, ?_⟩
      · simp only [upNext, hs]
      · simp only [effort, go, hs, hact, Bool.false_eq_true, if_false]
  | wakes hs hq =>
    right
    simp only [Placed, hs] at place
    refine ⟨fun h => absurd (place.2.symm.trans h) (by decide), .wakes hs rfl hq, ?_, rfl, rfl, ?_⟩
    · simp only [upNext, hs]
    · simp only [effort, go, hs, place.2, Bool.false_eq_true, if_false]
  | holds hs =>
    left
    refine .of_effort rfl ?_
    simp only [effort, hs]
    split <;> omega
  | @queues l hs =>
    left
    simp only [Placed, hs] at place
    refine .of_effort rfl ?_
    have hlen : (if w.halted then w.queue else w.queue.push l.edge).toList.length ≤
        w.queue.toList.length + 1 := by
      split <;> simp
    simp only [effort, hs, place, if_true]
    omega
  | settles hs =>
    cases hact : w.active with
    | true =>
      left
      refine .of_effort rfl ?_
      simp only [effort, hs, hact, if_true]
      omega
    | false =>
      right
      refine ⟨fun h => absurd (hact.symm.trans h) (by decide), .settles hs rfl, ?_, rfl, rfl, ?_⟩
      · simp only [upNext, hs]
      · simp only [effort, hs, Bool.false_eq_true, hact, if_false]
  | quits hs hk =>
    left
    refine .of_effort rfl ?_
    simp only [effort, go, hs]
    omega
  | dozes hs hk =>
    right
    simp only [Placed, hs] at place
    refine ⟨fun h => absurd (place.2.symm.trans h) (by decide), .dozes hs rfl hk, ?_, rfl, rfl, ?_⟩
    · simp only [upNext, hs]
    · simp only [effort, go, hs]
  | leaves hs =>
    left
    refine .of_effort rfl ?_
    simp only [effort, go, hs]
    omega
  | stays hs =>
    right
    refine ⟨fun h => ?_, .stays hs rfl, ?_, rfl, rfl, rfl⟩
    · rcases hs with hs | hs
      · simp only [Placed, hs] at place
        exact absurd (place.2.symm.trans h) (by decide)
      · exact hs
    · rcases hs with hs | hs
      all_goals simp only [upNext, hs]

/-! ## 3. Someone has something to do -/

/-- How many turns an idle worker takes until it looks into its inbox. -/
def Stance.toInbox : Stance N → Nat
  | .ready | .testing => 1
  | .resting => 2
  | _ => 0

/-- How many turns an idle worker takes until it sees whether all is quiet. -/
def Stance.toTest : Stance N → Nat
  | .resting => 1
  | .listening => 2
  | .ready => 3
  | .dozing => 4
  | _ => 0

/-- A worker makes headway within `n` more turns of its own: it is active or has a letter, is
about to leave, has a letter in its inbox, or may leave since all is quiet. -/
def Worker.Urgent (w : Worker N) (k : Commons N σ) (n : Nat) : Prop :=
  w.stance.isFinal = false ∧
    (w.active = true ∨ (∃ l, w.stance = .holding l) ∨ w.stance = .leaving ∨
      (w.inbox k ≠ [] ∧ w.stance.toInbox ≤ n) ∨ (k.isQuiet = true ∧ w.stance.toTest ≤ n))

omit [Std.TransOrd N] [Std.LawfulEqOrd N] in
/-- On its circle a worker comes closer to where it makes headway. -/
theorem Worker.Urgent.circles {n : Nat} (hu : w.Urgent k n) (h : w.Circles k w' k')
    (hid : w'.id = w.id) : ∃ m < n, w'.Urgent k' m := by
  have hinbox : w'.inbox k' = w.inbox k := by rw [inbox, inbox, h.inboxes, hid]
  have hquiet := h.quiet
  obtain ⟨hfinal, ha | ⟨l, hl⟩ | hl | ⟨hi, hn⟩ | ⟨hk, hn⟩⟩ := hu
  · rw [h.idle ha] at hfinal
    cases hfinal
  · cases h.step
    all_goals simp_all
  · cases h.step
    all_goals simp_all
  · refine ⟨w'.stance.toInbox, ?_, ?_, .inr (.inr (.inr (.inl ⟨hinbox ▸ hi, le_rfl⟩)))⟩
    all_goals
      cases h.step
      case stays hs _ => rcases hs with hs | hs <;> simp [hs, Stance.isFinal] at hfinal
      all_goals simp_all [Stance.toInbox, Stance.isFinal] <;> omega
  · refine ⟨w'.stance.toTest, ?_, ?_, .inr (.inr (.inr (.inr ⟨hquiet.trans hk, le_rfl⟩)))⟩
    all_goals
      cases h.step
      case stays hs _ => rcases hs with hs | hs <;> simp [hs, Stance.isFinal] at hfinal
      all_goals simp_all [Stance.toTest, Stance.isFinal] <;> omega

omit [Ord N] [Std.TransOrd N] [Std.LawfulEqOrd N] in
theorem Commons.exists_letter (h : Multiset.card k.letters ≠ 0) :
    ∃ (i : Nat) (q : Queue (Letter N)), k.inboxes[i]? = some q ∧ q.toList ≠ [] := by
  by_contra hnone
  apply h
  rw [Multiset.card_eq_zero]
  apply List.sum_eq_zero
  intro b hb
  obtain ⟨q, hq, rfl⟩ := List.mem_map.mp hb
  obtain ⟨i, hi⟩ := List.mem_iff_getElem?.mp hq
  rw [Array.getElem?_toList] at hi
  have hempty : q.toList = [] := by
    by_contra hne
    exact hnone ⟨i, q, hi, hne⟩
  rw [hempty]
  rfl

/-- What always holds between the workers in a pass, also when somebody has broken down. -/
structure Cluster.Manned (c : Cluster N σ) : Prop where
  inboxes : c.commons.inboxes.size = c.workers.size
  id : ∀ {i : Nat} {w : Worker N}, c.workers[i]? = some w → w.id = i
  poised : ∀ {i : Nat} {w : Worker N}, c.workers[i]? = some w →
    w.stance = .lost ∨ w.Poised c.workers.size
  /-- As long as nobody is lost the shared counter is right. -/
  balanced : c.commons.lost = none → c.Balanced

omit [Std.TransOrd N] [Std.LawfulEqOrd N] in
theorem Cluster.Balanced.manned {c : Cluster N σ} (hc : c.Balanced) : c.Manned :=
  ⟨hc.inboxes, hc.id, fun hw => .inr (hc.poised hw), fun _ => hc⟩

namespace Cluster.Manned

variable {c : Cluster N σ} {i : Nat}

/-- The order survives a turn of one worker. -/
theorem replace (hc : c.Manned) (hw : c.workers[i]? = some w)
    (h : w.Moves task c.commons memory log w' k') : (c.replace i w' k').Manned := by
  obtain ⟨hid, hinboxes, hlost, -⟩ := h.frame
  have hpos : 0 < c.workers.size := Nat.zero_lt_of_lt (Array.getElem?_eq_some_iff.mp hw).1
  refine
    { inboxes := by rw [size_replace]; exact hinboxes.trans hc.inboxes
      id := forall_replace (P := fun j v => v.id = j) hw (hid.trans (hc.id hw)) hc.id
      poised := by
        rw [size_replace]
        refine forall_replace (P := fun _ v => v.stance = .lost ∨ v.Poised c.workers.size) hw ?_
          hc.poised
        rcases hc.poised hw with hs | hp
        · cases h with
          | stays => exact .inl hs
          | receives hs' => exact absurd hs (by rcases hs' with h | h <;> simp [h])
          | _ => simp_all
        · exact (em (w'.stance = .lost)).imp_right (h.poised hpos hp)
      balanced := fun hnone => (hc.balanced (hlost hnone)).replace hw h hnone }

theorem turn (hc : c.Manned) (task : Task N σ) (turn : Turn) : (c.turn task turn).Manned := by
  rcases c.turn_cases task turn with ⟨-, heq⟩ | ⟨w, w', k', memory, log, hw, hmove, heq⟩
  · rw [heq]
    exact hc
  · rw [heq]
    exact hc.replace hw hmove

omit [Std.TransOrd N] [Std.LawfulEqOrd N] in
theorem placed (hc : c.Manned) (hw : c.workers[i]? = some w) :
    w.stance = .lost ∨ w.Placed c.workers.size :=
  (hc.poised hw).imp_right (·.placed)

omit [Std.TransOrd N] [Std.LawfulEqOrd N] in
/-- As long as some worker is in the pass, some worker makes headway soon. -/
theorem exists_urgent (hc : c.Manned) (hs : c.isSettled = false) :
    ∃ (i : Nat) (w : Worker N) (n : Nat), c.workers[i]? = some w ∧ w.Urgent c.commons n := by
  by_cases hq : c.commons.isQuiet = true
  · obtain ⟨i, hi, hfinal⟩ := Array.all_eq_false.mp hs
    exact ⟨i, c.workers[i], c.workers[i].stance.toTest, Array.getElem?_eq_getElem hi,
      by simpa using hfinal, .inr (.inr (.inr (.inr ⟨hq, le_rfl⟩)))⟩
  obtain ⟨hp, hlost⟩ : c.commons.pending ≠ 0 ∧ c.commons.lost = none := by
    simpa [Commons.isQuiet] using hq
  have hbal := hc.balanced hlost
  by_cases hcount : ∃ (i : Nat) (w : Worker N), c.workers[i]? = some w ∧ w.counted ≠ 0
  · obtain ⟨i, w, hw, hcount⟩ := hcount
    have place := (hbal.poised hw).placed
    refine ⟨i, w, 0, hw, ?_⟩
    cases ha : w.active with
    | true =>
      refine ⟨?_, .inl ha⟩
      cases hst : w.stance
      all_goals simp_all [Stance.isFinal, Worker.Placed]
    | false =>
      cases hst : w.stance
      all_goals simp_all [Worker.counted, Worker.Placed, Worker.Urgent, Stance.isFinal]
  · -- nobody counts, so letters do
    have hletters : Multiset.card c.commons.letters ≠ 0 := by
      intro hz
      have hsum : (c.workers.toList.map Worker.counted).sum = 0 := by
        rw [List.sum_eq_zero_iff]
        intro n hn
        obtain ⟨w, hw, rfl⟩ := List.mem_map.mp hn
        obtain ⟨i, hi⟩ := List.mem_iff_getElem?.mp hw
        rw [Array.getElem?_toList] at hi
        by_contra hne
        exact hcount ⟨i, w, hi, hne⟩
      have := hbal.pending
      omega
    obtain ⟨i, q, hq, hne⟩ := Commons.exists_letter hletters
    have hi : i < c.workers.size := by
      rw [← hc.inboxes]
      exact (Array.getElem?_eq_some_iff.mp hq).1
    have hw := Array.getElem?_eq_getElem hi
    refine ⟨i, _, _, hw, ?_, .inr (.inr (.inr (.inl ⟨?_, le_rfl⟩)))⟩
    · by_contra hfinal
      refine hp (hbal.leaving hw (.inr ?_))
      have hne := (hbal.poised hw).ne_lost
      cases hst : c.workers[i].stance
      all_goals simp_all [Stance.isFinal]
    · rw [Worker.inbox, hc.id hw, hq]
      exact hne

omit [Std.TransOrd N] [Std.LawfulEqOrd N] in
/-- What a turn of one worker does to the weight. -/
theorem exists_effort (hw : c.workers[i]? = some w) (w' : Worker N) (k' : Commons N σ) :
    ∃ others, c.effort = w.effort + others + 8 * Multiset.card c.commons.letters ∧
      (c.replace i w' k').effort = w'.effort + others + 8 * Multiset.card k'.letters := by
  obtain ⟨others, hsum, hset⟩ := exists_sum_replace Worker.effort hw
  exact ⟨others, by rw [Cluster.effort, hsum], by rw [Cluster.effort, hset]; rfl⟩

/-- **A turn in which an edge is handled makes headway**, and no turn adds more than comes up in
it. -/
theorem effort_turn (hc : c.Manned) (task : Task N σ) (turn : Turn) :
    (c.turn task turn).effort +
        Multiset.card (c.atTurn Worker.takesOff turn) ≤
      c.effort + 10 * Multiset.card (c.atTurn (Worker.takesOn task) turn) := by
  rcases c.turn_cases task turn with ⟨hnone, heq⟩ | ⟨w, w', k', memory, log, hw, hmove, heq⟩
  · rw [heq]
    simp only [atTurn, hnone]
    exact Nat.le_add_right _ _
  · rw [heq]
    simp only [atTurn, hw]
    obtain ⟨others, h₁, h₂⟩ := exists_effort hw w' k'
    rw [h₁, h₂]
    rcases hmove.headway (hc.placed hw) hc.inboxes with hgain | hcirc
    · rw [Worker.Gains] at hgain
      have hone : Multiset.card (w.takesOff c.commons) ≤ 1 := by
        unfold Worker.takesOff
        cases w.upNext c.commons <;> simp
      omega
    · have hletters : k'.letters = c.commons.letters := by
        rw [Commons.letters, Commons.letters, hcirc.inboxes]
      rw [Worker.takesOff, hcirc.next, hcirc.effort, hletters]
      exact Nat.le_add_right _ _

/-- While a worker that makes headway soon has not come to it, others only go around. -/
theorem urgent_turn (hc : c.Manned) (hw : c.workers[i]? = some w) {n : Nat}
    (hu : w.Urgent c.commons n) (task : Task N σ) (turn : Turn) :
    (c.turn task turn).effort <
        c.effort + 10 * Multiset.card (c.atTurn (Worker.takesOn task) turn) ∨
      ((c.turn task turn).effort = c.effort ∧
        ∃ m v, m ≤ n ∧ (turn.worker % c.workers.size = i → m < n) ∧
          (c.turn task turn).workers[i]? = some v ∧
          v.Urgent (c.turn task turn).commons m) := by
  rcases c.turn_cases task turn with ⟨hnone, heq⟩ | ⟨v, v', k', memory, log, hv, hmove, heq⟩
  · have hi : i < c.workers.size := (Array.getElem?_eq_some_iff.mp hw).1
    have hlt := Nat.mod_lt turn.worker (Nat.zero_lt_of_lt hi)
    rw [Array.getElem?_eq_getElem hlt] at hnone
    exact nomatch hnone
  rw [heq]
  simp only [atTurn, hv]
  obtain ⟨others, h₁, h₂⟩ := exists_effort hv v' k'
  rw [h₁, h₂]
  rcases hmove.headway (hc.placed hv) hc.inboxes with hgain | hcirc
  · left
    rw [Worker.Gains] at hgain
    omega
  · right
    have hletters : k'.letters = c.commons.letters := by
      rw [Commons.letters, Commons.letters, hcirc.inboxes]
    refine ⟨by rw [hcirc.effort, hletters], ?_⟩
    rcases eq_or_ne (turn.worker % c.workers.size) i with rfl | hne
    · obtain rfl := Option.some.inj (hv.symm.trans hw)
      obtain ⟨m, hm, hu'⟩ := hu.circles hcirc hmove.frame.1
      exact ⟨m, v', hm.le, fun _ => hm, replace_self hv, hu'⟩
    · refine ⟨n, w, le_rfl, fun h => absurd h hne, by rw [replace_of_ne hne.symm]; exact hw, ?_⟩
      change w.Urgent k' n
      rw [Worker.Urgent, Worker.inbox, hcirc.inboxes, hcirc.quiet]
      exact hu

end Cluster.Manned

/-! ## 4. Fair orders of turns -/

/-- Every worker gets a turn again and again. -/
def Turn.Fair (peers : Nat) (turns : Nat → Turn) : Prop :=
  ∀ i < peers, ∀ time, ∃ wait, (turns (time + wait)).worker % peers = i

/-- Workers that come one after the other come again and again. -/
theorem Turn.fair_roundRobin (peers : Nat) : Turn.Fair peers Turn.roundRobin := by
  intro i hi time
  refine ⟨peers * (time + 1) + i - time, ?_⟩
  have hle : 1 * (time + 1) ≤ peers * (time + 1) := Nat.mul_le_mul_right _ (by omega)
  rw [roundRobin, Nat.add_sub_cancel' (by omega), Nat.mul_add_mod, Nat.mod_eq_of_lt hi]

/-- A cluster comes to the end of a superstep, and how it ends does not depend on how many more
turns there would be. -/
def Cluster.Settles (task : Task N σ) (turns : Nat → Turn) (time : Nat) (c : Cluster N σ) : Prop :=
  ∃ n c', c'.isSettled = true ∧
    ∀ left, c.drive task turns (n + left) time = (left, time + n, c')

/-- However many turns there are, at most `bound` edges come up. -/
def Cluster.TakesOnAtMost (bound : Nat) (task : Task N σ) (turns : Nat → Turn) (time : Nat)
    (c : Cluster N σ) : Prop :=
  ∀ left, Multiset.card (c.gather (Worker.takesOn task) task turns left time) ≤ bound

variable {turns : Nat → Turn} {time : Nat} {c : Cluster N σ}

theorem Cluster.settles_of_settled (h : c.isSettled = true) : c.Settles task turns time := by
  refine ⟨0, c, h, fun left => ?_⟩
  cases left with
  | zero => rfl
  | succ left => rw [Nat.zero_add, drive, if_pos h]; rfl

theorem Cluster.settles_of_turn (hs : ¬ c.isSettled = true)
    (h : (c.turn task (turns time)).Settles task turns (time + 1)) : c.Settles task turns time := by
  obtain ⟨n, c', hc', hn⟩ := h
  refine ⟨n + 1, c', hc', fun left => ?_⟩
  rw [Nat.add_right_comm, drive, if_neg hs, hn, Nat.add_assoc, Nat.add_comm 1 n]

theorem Cluster.size_turn (task : Task N σ) (turn : Turn) (c : Cluster N σ) :
    (c.turn task turn).workers.size = c.workers.size := by
  rcases c.turn_cases task turn with ⟨-, heq⟩ | ⟨w, w', k', memory, log, hw, hmove, heq⟩
  · rw [heq]
  · rw [heq, size_replace]

/-- What comes up in a turn can no longer come up later. -/
theorem Cluster.TakesOnAtMost.turn {bound : Nat} (h : c.TakesOnAtMost bound task turns time)
    (hs : ¬ c.isSettled = true) :
    Multiset.card (c.atTurn (Worker.takesOn task) (turns time)) ≤ bound ∧
      (c.turn task (turns time)).TakesOnAtMost
        (bound - Multiset.card (c.atTurn (Worker.takesOn task) (turns time))) task turns
        (time + 1) := by
  have hstep : ∀ left, Multiset.card (c.atTurn (Worker.takesOn task) (turns time)) +
      Multiset.card ((c.turn task (turns time)).gather (Worker.takesOn task) task turns left
        (time + 1)) ≤ bound := by
    intro left
    have hle := h (left + 1)
    rwa [gather, if_neg hs, Multiset.card_add] at hle
  refine ⟨(Nat.le_add_right _ _).trans (hstep 0), fun left => ?_⟩
  have hle := hstep left
  omega

/-- **A superstep in which only so many edges come up comes to an end** if every worker gets a turn
again and again. -/
theorem Cluster.Manned.settles {bound : Nat} (hc : c.Manned)
    (hfair : Turn.Fair c.workers.size turns) (hb : c.TakesOnAtMost bound task turns time) :
    c.Settles task turns time := by
  suffices h : ∀ (e size : Nat) (c : Cluster N σ) (bound time : Nat), Turn.Fair size turns →
      10 * bound + c.effort = e → c.Manned → c.workers.size = size →
      c.TakesOnAtMost bound task turns time → c.Settles task turns time from
    h _ _ c bound time hfair rfl hc rfl hb
  clear hb hc hfair
  intro e size
  induction e using Nat.strong_induction_on with
  | _ e ih =>
    -- the weight stays only until the worker that makes headway soon has had its turns
    have hwait : ∀ (n wait i : Nat) (c : Cluster N σ) (w : Worker N) (bound time : Nat),
        Turn.Fair size turns → 10 * bound + c.effort = e → c.Manned → c.workers.size = size →
        c.TakesOnAtMost bound task turns time →
        c.workers[i]? = some w → w.Urgent c.commons n →
        (turns (time + wait)).worker % size = i → c.Settles task turns time := by
      intro n
      induction n using Nat.strong_induction_on with
      | _ n ihn =>
        -- one turn of whoever's turn it is
        have hstep : ∀ (i : Nat) (c : Cluster N σ) (w : Worker N) (bound time : Nat),
            Turn.Fair size turns → 10 * bound + c.effort = e → c.Manned → c.workers.size = size →
            c.TakesOnAtMost bound task turns time →
            c.workers[i]? = some w → w.Urgent c.commons n →
            (∀ (c' : Cluster N σ) (v : Worker N) (bound' : Nat),
              10 * bound' + c'.effort = e → c'.Manned → c'.workers.size = size →
              c'.TakesOnAtMost bound' task turns (time + 1) → c'.workers[i]? = some v →
              v.Urgent c'.commons n → (turns time).worker % size ≠ i →
              c'.Settles task turns (time + 1)) →
            c.Settles task turns time := by
          intro i c w bound time hfair he hc hsize hb hw hu hlater
          by_cases hs : c.isSettled = true
          · exact settles_of_settled hs
          · refine settles_of_turn hs ?_
            obtain ⟨hle, hb'⟩ := hb.turn hs
            have hc' := hc.turn task (turns time)
            have hsize' := (size_turn task (turns time) c).trans hsize
            have hweight := hc.effort_turn task (turns time)
            rcases hc.urgent_turn hw hu task (turns time) with hlt | ⟨heq, m, v, hm, hmi, hv, hu'⟩
            · exact ih _ (by omega) _ _ (time + 1) hfair rfl hc' hsize' hb'
            · rw [hsize] at hmi
              rcases (Nat.zero_le (Multiset.card (c.atTurn (Worker.takesOn task)
                (turns time)))).lt_or_eq with hpos | hzero
              · exact ih _ (by omega) _ _ (time + 1) hfair rfl hc' hsize' hb'
              rw [← hzero, Nat.sub_zero] at hb'
              rcases hm.lt_or_eq with hlt | rfl
              · obtain ⟨wait, hwait⟩ := hfair i (by
                  rw [← hsize]; exact (Array.getElem?_eq_some_iff.mp hw).1) (time + 1)
                exact ihn m hlt wait i _ v bound (time + 1) hfair (by rw [heq]; exact he) hc' hsize'
                  hb' hv hu' hwait
              · exact hlater _ v bound (by rw [heq]; exact he) hc' hsize' hb' hv hu'
                  fun hi => (hmi hi).ne rfl
        intro wait
        induction wait with
        | zero =>
          intro i c w bound time hfair he hc hsize hb hw hu hturn
          exact hstep i c w bound time hfair he hc hsize hb hw hu
            fun _ _ _ _ _ _ _ _ _ hne => absurd hturn hne
        | succ wait ihw =>
          intro i c w bound time hfair he hc hsize hb hw hu hturn
          refine hstep i c w bound time hfair he hc hsize hb hw hu
            fun c' v bound' he' hc' hsize' hb' hv hu' _ => ?_
          exact ihw i c' v bound' (time + 1) hfair he' hc' hsize' hb' hv hu' (by
            rw [Nat.add_right_comm, Nat.add_assoc]; exact hturn)
    intro c bound time hfair he hc hsize hb
    cases hs : c.isSettled with
    | true => exact settles_of_settled hs
    | false =>
      obtain ⟨i, w, n, hw, hu⟩ := hc.exists_urgent hs
      obtain ⟨wait, hturn⟩ := hfair i (by
        rw [← hsize]; exact (Array.getElem?_eq_some_iff.mp hw).1) time
      exact hwait n wait i c w bound time hfair he hc hsize hb hw hu hturn

end Rules

/-! ## 5. Passes over a terrain -/

namespace Worker

/-- The edges that a worker has generated. -/
def generated (o : Opening N) (w : Worker N) : Nat := (w.shown o).ledger.transitions

/-- The number of seeds that a worker has still to begin with. -/
def due (o : Opening N) (w : Worker N) : Nat :=
  match w.stance with
  | .waiting => (o.seeds w.id).length
  | _ => 0

variable [Std.TransOrd N] [Std.LawfulEqOrd N] {t : Terrain N σ} {pass : Pass} {o : Opening N}
  {w w' : Worker N} {k k' : Commons N σ} {memory : σ} {log : Array Event}

/-- What comes up in a turn is generated in it, or was due before. -/
theorem Turns.takesOn_eq (h : w.Turns t pass o k memory log w' k') (hw : w.Fit t pass o) :
    Multiset.card (w.takesOn (t.task pass) k) + w.generated o + w'.due o =
      w'.generated o + w.due o := by
  have same : w.upNext k = none → w.stance ≠ .waiting → w'.shown o = w.shown o →
      w'.due o = w.due o → Multiset.card (w.takesOn (t.task pass) k) + w.generated o + w'.due o =
        w'.generated o + w.due o := by
    intro hnone hs hshown hdue
    rw [takesOn_of_ne hs, generates_of_none hnone, generated, generated, hshown, hdue,
      Multiset.card_zero, Nat.zero_add]
  cases h with
  | begins hs =>
    have course := hw.course
    simp only [OnCourse, hs] at course
    obtain ⟨memory', hrun⟩ := course.2 k.memory
    rw [takesOn_of_start hs hrun, Multiset.coe_card, List.length_map]
    simp only [generated, shown, due, hs]
    omega
  | @handles e q r d hs hh hq hy hr hg ha =>
    obtain ⟨memory', hrun⟩ := hy k.memory
    rw [takesOn_of_ne (by simp [hs]), generates_of_some (upNext_eq_some hs hh ha hq), hrun,
      Multiset.coe_card]
    rcases r with (_ | _ | _) | (_ | _ | _)
    case error.crash | error.outOfTurns => exact hr.elim
    all_goals
      simp only [generated, shown, due, taken, go, halt, hs]
      omega
  | stops hs hh ha =>
    refine same ?_ (by simp [hs]) ?_ ?_
    · simp only [upNext, hs, ha, Bool.or_true, if_true]
    · simp only [shown, go, halt, hs]
    · simp only [due, go, hs]
  | drains hs hq =>
    refine same ?_ (by simp [hs]) ?_ ?_
    · rcases hq with hh | hq
      · simp [upNext, hs, hh]
      · simp [upNext, hs, hq]
    · simp only [shown, go, hs]
    · simp only [due, go, hs]
  | receives hs hq hq' =>
    rcases hs with hs | hs
    all_goals
      exact same (by simp only [upNext, hs]) (by simp [hs]) (by simp only [shown, go, hs])
        (by simp only [due, go, hs])
  | routed hs | keeps hs | addresses hs | posts hs | rests hs | wakes hs | quits hs | dozes hs
  | leaves hs | settles hs | holds hs | queues hs =>
    exact same (by simp only [upNext, hs]) (by simp [hs]) (by simp only [shown, go, hs])
      (by simp only [due, go, hs])
  | stays hs => exact same (by simp only [upNext, hs]) (by simp [hs]) rfl rfl

end Worker

namespace Cluster.Orderly

variable {t : Terrain N σ} {pass : Pass} {o : Opening N} {w : Worker N} {c : Cluster N σ}
  {i limit : Nat} {P : Scene N → Prop}

theorem exists_generated (hc : c.Orderly t pass o) (hw : c.workers[i]? = some w)
    (w' : Worker N) (k' : Commons N σ) :
    ∃ rest, (c.scene o).generated t = w.generated o + rest ∧
      ((c.replace i w' k').scene o).generated t = w'.generated o + rest := by
  have hi : i ∈ Finset.range t.peers := by
    rw [Finset.mem_range, ← hc.size]
    exact (Array.getElem?_eq_some_iff.mp hw).1
  obtain ⟨_, -, hscene⟩ := scene_replace (o := o) hw w' k'
  refine ⟨∑ j ∈ (Finset.range t.peers).erase i, ((c.scene o).desk j).ledger.transitions, ?_, ?_⟩
  · rw [Scene.generated, Scene.total, ← Finset.add_sum_erase _ _ hi, scene_desk hw]
    rfl
  · rw [hscene, Scene.generated, Scene.total, ← Finset.add_sum_erase _ _ hi]
    simp only [Function.update_self]
    congr 1
    refine Finset.sum_congr rfl fun j hj => ?_
    rw [Function.update_of_ne (Finset.ne_of_mem_erase hj)]

variable [Std.TransOrd N] [Std.LawfulEqOrd N]

/-- Over a terrain only the seeds come up, and what a pass generates. -/
theorem takesOn_le (hP : Scene.Keeps t pass limit P) (turns : Nat → Turn) :
    ∀ (left time : Nat) {c : Cluster N σ}, c.Orderly t pass o → P (c.scene o) →
      Multiset.card
          (c.gather (Worker.takesOn (t.task pass)) (t.task pass) turns left time) +
        (c.scene o).generated t ≤ limit + (c.workers.toList.map (Worker.due o)).sum
  | 0, _, c, _, hp => by
    rw [gather, Multiset.card_zero, Nat.zero_add]
    exact (hP.bound (X := 0) hp).trans (Nat.le_add_right _ _)
  | left + 1, time, c, hc, hp => by
    rw [gather]
    split
    · rw [Multiset.card_zero, Nat.zero_add]
      exact (hP.bound (X := 0) hp).trans (Nat.le_add_right _ _)
    · obtain ⟨w, w', k', memory, log, hw, hm, h, heq⟩ := hc.exists_turns (X := 0) hP hp (turns time)
      obtain ⟨hc', hp'⟩ := hc.turn hP hp (turns time)
      have hrest := takesOn_le hP turns left (time + 1) hc' hp'
      have hturn := h.takesOn_eq (hc.fit hw)
      obtain ⟨others, hgen, hgen'⟩ := hc.exists_generated hw w' k'
      obtain ⟨dues, hsum, hset⟩ := exists_sum_replace (Worker.due o) hw
      have hat : c.atTurn (Worker.takesOn (t.task pass)) (turns time) =
          w.takesOn (t.task pass) c.commons := by
        rw [atTurn, hc.size, hw]
      rw [heq, hgen', hset] at hrest
      rw [Multiset.card_add, hat, heq, hgen, hsum]
      omega

/-- **A superstep over a terrain comes to an end** if every worker gets a turn again and again. -/
theorem settles {turns : Nat → Turn} (hP : Scene.Keeps t pass limit P)
    (hfair : Turn.Fair t.peers turns) (time : Nat) (hc : c.Orderly t pass o) (hp : P (c.scene o)) :
    c.Settles (t.task pass) turns time :=
  hc.balanced.manned.settles (hc.size ▸ hfair) fun left =>
    (Nat.le_add_right _ _).trans (takesOn_le hP turns left time hc hp)

end Cluster.Orderly

end FairCycle
