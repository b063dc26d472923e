/-
# The shared counter

The workers know that a pass is over from one counter that they share.  It counts the active
workers and the letters on their way, and this module shows that it counts them rightly, whatever
graph the pass runs over and in whatever order the workers take their turns, as long as nobody
breaks down (`Cluster.Balanced`).

What makes it right is where a worker can stand: `Worker.Placed` says of each place in the loop
what holds of a worker there, so that one that no longer counts has nothing left to do.

To speak of all that happens in a pass, `Cluster.gather` collects what its turns do, turn by turn.
-/
import Mathlib.Algebra.BigOperators.Group.List.Basic
import FairCycle.Proofs.Growth
import FairCycle.Proofs.Moves

namespace FairCycle

variable {N σ : Type} [Ord N]

/-! ## 1. Replacing one part of a sum -/

/-- A sum over a list with one entry replaced. -/
theorem exists_sum_map_set {α M : Type} [AddCommMonoid M] (f : α → M) :
    ∀ {l : List α} {i : Nat} {a : α}, l[i]? = some a →
      ∃ rest, (l.map f).sum = f a + rest ∧ ∀ b, ((l.set i b).map f).sum = f b + rest
  | [], _, _, h => nomatch h
  | x :: l, 0, a, h => by
    obtain rfl : x = a := by simpa using h
    exact ⟨(l.map f).sum, by simp, fun b => by simp⟩
  | x :: l, i + 1, a, h => by
    obtain ⟨rest, hsum, hset⟩ := exists_sum_map_set f (l := l) (i := i) (a := a) (by simpa using h)
    refine ⟨f x + rest, ?_, fun b => ?_⟩
    · rw [List.map_cons, List.sum_cons, hsum, add_left_comm]
    · rw [List.set_cons_succ, List.map_cons, List.sum_cons, hset, add_left_comm]

/-- A cluster after the turn of one of its workers. -/
def Cluster.replace (c : Cluster N σ) (i : Nat) (w : Worker N) (k : Commons N σ) : Cluster N σ :=
  ⟨c.workers.setIfInBounds i w, k⟩

namespace Cluster

variable {c : Cluster N σ} {i : Nat} {w w' : Worker N} {k' : Commons N σ}

theorem replace_self (h : c.workers[i]? = some w) :
    (c.replace i w' k').workers[i]? = some w' := by
  have hi : i < c.workers.size := (Array.getElem?_eq_some_iff.mp h).1
  simp [replace, hi]

theorem replace_of_ne {j : Nat} (h : j ≠ i) :
    (c.replace i w' k').workers[j]? = c.workers[j]? := by
  simp [replace, Ne.symm h]

theorem size_replace : (c.replace i w' k').workers.size = c.workers.size :=
  Array.size_setIfInBounds

/-- What is shown for all workers is shown for the one that was replaced and for the others. -/
theorem forall_replace (hw : c.workers[i]? = some w) {P : Nat → Worker N → Prop} (hself : P i w')
    (hothers : ∀ {j : Nat} {v : Worker N}, c.workers[j]? = some v → P j v) {j : Nat}
    {v : Worker N} (hv : (c.replace i w' k').workers[j]? = some v) : P j v := by
  rcases eq_or_ne j i with rfl | hj
  · rw [replace_self hw] at hv
    exact Option.some.inj hv ▸ hself
  · rw [replace_of_ne hj] at hv
    exact hothers hv

/-- What the workers add up to when one of them was replaced. -/
theorem exists_sum_replace {M : Type} [AddCommMonoid M] (f : Worker N → M)
    (hw : c.workers[i]? = some w) :
    ∃ rest, (c.workers.toList.map f).sum = f w + rest ∧
      ∀ w' k', ((c.replace i w' k').workers.toList.map f).sum = f w' + rest := by
  obtain ⟨rest, hsum, hset⟩ :=
    exists_sum_map_set f (Array.getElem?_toList ▸ hw : c.workers.toList[i]? = some w)
  refine ⟨rest, hsum, fun w' k' => ?_⟩
  rw [← hset w', replace, Array.toList_setIfInBounds]

end Cluster

/-! ## 2. Letters on their way -/

/-- The edges in all inboxes. -/
def Commons.letters (k : Commons N σ) : Multiset (Edge N) :=
  (k.inboxes.toList.map fun q => (q.toList.map Letter.edge : Multiset (Edge N))).sum

namespace Commons

omit [Ord N]

variable {k : Commons N σ} {i : Nat} {q : Queue (Letter N)} {l : Letter N}

theorem deliver_inboxes (hq : k.inboxes[i]? = some q) (l : Letter N) :
    (k.deliver i l).inboxes = k.inboxes.setIfInBounds i (q.push l) := by
  obtain ⟨hi, rfl⟩ := Array.getElem?_eq_some_iff.mp hq
  apply Array.ext_getElem?
  intro j
  rcases eq_or_ne i j with rfl | hj
  · simp [deliver, Array.getElem_modify, hi]
  · simp [deliver, Array.getElem?_modify, hj]

/-- The letters when an inbox has changed. -/
theorem exists_letters_set (hq : k.inboxes[i]? = some q) :
    ∃ rest, k.letters = (q.toList.map Letter.edge : Multiset (Edge N)) + rest ∧
      ∀ k' : Commons N σ, ∀ q', k'.inboxes = k.inboxes.setIfInBounds i q' →
        k'.letters = (q'.toList.map Letter.edge : Multiset (Edge N)) + rest := by
  obtain ⟨rest, hsum, hset⟩ :=
    exists_sum_map_set (fun q => (q.toList.map Letter.edge : Multiset (Edge N)))
      (Array.getElem?_toList ▸ hq : k.inboxes.toList[i]? = some q)
  refine ⟨rest, hsum, fun k' q' hk' => ?_⟩
  rw [← hset q', letters, hk', Array.toList_setIfInBounds]

/-- A letter that is delivered is on its way. -/
theorem letters_deliver (hi : i < k.inboxes.size) (l : Letter N) :
    (k.deliver i l).letters = l.edge ::ₘ k.letters := by
  have hq : k.inboxes[i]? = some k.inboxes[i] := Array.getElem?_eq_getElem hi
  obtain ⟨rest, hk, hset⟩ := exists_letters_set hq
  rw [hset _ _ (deliver_inboxes hq l), hk, Queue.toList_push, List.map_append, ← Multiset.coe_add,
    add_assoc, add_left_comm]
  rfl

/-- A letter that is taken out was on its way. -/
theorem letters_receive {older newer : List (Letter N)} {q' : Queue (Letter N)}
    (hq : k.inboxes[i]? = some q) (h : q.toList = older ++ l :: newer)
    (h' : q'.toList = older ++ newer) {k' : Commons N σ}
    (hk' : k'.inboxes = k.inboxes.setIfInBounds i q') :
    k.letters = l.edge ::ₘ k'.letters := by
  obtain ⟨rest, hk, hset⟩ := exists_letters_set hq
  rw [hset k' q' hk', hk, h, h', List.map_append, List.map_append, List.map_cons,
    ← Multiset.coe_add, ← Multiset.coe_add, ← Multiset.cons_coe, Multiset.add_cons,
    Multiset.cons_add]

theorem letters_eq_zero (h : Multiset.card k.letters = 0) (hq : k.inboxes[i]? = some q) :
    q.toList = [] := by
  obtain ⟨rest, hk, -⟩ := exists_letters_set hq
  rw [hk, Multiset.card_add] at h
  simpa using (Nat.add_eq_zero_iff.mp h).1

end Commons

theorem Worker.exists_inbox {w : Worker N} {k : Commons N σ} {l : Letter N}
    {older newer : List (Letter N)} (h : w.inbox k = older ++ l :: newer) :
    ∃ q, k.inboxes[w.id]? = some q ∧ q.toList = older ++ l :: newer := by
  cases hq : k.inboxes[w.id]? with
  | none =>
    rw [Worker.inbox, hq] at h
    simp at h
  | some q =>
    rw [Worker.inbox, hq] at h
    exact ⟨q, rfl, h⟩

/-! ## 3. Places -/

namespace Worker

/-- What the shared counter counts for a worker: that it is active, and the letter it has. -/
def counted (w : Worker N) : Nat :=
  w.active.toNat +
    match w.stance with
    | .posting .. | .holding _ | .queueing _ => 1
    | _ => 0

/-- What holds of one of `size` workers at the place in its loop where it stands. -/
def Placed (size : Nat) (w : Worker N) : Prop :=
  match w.stance with
  | .waiting | .routing _ _ => w.active = true ∧ w.halted = false
  | .posting receiver _ _ => w.active = true ∧ w.halted = false ∧ receiver < size
  | .ready => w.active = false → w.queue.toList = []
  | .queueing _ => w.active = true
  | .listening | .holding _ | .resting => w.queue.toList = []
  | .testing | .dozing | .leaving | .gone => w.queue.toList = [] ∧ w.active = false
  | .lost => False

/-- What always holds of one of `size` workers while nobody breaks down. -/
structure Poised (size : Nat) (w : Worker N) : Prop where
  /-- It stands where it can stand. -/
  placed : w.Placed size
  /-- Once it has halted it has nothing to do. -/
  halted : w.halted = true → w.queue.toList = []
  peers : w.desk.table.peers = size

theorem Poised.ne_lost {size : Nat} {w : Worker N} (hw : w.Poised size) : w.stance ≠ .lost := by
  intro hs
  have place := hw.placed
  simp only [Placed, hs] at place

/-- A worker that has an edge to handle is active. -/
theorem Placed.active {size : Nat} {w : Worker N} (place : w.Placed size) (hs : w.stance = .ready)
    {e : Edge N} {q : List (Edge N)} (hq : w.queue.toList = e :: q) : w.active = true := by
  simp only [Placed, hs] at place
  by_contra hf
  rw [place (by simpa using hf)] at hq
  simp at hq

/-- A worker that does not count has nothing queued. -/
theorem Placed.queue_eq_nil {size : Nat} {w : Worker N} (place : w.Placed size)
    (hc : w.counted = 0) : w.active = false ∧ w.queue.toList = [] := by
  obtain ⟨ha, hletter⟩ := Nat.add_eq_zero_iff.mp hc
  have ha : w.active = false := by simpa using ha
  cases hs : w.stance
  all_goals simp_all [Placed]

end Worker

/-! ## 4. What a turn does to the counter -/

section Moves

variable [Std.TransOrd N] [Std.LawfulEqOrd N]
  {task : Task N σ} {size : Nat} {w w' : Worker N} {k k' : Commons N σ} {memory : σ}
  {log : Array Event}

namespace Worker.Moves

/-- What a turn never changes, and what it never takes back. -/
theorem frame (h : w.Moves task k memory log w' k') :
    w'.id = w.id ∧ k'.inboxes.size = k.inboxes.size ∧ (k'.lost = none → k.lost = none) ∧
      (k'.aborted = false → k.aborted = false) ∧ (w'.halted = false → w.halted = false) := by
  cases h with
  | @handles e q r d hs hh ha hq hr hrun =>
    match r with
    | .ok .next | .ok (.expand _ _) => exact ⟨rfl, rfl, fun h => h, fun _ => ha, fun _ => hh⟩
    | .ok .halt | .error (.fault _) => exact ⟨rfl, rfl, fun h => h, fun _ => ha, fun _ => hh⟩
    | .error .crash | .error .outOfTurns => exact hr.elim
  | fails hs hrun | breaks hs hh hq hr hrun =>
    refine ⟨rfl, rfl, fun h => ?_, fun h => absurd h (by simp [Commons.lose]), fun h => h⟩
    cases hk : k.lost with
    | none => rfl
    | some i => simp [Commons.lose, hk] at h
  | stops hs hh ha => exact ⟨rfl, rfl, fun h => h, fun h => h, fun _ => hh⟩
  | posts hs => exact ⟨rfl, Array.size_modify, fun h => h, fun h => h, fun h => h⟩
  | receives hs hq hq' =>
    exact ⟨rfl, Array.size_setIfInBounds, fun h => h, fun h => h, fun h => h⟩
  | _ => exact ⟨rfl, rfl, fun h => h, fun h => h, fun h => h⟩

/-- The number of parts that a worker's table is one of never changes. -/
theorem peers (h : w.Moves task k memory log w' k') :
    w'.desk.table.peers = w.desk.table.peers := by
  cases h with
  | begins hs hrun | fails hs hrun =>
    have hgrows := grows_start task.pass task.graph w.desk k.memory
    rw [hrun] at hgrows
    exact hgrows.peers
  | @handles e q r d hs hh ha hq hr hrun =>
    have hgrows := grows_handleEdge task e w.desk k.memory
    rw [hrun] at hgrows
    match r with
    | .ok .next | .ok (.expand _ _) | .ok .halt | .error (.fault _) => exact hgrows.peers
    | .error .crash | .error .outOfTurns => exact hr.elim
  | @breaks e q r d hs hh hq hr hrun =>
    have hgrows := grows_handleEdge task e w.desk k.memory
    rw [hrun] at hgrows
    exact hgrows.peers
  | _ => rfl

/-- A worker breaks down only if that is noted. -/
theorem stance_ne_lost (h : w.Moves task k memory log w' k') (hw : w.stance ≠ .lost)
    (hlost : k'.lost = none) : w'.stance ≠ .lost := by
  cases h with
  | @handles e q r d hs hh ha hq hr hrun =>
    match r with
    | .ok .next | .ok (.expand _ _) | .ok .halt | .error (.fault _) =>
      simp [taken, go, halt, hs]
    | .error .crash | .error .outOfTurns => exact hr.elim
  | fails hs hrun | breaks hs hh hq hr hrun =>
    simp [Commons.lose] at hlost
  | stays hs => exact hw
  | _ => simp [go]

/-- A worker that does not break down stays poised. -/
theorem poised (h : w.Moves task k memory log w' k') (hsize : 0 < size) (hw : w.Poised size)
    (hlost : w'.stance ≠ .lost) : w'.Poised size := by
  have hpeers := h.peers.trans hw.peers
  obtain ⟨place, halted, peers⟩ := hw
  cases h with
  | begins hs hrun =>
    simp only [Placed, hs] at place
    refine ⟨fun hf => ?_, fun ht => ?_, hpeers⟩
    · exact absurd (place.1.symm.trans hf) (by decide)
    · exact absurd (place.2.symm.trans ht) (by decide)
  | @handles e q r d hs hh ha hq hr hrun =>
    have ha : w.active = true := place.active hs hq
    have hlive : w.halted = true → q.toList = [] := fun ht =>
      absurd (hh.symm.trans ht) (by decide)
    rcases r with (_ | _ | _) | (_ | _ | _)
    case error.crash | error.outOfTurns => exact hr.elim
    case ok.next =>
      refine ⟨?_, hlive, hpeers⟩
      simp [Placed, taken, hs, ha]
    case ok.expand => exact ⟨⟨ha, hh⟩, hlive, hpeers⟩
    case error.fault | ok.halt =>
      refine ⟨?_, fun _ => rfl, hpeers⟩
      simp [Placed, taken, halt, hs]
  | fails hs hrun | breaks hs hh hq hr hrun => exact absurd rfl hlost
  | stops hs hh ha => exact ⟨rfl, fun _ => rfl, hpeers⟩
  | drains hs hq =>
    have hq : w.queue.toList = [] := hq.elim halted fun h => h
    exact ⟨hq, halted, hpeers⟩
  | routed hs =>
    simp only [Placed, hs] at place
    exact ⟨fun hf => absurd (place.1.symm.trans hf) (by decide), halted, hpeers⟩
  | keeps hs hv =>
    simp only [Placed, hs] at place
    exact ⟨place, fun ht => absurd (place.2.symm.trans ht) (by decide), hpeers⟩
  | addresses hs =>
    simp only [Placed, hs] at place
    refine ⟨⟨place.1, place.2, ?_⟩, halted, hpeers⟩
    rw [peers]
    exact owner_lt hsize
  | posts hs =>
    simp only [Placed, hs] at place
    exact ⟨⟨place.1, place.2.1⟩, halted, hpeers⟩
  | receives hs hq hq' =>
    refine ⟨?_, halted, hpeers⟩
    rcases hs with hs | hs
    · simp only [Placed, hs] at place
      exact place
    · simp only [Placed, hs] at place
      exact place.1
  | rests hs hq =>
    simp only [Placed, hs] at place
    exact ⟨place, halted, hpeers⟩
  | wakes hs hq =>
    simp only [Placed, hs] at place
    exact ⟨fun _ => place.1, halted, hpeers⟩
  | holds hs => exact ⟨rfl, halted, hpeers⟩
  | queues hs =>
    simp only [Placed, hs] at place
    refine ⟨fun hf => absurd (place.symm.trans hf) (by decide), fun ht => ?_, hpeers⟩
    have ht : w.halted = true := ht
    rw [ht]
    exact halted ht
  | settles hs =>
    simp only [Placed, hs] at place
    exact ⟨⟨place, rfl⟩, halted, hpeers⟩
  | quits hs hk | dozes hs hk | leaves hs =>
    simp only [Placed, hs] at place
    exact ⟨place, halted, hpeers⟩
  | stays hs => exact ⟨place, halted, hpeers⟩

/-- **The counter is right**: it changes by as much as what it counts. -/
theorem pending (h : w.Moves task k memory log w' k') (hw : w.Poised size)
    (hsize : k.inboxes.size = size) (hlost : k'.lost = none) :
    k'.pending + (w.counted + Multiset.card k.letters : Nat) =
      k.pending + (w'.counted + Multiset.card k'.letters : Nat) := by
  have place := hw.placed
  have same : ∀ n, n = w.counted → k.pending + (w.counted + Multiset.card k.letters : Nat) =
      k.pending + (n + Multiset.card k.letters : Nat) := fun n hn => by rw [hn]
  cases h with
  | @handles e q r d hs hh ha hq hr hrun =>
    match r with
    | .ok .next | .ok (.expand _ _) | .ok .halt | .error (.fault _) =>
      exact same _ (by simp only [counted, taken, go, halt, hs])
    | .error .crash | .error .outOfTurns => exact hr.elim
  | fails hs hrun | breaks hs hh hq hr hrun => simp [Commons.lose] at hlost
  | @addresses source v rest hs =>
    have hn : (w.go (.posting (owner (task.graph.hash v k.memory).1 w.desk.table.peers)
        ⟨source, v⟩ rest)).counted = w.counted + 1 := by
      simp only [counted, go, hs]
    change k.pending + 1 + _ = _ + ((_ + Multiset.card k.letters : Nat) : Int)
    rw [hn]
    omega
  | @posts receiver l rest hs =>
    simp only [Placed, hs] at place
    have hletters := Commons.letters_deliver (k := k) (hsize.symm ▸ place.2.2) l
    have hn : w.counted = (w.go (.routing l.source rest)).counted + 1 := by
      simp only [counted, go, hs]
    change k.pending + _ =
      k.pending + ((_ + Multiset.card (k.deliver receiver l).letters : Nat) : Int)
    rw [hletters, Multiset.card_cons, hn]
    omega
  | @receives l older newer q hs hq hq' =>
    obtain ⟨q₀, hq₀, hlist⟩ := exists_inbox hq
    have hn : (w.go (.holding l)).counted = w.counted + 1 := by
      rcases hs with hs | hs
      all_goals simp only [counted, go, hs]
    have hletters : k.letters = l.edge ::ₘ Commons.letters { k with
        memory := memory, log := log, inboxes := k.inboxes.setIfInBounds w.id q } :=
      Commons.letters_receive hq₀ hlist hq' rfl
    change k.pending + _ = k.pending + _
    rw [hn, hletters, Multiset.card_cons]
    omega
  | @holds l hs =>
    cases ha : w.active with
    | true => exact same _ (by simp only [counted, hs, ha])
    | false =>
      have hn : ({ w with active := true, stance := .queueing l } : Worker N).counted =
          w.counted + 1 := by
        simp only [counted, hs, ha, Bool.toNat_true, Bool.toNat_false]
      change k.pending + 1 + _ = _ + ((_ + Multiset.card k.letters : Nat) : Int)
      rw [hn]
      omega
  | @queues l hs =>
    have hn : w.counted = ({ w with
        queue := if w.halted then w.queue else w.queue.push l.edge
        stance := .ready } : Worker N).counted + 1 := by
      simp only [counted, hs]
    change k.pending - 1 + _ = _ + ((_ + Multiset.card k.letters : Nat) : Int)
    rw [hn]
    omega
  | settles hs =>
    cases ha : w.active with
    | false => exact same _ (by simp only [counted, hs, ha])
    | true =>
      have hn : w.counted =
          ({ w with active := false, stance := .testing } : Worker N).counted + 1 := by
        simp only [counted, hs, ha, Bool.toNat_true, Bool.toNat_false]
      change k.pending - 1 + _ = _ + ((_ + Multiset.card k.letters : Nat) : Int)
      rw [hn]
      omega
  | stays hs => exact same _ rfl
  | _ => exact same _ (by simp only [counted, go, halt, *])

/-- A worker that does not count leaves the counter alone, and does not break down. -/
theorem pending_of_counted (h : w.Moves task k memory log w' k') (hw : w.Poised size)
    (hc : w.counted = 0) : k'.pending = k.pending ∧ k'.lost = k.lost := by
  obtain ⟨ha, hq⟩ := hw.placed.queue_eq_nil hc
  have place := hw.placed
  cases h with
  | fails hs hrun =>
    simp only [Placed, hs] at place
    exact absurd (place.1.symm.trans ha) (by decide)
  | breaks hs hh hq' hr hrun =>
    rw [hq'] at hq
    simp at hq
  | addresses hs =>
    simp only [Placed, hs] at place
    exact absurd (place.1.symm.trans ha) (by decide)
  | holds hs => simp [counted, hs] at hc
  | queues hs => simp [counted, hs] at hc
  | settles hs => simp [ha]
  | _ => exact ⟨rfl, rfl⟩

/-- A worker leaves only when the counter is zero. -/
theorem pending_of_leaving (h : w.Moves task k memory log w' k') (hlost : k'.lost = none)
    (hw : w.stance = .leaving ∨ w.stance = .gone → k.pending = 0)
    (hw' : w'.stance = .leaving ∨ w'.stance = .gone) : k'.pending = 0 := by
  cases h with
  | @handles e q r d hs hh ha hq hr hrun =>
    match r with
    | .ok .next | .ok (.expand _ _) | .ok .halt | .error (.fault _) =>
      simp [taken, go, halt, hs] at hw'
    | .error .crash | .error .outOfTurns => exact hr.elim
  | quits hs hk =>
    have hlost : k.lost = none := hlost
    simpa [Commons.isQuiet, hlost] using hk
  | leaves hs => exact hw (.inl hs)
  | stays hs => exact hw hw'
  | _ => simp [go] at hw'

end Worker.Moves

end Moves

/-! ## 5. The counter in a pass -/

/-- What always holds between the workers in a pass in which nobody breaks down. -/
structure Cluster.Balanced (c : Cluster N σ) : Prop where
  lost : c.commons.lost = none
  inboxes : c.commons.inboxes.size = c.workers.size
  id : ∀ {i : Nat} {w : Worker N}, c.workers[i]? = some w → w.id = i
  poised : ∀ {i : Nat} {w : Worker N}, c.workers[i]? = some w → w.Poised c.workers.size
  /-- The counter counts the active workers and the letters on their way. -/
  pending : c.commons.pending =
    ((c.workers.toList.map Worker.counted).sum + Multiset.card c.commons.letters : Nat)
  leaving : ∀ {i : Nat} {w : Worker N}, c.workers[i]? = some w →
    w.stance = .leaving ∨ w.stance = .gone → c.commons.pending = 0

namespace Cluster.Balanced

variable {c : Cluster N σ} {i : Nat} {w w' : Worker N} {k' : Commons N σ}

/-- When the counter is zero no worker counts, and no letter is on its way. -/
theorem calm (hc : c.Balanced) (h : c.commons.pending = 0) :
    (∀ {i : Nat} {w : Worker N}, c.workers[i]? = some w → w.counted = 0) ∧
      Multiset.card c.commons.letters = 0 := by
  have hp := hc.pending
  rw [h] at hp
  have hsum : (c.workers.toList.map Worker.counted).sum = 0 := by omega
  refine ⟨fun {i w} hw => ?_, by omega⟩
  rw [List.sum_eq_zero_iff] at hsum
  refine hsum _ (List.mem_map_of_mem (List.mem_of_getElem? (i := i) ?_))
  rw [Array.getElem?_toList]
  exact hw

/-- When all workers have come to the end the counter is zero. -/
theorem pending_of_settled (hc : c.Balanced) (hs : c.isSettled = true) :
    c.commons.pending = 0 := by
  rcases Nat.eq_zero_or_pos c.workers.size with hzero | hpos
  · have hinboxes : c.commons.inboxes = #[] :=
      Array.eq_empty_of_size_eq_zero (hc.inboxes.trans hzero)
    rw [hc.pending, Array.eq_empty_of_size_eq_zero hzero, Commons.letters, hinboxes]
    rfl
  · have hw := Array.getElem?_eq_getElem hpos
    have hfinal : c.workers[0].stance.isFinal = true := Array.all_eq_true.mp hs 0 hpos
    have place := (hc.poised hw).placed
    refine hc.leaving hw (.inr ?_)
    cases hst : c.workers[0].stance
    all_goals simp_all [Stance.isFinal, Worker.Placed]

variable [Std.TransOrd N] [Std.LawfulEqOrd N] {task : Task N σ} {memory : σ} {log : Array Event}

/-- The balance survives a turn of one worker. -/
theorem replace (hc : c.Balanced) (hw : c.workers[i]? = some w)
    (h : w.Moves task c.commons memory log w' k') (hlost : k'.lost = none) :
    (c.replace i w' k').Balanced := by
  obtain ⟨hid, hinboxes, -⟩ := h.frame
  have hpos : 0 < c.workers.size := Nat.zero_lt_of_lt (Array.getElem?_eq_some_iff.mp hw).1
  have hpending := h.pending (hc.poised hw) hc.inboxes hlost
  refine
    { lost := hlost
      inboxes := by rw [size_replace]; exact hinboxes.trans hc.inboxes
      id := forall_replace (P := fun j v => v.id = j) hw (hid.trans (hc.id hw)) hc.id
      poised := by
        rw [size_replace]
        exact forall_replace (P := fun _ v => v.Poised c.workers.size) hw
          (h.poised hpos (hc.poised hw) (h.stance_ne_lost (hc.poised hw).ne_lost hlost)) hc.poised
      pending := ?_
      leaving := forall_replace hw
        (P := fun _ v => v.stance = .leaving ∨ v.stance = .gone → k'.pending = 0)
        (h.pending_of_leaving hlost (hc.leaving hw)) fun hv hs => ?_ }
  · obtain ⟨rest, hsum, hset⟩ := exists_sum_replace Worker.counted hw
    have hcount := hc.pending
    rw [hsum] at hcount
    rw [hset]
    change k'.pending = ((_ + Multiset.card k'.letters : Nat) : Int)
    omega
  · have hz := hc.leaving hv hs
    rw [(h.pending_of_counted (hc.poised hw) ((hc.calm hz).1 hw)).1, hz]

end Cluster.Balanced

section Turns

variable [Std.TransOrd N] [Std.LawfulEqOrd N] {c : Cluster N σ}

/-- A turn is a move of the worker that takes it. -/
theorem Cluster.turn_cases (task : Task N σ) (turn : Turn) (c : Cluster N σ) :
    (c.workers[turn.worker % c.workers.size]? = none ∧ c.turn task turn = c) ∨
      ∃ w w' k' memory log, c.workers[turn.worker % c.workers.size]? = some w ∧
        w.Moves task c.commons memory log w' k' ∧
        c.turn task turn = c.replace (turn.worker % c.workers.size) w' k' := by
  rw [turn_eq]
  cases hw : c.workers[turn.worker % c.workers.size]? with
  | none => exact .inl ⟨rfl, rfl⟩
  | some w =>
    obtain ⟨memory, log, h⟩ := Worker.turn_moves task turn.pick w c.commons
    exact .inr ⟨w, _, _, memory, log, rfl, h, rfl⟩

/-- Who is lost stays lost. -/
theorem Cluster.lost_of_turn {task : Task N σ} {turn : Turn}
    (h : (c.turn task turn).commons.lost = none) : c.commons.lost = none := by
  rcases c.turn_cases task turn with ⟨-, heq⟩ | ⟨w, w', k', memory, log, -, hmove, heq⟩
  · rwa [heq] at h
  · rw [heq] at h
    exact hmove.frame.2.2.1 h

theorem Cluster.lost_of_drive {task : Task N σ} {turns : Nat → Turn} :
    ∀ {left time : Nat} {c : Cluster N σ},
      (c.drive task turns left time).2.2.commons.lost = none → c.commons.lost = none
  | 0, _, _, h => h
  | left + 1, time, c, h => by
    rw [drive] at h
    split at h
    · exact h
    · exact lost_of_turn (lost_of_drive h)

/-- A superstep may be looked at on the way. -/
theorem Cluster.drive_add (task : Task N σ) (turns : Nat → Turn) (a b : Nat) :
    ∀ (time : Nat) (c : Cluster N σ), c.drive task turns (a + b) time =
      (c.drive task turns a time).2.2.drive task turns ((c.drive task turns a time).1 + b)
        (c.drive task turns a time).2.1 := by
  induction a with
  | zero =>
    intro time c
    rw [Nat.zero_add]
    exact congrArg (c.drive task turns · time) (Nat.zero_add b).symm
  | succ a ih =>
    intro time c
    rw [Nat.succ_add, drive, drive]
    split
    · rename_i hs
      rw [Nat.succ_add, drive, if_pos hs]
    · exact ih (time + 1) (c.turn task (turns time))

/-- **The counter is right in every state of a pass** in which nobody is lost. -/
theorem Cluster.Balanced.turn (hc : c.Balanced) {task : Task N σ} {turn : Turn}
    (hlost : (c.turn task turn).commons.lost = none) : (c.turn task turn).Balanced := by
  rcases c.turn_cases task turn with ⟨-, heq⟩ | ⟨w, w', k', memory, log, hw, hmove, heq⟩
  · rw [heq]
    exact hc
  · rw [heq] at hlost ⊢
    exact hc.replace hw hmove hlost

theorem Cluster.Balanced.drive {task : Task N σ} {turns : Nat → Turn} :
    ∀ {left time : Nat} {c : Cluster N σ}, c.Balanced →
      (c.drive task turns left time).2.2.commons.lost = none →
      (c.drive task turns left time).2.2.Balanced
  | 0, _, _, hc, _ => hc
  | left + 1, time, c, hc, hlost => by
    rw [Cluster.drive] at hlost ⊢
    split at hlost
    · rename_i hs
      rw [if_pos hs]
      exact hc
    · rename_i hs
      rw [if_neg hs]
      exact drive (hc.turn (lost_of_drive hlost)) hlost

end Turns

/-! ## 6. Between two passes -/

/-- Nobody has anything to do, and nothing is on its way. -/
structure Cluster.Still (c : Cluster N σ) : Prop where
  lost : c.commons.lost = none
  inboxes : c.commons.inboxes.size = c.workers.size
  letters : c.commons.letters = 0
  id : ∀ {i : Nat} {w : Worker N}, c.workers[i]? = some w → w.id = i
  peers : ∀ {i : Nat} {w : Worker N}, c.workers[i]? = some w →
    w.desk.table.peers = c.workers.size
  queue : ∀ {i : Nat} {w : Worker N}, c.workers[i]? = some w → w.queue.toList = []

section Still

variable {c : Cluster N σ}

theorem Cluster.getElem?_arm {l : Ledger N} {i : Nat} {v : Worker N}
    (h : (c.arm l).workers[i]? = some v) : ∃ w, c.workers[i]? = some w ∧
      v = { w with
        desk := { w.desk with ledger := l.share }
        stance := .waiting
        active := true
        halted := false
        fault := none } := by
  rw [arm, Array.getElem?_map, Option.map_eq_some_iff] at h
  obtain ⟨w, hw, rfl⟩ := h
  exact ⟨w, hw, rfl⟩

/-- A cluster that was just created is still. -/
theorem Cluster.still_create [Std.TransOrd N] (peers : Nat) (memory : σ) :
    (Cluster.create peers memory : Cluster N σ).Still := by
  have hget : ∀ {i : Nat} {w : Worker N},
      (Cluster.create peers memory : Cluster N σ).workers[i]? = some w →
      w = { id := i, desk := { table := .empty i peers } } := by
    intro i w hw
    obtain ⟨hi, rfl⟩ := Array.getElem?_eq_some_iff.mp hw
    simp [create]
  refine
    { lost := rfl, inboxes := by simp [create], letters := ?_, id := fun hw => by rw [hget hw]
      peers := fun hw => ?_, queue := fun hw => by rw [hget hw]; rfl }
  · simp [create, Commons.letters]
  · rw [hget hw]
    simp [create, Table.empty]

/-- A worker may do something that is not its work. -/
theorem Cluster.Still.replace (hc : c.Still) {i : Nat} {w w' : Worker N} {k' : Commons N σ}
    (hw : c.workers[i]? = some w) (hid : w'.id = w.id)
    (hpeers : w'.desk.table.peers = w.desk.table.peers) (hqueue : w'.queue = w.queue)
    (hlost : k'.lost = c.commons.lost) (hinboxes : k'.inboxes = c.commons.inboxes) :
    (c.replace i w' k').Still where
  lost := hlost.trans hc.lost
  inboxes := by
    rw [size_replace, ← hc.inboxes, ← hinboxes]
    rfl
  letters := by
    rw [← hc.letters, Commons.letters, Commons.letters, ← hinboxes]
    rfl
  id := forall_replace (P := fun j v => v.id = j) hw (hid.trans (hc.id hw)) hc.id
  peers := by
    rw [size_replace]
    exact forall_replace (P := fun _ v => v.desk.table.peers = c.workers.size) hw
      (hpeers.trans (hc.peers hw)) hc.peers
  queue := forall_replace (P := fun _ v => v.queue.toList = []) hw
    (by rw [hqueue]; exact hc.queue hw) hc.queue

/-- Armed for a pass, the workers are in balance. -/
theorem Cluster.Still.balanced_arm (hc : c.Still) (l : Ledger N) : (c.arm l).Balanced := by
  have hsize : (c.arm l).workers.size = c.workers.size := Array.size_map
  have hletters : (c.arm l).commons.letters = 0 := hc.letters
  refine
    { lost := hc.lost
      inboxes := hc.inboxes.trans hsize.symm
      id := fun hv => ?_
      poised := fun hv => ?_
      pending := ?_
      leaving := fun hv hs => ?_ }
  · obtain ⟨w, hw, rfl⟩ := getElem?_arm hv
    change w.id = _
    exact hc.id hw
  · obtain ⟨w, hw, rfl⟩ := getElem?_arm hv
    exact ⟨⟨rfl, rfl⟩, nofun, (hc.peers hw).trans hsize.symm⟩
  · have hcounted : (c.arm l).workers.toList.map Worker.counted =
        List.replicate c.workers.size 1 := by
      rw [List.eq_replicate_iff]
      refine ⟨by simp [arm], fun n hn => ?_⟩
      obtain ⟨v, hv, rfl⟩ := List.mem_map.mp hn
      obtain ⟨i, hi⟩ := List.mem_iff_getElem?.mp hv
      rw [Array.getElem?_toList] at hi
      obtain ⟨w, hw, rfl⟩ := getElem?_arm hi
      rfl
    rw [hcounted, hletters]
    simp [arm]
  · obtain ⟨w, hw, rfl⟩ := getElem?_arm hv
    simp at hs

/-- **Workers that have come to the end leave nothing behind** for the next pass. -/
theorem Cluster.Balanced.still (hc : c.Balanced) (hs : c.isSettled = true) : c.Still := by
  obtain ⟨hcalm, hletters⟩ := hc.calm (hc.pending_of_settled hs)
  exact
    { lost := hc.lost
      inboxes := hc.inboxes
      letters := Multiset.card_eq_zero.mp hletters
      id := hc.id
      peers := fun hw => (hc.poised hw).peers
      queue := fun hw => ((hc.poised hw).placed.queue_eq_nil (hcalm hw)).2 }

end Still

/-! ## 7. What the turns of a pass do -/

/-- The edge that a worker takes off its queue in its next turn. -/
def Worker.upNext (w : Worker N) (k : Commons N σ) : Option (Edge N) :=
  match w.stance with
  | .ready => if w.halted || k.aborted then none else w.queue.toList.head?
  | _ => none

theorem Worker.upNext_eq_some {w : Worker N} {k : Commons N σ} {e : Edge N} {q : List (Edge N)}
    (hs : w.stance = .ready) (hh : w.halted = false) (ha : k.aborted = false)
    (hq : w.queue.toList = e :: q) : w.upNext k = some e := by
  simp only [upNext, hs, hh, ha, hq, Bool.or_false, Bool.false_eq_true, if_false, List.head?_cons]

/-- The states that are expanded when an edge is handled with the result `r`, after which the desk
is `d`. -/
def expansions (r : Except Stop (Progress N)) (d : Desk N) : Multiset N :=
  match r with
  | .ok (.expand state _) => (d.table.node? state).toList
  | _ => 0

theorem expansions_expand {d : Desk N} {state : Handle} {v : N}
    (hv : d.table.node? state = some v) (targets : List N) :
    expansions (.ok (.expand state targets)) d = {v} := by
  simp only [expansions, hv]
  rfl

theorem add_expansions_expand [DecidableEq N] {d : Desk N} {state : Handle} {v : N} {X : Finset N}
    (hv : d.table.node? state = some v) (hX : v ∉ X) (targets : List N) :
    X.val + expansions (.ok (.expand state targets)) d = (insert v X).val := by
  rw [expansions_expand hv, Finset.insert_val_of_notMem hX, add_comm, Multiset.singleton_add]

section Gather

variable [Std.TransOrd N] [Std.LawfulEqOrd N]

/-- The states that a worker expands in its next turn. -/
def Worker.expands (task : Task N σ) (w : Worker N) (k : Commons N σ) : Multiset N :=
  match w.upNext k with
  | none => 0
  | some e =>
    expansions (handleEdge task e (w.desk, k.memory)).1 (handleEdge task e (w.desk, k.memory)).2.1

theorem Worker.expands_of_none {task : Task N σ} {w : Worker N} {k : Commons N σ}
    (h : w.upNext k = none) : w.expands task k = 0 := by
  simp only [expands, h]

theorem Worker.expands_of_some {task : Task N σ} {w : Worker N} {k : Commons N σ} {e : Edge N}
    {r : Except Stop (Progress N)} {d : Desk N} {memory : σ} (h : w.upNext k = some e)
    (hrun : handleEdge task e (w.desk, k.memory) = (r, d, memory)) :
    w.expands task k = expansions r d := by
  simp only [expands, h, hrun]

/-- The edges that a worker generates in its next turn. -/
def Worker.generates (task : Task N σ) (w : Worker N) (k : Commons N σ) : Multiset (Edge N) :=
  match w.upNext k with
  | none => 0
  | some e => newEdges (handleEdge task e (w.desk, k.memory)).1

theorem Worker.generates_of_none {task : Task N σ} {w : Worker N} {k : Commons N σ}
    (h : w.upNext k = none) : w.generates task k = 0 := by
  simp only [generates, h]

theorem Worker.generates_of_some {task : Task N σ} {w : Worker N} {k : Commons N σ} {e : Edge N}
    (h : w.upNext k = some e) :
    w.generates task k = newEdges (handleEdge task e (w.desk, k.memory)).1 := by
  simp only [generates, h]

namespace Cluster

variable {α : Type}

/-- What the worker that takes a turn does in it. -/
def atTurn (f : Worker N → Commons N σ → Multiset α) (turn : Turn) (c : Cluster N σ) :
    Multiset α :=
  match c.workers[turn.worker % c.workers.size]? with
  | none => 0
  | some w => f w c.commons

/-- What the workers do in the turns that they get until all have come to the end. -/
def gather (f : Worker N → Commons N σ → Multiset α) (task : Task N σ)
    (turns : Nat → Turn) : (left time : Nat) → Cluster N σ → Multiset α
  | 0, _, _ => 0
  | left + 1, time, c =>
    if c.isSettled then 0
    else c.atTurn f (turns time) + gather f task turns left (time + 1) (c.turn task (turns time))

end Cluster

end Gather

end FairCycle
