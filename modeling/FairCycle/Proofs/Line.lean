/-
# A worker alone

A worker alone sends no letters.  It takes the first edge of its queue, handles it, and puts the
edges that come of it at the end, in their order; it takes no other edge before it has done so.  So
its edges stand in a line from beginning to end, wherever they are just now (`Worker.line`), and
what can be said of a pass may depend on their order: `Scene.Follows` is what is to be shown of a
property of lines and tables so that it holds all along (`Orderly.inLine_drive`).
-/
import FairCycle.Proofs.Partition
import FairCycle.Proofs.Superstep

namespace FairCycle

variable {N σ : Type} [Ord N]

/-! ## 1. Turns of a worker alone -/

namespace Worker

/-- The edges that a worker has before it, in the order in which it comes to them. -/
def line (o : Opening N) (w : Worker N) : List (Edge N) := w.queue.toList ++ w.hand o

/-- The worker has no letter in hand. -/
def HoldsNoLetter (w : Worker N) : Prop :=
  match w.stance with
  | .posting _ _ _ | .holding _ | .queueing _ => False
  | _ => True

/-- The line after an edge was handled with the result `r`, if `rest` came after the edge. -/
def lineAfter (rest : List (Edge N)) (r : Except Stop (Progress N)) : List (Edge N) :=
  if Scene.halts r then [] else rest ++ newEdges r

variable [Std.TransOrd N] [Std.LawfulEqOrd N]

/-- A turn leaves the line as it is, or it handles the first edge. -/
inductive Serves (t : Terrain N σ) (pass : Pass) (o : Opening N) (w w' : Worker N) : Prop
  | waits (hline : w'.line o = w.line o) (hshown : w'.shown o = w.shown o)
      (hhalted : w'.halted = w.halted)
  | handles {e : Edge N} {rest : List (Edge N)} {r : Except Stop (Progress N)} {d : Desk N}
      (hline : w.line o = e :: rest) (hh : w.halted = false)
      (hy : Yields (handleEdge (t.task pass) e) (w.shown o) r d)
      (hline' : w'.line o = lineAfter rest r) (hshown : w'.shown o = d)
      (hhalted : w'.halted = Scene.halts r)

variable {t : Terrain N σ} {pass : Pass} {o : Opening N} {w w' : Worker N} {k k' : Commons N σ}
  {memory : σ} {log : Array Event}

/-- **A worker alone goes through its edges in line.** -/
theorem Turns.serves (h : w.Turns t pass o k memory log w' k') (hone : t.peers = 1)
    (hid : w.id = 0) (hhand : w.HoldsNoLetter) (hletters : k.letters = 0)
    (hgo : k.aborted = false) :
    k'.letters = 0 ∧ w'.HoldsNoLetter ∧ Serves t pass o w w' := by
  cases h with
  | begins hs =>
    refine ⟨hletters, trivial, .waits ?_ ?_ rfl⟩
    · simp [line, hand, hs]
    · simp only [shown, hs]
  | @handles e q r d hs hh hq hy hr hg ha =>
    have hline : w.line o = e :: q.toList := by simp [line, hand, hs, hq]
    have hshown : w.shown o = w.desk := by simp only [shown, hs]
    rw [← hshown] at hy
    rcases r with (_ | _ | _) | (_ | _ | _)
    case error.crash | error.outOfTurns => exact hr.elim
    case ok.next =>
      refine ⟨hletters, ?_, .handles hline hh hy ?_ ?_ hh⟩
      · simp [HoldsNoLetter, taken, hs]
      · simp [line, lineAfter, hand, taken, hs, Scene.halts, newEdges]
      · simp [shown, taken, hs]
    case ok.expand =>
      refine ⟨hletters, trivial, .handles hline hh hy ?_ rfl hh⟩
      simp [line, lineAfter, hand, taken, go, Scene.halts, newEdges]
    case ok.halt | error.fault =>
      refine ⟨hletters, ?_, .handles hline hh hy ?_ ?_ rfl⟩
      · simp [HoldsNoLetter, taken, halt, hs]
      · simp [line, lineAfter, hand, taken, halt, hs, Scene.halts]
      · simp [shown, taken, halt, hs]
  | stops hs hh ha => exact absurd (hgo.symm.trans ha) Bool.false_ne_true
  | @keeps source v rest hs hv =>
    refine ⟨hletters, trivial, .waits ?_ ?_ rfl⟩
    · simp [line, hand, hs, Edge.from]
    · simp only [shown, hs]
  | @addresses source v rest hs hv =>
    exact absurd ((Terrain.home_eq_zero hone v).trans hid.symm) hv
  | posts hs | holds hs | queues hs =>
    simp only [HoldsNoLetter, hs] at hhand
  | receives hs hq hq' =>
    obtain ⟨q₀, hq₀, hlist⟩ := exists_inbox hq
    have hempty := Commons.letters_eq_zero (Multiset.card_eq_zero.mpr hletters) hq₀
    rw [hlist] at hempty
    simp at hempty
  | stays hs => exact ⟨hletters, hhand, .waits rfl rfl rfl⟩
  | drains hs | routed hs | rests hs | wakes hs | settles hs | quits hs | dozes hs | leaves hs =>
    refine ⟨hletters, trivial, .waits ?_ ?_ rfl⟩
    · simp [line, hand, go, hs, Edge.from]
    · simp only [shown, go, hs]

end Worker

/-! ## 2. What a whole pass follows -/

section Pass

variable [Std.TransOrd N] [Std.LawfulEqOrd N]

/-- What is to be shown of a property of lines and tables so that a pass of a worker alone keeps it.
It may also speak of whether the worker has halted, and use what is known of scenes. -/
structure Scene.Follows (t : Terrain N σ) (pass : Pass) (P : Scene N → Prop)
    (L : Bool → List (Edge N) → (Nat → Table N) → Prop) : Prop where
  /-- The pass goes well. -/
  good : ∀ {s}, P s → ∀ i, s.fault i = none
  /-- The property survives the handling of the first edge. -/
  step : ∀ {s e} {rest : List (Edge N)}, P s → s.pending = e ::ₘ (rest : Multiset (Edge N)) →
    L false (e :: rest) s.tables →
    ∃ r d, Yields (handleEdge (t.task pass) e) (s.desk (t.home e.target)) r d ∧
      L (halts r) (Worker.lineAfter rest r) (Function.update s.tables (t.home e.target) d.table)

/-- The only worker has its edges in line, with the property `L`. -/
structure Cluster.InLine (o : Opening N) (L : Bool → List (Edge N) → (Nat → Table N) → Prop)
    (c : Cluster N σ) : Prop where
  letters : c.commons.letters = 0
  worker : ∃ w, c.workers[0]? = some w ∧ w.HoldsNoLetter ∧
    L w.halted (w.line o) (c.scene o).tables

variable {t : Terrain N σ} {pass : Pass} {o : Opening N} {limit : Nat} {P : Scene N → Prop}
  {L : Bool → List (Edge N) → (Nat → Table N) → Prop} {c : Cluster N σ} {w : Worker N}

namespace Cluster.Orderly

omit [Std.TransOrd N] [Std.LawfulEqOrd N] in
/-- What is to be handled is what the worker has in line. -/
theorem scene_pending (hone : t.peers = 1) (hc : c.Orderly t pass o) (hw : c.workers[0]? = some w)
    (hletters : c.commons.letters = 0) : (c.scene o).pending = w.line o := by
  have hworkers : c.workers.toList = [w] := by
    have hlen : c.workers.toList.length = 1 := hc.size.trans hone
    obtain ⟨v, hv⟩ := List.length_eq_one_iff.mp hlen
    rw [← Array.getElem?_toList, hv] at hw
    rw [hv, Option.some.inj hw]
  simp [scene, hworkers, hletters, Worker.backlog, Worker.line]

omit [Std.TransOrd N] [Std.LawfulEqOrd N] in
theorem tables_replace (hw : c.workers[0]? = some w) (w' : Worker N) (k' : Commons N σ) :
    ((c.replace 0 w' k').scene o).tables =
      Function.update (c.scene o).tables 0 (w'.shown o).table := by
  obtain ⟨_, -, hscene⟩ := scene_replace (o := o) hw w' k'
  funext i
  rw [hscene]
  rcases eq_or_ne i 0 with rfl | hne
  · simp [Scene.tables]
  · simp [Scene.tables, hne]

/-- A pass that goes well is not broken off. -/
theorem aborted_eq_false (hL : Scene.Follows t pass P L) (hc : c.Orderly t pass o)
    (hp : P (c.scene o)) : c.commons.aborted = false := by
  by_contra hne
  obtain ⟨i, v, hv, hf⟩ := hc.aborted (Bool.not_eq_false _ ▸ hne)
  rw [← scene_fault (o := o) hv, hL.good hp i] at hf
  exact absurd hf Bool.false_ne_true

/-- **A turn keeps what handling the first edge keeps.** -/
theorem inLine_turn (hone : t.peers = 1) (hP : Scene.Keeps t pass limit P)
    (hL : Scene.Follows t pass P L) (hc : c.Orderly t pass o) (hp : P (c.scene o))
    (hl : c.InLine o L) (turn : Turn) : (c.turn (t.task pass) turn).InLine o L := by
  obtain ⟨v, hv, hhand, hline⟩ := hl.worker
  obtain ⟨w, w', k', memory, log, hw, -, hturns, heq⟩ := hc.exists_turns (X := 0) hP hp turn
  have hzero : turn.worker % t.peers = 0 := by rw [hone, Nat.mod_one]
  rw [hzero] at hw heq
  obtain rfl := Option.some.inj (hv.symm.trans hw)
  obtain ⟨hletters, hhand', hserves⟩ := hturns.serves hone (hc.id hw) hhand hl.letters
    (hc.aborted_eq_false hL hp)
  rw [heq]
  refine ⟨hletters, w', replace_self hw, hhand', ?_⟩
  have hdesk : (c.scene o).desk 0 = v.shown o := scene_desk hw
  rw [tables_replace hw]
  cases hserves with
  | waits hsame hshown hhalted =>
    have htable : (c.scene o).tables 0 = (w'.shown o).table := by
      rw [Scene.tables, hdesk, hshown]
    rw [← htable, Function.update_eq_self, hsame, hhalted]
    exact hline
  | @handles e rest r d hfirst hh hy hline' hshown hhalted =>
    have hpending := scene_pending hone hc hw hl.letters
    rw [hfirst, ← Multiset.cons_coe] at hpending
    rw [hfirst, hh] at hline
    have hhome := Terrain.home_eq_zero hone e.target
    obtain ⟨r', d', hy', hnext⟩ := hL.step hp hpending hline
    rw [hhome, hdesk] at hy'
    obtain ⟨rfl, rfl⟩ := hy.unique hy' c.commons.memory
    rw [hhome] at hnext
    rw [hline', hshown, hhalted]
    exact hnext

/-- **What handling the first edge keeps, a whole pass keeps.** -/
theorem inLine_drive (hone : t.peers = 1) (hP : Scene.Keeps t pass limit P)
    (hL : Scene.Follows t pass P L) (turns : Nat → Turn) :
    ∀ (left time : Nat) {c : Cluster N σ}, c.Orderly t pass o → P (c.scene o) → c.InLine o L →
      (c.drive (t.task pass) turns left time).2.2.InLine o L
  | 0, _, _, _, _, hl => hl
  | left + 1, time, c, hc, hp, hl => by
    rw [Cluster.drive]
    split
    · exact hl
    · obtain ⟨hc', hp'⟩ := hc.turn hP hp (turns time)
      exact inLine_drive hone hP hL turns left (time + 1) hc' hp'
        (inLine_turn hone hP hL hc hp hl (turns time))

omit [Std.TransOrd N] [Std.LawfulEqOrd N] in
/-- At the end the line is empty. -/
theorem inLine_of_settled (hone : t.peers = 1) (hc : c.Orderly t pass o)
    (hs : c.isSettled = true) (hl : c.InLine o L) : ∃ halted, L halted [] (c.scene o).tables := by
  obtain ⟨w, hw, -, hline⟩ := hl.worker
  have hpending := scene_pending hone hc hw hl.letters
  rw [hc.pending_of_settled hs] at hpending
  rw [(Multiset.coe_eq_zero _).mp hpending.symm] at hline
  exact ⟨w.halted, hline⟩

end Cluster.Orderly

omit [Std.TransOrd N] [Std.LawfulEqOrd N] in
/-- A worker alone that is armed for a pass has its seeds in line. -/
theorem Cluster.Rests.inLine_arm {desk : Nat → Desk N} {cursor : Nat → Nat}
    (hc : c.Rests t desk cursor) (l : Ledger N)
    (h : L false ((o.seeds 0).map Edge.seed) (o.scene t.peers).tables) :
    (c.arm l).InLine o L := by
  refine ⟨hc.letters, ?_⟩
  have hlt : 0 < (c.arm l).workers.size := by
    rw [show (c.arm l).workers.size = c.workers.size from Array.size_map, hc.size]
    exact t.peers_pos
  obtain ⟨v, hv⟩ : ∃ v, (c.arm l).workers[0]? = some v := ⟨_, Array.getElem?_eq_getElem hlt⟩
  refine ⟨v, hv, ?_⟩
  rw [hc.scene_arm]
  obtain ⟨w, hw, rfl⟩ := getElem?_arm hv
  refine ⟨trivial, ?_⟩
  simpa [Worker.line, Worker.hand, hc.queue hw, hc.id hw] using h

/-- **What a superstep of a worker alone leaves.** -/
theorem Check.inLine_superstep {plan : Plan N σ} {desk : Nat → Desk N} {r r' : Run N σ}
    (hone : t.peers = 1) (hplan : plan.Covers t) (hP : Scene.Keeps t pass limit P)
    (hL : Scene.Follows t pass P L) (hr : r.cluster.Rests t desk o.cursor)
    (hopen : ∀ i < t.peers, Yields (pass.start t.graph) { desk i with ledger := r.ledger.share }
      (.ok (o.seeds i)) (o.desk i))
    (hseeds : ∀ i, ∀ v ∈ o.seeds i, t.home v = i) (hinit : P (o.scene t.peers))
    (hline : L false ((o.seeds 0).map Edge.seed) (o.scene t.peers).tables)
    (h : superstep plan pass r = (.ok (), r')) :
    ∃ s : Scene N, s.Leaves t o.cursor P r r' ∧ ∃ halted, L halted [] s.tables := by
  have hc := hr.orderly_arm hopen hseeds rfl
  have hp : P ((r.cluster.arm r.ledger).scene o) := by rwa [hr.scene_arm]
  have hl := hr.inLine_arm r.ledger hline
  obtain ⟨hc', hp'⟩ := hc.drive hP plan.turns r.left r.time hp
  have hl' := hc.inLine_drive hone hP hL plan.turns r.left r.time hp hl
  have hcluster : (driveWorkers plan pass r).cluster =
      ((r.cluster.arm r.ledger).drive (t.task pass) plan.turns r.left r.time).2.2 := by
    rw [← hplan.task pass]
    rfl
  rw [← hcluster] at hc' hp' hl'
  obtain ⟨hs, -, rfl⟩ := of_superstep_eq_ok h
  have hfault : (driveWorkers plan pass r).cluster.firstFault = none := by
    refine Option.eq_none_iff_forall_ne_some.mpr fun f hf => ?_
    obtain ⟨i, hi⟩ := Cluster.exists_fault (o := o) hf
    exact absurd ((hL.good hp' i).symm.trans hi) (by simp)
  exact ⟨_, hc'.leaves hp' hs hfault rfl rfl, hc'.inLine_of_settled hone hs hl'⟩

end Pass

end FairCycle
