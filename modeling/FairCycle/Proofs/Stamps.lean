/-
# Stamps

A mark has room for fifteen bits of the number of the round in which its state was visited last.  So
there are no more than 2 ^ 15 stamps, and the rounds of a long run use them over and over.

Reachability and the trace read the stamp of a known state to find out whether they have been there
(`Pass.test`).  What the answer should be is said by what was done in the turns of the pass: whether
the state was stamped, and gone on from, in an earlier one (`Check.StampsAt`).  The two agree
(`Check.TellsVisits`) in every round and in the trace (`stamps_tell_visits`).  For a reset leaves no
older stamp than that of the round before, and two rounds in a row never have the same one.
-/
import FairCycle.Proofs.Laps
import FairCycle.Proofs.Shortest

namespace FairCycle

open Desk

variable {N σ : Type} [Ord N]

/-! ## 1. The turns of a pass -/

section Turns

variable [Std.TransOrd N] [Std.LawfulEqOrd N]

/-- What was done in some turns was done in one of them. -/
theorem Cluster.mem_gather {α : Type} {f : Worker N → Commons N σ → Multiset α} {task : Task N σ}
    {turns : Nat → Turn} {x : α} (left : Nat) :
    ∀ (time : Nat) (c : Cluster N σ), x ∈ c.gather f task turns left time ↔
      ∃ earlier < left, (c.drive task turns earlier time).2.2.isSettled = false ∧
        x ∈ (c.drive task turns earlier time).2.2.atTurn f (turns (time + earlier)) := by
  induction left with
  | zero =>
    intro time c
    simp [gather]
  | succ left ih =>
    intro time c
    rw [gather]
    split
    · rename_i hs
      have hstays : ∀ earlier, (c.drive task turns earlier time).2.2 = c := by
        intro earlier
        cases earlier with
        | zero => rfl
        | succ earlier => rw [drive, if_pos hs]
      simp [hstays, hs]
    · rename_i hs
      have hnext : ∀ earlier, c.drive task turns (earlier + 1) time =
          (c.turn task (turns time)).drive task turns earlier (time + 1) := by
        intro earlier
        rw [drive, if_neg hs]
      rw [Multiset.mem_add, ih]
      constructor
      · rintro (hx | ⟨earlier, hlt, hx⟩)
        · exact ⟨0, Nat.succ_pos left, Bool.eq_false_iff.mpr hs, hx⟩
        · refine ⟨earlier + 1, Nat.succ_lt_succ hlt, ?_⟩
          rw [hnext, ← Nat.add_assoc, Nat.add_right_comm]
          exact hx
      · rintro ⟨earlier, hlt, hx⟩
        cases earlier with
        | zero => exact .inl hx.2
        | succ earlier =>
          rw [hnext, ← Nat.add_assoc, Nat.add_right_comm] at hx
          exact .inr ⟨earlier, Nat.lt_of_succ_lt_succ hlt, hx⟩

/-- The workers after `time` turns of a pass, or at its end if it ends before. -/
def Check.midst (plan : Plan N σ) (pass : Pass) (r : Run N σ) (time : Nat) : Cluster N σ :=
  (driveWorkers plan pass { r with left := time }).cluster

/-- After `time` turns of a pass it is the turn of the worker `w`, which takes the edge `e` off its
queue. -/
structure Check.Takes (plan : Plan N σ) (pass : Pass) (r : Run N σ) (time : Nat) (w : Worker N)
    (e : Edge N) : Prop where
  worker : (midst plan pass r time).workers[
    (plan.turns (r.time + time)).worker % (midst plan pass r time).workers.size]? = some w
  edge : w.upNext (midst plan pass r time).commons = some e

/-- After `time` turns of a pass a worker takes an edge to the state `v`, stamps `v` and goes on
from there.  The seeds of reachability, edges from nowhere, lead to states that have their stamp.
-/
def Check.StampsAt (plan : Plan N σ) (pass : Pass) (r : Run N σ) (time : Nat) (v : N) : Prop :=
  ∃ w e, Takes plan pass r time w e ∧ e.target = v ∧ (pass = .reach → e.source ≠ none) ∧
    v ∈ w.expands ⟨plan.graph, plan.config.reduction, pass⟩ (midst plan pass r time).commons ∧
    ∃ m, (midst plan pass r (time + 1)).Marks v m ∧ m.visitedIn r.ledger.round = true

variable {plan : Plan N σ} {pass : Pass} {r : Run N σ} {time : Nat} {v : N}

namespace Check

/-- At one moment only one worker takes an edge, and only one. -/
theorem Takes.unique {w w' : Worker N} {e e' : Edge N} (h : Takes plan pass r time w e)
    (h' : Takes plan pass r time w' e') : w' = w ∧ e' = e := by
  obtain rfl := Option.some.inj (h'.worker.symm.trans h.worker)
  exact ⟨rfl, Option.some.inj (h'.edge.symm.trans h.edge)⟩

/-- As long as an edge is taken the pass goes on. -/
theorem Takes.isSettled_eq {w : Worker N} {e : Edge N} (h : Takes plan pass r time w e) :
    (midst plan pass r time).isSettled = false := by
  obtain ⟨hstance, -⟩ := Worker.of_upNext_eq_some h.edge
  rw [Bool.eq_false_iff]
  intro hs
  have hfinal := Array.all_eq_true'.mp hs w (Array.mem_of_getElem? h.worker)
  simp [hstance, Stance.isFinal] at hfinal

/-- What was expanded in a pass was expanded by a worker that took an edge. -/
theorem mem_expanded : v ∈ expanded plan pass { r with left := time } ↔
    ∃ earlier < time, ∃ w e, Takes plan pass r earlier w e ∧
      v ∈ w.expands ⟨plan.graph, plan.config.reduction, pass⟩
        (midst plan pass r earlier).commons := by
  unfold expanded
  rw [Cluster.mem_gather]
  refine exists_congr fun earlier => and_congr_right fun _ => ?_
  change (midst plan pass r earlier).isSettled = false ∧
    v ∈ (midst plan pass r earlier).atTurn _ (plan.turns (r.time + earlier)) ↔ _
  constructor
  · rintro ⟨-, hv⟩
    unfold Cluster.atTurn at hv
    split at hv
    · simp at hv
    · rename_i w hw
      cases he : w.upNext (midst plan pass r earlier).commons with
      | none => simp [Worker.expands_of_none he] at hv
      | some e => exact ⟨w, e, ⟨hw, he⟩, hv⟩
  · rintro ⟨w, e, h, hv⟩
    refine ⟨h.isSettled_eq, ?_⟩
    rw [Cluster.atTurn, h.worker]
    exact hv

end Check

end Turns

/-! ## 2. What a rule asks of a stamp -/

section Test

variable {d : Desk N} {pass : Pass} {h : Handle} {m : Mark} {e : Edge N} {answer : Bool}

/-- What a rule finds out about a known state with the mark `m` that an edge leads to: whether it
was visited in this round.  A rule that does not come to ask finds out nothing. -/
def Pass.test (pass : Pass) (l : Ledger N) (h : Handle) (m : Mark) : Option Bool :=
  match pass with
  | .reach => (m.countUp h).toOption.map fun m' => (m'.setInS true).visitedIn l.round
  | .trace => if l.cycleNode = some h then none else some (m.visitedIn l.round)
  | .explore | .reset | .eliminate | .search => none

/-- The answer when an edge is handled.  Seeds and edges to new states are not asked about. -/
def Desk.test (pass : Pass) (e : Edge N) (d : Desk N) : Option Bool :=
  e.source.bind fun _ => (d.table.find? e.target).bind fun h =>
    (d.table.mark? h).bind (pass.test d.ledger h)

theorem Desk.exists_of_test (ht : d.test pass e = some answer) :
    ∃ source h m, e.source = some source ∧ d.table.find? e.target = some h ∧
      d.table.mark? h = some m ∧ pass.test d.ledger h m = some answer := by
  obtain ⟨source, hsource, ht⟩ := Option.bind_eq_some_iff.mp ht
  obtain ⟨h, hh, ht⟩ := Option.bind_eq_some_iff.mp ht
  obtain ⟨m, hm, ht⟩ := Option.bind_eq_some_iff.mp ht
  exact ⟨source, h, m, hsource, hh, hm, ht⟩

/-- What is asked after `time` turns of a pass, if anything is: of which state, and the answer. -/
def Check.asked [Std.TransOrd N] [Std.LawfulEqOrd N] (plan : Plan N σ) (pass : Pass) (r : Run N σ)
    (time : Nat) : Option (N × Bool) :=
  (midst plan pass r time).workers[
    (plan.turns (r.time + time)).worker % (midst plan pass r time).workers.size]?.bind fun w =>
      (w.upNext (midst plan pass r time).commons).bind fun e =>
        (w.desk.test pass e).map fun answer => (e.target, answer)

/-- In a pass of the run `r`, stamps tell what was visited.  Whenever a known state is asked about,
the answer is yes exactly if the state is in `A`, from where the pass starts, or was stamped in an
earlier turn; and it is no exactly if the state is stamped in this very turn. -/
def Check.TellsVisits [Std.TransOrd N] [Std.LawfulEqOrd N] (plan : Plan N σ) (pass : Pass)
    (r : Run N σ) (A : Set N) : Prop :=
  ∀ time v answer, asked plan pass r time = some (v, answer) →
    (answer = true ↔ v ∈ A ∨ ∃ earlier < time, StampsAt plan pass r earlier v) ∧
    (answer = false ↔ StampsAt plan pass r time v)

theorem Check.exists_of_asked [Std.TransOrd N] [Std.LawfulEqOrd N] {plan : Plan N σ} {r : Run N σ}
    {time : Nat} {v : N} (h : asked plan pass r time = some (v, answer)) :
    ∃ w e, Takes plan pass r time w e ∧ w.desk.test pass e = some answer ∧ e.target = v := by
  obtain ⟨w, hw, h⟩ := Option.bind_eq_some_iff.mp h
  obtain ⟨e, he, h⟩ := Option.bind_eq_some_iff.mp h
  obtain ⟨answer, htest, h⟩ := Option.map_eq_some_iff.mp h
  obtain ⟨rfl, rfl⟩ := Prod.mk.inj h
  exact ⟨w, e, ⟨hw, he⟩, htest, rfl⟩

omit [Ord N] in
/-- Two rules ask: reachability once it has counted the edge, and the trace unless the edge leads to
the cycle state. -/
theorem Pass.test_cases {l : Ledger N} (ht : pass.test l h m = some answer) :
    (pass = .reach ∧ ∃ m', m.countUp h = .ok m' ∧ (m'.setInS true).visitedIn l.round = answer) ∨
      pass = .trace ∧ l.cycleNode ≠ some h ∧ m.visitedIn l.round = answer := by
  cases pass with
  | reach =>
    refine .inl ⟨rfl, ?_⟩
    cases hup : m.countUp h with
    | error fault => simp [Pass.test, hup, Except.toOption] at ht
    | ok m' => exact ⟨m', rfl, by simpa [Pass.test, hup, Except.toOption] using ht⟩
  | trace =>
    by_cases hnode : l.cycleNode = some h
    · simp [Pass.test, hnode] at ht
    · exact .inr ⟨rfl, hnode, by simpa [Pass.test, hnode] using ht⟩
  | explore | reset | eliminate | search => simp [Pass.test] at ht

omit [Ord N] in
/-- Counting the edge does not touch the stamp. -/
theorem Pass.test_iff {l : Ledger N} (ht : pass.test l h m = some answer) :
    answer = true ↔ m.fields.iteration = l.round.toNat % 2 ^ 15 := by
  rcases Pass.test_cases ht with ⟨-, m', hup, rfl⟩ | ⟨-, -, rfl⟩
  · rw [Mark.visitedIn_iff, Mark.fields_setInS, Mark.fields_countUp hup]
  · exact Mark.visitedIn_iff

/-- If the answer is yes the rule drops the edge. -/
theorem Pass.onEdge_of_test_yes (hm : d.table.mark? h = some m)
    (ht : pass.test d.ledger h m = some true) (source : Handle) :
    ∃ d', (pass.onEdge (some source) h false : DeskM N Action) d = (.ok .forget, d') := by
  rcases Pass.test_cases ht with ⟨rfl, m', hup, hvisited⟩ | ⟨rfl, hnode, hvisited⟩
  · refine ⟨_, (reachEdge_known source hm hup).trans (if_pos hvisited)⟩
  · exact ⟨_, traceEdge_stamped source hnode hm (Mark.visitedIn_iff.mp hvisited)⟩

/-- **If the answer is no the rule stamps the state and goes on from it.** -/
theorem Pass.onEdge_of_test_no (hm : d.table.mark? h = some m)
    (ht : pass.test d.ledger h m = some false) (source : Handle) :
    ∃ m', m'.visitedIn d.ledger.round = true ∧
      (pass.onEdge (some source) h false : DeskM N Action) d =
        (.ok .expand, { d with table := d.table.setMark h m' }) := by
  rcases Pass.test_cases ht with ⟨rfl, m', hup, hvisited⟩ | ⟨rfl, hnode, hvisited⟩
  · refine ⟨_, ?_, (reachEdge_known source hm hup).trans (if_neg (by rw [hvisited]; simp))⟩
    rw [Mark.visitedIn_iff, Mark.fields_setIteration]
  · refine ⟨_, ?_, traceEdge_unstamped source hnode hm (.inr fun hbears => ?_)⟩
    · rw [Mark.visitedIn_iff, Mark.fields_replaceParent, Mark.fields_setIteration]
    · rw [Mark.visitedIn_iff.mpr hbears] at hvisited
      cases hvisited

end Test

/-! ## 3. What a worker expands -/

section Expands

variable [Std.TransOrd N] [Std.LawfulEqOrd N] {t : Terrain N σ} {T : Nat → Table N} {pass : Pass}
  {w : Worker N} {k : Commons N σ} {e : FairCycle.Edge N} {v : N}

omit [Std.TransOrd N] [Std.LawfulEqOrd N] in
theorem Pass.keeps_node (g : Graph N σ) (pass : Pass) (h : Handle) (v : N) :
    pass.Keeps g fun d : Desk N => d.table.node? h = some v where
  writes _ _ hd := (Table.node?_setMark ..).trans hd
  notes _ hd := hd
  enters _ _ hd := hd

/-- A worker expands the target of the edge that it handles, and nothing else. -/
theorem Terrain.Parted.eq_target_of_mem_expands (hT : t.Parted T)
    (hd : w.desk.table = T (t.home e.target)) (hstates : e.target ∈ t.states)
    (he : w.upNext k = some e) (hv : v ∈ w.expands (t.task pass) k) : v = e.target := by
  obtain ⟨table, h, fresh, m, hput, hfind, hst, -⟩ := hT.store_cases hd
  have hnode : table.node? h = some e.target :=
    (hT.fits_of_puts hstates hput).node?_eq_some hfind
  rcases hrun : handleEdge (t.task pass) e (w.desk, k.memory) with ⟨result, p⟩
  rw [Worker.expands_of_some he hrun] at hv
  unfold expansions at hv
  split at hv
  · rename_i source targets
    obtain ⟨target, fresh', action, d', memory', hstore, hedge, hhalt | hnext | ⟨-, hexpand⟩⟩ :=
      exists_of_handleEdge hrun
    · cases hhalt
    · cases hnext
    · -- storing the target has given its handle
      rw [show ((t.task pass).graph.hash e.target k.memory).1 = t.promise.hash e.target from
        t.promise.hash_eq e.target k.memory] at hstore hedge
      change orFault (w.desk.table.store e.target (t.promise.hash e.target)).1 _ = _ at hst
      rw [hstore] at hst
      obtain ⟨hresult, hdesk⟩ := Prod.mk.inj hst
      obtain ⟨rfl, rfl⟩ := Prod.mk.inj (Except.ok.inj hresult)
      rw [show (w.desk.table.store e.target (t.promise.hash e.target)).2 = table from
        congrArg Desk.table hdesk] at hedge
      -- and no rule changes which state a handle leads to
      have hkeeps := Pass.keeps_node t.graph pass target e.target
      have hafter := hkeeps.onEdge e.source target fresh' { w.desk with table := table } hnode
      rw [show pass.onEdge e.source target fresh' { w.desk with table := table } = _ from hedge]
        at hafter
      have hend := Pass.Keeps.expandState
        (show (t.task pass).pass.Keeps (t.task pass).graph _ from hkeeps) target d' memory' hafter
      rw [hexpand] at hend
      obtain ⟨rfl, -⟩ := expand_of_expandState hexpand
      simpa [show p.1.table.node? source = some e.target from hend] using hv
  · simp at hv

/-- **What a worker expands depends on the answer.** -/
theorem Terrain.Parted.expands_of_test (hT : t.Parted T)
    (hd : w.desk.table = T (t.home e.target)) (he : w.upNext k = some e) {answer : Bool}
    (htest : w.desk.test pass e = some answer) :
    w.expands (t.task pass) k = if answer then 0 else {e.target} := by
  obtain ⟨source, h, m, hsource, hh, hm, ht⟩ := Desk.exists_of_test htest
  clear htest
  have hv : t.handleOf T e.target = some h := by
    rw [Terrain.handleOf, ← hd]
    exact hh
  have hst := hT.store_known hd hv
  obtain ⟨_, v⟩ := e
  obtain rfl : _ = some source := hsource
  cases answer with
  | true =>
    obtain ⟨d', hedge⟩ := Pass.onEdge_of_test_yes hm ht source
    obtain ⟨memory, hrun⟩ := yields_forget (t := t) hst hedge k.memory
    rw [Worker.expands_of_some he hrun]
    rfl
  | false =>
    obtain ⟨m', -, hedge⟩ := Pass.onEdge_of_test_no hm ht source
    have hnode : (w.desk.table.setMark h m').node? h = some v := by
      rw [Table.node?_setMark, hd]
      exact hT.node?_eq hv
    have hstate : pass.onState t.graph h = pure () := by
      rcases Pass.test_cases ht with ⟨rfl, -⟩ | ⟨rfl, -⟩ <;> rfl
    obtain ⟨m₀, hm₀⟩ := Terrain.exists_markOf hv
    have hx := yields_expand_plain (d := { w.desk with table := w.desk.table.setMark h m' }) pass
      (hT.mem_states hm₀) hstate hnode
    obtain ⟨memory, hrun⟩ := yields_expand hst hedge hx k.memory
    rw [Worker.expands_of_some he hrun, expansions_expand hnode]
    rfl

omit [Std.TransOrd N] [Std.LawfulEqOrd N] in
/-- The answer is read off the mark of the target. -/
theorem Terrain.Parted.exists_mark_of_test (hT : t.Parted T)
    (hd : w.desk.table = T (t.home e.target)) {answer : Bool}
    (htest : w.desk.test pass e = some answer) :
    ∃ m, t.markOf T e.target = some m ∧
      (answer = true ↔ m.fields.iteration = w.desk.ledger.round.toNat % 2 ^ 15) := by
  obtain ⟨source, h, m, -, hh, hm, ht⟩ := Desk.exists_of_test htest
  have hv : t.handleOf T e.target = some h := by
    rw [Terrain.handleOf, ← hd]
    exact hh
  refine ⟨m, ?_, Pass.test_iff ht⟩
  rw [← hT.mark?_eq hv, ← hd]
  exact hm

end Expands

/-! ## 4. The stamps of a pass -/

section Stamping

variable [Std.TransOrd N] [Std.LawfulEqOrd N]

/-- In a pass of the run `r` the states with the stamp of the round are at every moment those of
`A`, which had it at the start, and those that were expanded. -/
structure Check.Stamping (t : Terrain N σ) (plan : Plan N σ) (pass : Pass) (o : Opening N)
    (r : Run N σ) (A : Set N) : Prop where
  orderly : ∀ time, (midst plan pass r time).Orderly t pass o
  shelved : ∀ time, (midst plan pass r time).Shelved t ((midst plan pass r time).scene o).tables
  round : ∀ time i, (((midst plan pass r time).scene o).desk i).ledger.round = r.ledger.round
  /-- Reachability starts from states of `A`. -/
  target : ∀ {time e rest}, ((midst plan pass r time).scene o).pending = e ::ₘ rest →
    e.target ∈ t.states ∧ (pass = .reach → e.source = none → e.target ∈ A)
  stamped : ∀ time v,
    v ∈ t.stamped (r.ledger.round.toNat % 2 ^ 15) ((midst plan pass r time).scene o).tables ↔
      v ∈ A ∨ v ∈ expanded plan pass { r with left := time }

namespace Check.Stamping

variable {t : Terrain N σ} {plan : Plan N σ} {pass : Pass} {o : Opening N} {r : Run N σ}
  {A : Set N} {time : Nat} {v : N} {w : Worker N} {e : Edge N}

theorem table_eq (hs : Stamping t plan pass o r A) (h : Takes plan pass r time w e) :
    w.desk.table = ((midst plan pass r time).scene o).tables (t.home e.target) := by
  obtain ⟨hdesk, -⟩ := (hs.orderly time).of_upNext h.worker h.edge
  rw [Scene.tables, hdesk]

theorem parted (hs : Stamping t plan pass o r A) (time : Nat) :
    t.Parted ((midst plan pass r time).scene o).tables :=
  (hs.shelved time).parted

/-- A state that is expanded now has the stamp afterwards. -/
theorem exists_mark (hs : Stamping t plan pass o r A) (h : Takes plan pass r time w e)
    (hv : v ∈ w.expands ⟨plan.graph, plan.config.reduction, pass⟩
      (midst plan pass r time).commons) :
    ∃ m, (midst plan pass r (time + 1)).Marks v m ∧ m.visitedIn r.ledger.round = true := by
  have hexpanded : v ∈ expanded plan pass { r with left := time + 1 } :=
    mem_expanded.mpr ⟨time, Nat.lt_succ_self time, w, e, h, hv⟩
  obtain ⟨m, hm, hbears⟩ :=
    (hs.parted (time + 1)).mem_stamped.mp ((hs.stamped (time + 1) v).mpr (.inr hexpanded))
  exact ⟨m, (hs.shelved (time + 1)).marks_iff.mpr hm, Mark.visitedIn_iff.mpr hbears⟩

/-- What was expanded before was stamped, unless reachability started from it. -/
theorem mem_iff (hs : Stamping t plan pass o r A) (hplan : plan.Covers t) :
    v ∈ A ∨ v ∈ expanded plan pass { r with left := time } ↔
      v ∈ A ∨ ∃ earlier < time, StampsAt plan pass r earlier v := by
  rw [mem_expanded]
  constructor
  · rintro (hv | ⟨earlier, hlt, w, e, h, hv⟩)
    · exact .inl hv
    · obtain ⟨-, rest, hp⟩ := (hs.orderly earlier).of_upNext h.worker h.edge
      obtain ⟨hstates, hseeds⟩ := hs.target hp
      have htarget : v = e.target := by
        rw [hplan.task] at hv
        exact (hs.parted earlier).eq_target_of_mem_expands (hs.table_eq h) hstates h.edge hv
      by_cases hseed : pass = .reach ∧ e.source = none
      · exact .inl (htarget ▸ hseeds hseed.1 hseed.2)
      · refine .inr ⟨earlier, hlt, w, e, h, htarget.symm, fun hpass hsource => ?_, hv,
          hs.exists_mark h hv⟩
        exact hseed ⟨hpass, hsource⟩
  · rintro (hv | ⟨earlier, hlt, w, e, h, -, -, hv, -⟩)
    · exact .inl hv
    · exact .inr ⟨earlier, hlt, w, e, h, hv⟩

/-- **The answer is yes for what had the stamp at the start and for what was stamped before.** -/
theorem yes_iff (hs : Stamping t plan pass o r A) (hplan : plan.Covers t)
    (h : Takes plan pass r time w e) {answer : Bool} (htest : w.desk.test pass e = some answer) :
    answer = true ↔ e.target ∈ A ∨ ∃ earlier < time, StampsAt plan pass r earlier e.target := by
  obtain ⟨m, hm, hanswer⟩ := (hs.parted time).exists_mark_of_test (hs.table_eq h) htest
  obtain ⟨hdesk, -⟩ := (hs.orderly time).of_upNext h.worker h.edge
  rw [hanswer, ← hdesk, hs.round, ← hs.mem_iff hplan, ← hs.stamped]
  exact (hs.parted time).bears_iff hm

/-- **The answer is no exactly if the state is stamped now.** -/
theorem no_iff (hs : Stamping t plan pass o r A) (hplan : plan.Covers t)
    (h : Takes plan pass r time w e) {answer : Bool} (htest : w.desk.test pass e = some answer) :
    answer = false ↔ StampsAt plan pass r time e.target := by
  have hexpands := (hs.parted time).expands_of_test (hs.table_eq h) h.edge htest
  constructor
  · rintro rfl
    have hv : e.target ∈ w.expands ⟨plan.graph, plan.config.reduction, pass⟩
        (midst plan pass r time).commons := by
      simp [hplan.task, hexpands]
    refine ⟨w, e, h, rfl, fun _ => ?_, hv, hs.exists_mark h hv⟩
    obtain ⟨source, -, -, hsource, -⟩ := Desk.exists_of_test htest
    simp [hsource]
  · rintro ⟨w', e', h', -, -, hv, -⟩
    obtain ⟨rfl, rfl⟩ := h.unique h'
    rw [hplan.task, hexpands] at hv
    cases answer with
    | true => simp at hv
    | false => rfl

theorem tellsVisits (hs : Stamping t plan pass o r A) (hplan : plan.Covers t) :
    TellsVisits plan pass r A := by
  intro time v answer hasked
  obtain ⟨w, e, h, htest, rfl⟩ := exists_of_asked hasked
  exact ⟨hs.yes_iff hplan h htest, hs.no_iff hplan h htest⟩

end Check.Stamping

end Stamping

section Scenes

variable {t : Terrain N σ} {T : Nat → Table N} {e : Edge N} {s : Scene N} {rest : Multiset (Edge N)}
  {l : Ledger N} {v : N} {m : Mark}

namespace Reaching

variable [DecidableEq N] {A X : Finset N}

/-- What an edge leads to is a state, and a seed if the edge comes from nowhere. -/
theorem of_pending (hs : Reaching t T l A X s) (hp : s.pending = e ::ₘ rest) :
    e.target ∈ t.states ∧ (e.source = none → e.target ∈ A) := by
  obtain ⟨source, v⟩ := e
  cases source with
  | none =>
    have hle := hs.seeds v
    rw [hp, seedsAt_cons_self] at hle
    have hA : v ∈ A := by
      by_contra hnot
      simp [hnot] at hle
    exact ⟨Terrain.candidates_subset (hs.start hA), fun _ => hA⟩
  | some source => exact ⟨Terrain.spread_subset (hs.mem_spread hp), fun h => by cases h⟩

/-- The candidates bear the stamp of the round, and they are the seeds and what was expanded. -/
theorem mem_stamped_iff (hs : Reaching t T l A X s) :
    v ∈ t.stamped (l.round.toNat % 2 ^ 15) s.tables ↔ v ∈ A ∨ v ∈ X := by
  have hT := hs.kept.parted
  have hcandidate : v ∈ t.stamped (l.round.toNat % 2 ^ 15) s.tables ↔
      v ∈ t.candidates s.tables := by
    rw [hT.mem_stamped]
    constructor
    · rintro ⟨m, hm, hbears⟩
      rw [← hs.iteration_eq_iff (hT.mem_states hm), Terrain.fieldsOf_eq hm]
      exact hbears
    · intro hv
      have hiteration := (hs.iteration_eq_iff (Terrain.candidates_subset hv)).mpr hv
      obtain ⟨m, hm⟩ := Terrain.exists_mark_of_candidate hv
      rw [Terrain.fieldsOf_eq hm] at hiteration
      exact ⟨m, hm, hiteration⟩
  rw [hcandidate]
  constructor
  · intro hv
    exact Finset.mem_union.mp (hs.taken hv)
  · rintro (hv | hv)
    · exact hs.start hv
    · exact hs.expanded hv

end Reaching

/-- What an edge of a trace leads to is a state. -/
theorem Tracing.target_mem_states [t.Rooted] {stamp : Nat} {c : N} {k : Handle}
    (hs : Tracing t l stamp c k s) (hp : s.pending = e ::ₘ rest) : e.target ∈ t.states := by
  have hmem : e ∈ s.pending := by
    rw [hp]
    exact Multiset.mem_cons_self e rest
  cases hsource : e.source with
  | none =>
    obtain ⟨-, -, rfl⟩ := hs.frontier.eq_seed hmem hsource
    obtain ⟨m, hm⟩ := Terrain.exists_markOf hs.root
    exact hs.parted.mem_states hm
  | some source =>
    obtain ⟨u, hu, -, hedge⟩ := hs.frontier.edges hmem hsource
    exact Terrain.mem_states_of_edge (Terrain.stamped_subset hu) hedge

end Scenes

section Passes

variable [Std.TransOrd N] [Std.LawfulEqOrd N] {t : Terrain N σ} {plan : Plan N σ} {r : Run N σ}
  {desk : Nat → Desk N} {cursor : Nat → Nat}

/-- **In a reachability pass stamps tell what was visited**, the seeds included. -/
theorem Check.stamping_reach [DecidableEq N] {A : Finset N} (hplan : plan.Covers t)
    (hr : r.Readied t desk A) :
    Stamping t plan .reach (t.reachOpening r.ledger.share desk fun _ => 0) r A := by
  have hmoment := reached_driveWorkers hplan hr.rests hr.stocked hr.cleared hr.seeds hr.encloses
  refine ⟨fun time => (hmoment time).1, fun time => ?_, fun time i => ?_, fun {time _ _} hp => ?_,
    fun time v => ?_⟩
  all_goals obtain ⟨hc, X, hX, hs⟩ := hmoment time
  · exact hc.shelved (by decide) hs.kept.parted
  · exact (congrArg Ledger.round (hs.ledger i) :)
  · exact ⟨(hs.of_pending hp).1, fun _ => (hs.of_pending hp).2⟩
  · rw [hX]
    exact hs.mem_stamped_iff

/-- **In a trace stamps tell what was visited**, if no state had the stamp of the round before. -/
theorem Check.stamping_trace [t.Rooted] {c : N} {k : Handle} (hplan : plan.Covers t)
    (hr : r.cluster.Rests t desk cursor) (hT : t.Parted fun i => (desk i).table)
    (hk : t.handleOf (fun i => (desk i).table) c = some k) (hnode : r.ledger.cycleNode = some k)
    (hstamps : ∀ {v m}, t.markOf (fun i => (desk i).table) v = some m →
      ¬m.Bears (r.ledger.round.toNat % 2 ^ 15)) :
    Stamping t plan .trace (t.tracing c desk cursor r.ledger) r ∅ := by
  have hmoment := traced_driveWorkers hplan hr hT hk hnode hstamps
  refine ⟨fun time => (hmoment time).1, fun time => ?_, fun time i => ?_, fun {time _ _} hp => ?_,
    fun time v => ?_⟩
  all_goals obtain ⟨hc, hexpanded, hs⟩ := hmoment time
  · exact hc.shelved (by decide) hs.parted
  · exact (congrArg Ledger.round (hs.ledger i) :)
  · exact ⟨hs.target_mem_states hp, fun hpass => by cases hpass⟩
  · rw [hexpanded, or_iff_right (Set.notMem_empty v)]
    rfl

end Passes

/-! ## 5. The rounds of a check -/

section Check

variable [Std.TransOrd N] [Std.LawfulEqOrd N] [DecidableEq N]

section Laps

variable {t : Terrain N σ} {plan : Plan N σ} {name : N → Option Handle} {least k : Nat}
  {r₀ r r₂ : Run N σ} {T T₀ : Nat → Table N}

/-- Every round has its number. -/
theorem Check.Laps.round_eq [t.Rooted] (hplan : plan.Covers t) (h : Laps plan r₀ k r)
    (hr₀ : r₀.Between t name least T₀) (hzero : r₀.ledger.round = 0) :
    r.ledger.round = UInt32.ofNat k := by
  induction h with
  | start => exact hzero
  | @round k r r' h hon hround ih =>
    obtain ⟨T, hr, -⟩ := h.between hplan hr₀
    have hanswers := (meets_round hplan hr).answers_self
    rw [hround] at hanswers
    obtain ⟨T', hafter⟩ := hanswers
    rw [hafter.round_eq, ih, UInt32.ofNat_add]
    rfl

/-- In a round stamps tell what reachability has visited. -/
theorem Run.Between.tellsVisits [t.Rooted] (hplan : plan.Covers t) (hr : r.Between t name least T)
    {left : Nat}
    (hreset : Check.superstep plan .reset { r.numbered with left := left } = (.ok (), r₂)) :
    Check.TellsVisits plan .reach r₂ r.cluster.seeds := by
  obtain ⟨-, -, desk, hr₂⟩ := hr.exists_readied hplan hreset
  rw [hr.seeds_eq]
  exact (Check.stamping_reach hplan hr₂).tellsVisits hplan

omit [DecidableEq N] in
/-- In the trace of a cycle stamps tell what was visited. -/
theorem Run.Found.tellsVisits [t.Rooted] (hplan : plan.Covers t) {c : N} (h : r.Found t T c) :
    Check.TellsVisits plan .trace
      { r with ledger := { r.ledger with round := r.ledger.round + 1 } } ∅ := by
  obtain ⟨desk, cursor, hrests, rfl⟩ := h.rests
  obtain ⟨k, hk⟩ := h.exists_handle
  have hs := Check.stamping_trace (r := { r with
    ledger := { r.ledger with round := r.ledger.round + 1 } }) hplan hrests h.parted hk
    (h.node.trans hk) h.stamps
  exact hs.tellsVisits hplan

end Laps

/-- **Stamps never collide.**  In every round stamps tell what reachability has visited, the seeds
of the round included; and in a trace they tell what the trace has visited, whether it follows the
rounds or an exploration that was stopped early.  This is so in every round, though the rounds have
only 2 ^ 15 stamps among them; their number itself never overflows. -/
theorem stamps_tell_visits {g : Graph N σ} (p : g.Promise) {config : Config}
    (hworkers : config.workers ≤ 2 ^ 32)
    (hfew : (p.reachable config.reduction).encard < 2 ^ 32 - 1) {turns : Nat → Turn} {limit : Nat}
    {memory : σ} {stats : Stats} {r₁ : Run N σ}
    (hexplore : Check.explore ⟨g, config, turns⟩ (Run.begin config memory limit) =
      (.ok stats, r₁)) :
    (∀ k r, Check.Laps ⟨g, config, turns⟩ r₁ k r → r.GoesOn k →
      ∀ left r₂, Check.superstep ⟨g, config, turns⟩ .reset { r.numbered with left := left } =
          (.ok (), r₂) →
        r₂.ledger.round.toNat = k + 1 ∧
        Check.TellsVisits ⟨g, config, turns⟩ .reach r₂ r.cluster.seeds) ∧
    ∀ left n l r₂ stem r₃,
      Check.approach ⟨g, config, turns⟩ { r₁ with left := left } = (.ok (n, l, true), r₂) →
      Check.stem r₂ = (.ok stem, r₃) →
      Check.TellsVisits ⟨g, config, turns⟩ .trace
        { r₃ with ledger := { r₃.ledger with round := r₃.ledger.round + 1 } } ∅ := by
  let t := p.terrain config hworkers hfew
  have hplan : (⟨g, config, turns⟩ : Plan N σ).Covers t := ⟨rfl, rfl, rfl⟩
  obtain ⟨desk, hrests, hexp⟩ := Check.explored_of_explore hplan hexplore
  constructor
  · intro k r hlaps hon left r₂ hreset
    -- a round means that the exploration has found no cycle
    have hfound : r₁.ledger.cycleFound = false := by
      cases hlaps with
      | start => exact hon.found
      | round h hon' hround => exact ((h.round hon' hround).goesOn (Nat.succ_ne_zero _)).found
    have hr₁ := (hexp.between hrests hfound).1
    obtain ⟨T, hr, -⟩ := hlaps.between hplan hr₁
    refine ⟨?_, hr.tellsVisits hplan hreset⟩
    obtain ⟨-, hshare, -⟩ := hr.exists_readied hplan hreset
    have hnumber : r₂.ledger.round = UInt32.ofNat (k + 1) := by
      rw [UInt32.ofNat_add, ← hlaps.round_eq hplan hr₁ hexp.round]
      exact (congrArg Ledger.round hshare :)
    -- there are no more rounds than accepting states
    have hsum := hlaps.count_le.2 hon.changed
    have hsize := hon.size
    have hle : r₁.ledger.size ≤ t.states.card := by
      rw [hexp.accepting]
      exact Finset.card_le_card ((Finset.filter_subset _ _).trans (Finset.filter_subset _ _))
    have hlt : t.states.card < 2 ^ 32 - 1 := Terrain.Rooted.card_lt
    have hbound : k + 1 < 2 ^ 32 := by omega
    rw [hnumber, UInt32.toNat_ofNat_of_lt' hbound]
  · intro left n l r₂ stem r₃ happroach hstem
    obtain ⟨T, c, hfound⟩ := Check.found_of_approach hplan hexplore happroach
    obtain ⟨stem', r₃', hstem', -, hfound₃⟩ := hfound.stem_eq ⟨g, config, turns⟩
    obtain ⟨-, rfl⟩ := Prod.mk.inj (hstem.symm.trans hstem')
    exact hfound₃.tellsVisits hplan

end Check

/-- From the accepting state of the small graph edges lead to both other states, and there is one
from the first of these to the second.  It comes after the second was stamped, in the round and in
the trace. -/
theorem stamps_tell_visits_chorded :
    ∃ r₁ r₂ r₃ r₄ l,
      Check.explore ⟨chorded, { workers := 1 }, Turn.roundRobin⟩
        (Run.begin { workers := 1 } () 300) = (.ok ⟨3, 4, 1, 0, []⟩, r₁) ∧
      r₁.GoesOn 0 ∧
      Check.superstep ⟨chorded, { workers := 1 }, Turn.roundRobin⟩ .reset
        { r₁.numbered with left := 300 } = (.ok (), r₂) ∧
      Check.asked ⟨chorded, { workers := 1 }, Turn.roundRobin⟩ .reach r₂ 8 = some (1, false) ∧
      Check.StampsAt ⟨chorded, { workers := 1 }, Turn.roundRobin⟩ .reach r₂ 8 1 ∧
      Check.asked ⟨chorded, { workers := 1 }, Turn.roundRobin⟩ .reach r₂ 11 = some (1, true) ∧
      Check.approach ⟨chorded, { workers := 1 }, Turn.roundRobin⟩ { r₁ with left := 300 } =
        (.ok (1, l, true), r₃) ∧
      Check.stem r₃ = (.ok [0, 1, 2], r₄) ∧
      Check.asked ⟨chorded, { workers := 1 }, Turn.roundRobin⟩ .trace
        { r₄ with ledger := { r₄.ledger with round := r₄.ledger.round + 1 } } 11 =
          some (1, true) ∧
      ∃ earlier < 11, Check.StampsAt ⟨chorded, { workers := 1 }, Turn.roundRobin⟩ .trace
        { r₄ with ledger := { r₄.ledger with round := r₄.ledger.round + 1 } } earlier 1 := by
  have hexplore : (Check.explore ⟨chorded, { workers := 1 }, Turn.roundRobin⟩
      (Run.begin { workers := 1 } () 300)).1 = .ok ⟨3, 4, 1, 0, []⟩ := by decide +kernel
  generalize hr₁ : (Check.explore ⟨chorded, { workers := 1 }, Turn.roundRobin⟩
    (Run.begin { workers := 1 } () 300)).2 = r₁
  obtain ⟨hrounds, htrace⟩ := stamps_tell_visits chordedPromise (by decide) (encard_lt_of_three _)
    (Prod.ext hexplore hr₁)
  have hon : r₁.GoesOn 0 := by
    subst hr₁
    exact ⟨by decide +kernel, by decide +kernel, fun h => absurd rfl h⟩
  have hreset : (Check.superstep ⟨chorded, { workers := 1 }, Turn.roundRobin⟩ .reset
      { r₁.numbered with left := 300 }).1 = .ok () := by
    subst hr₁
    decide +kernel
  generalize hr₂ : (Check.superstep ⟨chorded, { workers := 1 }, Turn.roundRobin⟩ .reset
    { r₁.numbered with left := 300 }).2 = r₂
  have hno : Check.asked ⟨chorded, { workers := 1 }, Turn.roundRobin⟩ .reach r₂ 8 =
      some (1, false) := by
    subst hr₂ hr₁
    decide +kernel
  have hyes : Check.asked ⟨chorded, { workers := 1 }, Turn.roundRobin⟩ .reach r₂ 11 =
      some (1, true) := by
    subst hr₂ hr₁
    decide +kernel
  obtain ⟨-, hreach⟩ := hrounds 0 r₁ .start hon 300 r₂ (Prod.ext hreset hr₂)
  have hcounted : (Check.approach ⟨chorded, { workers := 1 }, Turn.roundRobin⟩
      { r₁ with left := 300 }).1.toOption.map (fun x => (x.1, x.2.2)) = some (1, true) := by
    subst hr₁
    decide +kernel
  obtain ⟨l, happroach⟩ : ∃ l, (Check.approach ⟨chorded, { workers := 1 }, Turn.roundRobin⟩
      { r₁ with left := 300 }).1 = .ok (1, l, true) := by
    revert hcounted
    rcases (Check.approach ⟨chorded, { workers := 1 }, Turn.roundRobin⟩
      { r₁ with left := 300 }).1 with stop | ⟨n, l, found⟩
    all_goals simp [Except.toOption]
  generalize hr₃ : (Check.approach ⟨chorded, { workers := 1 }, Turn.roundRobin⟩
    { r₁ with left := 300 }).2 = r₃
  have hstem : (Check.stem r₃).1 = .ok [0, 1, 2] := by
    subst hr₃ hr₁
    decide +kernel
  generalize hr₄ : (Check.stem r₃).2 = r₄
  have hagain : Check.asked ⟨chorded, { workers := 1 }, Turn.roundRobin⟩ .trace
      { r₄ with ledger := { r₄.ledger with round := r₄.ledger.round + 1 } } 11 =
        some (1, true) := by
    subst hr₄ hr₃ hr₁
    decide +kernel
  have hvisits := htrace 300 1 l r₃ [0, 1, 2] r₄ (Prod.ext happroach hr₃) (Prod.ext hstem hr₄)
  have hstamped := ((hvisits 11 1 true hagain).1.mp rfl).resolve_left (Set.notMem_empty 1)
  exact ⟨r₁, r₂, r₃, r₄, l, Prod.ext hexplore hr₁, hon, Prod.ext hreset hr₂, hno,
    (hreach 8 1 false hno).2.mp rfl, hyes, Prod.ext happroach hr₃, Prod.ext hstem hr₄, hagain,
    hstamped⟩

end FairCycle
