/-
# The master's loops

The master goes around in three loops: rounds until nothing changes, seeds until one lies on a
cycle, and parents until a chain has come to its end.  None of them goes on for ever, whatever the
graph answers, for each has something that runs out.

* A round counts the accepting candidates at its reset and again at its reachability pass, and takes
  at least one away unless it is the last.  So there are no more rounds than accepting candidates
  at first (`Check.exists_rounds`).
* A cursor goes past every seed that is tried, and no pass of the search makes a candidate
  (`Check.search_add`).
* A chase gives up after as many hops as edges were generated, and three more
  (`Check.exists_hops`).

What the first two count does not change while the workers go through a pass, turn by turn
(`Worker.Moves.worth_eq`).
-/
import FairCycle.Proofs.Budget
import FairCycle.Proofs.Lasting

namespace FairCycle

open Desk StepM

variable {N σ : Type} [Ord N]

/-! ## 1. Counting seeds -/

namespace Table

/-- The accepting candidates from a slot on. -/
def seedsFrom (slot : Nat) (T : Table N) : Nat := (T.marks.toList.drop slot).countP Mark.isSeed

theorem seedsFrom_le_size (slot : Nat) (T : Table N) : T.seedsFrom slot ≤ T.size := by
  rw [← length_marks]
  exact List.countP_le_length.trans (by simp)

theorem seedsFrom_mapMarks (slot : Nat) (T : Table N) (round : UInt32) :
    (T.mapMarks (·.startRound round)).seedsFrom slot = T.seedsFrom slot := by
  rw [seedsFrom, mapMarks, Array.toList_map, ← List.map_drop, List.countP_map, seedsFrom]
  exact List.countP_congr fun m _ => by simp

/-- A state that is stored is no candidate yet. -/
theorem seedsFrom_store [Std.TransOrd N] [Std.LawfulEqOrd N] (slot : Nat) (T : Table N) (v : N)
    (hash : UInt64) : (T.store v hash).2.seedsFrom slot = T.seedsFrom slot := by
  rcases T.store_cases v hash with ⟨hsame, -⟩ | ⟨-, -, -, hmarks⟩
  · rw [hsame]
  · have hblank : ([{}] : List Mark).countP Mark.isSeed = 0 := by decide
    have hnone : (([{}] : List Mark).drop (slot - T.marks.toList.length)).countP Mark.isSeed = 0 :=
      Nat.le_zero.mp (hblank ▸ (List.drop_sublist _ _).countP_le)
    rw [seedsFrom, hmarks, Array.toList_push, List.drop_append, List.countP_append, hnone,
      seedsFrom]
    rfl

end Table

/-! ## 2. What a pass leaves as it is -/

/-- A count at a worker, taken from its table before it begins and from its desk afterwards. -/
def Worker.worth (before : Nat → Table N → Nat) (after : Nat → Desk N → Nat) (w : Worker N) : Nat :=
  match w.stance with
  | .waiting => before w.cursor w.desk.table
  | _ => after w.cursor w.desk

section Worth

variable [Std.TransOrd N] [Std.LawfulEqOrd N] {task : Task N σ} {before : Nat → Table N → Nat}
  {after : Nat → Desk N → Nat}

/-- A pass leaves a count at the desks as it is. -/
structure Task.Leaves (task : Task N σ) (before : Nat → Table N → Nat)
    (after : Nat → Desk N → Nat) : Prop where
  opened : ∀ cursor d, after cursor (task.pass.opened d) = before cursor d.table
  keeps : ∀ cursor n, task.pass.Keeps task.graph fun d => after cursor d = n
  stored : ∀ cursor d v hash,
    after cursor { d with table := (d.table.store v hash).2 } = after cursor d

omit [Std.TransOrd N] [Std.LawfulEqOrd N] in
theorem Worker.worth_of_ne {w : Worker N} (hs : w.stance ≠ .waiting) :
    w.worth before after = after w.cursor w.desk := by
  unfold worth
  split
  · rename_i hw
    exact absurd hw hs
  · rfl

/-- **No turn changes the count.** -/
theorem Worker.Moves.worth_eq (hleaves : task.Leaves before after) {w w' : Worker N}
    {k k' : Commons N σ} {memory : σ} {log : Array Event} (h : w.Moves task k memory log w' k') :
    w'.worth before after = w.worth before after := by
  obtain ⟨hcursor, hs', hatDesk⟩ := h.atDesk
  rw [worth_of_ne hs', hcursor]
  cases hatDesk with
  | begins hs hdesk => simp only [worth, hs, hdesk, hleaves.opened]
  | @handles e q hs hnext hdesk =>
    rw [worth_of_ne (by simp [hs]), hdesk]
    exact (hleaves.keeps w.cursor _).handleEdge (fun _ => hleaves.stored w.cursor w.desk e.target _)
      rfl
  | rests hs hnext hdesk => rw [worth_of_ne hs, hdesk]

theorem Cluster.worth_drive (hleaves : task.Leaves before after) (turns : Nat → Turn)
    (left time : Nat) (c : Cluster N σ) :
    ((c.drive task turns left time).2.2.workers.toList.map (Worker.worth before after)).sum =
      (c.workers.toList.map (Worker.worth before after)).sum := by
  induction left generalizing time c with
  | zero => rfl
  | succ left ih =>
    rw [drive]
    split
    · rfl
    · rw [ih]
      rcases c.turn_cases task (turns time) with ⟨-, heq⟩ | ⟨w, w', k', memory, log, hw, hmove, heq⟩
      · rw [heq]
      · obtain ⟨rest, hsum, hset⟩ := exists_sum_replace (Worker.worth before after) hw
        rw [heq, hset, hmove.worth_eq hleaves, hsum]

end Worth

section Superstep

variable [Std.TransOrd N] [Std.LawfulEqOrd N] {plan : Plan N σ} {pass : Pass} {r r' : Run N σ}

/-- **A superstep without a fault leaves the count as it is.** -/
theorem Check.worth_superstep {before : Nat → Table N → Nat} {after : Nat → Desk N → Nat}
    (hleaves : Task.Leaves ⟨plan.graph, plan.config.reduction, pass⟩ before after)
    (h : superstep plan pass r = (.ok (), r')) :
    (r'.cluster.workers.toList.map fun w => after w.cursor w.desk).sum =
      (r.cluster.workers.toList.map fun w => before w.cursor w.desk.table).sum := by
  obtain ⟨hsettled, -, rfl⟩ := of_superstep_eq_ok h
  have hafter : (driveWorkers plan pass r).cluster.workers.toList.map
      (fun w => after w.cursor w.desk) =
      (driveWorkers plan pass r).cluster.workers.toList.map (Worker.worth before after) := by
    refine List.map_congr_left fun w hw => (Worker.worth_of_ne fun hs => ?_).symm
    have hfinal := Array.all_eq_true_iff_forall_mem.mp hsettled w (Array.mem_toList_iff.mp hw)
    rw [hs] at hfinal
    exact absurd hfinal (by simp [Stance.isFinal])
  have hbefore : (r.cluster.arm r.ledger).workers.toList.map (Worker.worth before after) =
      r.cluster.workers.toList.map fun w => before w.cursor w.desk.table := by
    rw [Cluster.arm, Array.toList_map, List.map_map]
    rfl
  change ((driveWorkers plan pass r).cluster.workers.toList.map _).sum = _
  rw [hafter, ← hbefore]
  exact Cluster.worth_drive hleaves plan.turns r.left r.time (r.cluster.arm r.ledger)

theorem Check.ledger_superstep (h : superstep plan pass r = (.ok (), r')) :
    r'.ledger.size = (r'.cluster.workers.toList.map (·.desk.ledger.size)).sum ∧
      r'.ledger.oldSize = r.ledger.oldSize := by
  obtain ⟨-, -, rfl⟩ := of_superstep_eq_ok h
  refine ⟨?_, (Ledger.rounds_reduce r.ledger _).2⟩
  change (r.ledger.reduce (driveWorkers plan pass r).cluster.parts).size = _
  rw [Ledger.size_reduce, Cluster.parts, List.map_map]
  rfl

end Superstep

/-! ## 3. Rounds -/

section Rounds

variable [Std.TransOrd N] [Std.LawfulEqOrd N] {plan : Plan N σ} {r r' : Run N σ}

/-- The number of accepting candidates in all tables. -/
def Cluster.seedTotal (c : Cluster N σ) : Nat :=
  (c.workers.toList.map fun w => w.desk.table.seedsFrom 0).sum

/-- A reset drops no accepting candidate. -/
theorem leaves_reset_seeds (g : Graph N σ) (reduction : Bool) :
    Task.Leaves ⟨g, reduction, .reset⟩ (fun _ T => T.seedsFrom 0) fun _ d =>
      d.table.seedsFrom 0 where
  opened _ d := d.table.seedsFrom_mapMarks 0 d.ledger.round
  keeps _ _ :=
    { writes := fun _ hw _ => by cases hw
      notes := fun _ hd => hd
      enters := fun _ hp _ => absurd hp (by simp) }
  stored _ d v hash := d.table.seedsFrom_store 0 v hash

/-- A reset counts the accepting candidates. -/
theorem leaves_reset_size (g : Graph N σ) (reduction : Bool) :
    Task.Leaves ⟨g, reduction, .reset⟩ (fun _ T => T.seedsFrom 0) fun _ d => d.ledger.size where
  opened _ d :=
    (Table.length_nodesWhere _ _).trans (d.table.seedsFrom_mapMarks 0 d.ledger.round)
  keeps _ _ :=
    { writes := fun _ hw _ => by cases hw
      notes := fun hn hd => by cases hn <;> exact hd
      enters := fun _ hp _ => absurd hp (by simp) }
  stored _ _ _ _ := rfl

/-- Reachability counts the accepting candidates before it takes others in. -/
theorem leaves_reach_size (g : Graph N σ) (reduction : Bool) :
    Task.Leaves ⟨g, reduction, .reach⟩ (fun _ T => T.seedsFrom 0) fun _ d => d.ledger.size where
  opened _ d := Table.length_nodesWhere _ _
  keeps _ _ :=
    { writes := fun _ _ hd => hd
      notes := fun hn hd => by cases hn <;> exact hd
      enters := fun _ hp _ => absurd hp (by simp) }
  stored _ _ _ _ := rfl

theorem Check.of_superstep_reset (h : superstep plan .reset r = (.ok (), r')) :
    r'.ledger.size = r'.cluster.seedTotal ∧ r'.ledger.oldSize = r.ledger.oldSize := by
  obtain ⟨hsize, hold⟩ := ledger_superstep h
  refine ⟨hsize.trans ?_, hold⟩
  exact (worth_superstep (leaves_reset_size plan.graph plan.config.reduction) h).trans
    (worth_superstep (leaves_reset_seeds plan.graph plan.config.reduction) h).symm

theorem Check.of_superstep_reach (h : superstep plan .reach r = (.ok (), r')) :
    r'.ledger.size = r.cluster.seedTotal ∧ r'.ledger.oldSize = r.ledger.oldSize := by
  obtain ⟨hsize, hold⟩ := ledger_superstep h
  exact ⟨hsize.trans (worth_superstep (leaves_reach_size plan.graph plan.config.reduction) h), hold⟩

theorem Check.of_reset_eq_ok (h : reset plan r = (.ok (), r')) :
    superstep plan .reset r = (.ok (), r') ∧ r'.ledger.size = r'.ledger.oldSize := by
  obtain ⟨⟨⟩, r₁, hstep, hrest⟩ := exists_of_bind_eq_ok h
  rw [RunM.ledger_bind] at hrest
  split at hrest
  · exact absurd (Prod.mk.inj hrest).1 (by simp)
  · rename_i heq
    obtain ⟨-, rfl⟩ := Prod.mk.inj hrest
    exact ⟨hstep, not_not.mp heq⟩

theorem Check.of_eliminate_eq_ok (h : eliminate plan r = (.ok (), r')) :
    r'.ledger.size ≤ r.ledger.size ∧ r'.ledger.oldSize = r.ledger.oldSize := by
  rw [eliminate, RunM.ledger_bind] at h
  obtain ⟨⟨⟩, r₁, hstep, hrest⟩ := exists_of_bind_eq_ok h
  have hold := (ledger_superstep hstep).2
  rw [RunM.ledger_bind] at hrest
  split at hrest
  · exact absurd (Prod.mk.inj hrest).1 (by simp)
  · obtain ⟨-, rfl⟩ := Prod.mk.inj hrest
    exact ⟨Nat.sub_le _ _, hold⟩

/-- **A round takes accepting candidates away or leaves them as they are.** -/
theorem Check.of_round_eq_ok (h : round plan r = (.ok (), r')) :
    r'.ledger.size ≤ r.ledger.size ∧ r'.ledger.oldSize = r.ledger.size := by
  obtain ⟨⟨⟩, r₁, hnote, h₁⟩ := exists_of_bind_eq_ok h
  obtain ⟨-, rfl⟩ := Prod.mk.inj hnote
  obtain ⟨⟨⟩, r₂, hreset, h₂⟩ := exists_of_bind_eq_ok h₁
  obtain ⟨⟨⟩, r₃, hreach, heliminate⟩ := exists_of_bind_eq_ok h₂
  obtain ⟨hstep, hsame⟩ := of_reset_eq_ok hreset
  obtain ⟨hseeds, hold⟩ := of_superstep_reset hstep
  obtain ⟨⟨⟩, r₄, hstep', hrecord⟩ := exists_of_bind_eq_ok hreach
  obtain ⟨-, rfl⟩ := Prod.mk.inj hrecord
  obtain ⟨hcount, hold'⟩ := of_superstep_reach hstep'
  obtain ⟨hle, hold''⟩ := of_eliminate_eq_ok heliminate
  have hbefore : r₂.ledger.oldSize = r.ledger.size := hold
  refine ⟨hle.trans ?_, hold''.trans (hold'.trans hbefore)⟩
  change r₄.ledger.size ≤ _
  omega

omit [Std.TransOrd N] [Std.LawfulEqOrd N] in
theorem RunM.bind_congr {α β : Type} {x y : RunM N σ α} {f : α → RunM N σ β} (h : x r = y r) :
    (x >>= f) r = (y >>= f) r := by
  change ExceptT.bindCont f (x r).1 (x r).2 = ExceptT.bindCont f (y r).1 (y r).2
  rw [h]

/-- One round and those after it. -/
theorem Check.rounds_succ (plan : Plan N σ) (bound : Nat) (r : Run N σ) :
    rounds plan (bound + 1) r =
      if r.ledger.cycleFound || r.ledger.size == 0 then (.ok 0, r)
      else (round plan >>= fun _ => RunM.ledger >>= fun l =>
        if l.oldSize = l.size then pure 1 else (rounds plan bound >>= fun n => pure (n + 1)) :
          RunM N σ Nat) r := by
  rw [rounds, RunM.ledger_bind]
  split
  · rfl
  · rfl

/-- **There are no more rounds than accepting candidates at first.** -/
theorem Check.exists_rounds (plan : Plan N σ) (bound : Nat) (r : Run N σ) :
    ∃ n ≤ r.ledger.size, (rounds plan bound r).2 = (fun r => (round plan r).2)^[n] r ∧
      ∀ k, (rounds plan bound r).1 = .ok k → k = n := by
  induction bound generalizing r with
  | zero => exact ⟨0, Nat.zero_le _, rfl, fun k hk => (Except.ok.inj hk).symm⟩
  | succ bound ih =>
    rw [rounds_succ]
    split
    · exact ⟨0, Nat.zero_le _, rfl, fun k hk => (Except.ok.inj hk).symm⟩
    · rename_i hcond
      have hpos : 0 < r.ledger.size := Nat.pos_of_ne_zero fun hzero => hcond (by simp [hzero])
      rcases hround : round plan r with ⟨stop | ⟨⟩, r₁⟩
      · rw [RunM.bind_error hround]
        exact ⟨1, hpos, by simp [hround], fun k hk => absurd hk (by simp)⟩
      · rw [RunM.bind_ok hround, RunM.ledger_bind]
        obtain ⟨hle, hold⟩ := of_round_eq_ok hround
        split
        · refine ⟨1, hpos, ?_, fun k hk => (Except.ok.inj hk).symm⟩
          rw [Function.iterate_one, hround]
          rfl
        · rename_i hne
          obtain ⟨n, hn, hstate, hcount⟩ := ih r₁
          refine ⟨n + 1, by omega, ?_⟩
          rw [Function.iterate_succ_apply, hround, ← hstate]
          rcases hrest : rounds plan bound r₁ with ⟨stop | k, r₂⟩
          · rw [RunM.bind_error hrest]
            exact ⟨rfl, fun k hk => absurd hk (by simp)⟩
          · rw [RunM.bind_ok hrest]
            refine ⟨rfl, fun m hm => ?_⟩
            rw [← Except.ok.inj hm, hcount k (by rw [hrest])]

/-- More rounds than there are accepting candidates at first are never gone through. -/
theorem Check.rounds_add (plan : Plan N σ) {bound : Nat} (more : Nat) {r : Run N σ}
    (h : r.ledger.size ≤ bound) : rounds plan (bound + more) r = rounds plan bound r := by
  induction bound generalizing r with
  | zero =>
    cases more with
    | zero => rfl
    | succ more =>
      rw [Nat.zero_add, rounds_succ, if_pos (by simp [Nat.le_zero.mp h])]
      rfl
  | succ bound ih =>
    rw [Nat.succ_add, rounds_succ, rounds_succ]
    split
    · rfl
    · rcases hround : round plan r with ⟨stop | ⟨⟩, r₁⟩
      · rw [RunM.bind_error hround, RunM.bind_error hround]
      · rw [RunM.bind_ok hround, RunM.bind_ok hround, RunM.ledger_bind, RunM.ledger_bind]
        obtain ⟨hle, hold⟩ := of_round_eq_ok hround
        split
        · rfl
        · rename_i hne
          exact RunM.bind_congr (ih (by omega))

end Rounds

/-! ## 4. Seeds -/

section Search

variable {r r' : Run N σ}

/-- The accepting candidates that the cursors have not passed. -/
def Cluster.openSeeds (c : Cluster N σ) : Nat :=
  (c.workers.toList.map fun w => w.desk.table.seedsFrom w.cursor).sum

theorem Table.seedsFrom_anti (T : Table N) {i j : Nat} (h : i ≤ j) :
    T.seedsFrom j ≤ T.seedsFrom i := by
  obtain ⟨n, rfl⟩ := Nat.exists_eq_add_of_le h
  rw [seedsFrom, seedsFrom, ← List.drop_drop]
  exact (List.drop_sublist _ _).countP_le

/-- Past a seed there is one seed less. -/
theorem Table.seedsFrom_succ {T : Table N} {slot : Nat} (h : Worker.seedIn T.marks slot = true) :
    T.seedsFrom (slot + 1) < T.seedsFrom slot := by
  obtain ⟨m, hm, hseed⟩ : ∃ m, T.marks[slot]? = some m ∧ m.isSeed = true := by
    rw [Worker.seedIn] at h
    cases hm : T.marks[slot]? with
    | none =>
      rw [hm] at h
      exact absurd h (by simp)
    | some m =>
      rw [hm] at h
      exact ⟨m, rfl, h⟩
  obtain ⟨hlt, hget⟩ := Array.getElem?_eq_some_iff.mp hm
  have hdrop : T.marks.toList.drop slot = m :: T.marks.toList.drop (slot + 1) := by
    rw [List.drop_eq_getElem_cons (by simpa using hlt), Array.getElem_toList, hget]
  rw [seedsFrom, seedsFrom, hdrop, List.countP_cons, if_pos hseed]
  exact Nat.lt_succ_self _

/-- Naming a seed moves the cursor past it. -/
theorem Worker.seedsFrom_of_pick {l l' : Ledger N} {w w' : Worker N}
    (h : w.run .pickSeed l = .ok (l', w')) :
    w'.desk.table.seedsFrom w'.cursor ≤ w.desk.table.seedsFrom w.cursor ∧
      (l.chase.seed = none → l'.chase.seed ≠ none →
        w'.desk.table.seedsFrom w'.cursor < w.desk.table.seedsFrom w.cursor) := by
  change w.pickSeed l = _ at h
  rw [pickSeed] at h
  split at h
  · cases h
    exact ⟨le_rfl, fun hnone hne => absurd hnone hne⟩
  · split at h
    · cases h
      exact ⟨w.desk.table.seedsFrom_anti (Nat.le_max_left _ _), fun hnone hne => absurd hnone hne⟩
    · rename_i slot hslot
      cases h
      obtain ⟨hle, -, hseed, -⟩ := seedFrom?_eq_some hslot
      have hlt := (Table.seedsFrom_succ hseed).trans_le (w.desk.table.seedsFrom_anti hle)
      exact ⟨hlt.le, fun _ _ => hlt⟩

/-- **A seed that is named was open and is so no longer.** -/
theorem Cluster.openSeeds_ringFrom {count i : Nat} {l l' : Ledger N} {c c' : Cluster N σ}
    (h : c.ringFrom .pickSeed count i l = (.ok l', c')) :
    c'.openSeeds ≤ c.openSeeds ∧
      (l.chase.seed = none → l'.chase.seed ≠ none → c'.openSeeds < c.openSeeds) := by
  induction count generalizing i l c with
  | zero =>
    obtain ⟨hl, rfl⟩ := Prod.mk.inj h
    obtain rfl := Except.ok.inj hl
    exact ⟨le_rfl, fun hnone hne => absurd hnone hne⟩
  | succ count ih =>
    rw [ringFrom] at h
    rcases c.visit_cases .pickSeed l i with
      ⟨-, hvisit⟩ | ⟨w, hw, ⟨l₁, cursor, log, hrun, hvisit⟩ | hvisit⟩
    · rw [hvisit] at h
      exact ih h
    · rw [hvisit] at h
      obtain ⟨hle, hlt⟩ := ih h
      obtain ⟨hworker, hnamed⟩ := Worker.seedsFrom_of_pick hrun
      obtain ⟨rest, hsum, hset⟩ :=
        exists_sum_replace (fun w => w.desk.table.seedsFrom w.cursor) hw
      have hbefore : c.openSeeds = w.desk.table.seedsFrom w.cursor + rest := hsum
      have hafter : (c.replace i { w with cursor := cursor }
          { c.commons with log := log }).openSeeds =
          w.desk.table.seedsFrom cursor + rest := hset _ _
      dsimp only at hworker hnamed
      refine ⟨by omega, fun hnone hne => ?_⟩
      by_cases hnext : l₁.chase.seed = none
      · have := hlt hnext hne
        omega
      · have := hnamed hnone hnext
        omega
    · rw [hvisit] at h
      exact absurd (Prod.mk.inj h).1 (by simp)

theorem Cluster.openSeeds_le (c : Cluster N σ) :
    c.openSeeds ≤ (c.tables.map Table.size).sum := by
  rw [openSeeds, tables, List.map_map]
  exact List.sum_le_sum fun w _ => w.desk.table.seedsFrom_le_size w.cursor

variable [Std.TransOrd N] [Std.LawfulEqOrd N]

/-- A search makes no candidates. -/
theorem leaves_search_seeds (g : Graph N σ) (reduction : Bool) :
    Task.Leaves ⟨g, reduction, .search⟩ (fun cursor T => T.seedsFrom cursor) fun cursor d =>
      d.table.seedsFrom cursor where
  opened _ _ := rfl
  keeps _ _ :=
    { writes := fun _ hw _ => by cases hw
      notes := fun _ hd => hd
      enters := fun _ _ hd => hd }
  stored cursor d v hash := d.table.seedsFrom_store cursor v hash

omit [Std.TransOrd N] [Std.LawfulEqOrd N] in
theorem Check.of_ring_pickSeed (hseed : r.ledger.chase.seed = none)
    (h : ring .pickSeed r = (.ok (), r')) :
    r'.cluster.openSeeds ≤ r.cluster.openSeeds ∧
      (r'.ledger.chase.seed ≠ none → r'.cluster.openSeeds < r.cluster.openSeeds) := by
  obtain ⟨result, r₁, hring, hrest⟩ := exists_of_bind_eq_ok h
  obtain ⟨hresult, rfl⟩ := Prod.mk.inj hring
  cases result with
  | error stop => exact absurd (Prod.mk.inj hrest).1 (by simp)
  | ok l =>
    obtain ⟨-, rfl⟩ := Prod.mk.inj hrest
    have heq : r.cluster.ringFrom .pickSeed r.cluster.workers.size 0 r.ledger =
        (.ok l, (r.cluster.ring .pickSeed r.ledger).2) := Prod.ext (Except.ok.inj hresult) rfl
    obtain ⟨hle, hlt⟩ := Cluster.openSeeds_ringFrom heq
    exact ⟨hle, hlt hseed⟩

/-- **No seed is tried twice**: a bound above the number of open seeds is never used up. -/
theorem Check.search_add (plan : Plan N σ) (remaining : Nat) {bound : Nat} (more : Nat)
    {r : Run N σ} (h : r.cluster.openSeeds < bound) :
    search plan remaining (bound + more) r = search plan remaining bound r := by
  induction bound generalizing r with
  | zero => exact absurd h (Nat.not_lt_zero _)
  | succ bound ih =>
    rw [Nat.succ_add, search, search]
    have hnote (f : Unit → RunM N σ Unit) :
        (RunM.note (fun l => { l with chase := { l.chase with seed := none } }) >>= f) r =
          f () { r with
            ledger := { r.ledger with chase := { r.ledger.chase with seed := none } } } := rfl
    rw [hnote, hnote]
    rcases hring : ring .pickSeed { r with
      ledger := { r.ledger with chase := { r.ledger.chase with seed := none } } } with
      ⟨stop | ⟨⟩, r₁⟩
    · rw [RunM.bind_error hring, RunM.bind_error hring]
    · rw [RunM.bind_ok hring, RunM.bind_ok hring, RunM.ledger_bind, RunM.ledger_bind]
      obtain ⟨-, hlt⟩ := of_ring_pickSeed rfl hring
      cases hseed : r₁.ledger.chase.seed with
      | none => rfl
      | some seed =>
        have hfewer : r₁.cluster.openSeeds < r.cluster.openSeeds := hlt (by rw [hseed]; simp)
        dsimp only
        rw [RunM.record_bind, RunM.record_bind]
        rcases hstep : superstep plan .search
          { r₁ with cluster := r₁.cluster.record (.trying seed) } with ⟨stop | ⟨⟩, r₂⟩
        · rw [RunM.bind_error hstep, RunM.bind_error hstep]
        · rw [RunM.bind_ok hstep, RunM.bind_ok hstep, RunM.ledger_bind, RunM.ledger_bind]
          split
          · rfl
          · have hsame := worth_superstep
              (leaves_search_seeds plan.graph plan.config.reduction) hstep
            change r₂.cluster.openSeeds = r₁.cluster.openSeeds at hsame
            exact ih (by omega)

end Search

/-! ## 5. Parents -/

/-- **A chase ends after one hop more than it may go on for.** -/
theorem Check.exists_hops (stop : Handle) (closed : Bool) (left : Nat) (current : Handle)
    (passed : List N) (r : Run N σ) :
    ∃ states : List Handle, states.length ≤ left + 1 ∧
      (chase stop closed left current passed r).2 =
        states.foldl (fun r state => (hop state r).2) r := by
  induction left generalizing current passed r with
  | zero =>
    refine ⟨[current], le_rfl, ?_⟩
    rw [chase_eq]
    rcases hhop : hop current r with ⟨stop | x, r₁⟩
    · rw [RunM.bind_error hhop, List.foldl_cons, hhop]
      rfl
    · rw [RunM.bind_ok hhop, List.foldl_cons, hhop]
      split
      · rfl
      · rfl
  | succ left ih =>
    rw [chase_eq]
    rcases hhop : hop current r with ⟨stop | ⟨node, parent⟩, r₁⟩
    · refine ⟨[current], Nat.le_add_left _ _, ?_⟩
      rw [RunM.bind_error hhop, List.foldl_cons, hhop]
      rfl
    · rw [RunM.bind_ok hhop]
      split
      · refine ⟨[current], Nat.le_add_left _ _, ?_⟩
        rw [List.foldl_cons, hhop]
        rfl
      · cases parent with
        | none =>
          refine ⟨[current], Nat.le_add_left _ _, ?_⟩
          rw [List.foldl_cons, hhop]
          rfl
        | some parent =>
          obtain ⟨states, hlen, hstates⟩ := ih parent (node :: passed) r₁
          refine ⟨current :: states, Nat.succ_le_succ hlen, ?_⟩
          rw [List.foldl_cons, hhop]
          exact hstates

end FairCycle
