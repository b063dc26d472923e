/-
# How marks change in a pass

Whatever graph a pass runs over, a worker writes nothing in place of a mark but what the rules of
the pass can write (`Pass.Writes`), and a state that it stores gets a blank mark first.  So a
relation that holds between a mark and whatever may be written in its place (`Pass.Tends`) holds
between the marks of a state at two moments of the pass, the earlier and the later one
(`Check.drifts_driveWorkers`).

In a reachability pass, for instance, no state leaves the candidate set, and in an elimination pass
none enters it.
-/
import FairCycle.Proofs.Census
import FairCycle.Proofs.Survivors

namespace FairCycle

variable {N σ : Type} [Ord N]

/-! ## 1. Tables -/

/-- `T'` has all the states of `T`, with marks that `R` relates to the ones they had; a state that
`T` does not have was stored with a blank mark in the meantime. -/
structure Table.Drifts (R : Mark → Mark → Prop) (T T' : Table N) : Prop where
  marks : ∀ {v m}, T.markOf v = some m → ∃ m', T'.markOf v = some m' ∧ R m m'
  fresh : ∀ {v m'}, T.markOf v = none → T'.markOf v = some m' → R {} m'

/-- A relation, from earlier to later marks, that holds whatever a pass writes. -/
structure Pass.Tends (g : Graph N σ) (pass : Pass) (R : Mark → Mark → Prop) : Prop where
  refl : ∀ m, R m m
  trans : ∀ {m m' m''}, R m m' → R m' m'' → R m m''
  /-- A reset writes all marks anew. -/
  resets : pass = .reset → ∀ m round, R m (m.startRound round)
  writes : ∀ {d : Desk N} {h : Handle} {m m' : Mark}, pass.Writes g d h m m' → R m m'

section Tables

variable {g : Graph N σ} {pass : Pass} {R : Mark → Mark → Prop} {T T' : Table N} {h : Handle}
  {m m' : Mark}

namespace Pass.Tends

theorem drifts_refl (hR : pass.Tends g R) (T : Table N) : T.Drifts R T where
  marks hm := ⟨_, hm, hR.refl _⟩
  fresh hnone hm := absurd (hnone.symm.trans hm) (by simp)

theorem drifts_trans (hR : pass.Tends g R) {T'' : Table N} (h : T.Drifts R T')
    (h' : T'.Drifts R T'') : T.Drifts R T'' where
  marks hm := by
    obtain ⟨m', hm', hR₁⟩ := h.marks hm
    obtain ⟨m'', hm'', hR₂⟩ := h'.marks hm'
    exact ⟨m'', hm'', hR.trans hR₁ hR₂⟩
  fresh {v m''} hnone hm'' := by
    cases hm' : T'.markOf v with
    | none => exact h'.fresh hm' hm''
    | some m' =>
      obtain ⟨k, hk, hR₂⟩ := h'.marks hm'
      obtain rfl := Option.some.inj (hk.symm.trans hm'')
      exact hR.trans (h.fresh hnone hm') hR₂

/-- Writing one mark. -/
theorem drifts_setMark (hR : pass.Tends g R) (hm : T.mark? h = some m) (hw : R m m') :
    T.Drifts R (T.setMark h m') := by
  constructor
  · intro v k hk
    rcases T.markOf_setMark hm m' v with ⟨hv, -, hv'⟩ | hsame
    · obtain rfl := Option.some.inj (hv.symm.trans hk)
      exact ⟨m', hv', hw⟩
    · exact ⟨k, hsame.trans hk, hR.refl k⟩
  · intro v k hnone hk
    rcases T.markOf_setMark hm m' v with ⟨hv, -⟩ | hsame
    · exact absurd (hnone.symm.trans hv) (by simp)
    · exact absurd (hnone.symm.trans (hsame.symm.trans hk)) (by simp)

/-- The desks with a table that has drifted away from `T`. -/
theorem keeps_drifts (hR : pass.Tends g R) (T : Table N) :
    pass.Keeps g fun d => T.Drifts R d.table where
  writes hm hw hd := hR.drifts_trans hd (hR.drifts_setMark hm (hR.writes hw))
  notes _ hd := hd
  enters _ _ hd := hd

theorem drifts_start (hR : pass.Tends g R) (d : Desk N) (memory : σ) :
    d.table.Drifts R (pass.start g (d, memory)).2.1.table := by
  rw [Pass.desk_start]
  cases pass with
  | reset =>
    constructor
    · intro v m hm
      exact ⟨_, (Table.markOf_mapMarks ..).trans (congrArg (Option.map _) hm), hR.resets rfl m _⟩
    · intro v m' hnone hm'
      have hmap := (Table.markOf_mapMarks ..).symm.trans hm'
      rw [hnone] at hmap
      exact absurd hmap (by simp)
  | explore | reach | eliminate | search | trace => exact hR.drifts_refl d.table

variable [Std.TransOrd N] [Std.LawfulEqOrd N]

/-- Storing a state. -/
theorem drifts_store (hR : pass.Tends g R) (T : Table N) (v : N) (hash : UInt64) :
    T.Drifts R (T.store v hash).2 := by
  rcases T.store_cases v hash with ⟨hsame, -⟩ | ⟨-, hfind, hput, -⟩
  · rw [hsame]
    exact hR.drifts_refl T
  · constructor
    · intro u m hm
      exact ⟨m, hput.markOf_of_new hfind hm, hR.refl m⟩
    · intro u m hnone hm
      rcases eq_or_ne u v with rfl | hne
      · rw [Option.some.inj (hput.mark_self.symm.trans hm)]
        exact hR.refl m
      · rw [hput.mark_ne u hne, hnone] at hm
        simp at hm

end Pass.Tends

end Tables

/-! ## 2. Workers -/

section Workers

variable [Std.TransOrd N] [Std.LawfulEqOrd N] {task : Task N σ} {R : Mark → Mark → Prop}

theorem Pass.Tends.drifts_handleEdge (hR : task.pass.Tends task.graph R) (e : Edge N) (d : Desk N)
    (memory : σ) : d.table.Drifts R (handleEdge task e (d, memory)).2.1.table :=
  (hR.keeps_drifts d.table).handleEdge (fun _ => hR.drifts_store d.table e.target _)
    (hR.drifts_refl d.table)

/-- **In a turn marks change only as the rules of the pass allow.** -/
theorem Worker.Moves.drifts {w w' : Worker N} {k k' : Commons N σ} {memory : σ}
    {log : Array Event} (h : w.Moves task k memory log w' k')
    (hR : task.pass.Tends task.graph R) : w.desk.table.Drifts R w'.desk.table := by
  have started : ∀ {r : Except Stop (List N)} {d : Desk N},
      task.pass.start task.graph (w.desk, k.memory) = (r, d, memory) →
        w.desk.table.Drifts R d.table := by
    intro r d hrun
    have hd := hR.drifts_start w.desk k.memory
    rwa [hrun] at hd
  have handled : ∀ {e : Edge N} {r : Except Stop (Progress N)} {d : Desk N},
      handleEdge task e (w.desk, k.memory) = (r, d, memory) → w.desk.table.Drifts R d.table := by
    intro e r d hrun
    have hd := hR.drifts_handleEdge e w.desk k.memory
    rwa [hrun] at hd
  cases h with
  | begins hs hrun | fails hs hrun => exact started hrun
  | @handles e q r d hs hh ha hq hr hrun =>
    rcases r with (_ | _ | _) | (_ | _ | _)
    all_goals exact handled hrun
  | breaks hs hh hq hr hrun => exact handled hrun
  | _ => exact hR.drifts_refl _

end Workers

/-! ## 3. The whole cluster -/

/-- The tables of all workers have drifted. -/
structure Cluster.Drifts (R : Mark → Mark → Prop) (c c' : Cluster N σ) : Prop where
  size : c'.workers.size = c.workers.size
  table : ∀ {i : Nat} {w w' : Worker N}, c.workers[i]? = some w → c'.workers[i]? = some w' →
    w.desk.table.Drifts R w'.desk.table

namespace Cluster.Drifts

variable {R : Mark → Mark → Prop} {c c' c'' : Cluster N σ} {v : N} {m m' : Mark}

theorem exists_worker (h : c.Drifts R c') {i : Nat} :
    (∃ w, c.workers[i]? = some w) ↔ ∃ w', c'.workers[i]? = some w' := by
  rw [← Option.isSome_iff_exists, ← Option.isSome_iff_exists]
  simp [h.size]

theorem trans {g : Graph N σ} {pass : Pass} (hR : pass.Tends g R) (h : c.Drifts R c')
    (h' : c'.Drifts R c'') : c.Drifts R c'' where
  size := h'.size.trans h.size
  table hw hw'' := by
    obtain ⟨w', hw'⟩ := h.exists_worker.mp ⟨_, hw⟩
    exact hR.drifts_trans (h.table hw hw') (h'.table hw' hw'')

theorem of_eq {g : Graph N σ} {pass : Pass} (hR : pass.Tends g R)
    (htables : c'.tables = c.tables) : c.Drifts R c' where
  size := by
    have hlength := congrArg List.length htables
    simpa [tables] using hlength
  table {i w w'} hw hw' := by
    have hget := congrArg (·[i]?) htables
    simp only [tables, List.getElem?_map, Array.getElem?_toList, hw, hw', Option.map_some] at hget
    rw [Option.some.inj hget]
    exact hR.drifts_refl _

/-- What was marked is marked still, with a related mark. -/
theorem exists_later (h : c.Drifts R c') (hm : c.Marks v m) : ∃ m', c'.Marks v m' ∧ R m m' := by
  obtain ⟨table, htable, hentry⟩ := hm
  obtain ⟨w, hw, rfl⟩ := List.mem_map.mp htable
  obtain ⟨i, hi⟩ := List.mem_iff_getElem?.mp hw
  rw [Array.getElem?_toList] at hi
  obtain ⟨w', hw'⟩ := h.exists_worker.mp ⟨w, hi⟩
  obtain ⟨m', hm', hRm⟩ := (h.table hi hw').marks (Table.mem_entries.mp hentry)
  refine ⟨m', ⟨w'.desk.table, List.mem_map.mpr ⟨w', ?_, rfl⟩, Table.mem_entries.mpr hm'⟩, hRm⟩
  exact Array.mem_toList_iff.mpr (Array.mem_of_getElem? hw')

/-- What is marked was marked before, with a related mark, or had a blank one first. -/
theorem exists_earlier (h : c.Drifts R c') (hm : c'.Marks v m') :
    (∃ m, c.Marks v m ∧ R m m') ∨ R {} m' := by
  obtain ⟨table, htable, hentry⟩ := hm
  obtain ⟨w', hw', rfl⟩ := List.mem_map.mp htable
  obtain ⟨i, hi⟩ := List.mem_iff_getElem?.mp hw'
  rw [Array.getElem?_toList] at hi
  obtain ⟨w, hw⟩ := h.exists_worker.mpr ⟨w', hi⟩
  have hm' := Table.mem_entries.mp hentry
  cases hold : w.desk.table.markOf v with
  | none => exact .inr ((h.table hw hi).fresh hold hm')
  | some m =>
    obtain ⟨k, hk, hRm⟩ := (h.table hw hi).marks hold
    obtain rfl := Option.some.inj (hk.symm.trans hm')
    refine .inl ⟨m, ⟨w.desk.table, List.mem_map.mpr ⟨w, ?_, rfl⟩, Table.mem_entries.mpr hold⟩, hRm⟩
    exact Array.mem_toList_iff.mpr (Array.mem_of_getElem? hw)

end Cluster.Drifts

section Midst

variable {t : Terrain N σ} {pass : Pass} {o : Opening N} {c : Cluster N σ}

/-- Except for a reset, the start of a pass leaves the table as it is. -/
theorem Pass.table_opened (hpass : pass ≠ .reset) (d : Desk N) :
    (pass.opened d).table = d.table := by
  cases pass with
  | reset => exact absurd rfl hpass
  | explore | reach | eliminate | search | trace => rfl

theorem Worker.Fit.table_shown {w : Worker N} (hw : w.Fit t pass o) (hpass : pass ≠ .reset)
    (memory : σ) : (w.shown o).table = w.desk.table := by
  have course := hw.course
  unfold Worker.shown
  split
  · rename_i hs
    unfold Worker.OnCourse at course
    rw [hs] at course
    obtain ⟨memory', hrun⟩ := course.2 memory
    have hdesk := Pass.desk_start pass t.graph w.desk memory
    rw [hrun] at hdesk
    rw [show o.desk w.id = pass.opened w.desk from hdesk, Pass.table_opened hpass]
  · rfl

/-- **In the midst of a pass the tables are those of its scene.** -/
theorem Cluster.Orderly.shelved (hc : c.Orderly t pass o) (hpass : pass ≠ .reset)
    (hT : t.Parted (c.scene o).tables) : c.Shelved t (c.scene o).tables where
  parted := hT
  tables := by
    refine Cluster.map_workers hc.size fun {i w} hw => ?_
    have hshown := (hc.fit hw).table_shown hpass c.commons.memory
    rw [Scene.tables, scene_desk hw, hshown]

/-- A worker that is about to take an edge is ready and goes on. -/
theorem Worker.of_upNext_eq_some {w : Worker N} {k : Commons N σ} {e : Edge N}
    (h : w.upNext k = some e) :
    w.stance = .ready ∧ w.halted = false ∧ ∃ q, w.queue.toList = e :: q := by
  unfold Worker.upNext at h
  split at h
  · rename_i hs
    split at h
    · exact absurd h (by simp)
    · rename_i hgo
      rw [Bool.or_eq_true, not_or, Bool.not_eq_true] at hgo
      exact ⟨hs, hgo.1, List.head?_eq_some_iff.mp h⟩
  · exact absurd h (by simp)

/-- An edge that a worker is about to take is one of those that are to be handled, and the worker is
the one at whose desk it is. -/
theorem Cluster.Orderly.of_upNext (hc : c.Orderly t pass o) {i : Nat} {w : Worker N} {e : Edge N}
    (hw : c.workers[i]? = some w) (he : w.upNext c.commons = some e) :
    (c.scene o).desk (t.home e.target) = w.desk ∧ ∃ rest, (c.scene o).pending = e ::ₘ rest := by
  obtain ⟨hstance, -, q, hq⟩ := Worker.of_upNext_eq_some he
  have hhome : t.home e.target = i :=
    ((hc.fit hw).owned e (by rw [hq]; exact List.mem_cons_self)).trans (hc.id hw)
  obtain ⟨rest, hpending, -⟩ := scene_replace (o := o) hw w c.commons
  rw [Worker.backlog, hq, ← Multiset.cons_coe, Multiset.cons_add, Multiset.cons_add,
    Multiset.cons_add] at hpending
  refine ⟨?_, _, hpending⟩
  rw [hhome, scene_desk hw]
  simp only [Worker.shown, hstance]

/-- The candidates that the marks of the workers tell of. -/
theorem Cluster.Shelved.coe_candidates {T : Nat → Table N} (hc : c.Shelved t T) :
    c.candidates = t.candidates T := by
  ext v
  rw [Finset.mem_coe]
  constructor
  · rintro ⟨table, htable, m, hm, hin⟩
    have hmark := hc.marks_iff.mp ⟨table, htable, hm⟩
    refine Terrain.mem_candidates.mpr ⟨hc.parted.mem_states hmark, ?_⟩
    rw [Terrain.fieldsOf_eq hmark]
    exact hin
  · intro hv
    obtain ⟨m, hmark⟩ := Terrain.exists_mark_of_candidate hv
    have hin := (Terrain.mem_candidates.mp hv).2
    rw [Terrain.fieldsOf_eq hmark] at hin
    obtain ⟨table, htable, hm⟩ := hc.marks_iff.mpr hmark
    exact ⟨table, htable, m, hm, hin⟩

end Midst

section Runs

variable [Std.TransOrd N] [Std.LawfulEqOrd N] {R : Mark → Mark → Prop}

theorem Cluster.drifts_turn {task : Task N σ} (hR : task.pass.Tends task.graph R)
    (c : Cluster N σ) (turn : Turn) : c.Drifts R (c.turn task turn) := by
  rcases c.turn_cases task turn with ⟨-, heq⟩ | ⟨w, w', k', memory, log, hw, hmove, heq⟩
  · rw [heq]
    exact .of_eq hR rfl
  · rw [heq]
    refine ⟨size_replace, fun {i v v'} hv hv' => ?_⟩
    rcases eq_or_ne i (turn.worker % c.workers.size) with rfl | hne
    · rw [replace_self hw] at hv'
      obtain rfl := Option.some.inj (hw.symm.trans hv)
      obtain rfl := Option.some.inj hv'
      exact hmove.drifts hR
    · rw [replace_of_ne hne, hv] at hv'
      obtain rfl := Option.some.inj hv'
      exact hR.drifts_refl _

/-- **In a pass marks change only as its rules allow**, whoever takes turns when. -/
theorem Cluster.drifts_drive {task : Task N σ} (hR : task.pass.Tends task.graph R)
    (turns : Nat → Turn) (left time : Nat) (c : Cluster N σ) :
    c.Drifts R (c.drive task turns left time).2.2 := by
  induction left generalizing c time with
  | zero => exact .of_eq hR rfl
  | succ left ih =>
    rw [Cluster.drive]
    split
    · exact .of_eq hR rfl
    · exact (c.drifts_turn hR (turns time)).trans hR (ih (time + 1) _)

omit [Std.TransOrd N] [Std.LawfulEqOrd N] in
theorem Cluster.tables_arm (c : Cluster N σ) (l : Ledger N) : (c.arm l).tables = c.tables := by
  simp [tables, arm]

variable {plan : Plan N σ} {pass : Pass}

/-- **From one moment of a superstep to a later one.** -/
theorem Check.drifts_driveWorkers (hR : pass.Tends plan.graph R) (r : Run N σ) {a b : Nat}
    (hle : a ≤ b) :
    (driveWorkers plan pass { r with left := a }).cluster.Drifts R
      (driveWorkers plan pass { r with left := b }).cluster := by
  obtain ⟨more, rfl⟩ := Nat.exists_eq_add_of_le hle
  have hadd := Cluster.drive_add ⟨plan.graph, plan.config.reduction, pass⟩ plan.turns a more r.time
    (r.cluster.arm r.ledger)
  change Cluster.Drifts R
    ((r.cluster.arm r.ledger).drive ⟨plan.graph, plan.config.reduction, pass⟩ plan.turns a
      r.time).2.2
    ((r.cluster.arm r.ledger).drive ⟨plan.graph, plan.config.reduction, pass⟩ plan.turns (a + more)
      r.time).2.2
  rw [hadd]
  exact Cluster.drifts_drive hR _ _ _ _

end Runs

/-! ## 4. The candidate set -/

section Candidates

variable (g : Graph N σ)

theorem Pass.tends_reach : reach.Tends g fun m m' => m.inS = true → m'.inS = true where
  refl _ h := h
  trans h h' hm := h' (h hm)
  resets h := absurd h (by decide)
  writes hw := by
    cases hw with
    | counts hm =>
      intro _
      rw [Mark.inS_eq, Mark.fields_setInS]
    | visits hm =>
      intro _
      rw [Mark.inS_eq, Mark.fields_setIteration, Mark.fields_setInS]

theorem Pass.tends_eliminate : eliminate.Tends g fun m m' => m'.inS = true → m.inS = true where
  refl _ h := h
  trans h h' hm := h (h' hm)
  resets h := absurd h (by decide)
  writes hw := by
    cases hw with
    | uncounts hm =>
      intro hin
      rwa [Mark.inS_eq, (Mark.fields_countDown hm).2] at hin
    | drops =>
      intro hin
      rw [Mark.inS_eq, Mark.fields_setInS] at hin
      exact absurd hin (by simp)

variable [Std.TransOrd N] [Std.LawfulEqOrd N] {plan : Plan N σ}

/-- **No state leaves the candidate set in a reachability pass.** -/
theorem Check.candidates_reach_mono (r : Run N σ) {a b : Nat} (hle : a ≤ b) :
    (driveWorkers plan .reach { r with left := a }).cluster.candidates ⊆
      (driveWorkers plan .reach { r with left := b }).cluster.candidates := by
  rintro v ⟨table, htable, m, hm, hin⟩
  obtain ⟨m', ⟨table', htable', hm'⟩, hkeeps⟩ :=
    (drifts_driveWorkers (Pass.tends_reach plan.graph) r hle).exists_later ⟨table, htable, hm⟩
  exact ⟨table', htable', m', hm', hkeeps hin⟩

/-- **No state enters the candidate set in an elimination pass.** -/
theorem Check.candidates_eliminate_anti (r : Run N σ) {a b : Nat} (hle : a ≤ b) :
    (driveWorkers plan .eliminate { r with left := b }).cluster.candidates ⊆
      (driveWorkers plan .eliminate { r with left := a }).cluster.candidates := by
  rintro v ⟨table, htable, m, hm, hin⟩
  rcases (drifts_driveWorkers (Pass.tends_eliminate plan.graph) r hle).exists_earlier
    ⟨table, htable, hm⟩ with ⟨m₀, ⟨table₀, htable₀, hm₀⟩, hkeeps⟩ | hblank
  · exact ⟨table₀, htable₀, m₀, hm₀, hkeeps hin⟩
  · exact absurd (hblank hin) (by decide)

end Candidates

end FairCycle
