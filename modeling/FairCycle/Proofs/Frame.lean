/-
# What passes leave alone

Once all reachable states are stored no pass stores another one, as whoever is asked to store a
state has it already.  So the tables change in their marks only, and what no rule of a pass writes
in a mark is the same at every moment (`Cluster.frozen_lasting`).  Here `f` shows a part of the
marks, and `Table.mapMarks f` the table with nothing but that part.

A search writes no marks at all (`Pass.tends_search`).  Parents are written by the exploration and
by the trace, and by no other pass (`Pass.tends_lineage`).
-/
import FairCycle.Proofs.Drift

namespace FairCycle

variable {N σ : Type} [Ord N]

/-! ## 1. Tables -/

section Tables

variable {T : Table N} {f : Mark → Mark} {h : Handle} {m m' : Mark}

theorem Table.mapMarks_id (T : Table N) : T.mapMarks id = T := by
  unfold mapMarks
  simp

theorem Table.mapMarks_setMark (hm : T.mark? h = some m) (hf : f m' = f m) :
    (T.setMark h m').mapMarks f = T.mapMarks f := by
  obtain ⟨hw, hmark⟩ := Table.mark?_eq_some_iff.mp hm
  obtain ⟨hlt, -⟩ := Array.getElem?_eq_some_iff.mp hmark
  have hmarks : (T.marks.setIfInBounds h.slot.toNat m').map f = T.marks.map f := by
    refine Array.ext_getElem? fun i => ?_
    rw [Array.getElem?_map, Array.getElem?_map]
    rcases eq_or_ne h.slot.toNat i with rfl | hne
    · rw [Array.getElem?_setIfInBounds_self_of_lt hlt, hmark]
      simp [hf]
    · rw [Array.getElem?_setIfInBounds_ne hne]
  unfold setMark mapMarks
  simp only [if_pos hw, hmarks]

theorem Table.mapMarks_mapMarks {k : Mark → Mark} (hf : ∀ m, f (k m) = f m) :
    (T.mapMarks k).mapMarks f = T.mapMarks f := by
  have hmarks : (T.marks.map k).map f = T.marks.map f := by
    simp [Array.map_map, Function.comp_def, hf]
  unfold mapMarks
  simp only [hmarks]

variable {g : Graph N σ} {pass : Pass}

/-- The desks that show the same as the table `T`. -/
theorem Pass.Tends.keeps_mapMarks (hf : pass.Tends g fun m m' => f m' = f m) (T : Table N) :
    pass.Keeps g fun d => d.table.mapMarks f = T.mapMarks f where
  writes hm hw hd := (Table.mapMarks_setMark hm (hf.writes hw)).trans hd
  notes _ hd := hd
  enters _ _ hd := hd

theorem Pass.Tends.mapMarks_start (hf : pass.Tends g fun m m' => f m' = f m) (d : Desk N)
    (memory : σ) : (pass.start g (d, memory)).2.1.table.mapMarks f = d.table.mapMarks f := by
  rw [Pass.desk_start]
  cases pass with
  | reset => exact Table.mapMarks_mapMarks fun m => hf.resets rfl m d.ledger.round
  | explore | reach | eliminate | search | trace => rfl

end Tables

/-! ## 2. Workers -/

section Workers

variable [Std.TransOrd N] [Std.LawfulEqOrd N] {t : Terrain N σ} {pass : Pass} {f : Mark → Mark}
  {i : Nat} {w w' : Worker N} {k k' : Commons N σ} {memory : σ} {log : Array Event}

/-- A worker that has all its states stores no other. -/
theorem Table.Custody.store_eq {T : Table N} (hT : T.Custody t (· ∈ t.states) i) {v : N}
    (hv : v ∈ t.states) (memory : σ) : (T.store v (t.graph.hash v memory).1).2 = T := by
  cases howns : T.owns (t.graph.hash v memory).1 with
  | false => rw [Table.store_of_foreign howns]
  | true =>
    have hhome : t.home v = i := by
      have howner := howns
      rw [Table.owns, beq_iff_eq, hT.peers, hT.worker] at howner
      rw [← howner]
      exact congrArg (owner · t.peers) (t.promise.hash_eq v memory).symm
    obtain ⟨m, hm, -⟩ := hT.marked hv hhome
    obtain ⟨h, hh⟩ := Table.exists_handle (by rw [hm])
    rw [Table.store_of_find? howns hh]

/-- **A turn changes only what the rules of the pass write.** -/
theorem Worker.Moves.mapMarks_eq (h : w.Moves (t.task pass) k memory log w' k')
    (hf : pass.Tends t.graph fun m m' => f m' = f m) (hw : w.Custody t (· ∈ t.states) i) :
    w'.desk.table.mapMarks f = w.desk.table.mapMarks f := by
  have started : ∀ {r : Except Stop (List N)} {d : Desk N},
      (t.task pass).pass.start (t.task pass).graph (w.desk, k.memory) = (r, d, memory) →
        d.table.mapMarks f = w.desk.table.mapMarks f := by
    intro r d hrun
    have hd := hf.mapMarks_start w.desk k.memory
    rwa [show pass.start t.graph (w.desk, k.memory) = (r, d, memory) from hrun] at hd
  have handled : ∀ {e : Edge N} {r : Except Stop (Progress N)} {d : Desk N},
      e.target ∈ t.states → handleEdge (t.task pass) e (w.desk, k.memory) = (r, d, memory) →
        d.table.mapMarks f = w.desk.table.mapMarks f := by
    intro e r d he hrun
    have hkeeps : (t.task pass).pass.Keeps (t.task pass).graph _ := hf.keeps_mapMarks w.desk.table
    have hd : (handleEdge (t.task pass) e (w.desk, k.memory)).2.1.table.mapMarks f =
        w.desk.table.mapMarks f :=
      hkeeps.handleEdge (fun _ => congrArg (Table.mapMarks · f) (hw.table.store_eq he k.memory)) rfl
    rwa [hrun] at hd
  cases h with
  | begins hs hrun | fails hs hrun => exact started hrun
  | @handles e q r d hs hh ha hq hr hrun =>
    have he := hw.queue (hq ▸ List.mem_cons_self)
    rcases r with (_ | _ | _) | (_ | _ | _)
    all_goals exact handled he hrun
  | breaks hs hh hq hr hrun => exact handled (hw.queue (hq ▸ List.mem_cons_self)) hrun
  | _ => rfl

end Workers

/-! ## 3. Runs -/

section Runs

variable [Std.TransOrd N] [Std.LawfulEqOrd N] {t : Terrain N σ} {plan : Plan N σ}
  {passes : Pass → Prop} {f : Mark → Mark} {H : N → Prop}

/-- The tables show `shown`, with the states of `H` where they belong. -/
structure Cluster.Frozen (t : Terrain N σ) (H : N → Prop) (f : Mark → Mark)
    (shown : List (Table N)) (c : Cluster N σ) : Prop where
  custody : c.Custody t H
  shows : c.tables.map (·.mapMarks f) = shown

omit [Std.TransOrd N] [Std.LawfulEqOrd N] in
theorem Cluster.shown_replace {c : Cluster N σ} {i : Nat} {w w' : Worker N} {k : Commons N σ}
    (hw : c.workers[i]? = some w)
    (h : w'.desk.table.mapMarks f = w.desk.table.mapMarks f) :
    (c.replace i w' k).tables.map (·.mapMarks f) = c.tables.map (·.mapMarks f) := by
  refine List.ext_getElem? fun j => ?_
  simp only [tables, List.getElem?_map, Array.getElem?_toList]
  rcases eq_or_ne j i with rfl | hne
  · rw [replace_self hw, hw]
    simp [h]
  · rw [replace_of_ne hne]

/-- **What the passes do not write stays as it is**, if all reachable states are stored whenever
there is a pass. -/
theorem Cluster.frozen_lasting [t.Rooted] (hplan : plan.Covers t)
    (hf : ∀ {pass : Pass}, passes pass →
      (∀ v, H v ↔ v ∈ t.states) ∧ pass.Tends t.graph fun m m' => f m' = f m)
    (shown : List (Table N)) : Lasting plan passes (Cluster.Frozen t H f shown) where
  arm l hc := ⟨(custody_lasting hplan H).arm l hc.custody, by rw [tables_arm]; exact hc.shows⟩
  turn {c pass} turn hpass hc := by
    refine ⟨(custody_lasting hplan H).turn turn trivial hc.custody, ?_⟩
    obtain ⟨hall, htends⟩ := hf hpass
    obtain rfl : H = (· ∈ t.states) := funext fun v => propext (hall v)
    rw [hplan.task]
    rcases c.turn_cases (t.task pass) turn with ⟨-, heq⟩ | ⟨w, w', k', memory, log, hw, hmove, heq⟩
    · rw [heq]
      exact hc.shows
    · rw [heq, shown_replace hw (hmove.mapMarks_eq htends (hc.custody.worker hw))]
      exact hc.shows
  visit {c} errand l i hc := by
    refine ⟨(custody_lasting hplan H).visit errand l i hc.custody, ?_⟩
    rcases c.visit_cases errand l i with
      ⟨-, hvisit⟩ | ⟨w, hw, ⟨l', cursor, log, -, hvisit⟩ | hvisit⟩
    · rw [hvisit]
      exact hc.shows
    · rw [hvisit]
      refine (shown_replace hw ?_).trans hc.shows
      rfl
    · rw [hvisit]
      exact hc.shows
  commons memory log hc := ⟨(custody_lasting hplan H).commons memory log hc.custody, hc.shows⟩

end Runs

/-! ## 4. What the passes write -/

/-- A search writes no marks. -/
theorem Pass.tends_search (g : Graph N σ) : search.Tends g fun m m' => id m' = id m where
  refl _ := rfl
  trans h h' := h'.trans h
  resets h := absurd h (by decide)
  writes hw := by cases hw

/-- The mark with nothing but the parent. -/
def Mark.lineage (m : Mark) : Mark := { parent := m.parent }

theorem Mark.lineage_congr {m m' : Mark} (h : m'.parent = m.parent) : m'.lineage = m.lineage := by
  unfold lineage
  rw [h]

/-- Between the exploration and the trace no parent is written. -/
theorem Pass.tends_lineage (g : Graph N σ) {pass : Pass} (hexplore : pass ≠ .explore)
    (htrace : pass ≠ .trace) : pass.Tends g fun m m' => m'.lineage = m.lineage where
  refl _ := rfl
  trans h h' := h'.trans h
  resets _ m round := Mark.lineage_congr (Mark.parent_startRound m round)
  writes {d h m m'} hw := by
    cases hw with
    | parent | ancestor | acceptance => exact absurd rfl hexplore
    | stamps | closes | traces => exact absurd rfl htrace
    | counts hm | visits hm =>
      refine Mark.lineage_congr ?_
      simp [Mark.parent_countUp hm]
    | uncounts hm => exact Mark.lineage_congr (Mark.parent_countDown hm)
    | drops => exact Mark.lineage_congr (Mark.parent_setInS m false)

end FairCycle
