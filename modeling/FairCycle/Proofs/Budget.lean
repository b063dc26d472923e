/-
# What a pass uses up

Whatever a graph answers, each pass goes on from a state only so often.  Exploration does so when
it stores a state, reachability and the trace once for a state under the stamp of the round,
elimination when it takes back an edge that was counted, and a search once for a slot.  All of
these run out: `Desk.budget` adds up what is left of them on a desk.  Handling an edge never raises
the budget, and going on from the target of an edge lowers it (`Desk.budget_lt_of_expand`).  That
holds also where the graph has new answers, so that new states come up in any pass and a state
without predecessors gets some again.

So only so many edges come up in a pass (`Cluster.exists_takesOnAtMost`), and only so many are
handled (`Cluster.exists_handlesAtMost`), in whatever order the workers take their turns.
-/
import Mathlib.Data.Set.Card
import FairCycle.Proofs.Progress

namespace FairCycle

open Desk StepM

variable {N σ : Type} [Ord N]

/-! ## 1. Adding up over the marks of a table -/

namespace Table

/-- What the marks of a table add up to. -/
def total (f : Mark → Nat) (T : Table N) : Nat := (T.marks.toList.map f).sum

/-- Writing a mark changes one term. -/
theorem total_setMark {T : Table N} {h : Handle} {m : Mark} (f : Mark → Nat) (m' : Mark)
    (hm : T.mark? h = some m) : (T.setMark h m').total f + f m = T.total f + f m' := by
  obtain ⟨hw, hmark⟩ := mark?_eq_some_iff.mp hm
  obtain ⟨rest, hsum, hset⟩ := exists_sum_map_set f
    (Array.getElem?_toList ▸ hmark : T.marks.toList[h.slot.toNat]? = some m)
  have hmarks : (T.setMark h m').marks.toList = T.marks.toList.set h.slot.toNat m' := by
    simp [Table.setMark, hw]
  rw [total, total, hmarks, hset, hsum]
  omega

theorem size_setMark (T : Table N) (h : Handle) (m : Mark) : (T.setMark h m).size = T.size := by
  rw [size, nodes_setMark, size]

theorem length_marks (T : Table N) : T.marks.toList.length = T.size := by
  rw [Array.length_toList, T.size_marks, size]

theorem length_nodesWhere (p : Mark → Bool) (T : Table N) :
    (T.nodesWhere p).length = T.marks.toList.countP p := by
  have hmarks : T.entries.map Prod.snd = T.marks.toList := by
    rw [entries, List.map_snd_zip]
    simp [T.size_marks]
  rw [nodesWhere, List.length_map, ← List.countP_eq_length_filter, ← hmarks, List.countP_map]
  rfl

theorem length_nodesWhere_le (p : Mark → Bool) (T : Table N) :
    (T.nodesWhere p).length ≤ T.size := by
  rw [length_nodesWhere, ← length_marks]
  exact List.countP_le_length

/-- A table holds every state once at most. -/
theorem size_le_card [Finite N] (T : Table N) : T.size ≤ Nat.card N := by
  have := Fintype.ofFinite N
  rw [Nat.card_eq_fintype_card]
  exact T.nodup_nodes.length_le_card

end Table

/-! ## 2. The budget of a desk -/

/-- How often a pass may still go on from a state, by its mark. -/
def Pass.rest (pass : Pass) (round : UInt32) (m : Mark) : Nat :=
  match pass with
  | .reach | .trace => if m.visitedIn round then 0 else 1
  | .eliminate => m.fields.predecessors
  | .explore | .reset | .search => 0

/-- The slots that the current cycle search has not entered. -/
def Desk.unentered (d : Desk N) : Set Nat := { slot | slot < 2 ^ 32 ∧ slot ∉ d.entered }

/-- What a pass has left to use up at a desk: states that can be stored yet, what the marks allow,
and slots to enter. -/
noncomputable def Desk.budget (pass : Pass) (d : Desk N) : Nat :=
  2 * (Nat.card N - d.table.size) + d.table.total (pass.rest d.ledger.round) + d.unentered.ncard

theorem Mark.visitedIn_congr {m m' : Mark} {round : UInt32}
    (h : m'.fields.iteration = m.fields.iteration) : m'.visitedIn round = m.visitedIn round := by
  rw [Bool.eq_iff_iff, visitedIn_iff, visitedIn_iff, h]

@[simp] theorem Mark.visitedIn_setIteration (m : Mark) (round : UInt32) :
    (m.setIteration round).visitedIn round = true := by
  rw [visitedIn_iff, fields_setIteration]

@[simp] theorem Mark.visitedIn_replaceParent (m : Mark) (h : Handle) (round : UInt32) :
    (m.replaceParent h).visitedIn round = m.visitedIn round := rfl

section Budget

variable {g : Graph N σ} {pass : Pass} {d : Desk N} {h : Handle} {m m' : Mark}

theorem Desk.finite_unentered (d : Desk N) : d.unentered.Finite :=
  (Set.finite_lt_nat (2 ^ 32)).subset fun _ h => h.1

theorem Desk.ncard_unentered_insert (d : Desk N) (slot : Nat) :
    ({ d with entered := d.entered.insert slot } : Desk N).unentered.ncard ≤ d.unentered.ncard :=
  Set.ncard_le_ncard (fun k hk => ⟨hk.1, fun hmem => hk.2 (by simp [hmem])⟩) d.finite_unentered

/-- What a pass writes in place of a mark allows no more than the mark did. -/
theorem Pass.Writes.rest_le (hw : pass.Writes g d h m m') :
    pass.rest d.ledger.round m' ≤ pass.rest d.ledger.round m := by
  cases hw with
  | parent | ancestor | acceptance => exact le_rfl
  | counts hm =>
    rw [Pass.rest, Pass.rest, Mark.visitedIn_congr (m := m)]
    rw [Mark.fields_setInS, Mark.fields_countUp hm]
  | visits => simp [Pass.rest]
  | uncounts hm =>
    rw [Pass.rest, Pass.rest, (Mark.fields_countDown hm).2]
    exact Nat.sub_le _ _
  | drops => simp [Pass.rest]
  | stamps => simp [Pass.rest]
  | closes => exact le_rfl
  | traces => simp [Pass.rest]

omit [Ord N] in
theorem Pass.Notes.round {l l' : Ledger N} (hn : pass.Notes l l') : l'.round = l.round := by
  cases hn <;> rfl

/-- **No action of a pass raises the budget.** -/
theorem keeps_budget (g : Graph N σ) (pass : Pass) (limit : Nat) :
    pass.Keeps g fun d => d.budget pass ≤ limit where
  writes {d h m m'} hm hw hd := by
    have htotal := Table.total_setMark (pass.rest d.ledger.round) m' hm
    have hrest := hw.rest_le
    have hsize := d.table.size_setMark h m'
    change 2 * (Nat.card N - (d.table.setMark h m').size) +
      (d.table.setMark h m').total (pass.rest d.ledger.round) + d.unentered.ncard ≤ limit
    rw [Desk.budget] at hd
    omega
  notes {d l} hn hd := by
    rw [Desk.budget] at hd ⊢
    rwa [hn.round]
  enters {d} slot _ hd := by
    have hle := d.ncard_unentered_insert slot
    rw [Desk.budget] at hd ⊢
    exact (Nat.add_le_add_left hle _).trans hd

/-- Writing a mark that allows less lowers the budget. -/
theorem Desk.budget_setMark_lt (hm : d.table.mark? h = some m)
    (hlt : pass.rest d.ledger.round m' < pass.rest d.ledger.round m) :
    ({ d with table := d.table.setMark h m' } : Desk N).budget pass < d.budget pass := by
  have htotal := Table.total_setMark (pass.rest d.ledger.round) m' hm
  have hsize := d.table.size_setMark h m'
  change 2 * (Nat.card N - (d.table.setMark h m').size) +
    (d.table.setMark h m').total (pass.rest d.ledger.round) + d.unentered.ncard < _
  rw [Desk.budget]
  omega

/-- Entering a slot lowers the budget. -/
theorem Desk.budget_enter_lt (h : Handle) (he : d.entered.contains h.slot.toNat = false) :
    ({ d with entered := d.entered.insert h.slot.toNat } : Desk N).budget pass <
      d.budget pass := by
  refine Nat.add_lt_add_left (Set.ncard_lt_ncard ?_ d.finite_unentered) _
  refine ⟨fun k hk => ⟨hk.1, fun hmem => hk.2 (by simp [hmem])⟩, fun hsub => ?_⟩
  have hmem : h.slot.toNat ∈ d.unentered := by
    refine ⟨h.slot.toNat_lt, fun hmem => ?_⟩
    rw [Std.TreeSet.mem_iff_contains, he] at hmem
    exact absurd hmem (by decide)
  exact (hsub hmem).2 (by simp)

variable [Finite N] [Std.TransOrd N] [Std.LawfulEqOrd N]

/-- Storing a state does not raise the budget, and storing a new one lowers it, whatever its blank
mark allows. -/
theorem Desk.budget_store (pass : Pass) (d : Desk N) (v : N) (hash : UInt64) :
    ({ d with table := (d.table.store v hash).2 } : Desk N).budget pass ≤ d.budget pass ∧
      ∀ h, (d.table.store v hash).1 = .ok (h, true) →
        ({ d with table := (d.table.store v hash).2 } : Desk N).budget pass < d.budget pass := by
  rcases d.table.store_cases v hash with ⟨hsame, hold⟩ | ⟨-, hfind, hput, hmarks⟩
  · rw [hsame]
    exact ⟨le_rfl, fun h hh => absurd hh (hold h)⟩
  · have hsize : (d.table.store v hash).2.size = d.table.size + 1 := by
      rw [Table.size, hput.nodes_of_new hfind, Array.size_push, Table.size]
    have htotal : (d.table.store v hash).2.total (pass.rest d.ledger.round) =
        d.table.total (pass.rest d.ledger.round) + pass.rest d.ledger.round {} := by
      rw [Table.total, hmarks, Array.toList_push, List.map_append, List.sum_append, Table.total]
      simp
    have hblank : pass.rest d.ledger.round {} ≤ 1 := by
      cases pass with
      | reach | trace =>
        simp only [Pass.rest]
        split <;> simp
      | eliminate => simp [Pass.rest]
      | explore | reset | search => simp [Pass.rest]
    have hcard := (d.table.store v hash).2.size_le_card
    have hlt : ({ d with table := (d.table.store v hash).2 } : Desk N).budget pass <
        d.budget pass := by
      change 2 * (Nat.card N - (d.table.store v hash).2.size) +
        (d.table.store v hash).2.total (pass.rest d.ledger.round) + d.unentered.ncard < _
      rw [Desk.budget]
      omega
    exact ⟨hlt.le, fun _ _ => hlt⟩

end Budget

/-! ## 3. Going on from a state -/

section Expand

variable {pass : Pass} {target : Handle} {d d' : Desk N}

theorem of_mark_bind_eq_ok {α : Type} {h : Handle} {f : Mark → DeskM N α} {a : α}
    (hx : (mark h >>= f) d = (.ok a, d')) :
    ∃ m, d.table.mark? h = some m ∧ f m d = (.ok a, d') := by
  rcases Desk.mark_cases h d with ⟨m, hm, heq⟩ | heq
  · rw [DeskM.bind_ok heq] at hx
    exact ⟨m, hm, hx⟩
  · rw [DeskM.bind_error heq] at hx
    exact absurd (Prod.mk.inj hx).1 (by simp)

theorem of_orFault_bind_eq_ok {α β : Type} {r : Except Fault β} {f : β → DeskM N α} {a : α}
    (hx : (orFault r >>= f) d = (.ok a, d')) : ∃ b, r = .ok b ∧ f b d = (.ok a, d') := by
  cases r with
  | ok b => exact ⟨b, rfl, hx⟩
  | error fault => exact absurd (Prod.mk.inj hx).1 (by simp)

/-- Exploration does not go on from a known state. -/
theorem lookOut_ne_expand (source target : Handle) (d : Desk N) :
    (lookOut source target d).1 ≠ .ok .expand := by
  have hbind : ∀ {α : Type} {x : DeskM N α} {f : α → DeskM N Action},
      (∀ a d, (f a d).1 ≠ .ok .expand) → ∀ d, ((x >>= f) d).1 ≠ .ok .expand := by
    intro α x f hf d
    rcases bind_cases x f d with ⟨a, -, h⟩ | ⟨e, -, h⟩
    · rw [h]
      exact hf a _
    · rw [h]
      simp
  have hfound : ∀ (found : Bool) (d : Desk N), ((do
      if found then note (·.recordCycle target); return Action.terminate
      else return .follow : DeskM N Action) d).1 ≠ .ok .expand := by
    intro found d
    cases found with
    | true => exact fun heq => absurd (Except.ok.inj heq) (by decide)
    | false => exact fun heq => absurd (Except.ok.inj heq) (by decide)
  have hloop : ∀ (loop : Bool) (d : Desk N), ((do
      let found ←
        if loop then pure true
        else if (← get).table.peers = 1 then handOn source target
        else pure false
      if found then note (·.recordCycle target); return Action.terminate
      else return .follow : DeskM N Action) d).1 ≠ .ok .expand := by
    intro loop d
    rw [DeskM.get_bind]
    split
    · exact hfound true d
    · split
      · exact hbind hfound d
      · exact hfound false d
  rw [lookOut]
  split
  · exact hbind hloop d
  · exact hloop false d

theorem budget_lt_of_reachEdge (source : Handle)
    (hx : (reachEdge (some source) target false : DeskM N Action) d = (.ok .expand, d')) :
    d'.budget .reach < d.budget .reach := by
  rw [reachEdge, DeskM.get_bind] at hx
  obtain ⟨m, hm, hx⟩ := of_mark_bind_eq_ok hx
  obtain ⟨m', hm', hx⟩ := of_orFault_bind_eq_ok hx
  dsimp only at hx
  split at hx
  · exact absurd (Except.ok.inj (Prod.mk.inj hx).1) (by decide)
  · rename_i hvisited
    obtain ⟨-, rfl⟩ := Prod.mk.inj hx
    have hiteration : (m'.setInS true).fields.iteration = m.fields.iteration := by
      rw [Mark.fields_setInS, Mark.fields_countUp hm']
    rw [Bool.not_false, Bool.true_and, Bool.not_eq_true,
      Mark.visitedIn_congr hiteration] at hvisited
    refine Desk.budget_setMark_lt hm ?_
    simp [Pass.rest, hvisited]

theorem budget_lt_of_eliminateEdge (source : Handle)
    (hx : (eliminateEdge (some source) target : DeskM N Action) d = (.ok .expand, d')) :
    d'.budget .eliminate < d.budget .eliminate := by
  obtain ⟨m, hm, hx⟩ := of_mark_bind_eq_ok hx
  obtain ⟨m', hm', hx⟩ := of_orFault_bind_eq_ok hx
  obtain ⟨-, rfl⟩ := Prod.mk.inj hx
  refine Desk.budget_setMark_lt hm ?_
  obtain ⟨hpos, hfields⟩ := Mark.fields_countDown hm'
  rw [Pass.rest, Pass.rest, hfields]
  exact Nat.sub_lt hpos Nat.one_pos

theorem budget_lt_of_searchEdge (source : Handle)
    (hx : (searchEdge (some source) target false : DeskM N Action) d = (.ok .expand, d')) :
    d'.budget .search < d.budget .search := by
  rw [searchEdge, DeskM.get_bind] at hx
  split at hx
  · exact absurd (Except.ok.inj (Prod.mk.inj hx).1) (by decide)
  · rw [if_neg (by decide)] at hx
    obtain ⟨m, -, hx⟩ := of_mark_bind_eq_ok hx
    split at hx
    · exact absurd (Except.ok.inj (Prod.mk.inj hx).1) (by decide)
    · cases he : d.entered.contains target.slot.toNat with
      | true =>
        rw [DeskM.bind_ok (enter_of_entered he)] at hx
        exact absurd (Except.ok.inj (Prod.mk.inj hx).1) (by decide)
      | false =>
        rw [DeskM.bind_ok (enter_of_new he)] at hx
        obtain ⟨-, rfl⟩ := Prod.mk.inj hx
        exact Desk.budget_enter_lt target he

theorem budget_lt_of_traceEdge (source : Handle)
    (hx : (traceEdge (some source) target false : DeskM N Action) d = (.ok .expand, d')) :
    d'.budget .trace < d.budget .trace := by
  rw [traceEdge, DeskM.get_bind] at hx
  dsimp only at hx
  obtain ⟨m, hm, hx⟩ := of_mark_bind_eq_ok hx
  split at hx
  · exact absurd (Except.ok.inj (Prod.mk.inj hx).1) (by decide)
  · split at hx
    · exact absurd (Except.ok.inj (Prod.mk.inj hx).1) (by decide)
    · rename_i hvisited
      obtain ⟨-, rfl⟩ := Prod.mk.inj hx
      rw [Bool.not_false, Bool.true_and, Bool.not_eq_true] at hvisited
      refine Desk.budget_setMark_lt hm ?_
      simp [Pass.rest, hvisited]

/-- Going on from a known state lowers the budget. -/
theorem Pass.budget_lt_of_onEdge (source : Handle)
    (hx : (pass.onEdge (some source) target false : DeskM N Action) d = (.ok .expand, d')) :
    d'.budget pass < d.budget pass := by
  cases pass with
  | explore => exact absurd (congrArg Prod.fst hx) (lookOut_ne_expand source target d)
  | reset => exact absurd (Except.ok.inj (Prod.mk.inj hx).1) (by decide)
  | reach => exact budget_lt_of_reachEdge source hx
  | eliminate => exact budget_lt_of_eliminateEdge source hx
  | search => exact budget_lt_of_searchEdge source hx
  | trace => exact budget_lt_of_traceEdge source hx

variable [Finite N] [Std.TransOrd N] [Std.LawfulEqOrd N]

/-- **Going on from the target of an edge lowers the budget**, be it new or known. -/
theorem Desk.budget_lt_of_expand {task : Task N σ} {e : Edge N} {h : Handle} {targets : List N}
    {memory : σ} {p : Desk N × σ} (he : e.source.isSome)
    (hx : handleEdge task e (d, memory) = (.ok (.expand h targets), p)) :
    p.1.budget task.pass < d.budget task.pass := by
  obtain ⟨source, hsource⟩ := Option.isSome_iff_exists.mp he
  obtain ⟨target, fresh, action, d', memory', hstore, hedge, hhalt | hnext | ⟨haction, hexpand⟩⟩ :=
    exists_of_handleEdge hx
  · exact absurd hhalt (by simp)
  · exact absurd hnext (by simp)
  · obtain ⟨hle, hfresh⟩ := d.budget_store task.pass e.target (task.graph.hash e.target memory).1
    have hrule := (keeps_budget task.graph task.pass _).onEdge e.source target fresh
      { d with table := (d.table.store e.target (task.graph.hash e.target memory).1).2 } le_rfl
    have hlast := (keeps_budget task.graph task.pass _).expandState target d' memory' le_rfl
    rw [hedge] at hrule
    rw [hexpand] at hlast
    cases fresh with
    | true => exact (hlast.trans hrule).trans_lt (hfresh target hstore)
    | false =>
      obtain rfl : action = .expand := haction.resolve_right fun h => absurd h.2 (by decide)
      rw [hsource] at hedge
      exact (hlast.trans_lt (Pass.budget_lt_of_onEdge source hedge)).trans_le hle

/-- Handling an edge does not raise the budget, and if it leads on to other edges and was no seed
the budget is lower afterwards. -/
theorem Desk.budget_handleEdge (task : Task N σ) (e : Edge N) (d : Desk N) (memory : σ) :
    (handleEdge task e (d, memory)).2.1.budget task.pass ≤ d.budget task.pass ∧
      (e.source.isSome → newEdges (handleEdge task e (d, memory)).1 ≠ [] →
        (handleEdge task e (d, memory)).2.1.budget task.pass < d.budget task.pass) := by
  refine ⟨?_, fun he hnew => ?_⟩
  · exact (keeps_budget task.graph task.pass (d.budget task.pass)).handleEdge
      (fun _ => (d.budget_store task.pass _ _).1) le_rfl
  · rcases hx : handleEdge task e (d, memory) with ⟨stop | _ | _ | ⟨h, targets⟩, p⟩
    case ok.expand => exact Desk.budget_lt_of_expand he hx
    all_goals
      rw [hx] at hnew
      exact absurd rfl hnew

end Expand

/-! ## 4. What a turn does at a desk -/

/-- The seeds in a list of edges. -/
def Edge.seedCount (edges : List (Edge N)) : Nat := edges.countP (·.source.isNone)

section AtDesk

variable [Std.TransOrd N] [Std.LawfulEqOrd N] {task : Task N σ} {w w' : Worker N}
  {k k' : Commons N σ} {memory : σ} {log : Array Event}

/-- What a turn does at the desk of the worker that takes it: the worker starts with the pass,
handles the edge at the head of its queue, or leaves the desk alone. -/
inductive Worker.AtDesk (task : Task N σ) (w : Worker N) (k : Commons N σ) (w' : Worker N) : Prop
  | begins (hs : w.stance = .waiting) (hdesk : w'.desk = task.pass.opened w.desk)
      (hseeds : Edge.seedCount w'.queue.toList ≤
        Edge.seedCount w.queue.toList + (w.desk.table.size + 1))
  | handles {e : Edge N} {q : List (Edge N)} (hs : w.stance = .ready) (hnext : w.upNext k = some e)
      (hdesk : w'.desk = (handleEdge task e (w.desk, k.memory)).2.1)
      (hq : w.queue.toList = e :: q)
      (hseeds : Edge.seedCount w'.queue.toList ≤ Edge.seedCount q)
  | rests (hs : w.stance ≠ .waiting) (hnext : w.upNext k = none) (hdesk : w'.desk = w.desk)
      (hseeds : Edge.seedCount w'.queue.toList ≤ Edge.seedCount w.queue.toList)

omit [Std.TransOrd N] [Std.LawfulEqOrd N] in
theorem Desk.length_ownNode_le {h : Option Handle} {d d' : Desk N} {seeds : List N}
    (hx : (ownNode h : DeskM N (List N)) d = (.ok seeds, d')) : seeds.length ≤ 1 := by
  cases h with
  | none =>
    obtain rfl := Except.ok.inj (Prod.mk.inj hx).1
    exact Nat.zero_le 1
  | some h =>
    rw [ownNode, DeskM.get_bind] at hx
    split at hx
    · obtain ⟨v, d₁, -, hx⟩ := exists_of_bind_eq_ok hx
      obtain rfl := Except.ok.inj (Prod.mk.inj hx).1
      exact le_rfl
    · obtain rfl := Except.ok.inj (Prod.mk.inj hx).1
      exact Nat.zero_le 1

omit [Std.TransOrd N] [Std.LawfulEqOrd N] in
/-- A pass has no more seeds than there are states, or the initial state alone. -/
theorem length_le_of_start {pass : Pass} {g : Graph N σ} {d : Desk N} {seeds : List N}
    {p : Desk N × σ} (hx : pass.start g (d, memory) = (.ok seeds, p)) :
    seeds.length ≤ d.table.size + 1 := by
  cases pass with
  | explore =>
    obtain ⟨hash, p₁, -, hx₁⟩ := exists_of_bind_eq_ok hx
    obtain ⟨desk, p₂, -, hx₂⟩ := exists_of_bind_eq_ok hx₁
    split at hx₂
    · obtain rfl := Except.ok.inj (Prod.mk.inj hx₂).1
      exact Nat.le_add_left _ _
    · obtain rfl := Except.ok.inj (Prod.mk.inj hx₂).1
      exact Nat.zero_le _
  | reset =>
    obtain rfl := Except.ok.inj (Prod.mk.inj hx).1
    exact Nat.zero_le _
  | reach =>
    obtain rfl := Except.ok.inj (Prod.mk.inj hx).1
    exact (d.table.length_nodesWhere_le Mark.isSeed).trans (Nat.le_succ _)
  | eliminate =>
    obtain rfl := Except.ok.inj (Prod.mk.inj hx).1
    exact (d.table.length_nodesWhere_le fun m => m.inS && m.predecessors == 0).trans (Nat.le_succ _)
  | search | trace =>
    exact (Desk.length_ownNode_le (Prod.ext (Prod.mk.inj hx).1 rfl)).trans (Nat.le_add_left _ _)

omit [Std.TransOrd N] [Std.LawfulEqOrd N] in
/-- What comes of an edge brings no seeds. -/
theorem Worker.frame_taken (r : Except Stop (Progress N)) (hs : w.stance ≠ .waiting) :
    (w.taken r).cursor = w.cursor ∧ (w.taken r).stance ≠ .waiting ∧ (w.taken r).desk = w.desk ∧
      Edge.seedCount (w.taken r).queue.toList ≤ Edge.seedCount w.queue.toList := by
  rcases r with (f | _ | _) | _ | _ | ⟨source, targets⟩
  case ok.expand => exact ⟨rfl, by simp [taken, go], rfl, le_rfl⟩
  case ok.halt | error.fault => exact ⟨rfl, hs, rfl, by simp [taken, halt, Edge.seedCount]⟩
  all_goals exact ⟨rfl, hs, rfl, le_rfl⟩

/-- **All that a turn does at a desk**; the cursor is left alone. -/
theorem Worker.Moves.atDesk (h : w.Moves task k memory log w' k') :
    w'.cursor = w.cursor ∧ w'.stance ≠ .waiting ∧ w.AtDesk task k w' := by
  cases h with
  | @begins seeds d hs hrun =>
    refine ⟨rfl, by simp, .begins hs ?_ ?_⟩
    · rw [← Pass.desk_start task.pass task.graph w.desk k.memory, hrun]
    · have hlen : (seeds.map Edge.seed).countP (·.source.isNone) ≤ w.desk.table.size + 1 :=
        (List.countP_le_length.trans (List.length_map _).le).trans (length_le_of_start hrun)
      rw [Queue.toList_append, Edge.seedCount, List.countP_append]
      exact Nat.add_le_add_left hlen _
  | @fails stop d hs hrun =>
    refine ⟨rfl, by simp [go], .begins hs ?_ (Nat.le_add_right _ _)⟩
    rw [← Pass.desk_start task.pass task.graph w.desk k.memory, hrun]
    rfl
  | @handles e q r d hs hh ha hq hr hrun =>
    obtain ⟨hcursor, hs', hdesk, hseeds⟩ :=
      frame_taken (w := { w with queue := q, desk := d }) r (by simp [hs])
    refine ⟨hcursor, hs', .handles hs (upNext_eq_some hs hh ha hq) ?_ hq hseeds⟩
    rw [hdesk, hrun]
  | @breaks e q r d hs hh hq hr hrun ha =>
    refine ⟨rfl, by simp [go], .handles hs (upNext_eq_some hs hh ha hq) ?_ hq le_rfl⟩
    rw [hrun]
    rfl
  | stops hs hh ha =>
    refine ⟨rfl, by simp [go], .rests (by simp [hs]) (by simp [upNext, hs, ha]) rfl ?_⟩
    simp [halt, go, Edge.seedCount]
  | drains hs hq =>
    refine ⟨rfl, by simp [go], .rests (by simp [hs]) ?_ rfl le_rfl⟩
    rcases hq with hh | hq
    · simp [upNext, hs, hh]
    · simp [upNext, hs, hq]
  | keeps hs hv =>
    exact ⟨rfl, by simp, .rests (by simp [hs]) (by simp [upNext, hs]) rfl
      (by simp [Edge.seedCount])⟩
  | queues hs =>
    refine ⟨rfl, by simp, .rests (by simp [hs]) (by simp [upNext, hs]) rfl ?_⟩
    cases w.halted with
    | true => exact le_rfl
    | false => simp [Edge.seedCount, Letter.edge]
  | receives hs | stays hs =>
    rcases hs with hs | hs
    all_goals exact ⟨rfl, by simp [go, hs], .rests (by simp [hs]) (by simp [upNext, hs]) rfl le_rfl⟩
  | routed hs | addresses hs | posts hs | rests hs | wakes hs | holds hs | settles hs | quits hs
  | dozes hs | leaves hs =>
    exact ⟨rfl, by simp [go], .rests (by simp [hs]) (by simp [upNext, hs]) rfl le_rfl⟩

end AtDesk

/-! ## 5. What is left for a worker -/

/-- How often a worker may still go on from a state: once for every seed in its queue, and as often
as the budget of its desk allows.  A worker that waits has its seeds still to come. -/
noncomputable def Worker.slack (pass : Pass) (w : Worker N) : Nat :=
  Edge.seedCount w.queue.toList +
    match w.stance with
    | .waiting => (pass.opened w.desk).budget pass + w.desk.table.size + 2
    | _ => w.desk.budget pass

section Slack

variable {task : Task N σ} {w w' : Worker N} {k k' : Commons N σ} {memory : σ}
  {log : Array Event}

theorem Worker.slack_of_ne {pass : Pass} (hs : w.stance ≠ .waiting) :
    w.slack pass = Edge.seedCount w.queue.toList + w.desk.budget pass := by
  unfold slack
  split
  · rename_i hw
    exact absurd hw hs
  · rfl

variable [Finite N] [Std.TransOrd N] [Std.LawfulEqOrd N]

/-- **A turn in which edges come up leaves a worker less to go on from**, and no turn leaves it
more. -/
theorem Worker.Moves.slack_lt (h : w.Moves task k memory log w' k') :
    w'.slack task.pass < w.slack task.pass ∨
      w'.slack task.pass ≤ w.slack task.pass ∧ w.takesOn task k = 0 := by
  obtain ⟨-, hs', hatDesk⟩ := h.atDesk
  rw [slack_of_ne hs']
  cases hatDesk with
  | begins hs hdesk hseeds =>
    simp only [slack, hs, hdesk]
    omega
  | @handles e q hs hnext hdesk hq hseeds =>
    have hne : w.stance ≠ .waiting := by simp [hs]
    obtain ⟨hle, hlt⟩ := Desk.budget_handleEdge task e w.desk k.memory
    have hcount : Edge.seedCount w.queue.toList =
        Edge.seedCount q + if e.source.isNone then 1 else 0 := by
      rw [hq]
      exact List.countP_cons
    rw [← hdesk] at hle hlt
    rw [slack_of_ne hne, hcount, takesOn_of_ne hne, generates_of_some hnext]
    by_cases hnew : newEdges (handleEdge task e (w.desk, k.memory)).1 = []
    · rw [hnew]
      exact .inr ⟨by omega, rfl⟩
    · left
      cases he : e.source with
      | none =>
        simp only [Option.isNone_none, if_true]
        omega
      | some source =>
        have := hlt (by rw [he]; rfl) hnew
        omega
  | rests hs hnext hdesk hseeds =>
    rw [slack_of_ne hs, hdesk, takesOn_of_ne hs, generates_of_none hnext]
    exact .inr ⟨Nat.add_le_add_right hseeds _, rfl⟩

end Slack

/-! ## 6. What is left for all workers -/

section Cluster

variable [Finite N] [Std.TransOrd N] [Std.LawfulEqOrd N] {task : Task N σ} {turns : Nat → Turn}
  {time : Nat} {c : Cluster N σ}

/-- How often the workers may still go on from a state. -/
noncomputable def Cluster.slack (pass : Pass) (c : Cluster N σ) : Nat :=
  (c.workers.toList.map (Worker.slack pass)).sum

theorem Cluster.slack_turn (task : Task N σ) (turn : Turn) (c : Cluster N σ) :
    (c.turn task turn).slack task.pass < c.slack task.pass ∨
      (c.turn task turn).slack task.pass ≤ c.slack task.pass ∧
        c.atTurn (Worker.takesOn task) turn = 0 := by
  rcases c.turn_cases task turn with ⟨hnone, heq⟩ | ⟨w, w', k', memory, log, hw, hmove, heq⟩
  · have hat : c.atTurn (Worker.takesOn task) turn = 0 := by simp only [atTurn, hnone]
    rw [heq]
    exact .inr ⟨le_rfl, hat⟩
  · obtain ⟨rest, hsum, hset⟩ := exists_sum_replace (Worker.slack task.pass) hw
    have hbefore : c.slack task.pass = w.slack task.pass + rest := hsum
    have hafter : (c.turn task turn).slack task.pass = w'.slack task.pass + rest := by
      rw [heq]
      exact hset w' k'
    simp only [atTurn, hw]
    rcases hmove.slack_lt with hlt | ⟨hle, htakes⟩
    · exact .inl (by omega)
    · exact .inr ⟨by omega, htakes⟩

omit [Finite N] in
theorem Cluster.TakesOnAtMost.of_turn {bound : Nat}
    (h : (c.turn task (turns time)).TakesOnAtMost bound task turns (time + 1)) :
    c.TakesOnAtMost (Multiset.card (c.atTurn (Worker.takesOn task) (turns time)) + bound) task
      turns time := by
  intro left
  cases left with
  | zero => exact Nat.zero_le _
  | succ left =>
    rw [gather]
    split
    · exact Nat.zero_le _
    · rw [Multiset.card_add]
      exact Nat.add_le_add_left (h left) _

/-- **Only so many edges come up in a pass**, whatever the graph answers and however the workers
take their turns. -/
theorem Cluster.exists_takesOnAtMost (task : Task N σ) (turns : Nat → Turn) (time : Nat)
    (c : Cluster N σ) : ∃ bound, c.TakesOnAtMost bound task turns time := by
  induction hn : c.slack task.pass using Nat.strong_induction_on generalizing time c with
  | _ n ih =>
    -- turns in which nothing comes up are passed over
    have hpass : ∀ (left time : Nat) (c : Cluster N σ), c.slack task.pass = n →
        Multiset.card (c.gather (Worker.takesOn task) task turns left time) ≠ 0 →
        ∃ bound, c.TakesOnAtMost bound task turns time := by
      intro left
      induction left with
      | zero => exact fun _ _ _ hne => absurd rfl hne
      | succ left ihleft =>
        intro time c hn hne
        suffices hnext : ∃ bound,
            (c.turn task (turns time)).TakesOnAtMost bound task turns (time + 1) by
          obtain ⟨bound, hb⟩ := hnext
          exact ⟨_, hb.of_turn⟩
        rcases (c.slack_turn task (turns time)) with hlt | ⟨hle, hzero⟩
        · exact ih _ (hn ▸ hlt) (time + 1) _ rfl
        · rcases hle.lt_or_eq with hlt | heq
          · exact ih _ (hn ▸ hlt) (time + 1) _ rfl
          · refine ihleft (time + 1) _ (heq.trans hn) fun hlater => hne ?_
            rw [gather, hzero, zero_add]
            split
            · rfl
            · exact hlater
    by_cases hnone : ∀ left, Multiset.card (c.gather (Worker.takesOn task) task turns left time) = 0
    · exact ⟨0, fun left => (hnone left).le⟩
    · obtain ⟨left, hne⟩ := not_forall.mp hnone
      exact hpass left time c hn hne

end Cluster

/-! ## 7. How many edges are handled -/

/-- The edges that a worker has to do with: those in its queue, those it is handing out, and the
one that it has got from another worker. -/
def Worker.stock (w : Worker N) : Nat :=
  w.queue.toList.length +
    match w.stance with
    | .routing _ targets => targets.length
    | .posting _ _ rest => rest.length + 1
    | .holding _ | .queueing _ => 1
    | _ => 0

section Stock

variable [Std.TransOrd N] [Std.LawfulEqOrd N] {task : Task N σ} {w w' : Worker N}
  {k k' : Commons N σ} {memory : σ} {log : Array Event}

omit [Ord N] [Std.TransOrd N] [Std.LawfulEqOrd N] in
theorem Commons.card_letters_deliver (k : Commons N σ) (receiver : Nat) (l : Letter N) :
    Multiset.card (k.deliver receiver l).letters ≤ Multiset.card k.letters + 1 := by
  by_cases hlt : receiver < k.inboxes.size
  · rw [letters_deliver hlt, Multiset.card_cons]
  · have hsame : (k.deliver receiver l).inboxes = k.inboxes := by
      apply Array.ext_getElem?
      intro j
      rw [deliver, Array.getElem?_modify]
      split
      · rename_i heq
        rw [← heq, Array.getElem?_eq_none (Nat.le_of_not_lt hlt)]
        rfl
      · rfl
    rw [letters, hsame]
    exact Nat.le_succ _

omit [Std.TransOrd N] [Std.LawfulEqOrd N] in
theorem Worker.stock_taken (r : Except Stop (Progress N)) (hs : w.stance = .ready) :
    (w.taken r).stock ≤ w.queue.toList.length + (newEdges r).length := by
  rcases r with (f | _ | _) | _ | _ | ⟨source, targets⟩
  case ok.expand =>
    rw [length_newEdges]
    exact le_rfl
  case ok.halt | error.fault => simp [taken, halt, stock, hs]
  all_goals simp [taken, stock, hs]

omit [Std.TransOrd N] [Std.LawfulEqOrd N] in
theorem Worker.card_takesOff_of_none (h : w.upNext k = none) :
    Multiset.card (w.takesOff k) = 0 := by
  rw [takesOff, h]
  rfl

/-- An edge that is handled has come up before: it was in the queue, in somebody's hands or on the
way, or it is new. -/
def Worker.Pays (task : Task N σ) (w : Worker N) (k : Commons N σ) (w' : Worker N)
    (k' : Commons N σ) : Prop :=
  w'.stock + Multiset.card k'.letters + Multiset.card (w.takesOff k) ≤
    w.stock + Multiset.card k.letters + Multiset.card (w.takesOn task k)

theorem Worker.pays_of_idle (hnone : w.upNext k = none)
    (hl : Multiset.card k'.letters = Multiset.card k.letters) (hle : w'.stock ≤ w.stock) :
    w.Pays task k w' k' := by
  have hoff := card_takesOff_of_none hnone
  unfold Pays
  omega

/-- Handling an edge takes it off the queue and puts new ones in hand. -/
theorem Worker.pays_of_handles {e : Edge N} {q : Queue (Edge N)} {r : Except Stop (Progress N)}
    {d : Desk N} (hs : w.stance = .ready) (hh : w.halted = false) (ha : k.aborted = false)
    (hq : w.queue.toList = e :: q.toList)
    (hrun : handleEdge task e (w.desk, k.memory) = (r, d, memory))
    (hl : Multiset.card k'.letters = Multiset.card k.letters)
    (hle : w'.stock ≤ q.toList.length + (newEdges r).length) : w.Pays task k w' k' := by
  have hnext := upNext_eq_some hs hh ha hq
  have hstock : w.stock = q.toList.length + 1 := by
    simp only [stock, hs, hq, List.length_cons, Nat.add_zero]
  have hoff : Multiset.card (w.takesOff k) = 1 := by
    rw [takesOff, hnext]
    rfl
  have hon : Multiset.card (w.takesOn task k) = (newEdges r).length := by
    rw [takesOn_of_ne (by simp [hs]), generates_of_some hnext, hrun, Multiset.coe_card]
  unfold Pays
  omega

theorem Worker.pays_of_receives {l : Letter N} {older newer : List (Letter N)}
    {q : Queue (Letter N)} (hs : w.stance = .listening ∨ w.stance = .dozing)
    (hq : w.inbox k = older ++ l :: newer) (hq' : q.toList = older ++ newer) :
    w.Pays task k (w.go (.holding l))
      { k with memory := memory, log := log, inboxes := k.inboxes.setIfInBounds w.id q } := by
  obtain ⟨q₀, hq₀, hlist⟩ := exists_inbox hq
  have hl : k.letters = l.edge ::ₘ Commons.letters
      { k with memory := memory, log := log, inboxes := k.inboxes.setIfInBounds w.id q } :=
    Commons.letters_receive hq₀ hlist hq' rfl
  have hoff : Multiset.card (w.takesOff k) = 0 := by
    rcases hs with hs | hs
    all_goals exact card_takesOff_of_none (by simp only [upNext, hs])
  have hstock : (w.go (.holding l)).stock = w.stock + 1 := by
    rcases hs with hs | hs
    all_goals simp only [stock, go, hs]
  rw [Pays, hl, Multiset.card_cons, hoff, hstock]
  omega

/-- **In every turn the edge that is handled is paid for.** -/
theorem Worker.Moves.pays (h : w.Moves task k memory log w' k') : w.Pays task k w' k' := by
  cases h with
  | @begins seeds d hs hrun =>
    have hoff := card_takesOff_of_none (w := w) (k := k) (by simp only [upNext, hs])
    rw [Pays, takesOn_of_start hs hrun, hoff, Multiset.coe_card, List.length_map]
    simp only [stock, hs, Queue.toList_append, List.length_append, List.length_map]
    change _ + Multiset.card k.letters + 0 ≤ _
    omega
  | @handles e q r d hs hh ha hq hr hrun =>
    have htaken := stock_taken (w := { w with queue := q, desk := d }) r hs
    exact pays_of_handles hs hh ha hq hrun rfl htaken
  | fails hs hrun => exact pays_of_idle (by simp [upNext, hs]) rfl (by simp [stock, go, hs])
  | breaks hs hh hq hr hrun ha =>
    exact pays_of_handles hs hh ha hq hrun rfl (by simp [stock, go])
  | stops hs hh ha => exact pays_of_idle (by simp [upNext, hs, ha]) rfl (by simp [stock, go, halt])
  | drains hs hq =>
    refine pays_of_idle ?_ rfl (by simp [stock, go])
    rcases hq with hh | hq
    · simp [upNext, hs, hh]
    · simp [upNext, hs, hq]
  | routed hs => exact pays_of_idle (by simp [upNext, hs]) rfl (by simp [stock, go])
  | keeps hs hv =>
    refine pays_of_idle (by simp [upNext, hs]) rfl ?_
    simp only [stock, hs, Queue.toList_push, List.length_append, List.length_cons, List.length_nil]
    omega
  | addresses hs => exact pays_of_idle (by simp [upNext, hs]) rfl (by simp [stock, go, hs])
  | @posts receiver l rest hs =>
    have hl := k.card_letters_deliver receiver l
    have hoff := card_takesOff_of_none (w := w) (k := k) (by simp only [upNext, hs])
    change (w.go (.routing l.source rest)).stock +
      Multiset.card (k.deliver receiver l).letters + _ ≤ _
    simp only [stock, go, hs]
    omega
  | receives hs hq hq' => exact pays_of_receives hs hq hq'
  | rests hs | wakes hs | quits hs | dozes hs | leaves hs =>
    exact pays_of_idle (by simp [upNext, hs]) rfl (by simp [stock, go])
  | holds hs => exact pays_of_idle (by simp [upNext, hs]) rfl (by simp [stock, hs])
  | settles hs => exact pays_of_idle (by simp [upNext, hs]) rfl (by simp [stock])
  | queues hs =>
    refine pays_of_idle (by simp [upNext, hs]) rfl ?_
    cases w.halted with
    | true => simp [stock, hs]
    | false => simp [stock, hs]
  | stays hs =>
    rcases hs with hs | hs
    · exact pays_of_idle (by simp [upNext, hs]) rfl le_rfl
    · exact pays_of_idle (by simp [upNext, hs]) rfl le_rfl

/-- The edges that all workers have to do with, and those on the way. -/
def Cluster.stock (c : Cluster N σ) : Nat :=
  (c.workers.toList.map Worker.stock).sum + Multiset.card c.commons.letters

theorem Cluster.stock_turn (task : Task N σ) (turn : Turn) (c : Cluster N σ) :
    (c.turn task turn).stock + Multiset.card (c.atTurn Worker.takesOff turn) ≤
      c.stock + Multiset.card (c.atTurn (Worker.takesOn task) turn) := by
  rcases c.turn_cases task turn with ⟨hnone, heq⟩ | ⟨w, w', k', memory, log, hw, hmove, heq⟩
  · rw [heq]
    simp only [atTurn, hnone]
    exact le_rfl
  · obtain ⟨rest, hsum, hset⟩ := exists_sum_replace Worker.stock hw
    have hbefore : c.stock = w.stock + rest + Multiset.card c.commons.letters := by
      rw [stock, hsum]
    have hafter : (c.turn task turn).stock = w'.stock + rest + Multiset.card k'.letters := by
      rw [heq, stock, hset]
      rfl
    have hpays : w'.stock + _ + _ ≤ w.stock + _ + _ := hmove.pays
    simp only [atTurn, hw]
    omega

theorem Cluster.card_takesOff_le (task : Task N σ) (turns : Nat → Turn) (left time : Nat)
    (c : Cluster N σ) :
    Multiset.card (c.gather Worker.takesOff task turns left time) ≤
      c.stock + Multiset.card (c.gather (Worker.takesOn task) task turns left time) := by
  induction left generalizing time c with
  | zero => exact Nat.zero_le _
  | succ left ih =>
    rw [gather, gather]
    split
    · exact Nat.zero_le _
    · have hturn := c.stock_turn task (turns time)
      have hlater := ih (time + 1) (c.turn task (turns time))
      rw [Multiset.card_add, Multiset.card_add]
      omega

/-- **Only so many edges are handled in a pass**, whatever the graph answers and however the
workers take their turns. -/
theorem Cluster.exists_handlesAtMost [Finite N] (task : Task N σ) (turns : Nat → Turn) (time : Nat)
    (c : Cluster N σ) :
    ∃ bound, ∀ left, Multiset.card (c.gather Worker.takesOff task turns left time) ≤ bound := by
  obtain ⟨bound, hb⟩ := c.exists_takesOnAtMost task turns time
  refine ⟨c.stock + bound, fun left => ?_⟩
  exact (c.card_takesOff_le task turns left time).trans (Nat.add_le_add_left (hb left) _)

end Stock

end FairCycle
