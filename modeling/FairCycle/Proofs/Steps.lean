/-
# Running the steps of a worker

A rule of a pass is a computation over a desk, and a step of a worker runs over the desk and the
graph's memory.  This module says how such computations run: what a rule gives on a desk is an
equation, and what a step gives on a desk, whatever the graph remembers, is `Yields`.

For a graph that keeps its promises the memory never matters, so that `Yields` is all there is to
know about a step.
-/
import FairCycle.Cluster.Worker
import FairCycle.Proofs.Lookup
import FairCycle.Proofs.Terrain

namespace FairCycle

open StepM

variable {N σ α β : Type} [Ord N]

/-! ## 1. Computations over a desk -/

namespace DeskM

variable {x : DeskM N α} {f : α → DeskM N β} {d d' : Desk N}

theorem bind_ok {a : α} (h : x d = (.ok a, d')) : (x >>= f) d = f a d' := by
  change ExceptT.bindCont f (x d).1 (x d).2 = _
  rw [h]
  rfl

theorem bind_error {e : Stop} (h : x d = (.error e, d')) : (x >>= f) d = (.error e, d') := by
  change ExceptT.bindCont f (x d).1 (x d).2 = _
  rw [h]
  rfl

theorem get_bind (f : Desk N → DeskM N β) (d : Desk N) : (get >>= f) d = f d d := rfl

end DeskM

namespace Desk

variable {d : Desk N} {h : Handle}

theorem mark_eq {m : Mark} (hm : d.table.mark? h = some m) :
    (mark h : DeskM N Mark) d = (.ok m, d) := by
  rw [mark, DeskM.get_bind, hm]
  rfl

theorem node_eq {n : N} (hn : d.table.node? h = some n) : (node h : DeskM N N) d = (.ok n, d) := by
  rw [node, DeskM.get_bind, hn]
  rfl

theorem setMark_eq (d : Desk N) (h : Handle) (m : Mark) :
    (setMark h m : DeskM N Unit) d = (.ok (), { d with table := d.table.setMark h m }) := rfl

theorem updateMark_eq {m : Mark} (hm : d.table.mark? h = some m) (f : Mark → Mark) :
    (updateMark h f : DeskM N Unit) d = (.ok (), { d with table := d.table.setMark h (f m) }) := by
  rw [updateMark, DeskM.bind_ok (mark_eq hm), setMark_eq]

theorem note_eq (d : Desk N) (f : Ledger N → Ledger N) :
    (note f : DeskM N Unit) d = (.ok (), { d with ledger := f d.ledger }) := rfl

/-- A state that was entered before is not entered again. -/
theorem enter_of_entered (he : d.entered.contains h.slot.toNat = true) :
    (enter h : DeskM N Bool) d = (.ok false, d) := by
  rw [enter, DeskM.get_bind, if_pos he]
  rfl

theorem enter_of_new (he : d.entered.contains h.slot.toNat = false) :
    (enter h : DeskM N Bool) d =
      (.ok true, { d with entered := d.entered.insert h.slot.toNat }) := by
  rw [enter, DeskM.get_bind, if_neg (by rw [he]; decide)]
  rfl

section Store

variable [Std.TransOrd N] [Std.LawfulEqOrd N] {node : N} {hash : UInt64}

/-- Storing a state that is there already gives its handle. -/
theorem store_of_known (ho : d.table.owns hash = true) (hh : d.table.find? node = some h) :
    (store node hash : DeskM N (Handle × Bool)) d = (.ok (h, false), d) := by
  change orFault (d.table.store node hash).1
    { d with table := (d.table.store node hash).2 } = _
  rw [Table.store_of_find? ho hh]
  rfl

/-- Storing a new state puts it behind the others. -/
theorem store_of_new (ho : d.table.owns hash = true) (hn : d.table.find? node = none) :
    ∃ t', d.table.Puts node {} t' ∧ t'.find? node = some (t'.handle d.table.size) ∧
      (store node hash : DeskM N (Handle × Bool)) d =
        (.ok (t'.handle d.table.size, true), { d with table := t' }) := by
  obtain ⟨t', hst, hput, -⟩ := Table.store_of_none ho hn
  refine ⟨t', hput, by rw [hput.find?_of_new hn, hput.handle], ?_⟩
  change orFault (d.table.store node hash).1
    { d with table := (d.table.store node hash).2 } = _
  rw [hst, hput.handle]
  rfl

end Store

end Desk

/-! ## 2. Steps -/

/-- Whatever the graph remembers, a step run on the desk `d` gives `r` and leaves the desk `d'`. -/
def Yields (x : StepM N σ α) (d : Desk N) (r : Except Stop α) (d' : Desk N) : Prop :=
  ∀ memory, ∃ memory', x (d, memory) = (r, d', memory')

/-- What a step was seen to give is what it yields. -/
theorem Yields.eq_of_run {x : StepM N σ α} {d d₁ d₂ : Desk N} {r₁ r₂ : Except Stop α}
    {memory memory' : σ} (h : Yields x d r₂ d₂) (hrun : x (d, memory) = (r₁, d₁, memory')) :
    r₁ = r₂ ∧ d₁ = d₂ := by
  obtain ⟨memory'', hrun'⟩ := h memory
  have h := hrun.symm.trans hrun'
  exact ⟨congrArg Prod.fst h, congrArg (·.2.1) h⟩

/-- A step gives one thing only. -/
theorem Yields.unique {x : StepM N σ α} {d d₁ d₂ : Desk N} {r₁ r₂ : Except Stop α}
    (h₁ : Yields x d r₁ d₁) (h₂ : Yields x d r₂ d₂) (memory : σ) : r₁ = r₂ ∧ d₁ = d₂ := by
  obtain ⟨memory', hrun⟩ := h₁ memory
  exact h₂.eq_of_run hrun

theorem Yields.bind {x : StepM N σ α} {f : α → StepM N σ β} {d d' d'' : Desk N} {a : α}
    {r : Except Stop β} (hx : Yields x d (.ok a) d') (hf : Yields (f a) d' r d'') :
    Yields (x >>= f) d r d'' := by
  intro memory
  obtain ⟨memory', hx⟩ := hx memory
  obtain ⟨memory'', hf⟩ := hf memory'
  refine ⟨memory'', ?_⟩
  change (ExceptT.bindCont f (x (d, memory)).1) (x (d, memory)).2 = _
  rw [hx]
  exact hf

theorem Yields.bind_error {x : StepM N σ α} {f : α → StepM N σ β} {d d' : Desk N} {e : Stop}
    (hx : Yields x d (.error e) d') : Yields (x >>= f) d (.error e) d' := by
  intro memory
  obtain ⟨memory', hx⟩ := hx memory
  refine ⟨memory', ?_⟩
  change (ExceptT.bindCont f (x (d, memory)).1) (x (d, memory)).2 = _
  rw [hx]
  rfl

theorem yields_pure (a : α) (d : Desk N) : Yields (pure a : StepM N σ α) d (.ok a) d :=
  fun memory => ⟨memory, rfl⟩

theorem yields_ask {q : StateM σ α} {a : α} (h : ∀ memory, (q memory).1 = a) (d : Desk N) :
    Yields (ask q) d (.ok a) d :=
  fun memory => ⟨(q memory).2, by rw [← h memory]; rfl⟩

theorem yields_demand {q : StateM σ (Option α)} {a : α} (h : ∀ memory, (q memory).1 = some a)
    (d : Desk N) : Yields (demand q) d (.ok a) d :=
  Yields.bind (yields_ask h d) (yields_pure a d)

theorem yields_atDesk {work : DeskM N α} {d d' : Desk N} {r : Except Stop α}
    (h : work d = (r, d')) : Yields (atDesk work : StepM N σ α) d r d' :=
  fun memory => ⟨memory, by simp only [atDesk, h]⟩

/-! ## 3. Handling an edge -/

/-- The pass of a run over a terrain. -/
def Terrain.task (t : Terrain N σ) (pass : Pass) : Task N σ := ⟨t.graph, t.reduction, pass⟩

/-- The ledger after one more state was expanded by `edges` edges. -/
def Ledger.expanded (l : Ledger N) (edges : Nat) : Ledger N :=
  { l with states := l.states + 1, transitions := l.transitions + edges }

/-- The ledger after one more state was counted, if it is one that counts. -/
def Ledger.noted (l : Ledger N) (counts : Bool) : Ledger N :=
  { l with size := l.size + counts.toNat }

variable {t : Terrain N σ} {pass : Pass} {d d' d'' e : Desk N} {h : Handle} {v : N}

/-- Expanding a state generates its successors and counts them. -/
theorem yields_expandState (hv : v ∈ t.states)
    (hs : Yields (pass.onState t.graph h) d (.ok ()) d') (hn : d'.table.node? h = some v) :
    Yields (expandState (t.task pass) h) d (.ok (.expand h (t.targets v)))
      { d' with ledger := d'.ledger.expanded (t.targets v).length } := by
  refine hs.bind (Yields.bind (yields_atDesk (Desk.note_eq _ _)) ?_)
  refine Yields.bind (yields_atDesk (Desk.node_eq hn)) ?_
  refine Yields.bind (yields_demand (Graph.Promise.expand_eq (t.known v hv)) _) ?_
  exact Yields.bind (yields_atDesk (Desk.note_eq _ _)) (yields_pure _ _)

section Handle

variable [Std.TransOrd N] [Std.LawfulEqOrd N] {source : Option Handle} {fresh : Bool}
  {r : Except Stop (Progress N)}

/-- A step of which the edge was stored: the rest is up to the rule of the pass. -/
theorem yields_handleEdge
    (hst : (Desk.store v (t.promise.hash v) : DeskM N (Handle × Bool)) d = (.ok (h, fresh), d'))
    (hrest : Yields (do
      match ← atDesk (pass.onEdge source h fresh) with
      | .terminate => return .halt
      | .forget => return .next
      | .follow => if fresh then expandState (t.task pass) h else return .next
      | .expand => expandState (t.task pass) h) d' r d'') :
    Yields (handleEdge (t.task pass) ⟨source, v⟩) d r d'' := by
  refine Yields.bind (yields_ask (t.promise.hash_eq v) d) ?_
  exact Yields.bind (yields_atDesk hst) hrest

/-- The rule ends the worker's part in the pass. -/
theorem yields_halt
    (hst : (Desk.store v (t.promise.hash v) : DeskM N (Handle × Bool)) d = (.ok (h, fresh), d'))
    (he : (pass.onEdge source h fresh : DeskM N Action) d' = (.ok .terminate, d'')) :
    Yields (handleEdge (t.task pass) ⟨source, v⟩) d (.ok .halt) d'' :=
  yields_handleEdge hst (Yields.bind (yields_atDesk he) (yields_pure _ _))

/-- The rule drops the edge. -/
theorem yields_forget
    (hst : (Desk.store v (t.promise.hash v) : DeskM N (Handle × Bool)) d = (.ok (h, fresh), d'))
    (he : (pass.onEdge source h fresh : DeskM N Action) d' = (.ok .forget, d'')) :
    Yields (handleEdge (t.task pass) ⟨source, v⟩) d (.ok .next) d'' :=
  yields_handleEdge hst (Yields.bind (yields_atDesk he) (yields_pure _ _))

/-- The rule would follow the edge, but its target was known. -/
theorem yields_follow_known
    (hst : (Desk.store v (t.promise.hash v) : DeskM N (Handle × Bool)) d = (.ok (h, false), d'))
    (he : (pass.onEdge source h false : DeskM N Action) d' = (.ok .follow, d'')) :
    Yields (handleEdge (t.task pass) ⟨source, v⟩) d (.ok .next) d'' :=
  yields_handleEdge hst (Yields.bind (yields_atDesk he) (yields_pure _ _))

/-- The rule follows the edge to a new target. -/
theorem yields_follow_new
    (hst : (Desk.store v (t.promise.hash v) : DeskM N (Handle × Bool)) d = (.ok (h, true), d'))
    (he : (pass.onEdge source h true : DeskM N Action) d' = (.ok .follow, d''))
    (hx : Yields (expandState (t.task pass) h) d'' r e) :
    Yields (handleEdge (t.task pass) ⟨source, v⟩) d r e :=
  yields_handleEdge hst (Yields.bind (yields_atDesk he) hx)

/-- The rule follows the edge, whether its target was known or not. -/
theorem yields_expand
    (hst : (Desk.store v (t.promise.hash v) : DeskM N (Handle × Bool)) d = (.ok (h, fresh), d'))
    (he : (pass.onEdge source h fresh : DeskM N Action) d' = (.ok .expand, d''))
    (hx : Yields (expandState (t.task pass) h) d'' r e) :
    Yields (handleEdge (t.task pass) ⟨source, v⟩) d r e :=
  yields_handleEdge hst (Yields.bind (yields_atDesk he) hx)

/-- The rule stops with a fault. -/
theorem yields_fault {stop : Stop}
    (hst : (Desk.store v (t.promise.hash v) : DeskM N (Handle × Bool)) d = (.ok (h, fresh), d'))
    (he : (pass.onEdge source h fresh : DeskM N Action) d' = (.error stop, d'')) :
    Yields (handleEdge (t.task pass) ⟨source, v⟩) d (.error stop) d'' :=
  yields_handleEdge hst (Yields.bind_error (yields_atDesk he))

end Handle

end FairCycle
