/-
# What the rules of the passes can do

A rule of a pass reads marks and writes marks, notes something in the ledger, and enters states in
a search, and it may stop early.  What it can write in place of a mark is listed in `Pass.Writes`,
and what it can note in `Pass.Notes`.  A property of desks that these single actions keep
(`Pass.Keeps`) is kept by every rule of the pass, and but for the storing of a state by every edge
that is handled (`Pass.Keeps.handleEdge`), however that ends.

Nothing here relies on the graph answering equal questions equally.
-/
import FairCycle.Proofs.Marks
import FairCycle.Proofs.Steps

namespace FairCycle

open Desk StepM

/-! ## 1. Computations that may stop -/

section Stays

variable {S α β : Type} {J : S → Prop} {s : S}

/-- Where a computation gives no result the one after it does not begin. -/
theorem bind_cases (x : ExceptT Stop (StateM S) α) (f : α → ExceptT Stop (StateM S) β) (s : S) :
    (∃ a, (x s).1 = .ok a ∧ (x >>= f) s = f a (x s).2) ∨
      ∃ e, (x s).1 = .error e ∧ (x >>= f) s = (.error e, (x s).2) := by
  have h : (x >>= f) s = ExceptT.bindCont f (x s).1 (x s).2 := rfl
  cases hx : (x s).1 with
  | ok a => exact .inl ⟨a, rfl, by rw [h, hx]; rfl⟩
  | error e => exact .inr ⟨e, rfl, by rw [h, hx]; rfl⟩

/-- A result of one computation after another comes of a result of the first. -/
theorem exists_of_bind_eq_ok {x : ExceptT Stop (StateM S) α}
    {f : α → ExceptT Stop (StateM S) β} {b : β} {s' : S} (h : (x >>= f) s = (.ok b, s')) :
    ∃ a r, x s = (.ok a, r) ∧ f a r = (.ok b, s') := by
  rcases bind_cases x f s with ⟨a, ha, hf⟩ | ⟨e, -, hf⟩
  · exact ⟨a, (x s).2, Prod.ext ha rfl, hf.symm.trans h⟩
  · exact absurd (congrArg Prod.fst (hf.symm.trans h)) (by simp)

/-- However a computation from the state `s` ends, it does not lead out of `J`. -/
def Stays (J : S → Prop) (x : ExceptT Stop (StateM S) α) (s : S) : Prop := J s → J (x s).2

namespace Stays

theorem of_eq {x : ExceptT Stop (StateM S) α} (h : (x s).2 = s) : Stays J x s := fun hs => by
  rw [h]
  exact hs

theorem ret (a : α) : Stays J (pure a : ExceptT Stop (StateM S) α) s := fun hs => hs

theorem throws (e : Stop) : Stays J (throw e : ExceptT Stop (StateM S) α) s := fun hs => hs

/-- It is enough to be in `J` after the first of two computations. -/
theorem of_bind {x : ExceptT Stop (StateM S) α} {f : α → ExceptT Stop (StateM S) β}
    (hx : J (x s).2) (hf : ∀ a, (x s).1 = .ok a → Stays J (f a) (x s).2) : J ((x >>= f) s).2 := by
  rcases bind_cases x f s with ⟨a, ha, h⟩ | ⟨e, -, h⟩
  · rw [h]
    exact hf a ha hx
  · rw [h]
    exact hx

theorem bind {x : ExceptT Stop (StateM S) α} {f : α → ExceptT Stop (StateM S) β}
    (hx : Stays J x s) (hf : ∀ a, (x s).1 = .ok a → Stays J (f a) (x s).2) :
    Stays J (x >>= f) s := fun hs => of_bind (hx hs) hf

/-- Finding something out first. -/
theorem read_bind {x : ExceptT Stop (StateM S) α} {f : α → ExceptT Stop (StateM S) β}
    (hx : (x s).2 = s) (hf : ∀ a, (x s).1 = .ok a → Stays J (f a) s) : Stays J (x >>= f) s :=
  bind (of_eq hx) fun a ha => hx.symm ▸ hf a ha

theorem get_bind {f : S → ExceptT Stop (StateM S) β} (hf : Stays J (f s) s) :
    Stays J (get >>= f) s := hf

theorem ite {p : Prop} [Decidable p] {x y : ExceptT Stop (StateM S) α} (hx : Stays J x s)
    (hy : Stays J y s) : Stays J (if p then x else y) s := by
  split
  · exact hx
  · exact hy

end Stays

end Stays

/-! ## 2. What a pass writes and notes -/

variable {N σ : Type} [Ord N]

/-- Writing behind a handle changes the mark of the state there, and no other. -/
theorem Table.markOf_setMark {T : Table N} {h : Handle} {m : Mark} (hm : T.mark? h = some m)
    (m' : Mark) (v : N) :
    (T.markOf v = some m ∧ T.node? h = some v ∧ (T.setMark h m').markOf v = some m') ∨
      (T.setMark h m').markOf v = T.markOf v := by
  obtain ⟨hw, hmark⟩ := mark?_eq_some_iff.mp hm
  have hindex : (T.setMark h m').index = T.index := by
    unfold setMark
    split <;> rfl
  have hmarks : (T.setMark h m').marks = T.marks.setIfInBounds h.slot.toNat m' := by
    simp [setMark, hw]
  unfold markOf
  rw [hindex, hmarks]
  cases hslot : T.index[v]? with
  | none => exact .inr rfl
  | some i =>
    rcases eq_or_ne h.slot.toNat i with rfl | hne
    · refine .inl ⟨hmark, ?_, ?_⟩
      · rw [node?, slot?, if_pos hw]
        exact index_eq_some.mp hslot
      · exact Array.getElem?_setIfInBounds_self_of_lt (Array.getElem?_eq_some_iff.mp hmark).1
    · exact .inr (Array.getElem?_setIfInBounds_ne hne)

/-- What a rule of a pass puts in place of the mark `m` behind a handle. -/
inductive Pass.Writes (g : Graph N σ) (d : Desk N) (h : Handle) (m : Mark) : Pass → Mark → Prop
  | parent (source : Handle) : Writes g d h m .explore (m.setParentOnce source)
  | ancestor {rank : UInt32} (hmore : m.ancestor < rank) :
      Writes g d h m .explore (m.setAncestor rank)
  | acceptance {v : N} {memory : σ} {accepting : Bool} (hv : d.table.node? h = some v)
      (ha : (g.accepting v memory).1 = some accepting) :
      Writes g d h m .explore ((m.setInF accepting).setInS accepting)
  | counts {m' : Mark} (hm : m.countUp h = .ok m') : Writes g d h m .reach (m'.setInS true)
  | visits {m' : Mark} (hm : m.countUp h = .ok m') :
      Writes g d h m .reach ((m'.setInS true).setIteration d.ledger.round)
  | uncounts {m' : Mark} (hm : m.countDown h = .ok m') : Writes g d h m .eliminate m'
  | drops : Writes g d h m .eliminate (m.setInS false)
  | stamps : Writes g d h m .trace (m.setIteration d.ledger.round)
  | closes (source : Handle) : Writes g d h m .trace (m.replaceParent source)
  | traces (source : Handle) :
      Writes g d h m .trace ((m.setIteration d.ledger.round).replaceParent source)

/-- What a pass makes of a worker's ledger in one go. -/
inductive Pass.Notes (l : Ledger N) : Pass → Ledger N → Prop
  | state (pass : Pass) : Notes l pass { l with states := l.states + 1 }
  | edges (pass : Pass) (n : Nat) : Notes l pass { l with transitions := l.transitions + n }
  | initial (h : Handle) :
      Notes l .explore { l with chase := { l.chase with initial := some h } }
  | accepts : Notes l .explore { l with size := l.size + 1 }
  | returns (h : Handle) : Notes l .explore (l.recordCycle h)
  | eliminates : Notes l .eliminate { l with size := l.size + 1 }
  | finds (h : Handle) : Notes l .search (l.recordCycle h)

/-- A property of desks that the single actions of a pass keep. -/
structure Pass.Keeps (g : Graph N σ) (pass : Pass) (J : Desk N → Prop) : Prop where
  writes : ∀ {d : Desk N} {h : Handle} {m m' : Mark}, d.table.mark? h = some m →
    pass.Writes g d h m m' → J d → J { d with table := d.table.setMark h m' }
  notes : ∀ {d : Desk N} {l : Ledger N}, pass.Notes d.ledger l → J d → J { d with ledger := l }
  enters : ∀ {d : Desk N} (slot : Nat), pass = .search → J d →
    J { d with entered := d.entered.insert slot }

/-! ## 3. The rules -/

section Rules

variable {α : Type} {g : Graph N σ} {d : Desk N} {h : Handle} {J : Desk N → Prop}

theorem Desk.mark_cases (h : Handle) (d : Desk N) :
    (∃ m, d.table.mark? h = some m ∧ (mark h : DeskM N Mark) d = (.ok m, d)) ∨
      (mark h : DeskM N Mark) d = (.error .crash, d) := by
  cases hm : d.table.mark? h with
  | some m => exact .inl ⟨m, rfl, mark_eq hm⟩
  | none =>
    refine .inr ?_
    rw [mark, DeskM.get_bind, hm]
    rfl

namespace Stays

/-- Going on after a look at a mark. -/
theorem mark_bind {f : Mark → DeskM N α} {J : Desk N → Prop}
    (hf : ∀ m, d.table.mark? h = some m → Stays J (f m) d) : Stays J (mark h >>= f) d := by
  rcases Desk.mark_cases h d with ⟨m, hm, heq⟩ | heq
  · refine read_bind (by rw [heq]) fun a ha => hf a ?_
    rw [heq] at ha
    rw [hm, Except.ok.inj ha]
  · refine read_bind (by rw [heq]) fun a ha => ?_
    rw [heq] at ha
    exact absurd ha (by simp)

/-- Going on after something that may end in a fault. -/
theorem orFault_bind {r : Except Fault β} {f : β → DeskM N α} {J : Desk N → Prop}
    (hf : ∀ a, r = .ok a → Stays J (f a) d) : Stays J (orFault r >>= f) d := by
  cases r with
  | ok a => exact hf a rfl
  | error fault => exact of_eq rfl

end Stays

theorem snd_rank (h : Handle) (d : Desk N) : ((rank h : DeskM N UInt32) d).2 = d := by
  unfold rank
  cases h.rank? <;> rfl

theorem snd_carriedRank (source : Handle) (d : Desk N) :
    ((carriedRank source : DeskM N UInt32) d).2 = d := by
  suffices Stays (· = d) (carriedRank source : DeskM N UInt32) d from this rfl
  refine .mark_bind fun m _ => .ite ?_ (.of_eq rfl)
  exact .read_bind (snd_rank source d) fun _ _ => .of_eq rfl

/-- What exploration does with an edge once its target has a parent. -/
def lookOut (source target : Handle) : DeskM N Action := do
  let loop ← if source = target then (·.inF) <$> mark target else pure false
  let found ←
    if loop then pure true
    else if (← get).table.peers = 1 then handOn source target
    else pure false
  if found then
    note (·.recordCycle target)
    return .terminate
  else return .follow

theorem exploreEdge_known (source target : Handle) :
    (exploreEdge (some source) target false : DeskM N Action) = lookOut source target := rfl

theorem exploreEdge_new (source target : Handle) :
    (exploreEdge (some source) target true : DeskM N Action) = (do
      updateMark target (·.setParentOnce source)
      lookOut source target) := rfl

namespace Pass.Keeps

theorem setMark {pass : Pass} (hJ : pass.Keeps g J) {m m' : Mark}
    (hm : d.table.mark? h = some m) (hw : pass.Writes g d h m m') :
    Stays J (Desk.setMark h m') d := hJ.writes hm hw

theorem updateMark {pass : Pass} (hJ : pass.Keeps g J) {f : Mark → Mark}
    (hf : ∀ m, pass.Writes g d h m (f m)) : Stays J (Desk.updateMark h f) d :=
  .mark_bind fun m hm => hJ.setMark hm (hf m)

theorem note {pass : Pass} (hJ : pass.Keeps g J) {f : Ledger N → Ledger N}
    (hf : pass.Notes d.ledger (f d.ledger)) : Stays J (Desk.note f) d := hJ.notes hf

theorem note_pure {pass : Pass} (hJ : pass.Keeps g J) {f : Ledger N → Ledger N}
    (hf : pass.Notes d.ledger (f d.ledger)) (a : α) : Stays J (do Desk.note f; pure a) d :=
  .bind (hJ.note hf) fun _ _ => .ret a

theorem handOn (hJ : explore.Keeps g J) (source target : Handle) (d : Desk N) :
    Stays J (FairCycle.handOn source target) d := by
  refine .read_bind (snd_carriedRank source d) fun carried _ => .ite (.of_eq rfl) ?_
  refine .mark_bind fun m hm => ?_
  -- whether or not the rank that comes is the state's own
  have hback : ∀ back : Bool, Stays J (if back then pure true else do
      if m.ancestor < carried then Desk.setMark target (m.setAncestor carried)
      return false) d := by
    intro back
    refine .ite (.of_eq rfl) ?_
    split
    · rename_i hmore
      exact .bind (hJ.setMark hm (.ancestor hmore)) fun _ _ => .of_eq rfl
    · exact .of_eq rfl
  refine .ite ?_ (hback false)
  rw [map_eq_pure_bind, bind_assoc]
  exact .read_bind (snd_rank target d) fun _ _ => hback _

theorem lookOut (hJ : explore.Keeps g J) (source target : Handle) (d : Desk N) :
    Stays J (FairCycle.lookOut source target) d := by
  have hfound : ∀ (found : Bool) (d : Desk N), Stays J (do
      if found then Desk.note (·.recordCycle target); return Action.terminate
      else return .follow) d := fun found d =>
    .ite (hJ.note_pure (.returns target) _) (.of_eq rfl)
  have hloop : ∀ loop : Bool, Stays J (do
      let found ←
        if loop then pure true
        else if (← get).table.peers = 1 then FairCycle.handOn source target
        else pure false
      if found then Desk.note (·.recordCycle target); return Action.terminate
      else return .follow) d := fun loop =>
    .get_bind (.ite (hfound true d) (.ite (.bind (hJ.handOn source target d) fun _ _ =>
      hfound _ _) (hfound false d)))
  refine .ite ?_ (hloop false)
  rw [map_eq_pure_bind, bind_assoc]
  exact .mark_bind fun m _ => hloop _

theorem exploreEdge (hJ : explore.Keeps g J) (source : Option Handle) (target : Handle)
    (fresh : Bool) (d : Desk N) : Stays J (FairCycle.exploreEdge source target fresh) d := by
  cases source with
  | none => exact hJ.note_pure (.initial target) _
  | some source =>
    cases fresh with
    | true =>
      rw [exploreEdge_new]
      exact .bind (hJ.updateMark fun _ => .parent source) fun _ _ => hJ.lookOut source target _
    | false =>
      rw [exploreEdge_known]
      exact hJ.lookOut source target d

theorem reachEdge (hJ : reach.Keeps g J) (source : Option Handle) (target : Handle)
    (fresh : Bool) (d : Desk N) : Stays J (FairCycle.reachEdge source target fresh) d := by
  cases source with
  | none => exact .of_eq rfl
  | some source =>
    refine .get_bind (.mark_bind fun m hm => .orFault_bind fun m' hm' => .ite ?_ ?_)
    · exact .bind (hJ.setMark hm (.counts hm')) fun _ _ => .of_eq rfl
    · exact .bind (hJ.setMark hm (.visits hm')) fun _ _ => .of_eq rfl

theorem eliminateEdge (hJ : eliminate.Keeps g J) (source : Option Handle) (target : Handle)
    (d : Desk N) : Stays J (FairCycle.eliminateEdge source target) d := by
  cases source with
  | none => exact .of_eq rfl
  | some source =>
    refine .mark_bind fun m hm => .orFault_bind fun m' hm' => ?_
    exact .bind (hJ.setMark hm (.uncounts hm')) fun _ _ => .of_eq rfl

theorem enter (hJ : search.Keeps g J) (h : Handle) (d : Desk N) : Stays J (Desk.enter h) d :=
  .get_bind (.ite (.of_eq rfl) (.bind (hJ.enters _ rfl) fun _ _ => .of_eq rfl))

theorem searchEdge (hJ : search.Keeps g J) (source : Option Handle) (target : Handle)
    (fresh : Bool) (d : Desk N) : Stays J (FairCycle.searchEdge source target fresh) d := by
  cases source with
  | none => exact .bind (hJ.enter target d) fun _ _ => .of_eq rfl
  | some source =>
    refine .get_bind (.ite (hJ.note_pure (.finds target) _) (.ite (.of_eq rfl) ?_))
    refine .mark_bind fun _ _ => .ite (.of_eq rfl) ?_
    exact .bind (hJ.enter target d) fun _ _ => .ite (.of_eq rfl) (.of_eq rfl)

theorem traceEdge (hJ : trace.Keeps g J) (source : Option Handle) (target : Handle)
    (fresh : Bool) (d : Desk N) : Stays J (FairCycle.traceEdge source target fresh) d := by
  refine .get_bind ?_
  cases source with
  | none => exact .bind (hJ.updateMark fun _ => .stamps) fun _ _ => .of_eq rfl
  | some source =>
    refine .mark_bind fun m hm => .ite ?_ (.ite (.of_eq rfl) ?_)
    · exact .bind (hJ.setMark hm (.closes source)) fun _ _ => .of_eq rfl
    · exact .bind (hJ.setMark hm (.traces source)) fun _ _ => .of_eq rfl

theorem onEdge {pass : Pass} (hJ : pass.Keeps g J) (source : Option Handle) (target : Handle)
    (fresh : Bool) (d : Desk N) : Stays J (pass.onEdge source target fresh) d := by
  cases pass with
  | explore => exact hJ.exploreEdge source target fresh d
  | reset => exact .of_eq rfl
  | reach => exact hJ.reachEdge source target fresh d
  | eliminate => exact hJ.eliminateEdge source target d
  | search => exact hJ.searchEdge source target fresh d
  | trace => exact hJ.traceEdge source target fresh d

theorem noteAcceptance (hJ : explore.Keeps g J) {v : N} {accepting : Bool} {memory : σ}
    (hv : d.table.node? h = some v) (ha : (g.accepting v memory).1 = some accepting) :
    Stays J (FairCycle.noteAcceptance h accepting) d :=
  .bind (hJ.updateMark fun _ => .acceptance hv ha) fun _ _ => .ite (hJ.note .accepts) (.of_eq rfl)

theorem noteElimination (hJ : eliminate.Keeps g J) (h : Handle) (d : Desk N) :
    Stays J (FairCycle.noteElimination h) d :=
  .mark_bind fun _ hm => .bind (hJ.setMark hm .drops) fun _ _ =>
    .ite (hJ.note .eliminates) (.of_eq rfl)

end Pass.Keeps

end Rules

/-! ## 4. Steps -/

section Steps

variable {α β : Type} {g : Graph N σ} {d : Desk N} {memory : σ} {h : Handle}

theorem Desk.node_cases (h : Handle) (d : Desk N) :
    (∃ v, d.table.node? h = some v ∧ (node h : DeskM N N) d = (.ok v, d)) ∨
      (node h : DeskM N N) d = (.error .crash, d) := by
  cases hv : d.table.node? h with
  | some v => exact .inl ⟨v, rfl, node_eq hv⟩
  | none =>
    refine .inr ?_
    rw [node, DeskM.get_bind, hv]
    rfl

theorem Desk.snd_store [Std.TransOrd N] [Std.LawfulEqOrd N] (v : N) (hash : UInt64) (d : Desk N) :
    ((store v hash : DeskM N (Handle × Bool)) d).2 =
      { d with table := (d.table.store v hash).2 } := by
  change (orFault (d.table.store v hash).1 { d with table := (d.table.store v hash).2 }).2 = _
  cases (d.table.store v hash).1 <;> rfl

namespace Stays

variable {J : Desk N → Prop}

theorem atDesk {work : DeskM N α} (hw : Stays J work d) :
    Stays (fun p => J p.1) (atDesk work) (d, memory) := hw

/-- Going on after work at the desk. -/
theorem atDesk_bind {work : DeskM N α} {f : α → StepM N σ β} (hw : Stays J work d)
    (hf : ∀ a, (work d).1 = .ok a → Stays (fun p => J p.1) (f a) ((work d).2, memory)) :
    Stays (fun p => J p.1) (StepM.atDesk work >>= f) (d, memory) :=
  bind (atDesk hw) hf

/-- Going on after a look at a state. -/
theorem node_bind {f : N → StepM N σ β}
    (hf : ∀ v, d.table.node? h = some v → Stays (fun p => J p.1) (f v) (d, memory)) :
    Stays (fun p => J p.1) (StepM.atDesk (node h) >>= f) (d, memory) := by
  rcases Desk.node_cases h d with ⟨v, hv, heq⟩ | heq
  · refine atDesk_bind (of_eq (by rw [heq])) fun a ha => ?_
    rw [heq] at ha ⊢
    exact hf a (by rw [hv, Except.ok.inj ha])
  · refine atDesk_bind (of_eq (by rw [heq])) fun a ha => ?_
    rw [heq] at ha
    exact absurd ha (by simp)

/-- Going on after a question to the graph. -/
theorem ask_bind {question : StateM σ α} {f : α → StepM N σ β}
    (hf : ∀ memory', Stays (fun p => J p.1) (f (question memory).1) (d, memory')) :
    Stays (fun p => J p.1) (ask question >>= f) (d, memory) := hf (question memory).2

theorem demand_bind {question : StateM σ (Option α)} {f : α → StepM N σ β}
    (hf : ∀ a memory', (question memory).1 = some a → Stays (fun p => J p.1) (f a) (d, memory')) :
    Stays (fun p => J p.1) (demand question >>= f) (d, memory) := by
  rw [demand, bind_assoc]
  refine ask_bind fun memory' => ?_
  cases ha : (question memory).1 with
  | some a => exact hf a memory' ha
  | none => exact of_eq rfl

end Stays

namespace Pass.Keeps

variable {pass : Pass} {J : Desk N → Prop}

theorem onState (hJ : pass.Keeps g J) (h : Handle) (d : Desk N) (memory : σ) :
    Stays (fun p => J p.1) (pass.onState g h) (d, memory) := by
  cases pass with
  | explore =>
    refine .node_bind fun v hv => .demand_bind fun accepting memory' ha => ?_
    exact .atDesk (hJ.noteAcceptance hv ha)
  | eliminate => exact .atDesk (hJ.noteElimination h d)
  | reset | reach | search | trace => exact .of_eq rfl

variable {task : Task N σ}

theorem expandState (hJ : task.pass.Keeps task.graph J) (h : Handle) (d : Desk N) (memory : σ) :
    Stays (fun p => J p.1) (FairCycle.expandState task h) (d, memory) := by
  refine .bind (hJ.onState h d memory) fun _ _ => ?_
  refine .atDesk_bind (hJ.note (.state _)) fun _ _ => .node_bind fun v _ => ?_
  refine .demand_bind fun targets _ _ => ?_
  exact .atDesk_bind (hJ.note (.edges _ targets.length)) fun _ _ => .of_eq rfl

variable [Std.TransOrd N] [Std.LawfulEqOrd N]

/-- **Handling an edge keeps what the single actions of the pass keep**, if storing the target of
the edge does. -/
theorem handleEdge (hJ : task.pass.Keeps task.graph J) {e : Edge N} {d : Desk N} {memory : σ}
    (hstore : J d → J { d with
      table := (d.table.store e.target (task.graph.hash e.target memory).1).2 }) :
    Stays (fun p => J p.1) (FairCycle.handleEdge task e) (d, memory) := by
  refine .ask_bind fun memory' => .atDesk_bind (fun hd => ?_) fun stored _ => ?_
  · rw [snd_store]
    exact hstore hd
  · obtain ⟨target, fresh⟩ := stored
    refine .atDesk_bind (hJ.onEdge e.source target fresh _) fun action _ => ?_
    cases action with
    | terminate => exact .of_eq rfl
    | forget => exact .of_eq rfl
    | follow => exact .ite (hJ.expandState target _ _) (.of_eq rfl)
    | expand => exact hJ.expandState target _ _

end Pass.Keeps

theorem of_node_eq_ok {p p' : Desk N × σ} {v : N}
    (hx : (StepM.atDesk (node h) : StepM N σ N) p = (.ok v, p')) :
    p' = p ∧ p.1.table.node? h = some v := by
  obtain ⟨d, memory⟩ := p
  have hresult : ((node h : DeskM N N) d).1 = .ok v := congrArg Prod.fst hx
  have hstate : (((node h : DeskM N N) d).2, memory) = p' := congrArg Prod.snd hx
  rcases Desk.node_cases h d with ⟨u, hu, heq⟩ | heq
  · rw [heq] at hresult hstate
    exact ⟨hstate.symm, by rw [hu, Except.ok.inj hresult]⟩
  · rw [heq] at hresult
    exact absurd hresult (by simp)

theorem of_demand_eq_ok {question : StateM σ (Option α)} {p p' : Desk N × σ} {a : α}
    (hx : (demand question : StepM N σ α) p = (.ok a, p')) :
    p'.1 = p.1 ∧ (question p.2).1 = some a := by
  obtain ⟨answer, p₁, hask, hx⟩ := exists_of_bind_eq_ok hx
  obtain ⟨hanswer, rfl⟩ := Prod.mk.inj hask
  obtain rfl : (question p.2).1 = answer := Except.ok.inj hanswer
  cases ha : (question p.2).1 with
  | some b =>
    rw [ha] at hx
    obtain ⟨hresult, rfl⟩ := Prod.mk.inj hx
    exact ⟨rfl, congrArg some (Except.ok.inj hresult)⟩
  | none =>
    rw [ha] at hx
    exact absurd (Prod.mk.inj hx).1 (by simp)

/-- Expanding a state gives its handle and the successors that the graph says it has. -/
theorem expand_of_expandState {task : Task N σ} {source : Handle} {targets : List N}
    {p p' : Desk N × σ} (hx : expandState task h p = (.ok (.expand source targets), p')) :
    source = h ∧ ∃ v memory, p'.1.table.node? source = some v ∧
      (task.graph.expand task.reduction v memory).1 = some targets := by
  obtain ⟨_, p₁, -, hx₁⟩ := exists_of_bind_eq_ok hx
  obtain ⟨_, p₂, -, hx₂⟩ := exists_of_bind_eq_ok hx₁
  obtain ⟨v, p₃, hnode, hx₃⟩ := exists_of_bind_eq_ok hx₂
  obtain ⟨targets', p₄, hdemand, hx₄⟩ := exists_of_bind_eq_ok hx₃
  obtain ⟨hstays, hv⟩ := of_node_eq_ok hnode
  obtain ⟨hdesk, htargets⟩ := of_demand_eq_ok hdemand
  obtain ⟨hprogress, hlast⟩ := Prod.mk.inj hx₄
  obtain ⟨rfl, rfl⟩ := Progress.expand.inj (Except.ok.inj hprogress)
  refine ⟨rfl, v, p₃.2, ?_, htargets⟩
  have htable : p₄.1.table = p₂.1.table := by rw [hdesk, hstays]
  rw [← hlast, ← hv, ← htable]

variable [Std.TransOrd N] [Std.LawfulEqOrd N]

/-- How an edge is handled without a fault: its target is stored, the rule of the pass looks at the
edge, and it may be that the target is expanded. -/
theorem exists_of_handleEdge {task : Task N σ} {e : Edge N} {x : Progress N} {p : Desk N × σ}
    (hx : handleEdge task e (d, memory) = (.ok x, p)) :
    ∃ target fresh action d', ∃ memory' : σ,
      (d.table.store e.target (task.graph.hash e.target memory).1).1 = .ok (target, fresh) ∧
      (task.pass.onEdge e.source target fresh : DeskM N Action)
          { d with table := (d.table.store e.target (task.graph.hash e.target memory).1).2 } =
        (.ok action, d') ∧
      (x = .halt ∨ x = .next ∨ (action = .expand ∨ action = .follow ∧ fresh = true) ∧
        expandState task target (d', memory') = (.ok x, p)) := by
  obtain ⟨hash, p₁, hask, hx₁⟩ := exists_of_bind_eq_ok hx
  obtain ⟨hhash, rfl⟩ := Prod.mk.inj hask
  obtain rfl : (task.graph.hash e.target memory).1 = hash := Except.ok.inj hhash
  obtain ⟨⟨target, fresh⟩, ⟨d₂, memory₂⟩, hstore, hx₂⟩ := exists_of_bind_eq_ok hx₁
  obtain ⟨action, ⟨d₃, memory₃⟩, hedge, hx₃⟩ := exists_of_bind_eq_ok hx₂
  obtain rfl : { d with table := (d.table.store e.target (task.graph.hash e.target memory).1).2 } =
      d₂ := by
    rw [← snd_store]
    exact congrArg (·.2.1) hstore
  refine ⟨target, fresh, action, d₃, memory₃, ?_, ?_, ?_⟩
  · have hfound : (orFault (d.table.store e.target (task.graph.hash e.target memory).1).1
        { d with table := (d.table.store e.target (task.graph.hash e.target memory).1).2 }).1 =
        .ok (target, fresh) := congrArg Prod.fst hstore
    cases hst : (d.table.store e.target (task.graph.hash e.target memory).1).1 with
    | ok found =>
      rw [hst] at hfound
      rw [Except.ok.inj hfound]
    | error f =>
      rw [hst] at hfound
      have hbad : (.error (.fault f) : Except Stop (Handle × Bool)) = .ok (target, fresh) := hfound
      cases hbad
  · exact Prod.ext (congrArg (·.1) hedge) (congrArg (·.2.1) hedge)
  · cases action with
    | terminate => exact .inl (Except.ok.inj (Prod.mk.inj hx₃).1).symm
    | forget => exact .inr (.inl (Except.ok.inj (Prod.mk.inj hx₃).1).symm)
    | follow =>
      cases fresh with
      | true => exact .inr (.inr ⟨.inr ⟨rfl, rfl⟩, hx₃⟩)
      | false => exact .inr (.inl (Except.ok.inj (Prod.mk.inj hx₃).1).symm)
    | expand => exact .inr (.inr ⟨.inl rfl, hx₃⟩)

/-- Handling an edge expands a state that is stored. -/
theorem expand_of_handleEdge {task : Task N σ} {e : Edge N} {source : Handle} {targets : List N}
    {p p' : Desk N × σ} (hx : handleEdge task e p = (.ok (.expand source targets), p')) :
    ∃ v memory, p'.1.table.node? source = some v ∧
      (task.graph.expand task.reduction v memory).1 = some targets := by
  obtain ⟨target, fresh, action, d', memory', -, -, hhalt | hnext | ⟨-, hexpand⟩⟩ :=
    exists_of_handleEdge hx
  · exact absurd hhalt (by simp)
  · exact absurd hnext (by simp)
  · exact (expand_of_expandState hexpand).2

end Steps

/-! ## 5. The start of a pass -/

theorem snd_ownNode (h : Option Handle) (d : Desk N) :
    ((ownNode h : DeskM N (List N)) d).2 = d := by
  suffices Stays (· = d) (ownNode h : DeskM N (List N)) d from this rfl
  cases h with
  | none => exact .of_eq rfl
  | some h =>
    refine .get_bind (.ite ?_ (.of_eq rfl))
    rcases Desk.node_cases h d with ⟨v, -, heq⟩ | heq
    · exact .read_bind (by rw [heq]) fun _ _ => .of_eq rfl
    · exact .read_bind (by rw [heq]) fun _ _ => .of_eq rfl

/-- The states of a table whose marks have a property, in slot order. -/
def Table.nodesWhere (p : Mark → Bool) (T : Table N) : List N :=
  (T.entries.filter (p ·.2)).map Prod.fst

/-- A desk after the start of a pass. -/
def Pass.opened (pass : Pass) (d : Desk N) : Desk N :=
  match pass with
  | .explore | .eliminate | .trace => d
  | .reset =>
    let table := d.table.mapMarks (·.startRound d.ledger.round)
    { d with
      table := table
      ledger := { d.ledger with size := (table.nodesWhere Mark.isSeed).length } }
  | .reach =>
    { d with ledger := { d.ledger with size := (d.table.nodesWhere Mark.isSeed).length } }
  | .search => { d with entered := ∅ }

/-- However the start of a pass ends, what it does to the desk is the same. -/
theorem Pass.desk_start (pass : Pass) (g : Graph N σ) (d : Desk N) (memory : σ) :
    (pass.start g (d, memory)).2.1 = pass.opened d := by
  cases pass with
  | explore =>
    suffices Stays (fun p => p.1 = d) (explore.start g) (d, memory) from this rfl
    refine Stays.ask_bind (J := (· = d)) fun _ => ?_
    refine Stays.atDesk_bind (J := (· = d)) (.of_eq rfl) fun _ _ => ?_
    exact .ite (.of_eq rfl) (.of_eq rfl)
  | reset | reach | eliminate => rfl
  | search => exact snd_ownNode d.ledger.chase.seed { d with entered := ∅ }
  | trace => exact snd_ownNode d.ledger.cycleNode d

end FairCycle
