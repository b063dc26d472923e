/-
# Parents

The exploration notes of every state the state that it was first reached from.  These parents form
a tree over the stored states, whose root is the initial state (`Cluster.ParentTree`), and until
the trace no pass touches them.  The trace writes parents anew; then they lead from the cycle state
once around a cycle (`Cluster.ParentCycle`).

So both chases find their way, and neither path is longer than a chase allows.
-/
import FairCycle.Proofs.Attempts

namespace FairCycle

variable {N σ : Type} [Ord N]

/-! ## 1. Following parents -/

section Parents

variable {g : Graph N σ}

/-- The parent of the state `v` is the stored state `u`, and there is an edge from it to `v`. -/
def Cluster.HasParent (c : Cluster N σ) (p : g.Promise) (reduction : Bool) (v u : N) : Prop :=
  ∃ m k, c.Marks v m ∧ m.parent = some k ∧ c.StoresAt k.worker.toNat k.slot.toNat u ∧
    p.Edge reduction u v

/-- The parents form a tree over the stored states. -/
structure Cluster.ParentTree (c : Cluster N σ) (p : g.Promise) (reduction : Bool) : Prop where
  /-- The initial state is stored, and has no parent. -/
  root : ∃ m, c.Marks g.initial m
  orphan : ∀ {m}, c.Marks g.initial m → m.parent = none
  /-- The parent of any other state is a stored state with an edge to it. -/
  parent : ∀ {v m}, c.Marks v m → v ≠ g.initial → ∃ k u, m.parent = some k ∧
    c.StoresAt k.worker.toNat k.slot.toNat u ∧ p.Edge reduction u v
  /-- Following parents leads to the initial state, and to no state twice. -/
  path : ∀ {v m}, c.Marks v m → ∃ path : List N, path.head? = some v ∧
    path.getLast? = some g.initial ∧ path.IsChain (c.HasParent p reduction) ∧ path.Nodup

/-- Following parents from the state `v` leads back to it, and to no other state twice. -/
def Cluster.ParentCycle (c : Cluster N σ) (p : g.Promise) (reduction : Bool) (v : N) : Prop :=
  ∃ inner, (v :: inner ++ [v]).IsChain (c.HasParent p reduction) ∧ (v :: inner).Nodup

variable {t : Terrain N σ} {T : Nat → Table N} {c c' : Cluster N σ} {u v : N} {m m' : Mark}
  {ok : Mark → Prop} {root : N} {path : List N} {f : Mark → Mark} {i slot : Nat}

theorem Cluster.Shelved.hasParent (hc : c.Shelved t T) {k : Handle} (hm : t.markOf T v = some m)
    (hp : m.parent = some k) (hu : t.handleOf T u = some k) (he : t.Edge u v) :
    c.HasParent t.promise t.reduction v u :=
  ⟨m, k, hc.marks_iff.mpr hm, hp, hc.storesAt_of_handleOf hu, he⟩

/-- A chain of parents, from its end. -/
theorem Climbs.isChain_reverse (hpath : Climbs t ok T root path v) (hc : c.Shelved t T) :
    path.reverse.IsChain (c.HasParent t.promise t.reduction) := by
  induction hpath with
  | root => simp
  | step hne hm hok hp hu he hpath ih =>
    rw [List.reverse_append, List.reverse_singleton, List.singleton_append, List.isChain_cons]
    refine ⟨fun x hx => ?_, ih⟩
    rw [List.head?_reverse, hpath.getLast?] at hx
    obtain rfl := Option.some.inj hx
    exact hc.hasParent hm hp hu he

/-- Whether or not the exploration was complete, the initial state is stored. -/
theorem Explored.initial_mem_held [t.Rooted] {l : Ledger N} {generated : Nat}
    (h : Explored t T l generated) : t.graph.initial ∈ t.held T := by
  cases hfound : l.cycleFound with
  | false =>
    rw [(h.complete hfound).1]
    exact t.initial_mem
  | true =>
    obtain ⟨v, -, hheld, -⟩ := h.witness hfound
    obtain ⟨path, hpath⟩ := h.climbs hheld
    obtain ⟨front, -, hroot⟩ := hpath.exists_of_mem (List.mem_of_mem_head? hpath.head?)
    obtain ⟨m, hm, -⟩ := hroot.exists_mark
    rw [h.parted.mem_held, hm]
    rfl

/-- **After the exploration the parents form a tree**, also if it has stopped early. -/
theorem Explored.parentTree [t.Rooted] {l : Ledger N} {generated : Nat}
    (h : Explored t T l generated) (hc : c.Shelved t T) :
    c.ParentTree t.promise t.reduction := by
  have hheld : ∀ {v m}, c.Marks v m → v ∈ t.held T := fun hm =>
    h.parted.mem_held.mpr (by rw [hc.marks_iff.mp hm]; rfl)
  refine ⟨?_, fun hm => h.root (hc.marks_iff.mp hm), fun {v m} hm hne => ?_, fun {v m} hm => ?_⟩
  · obtain ⟨m, hm⟩ := Option.isSome_iff_exists.mp (h.parted.mem_held.mp h.initial_mem_held)
    exact ⟨m, hc.marks_iff.mpr hm⟩
  · obtain ⟨path, hpath⟩ := h.climbs (hheld hm)
    cases hpath with
    | root => exact absurd rfl hne
    | step _ hm' _ hp hu he hpath =>
      obtain rfl := Option.some.inj (hm'.symm.trans (hc.marks_iff.mp hm))
      exact ⟨_, _, hp, hc.storesAt_of_handleOf hu, he⟩
  · obtain ⟨path, hpath⟩ := h.climbs (hheld hm)
    refine ⟨path.reverse, ?_, ?_, hpath.isChain_reverse hc, ?_⟩
    · rw [List.head?_reverse, hpath.getLast?]
    · rw [List.getLast?_reverse, hpath.head?]
    · exact List.nodup_reverse.mpr (hpath.nodup h.parted)

/-- **After the trace the parents lead around a cycle.** -/
theorem Run.Traced.parentCycle {r : Run N σ} {stamp : Nat} {k : Handle} {desk : Nat → Desk N}
    {cursor : Nat → Nat} (h : r.Traced t stamp v k desk cursor) :
    r.cluster.ParentCycle t.promise t.reduction v := by
  have hc := h.rests.shelved h.parted
  obtain ⟨u, m, parent, hu, hedge, hm, hparent, hhandle⟩ := h.closes
  obtain ⟨path, hpath⟩ := h.climbs hu
  obtain ⟨inner, rfl⟩ : ∃ inner, path = v :: inner := List.head?_eq_some_iff.mp hpath.head?
  have hnodup := hpath.nodup h.parted
  have hchain := hpath.isChain_reverse hc
  rw [List.reverse_cons] at hchain
  refine ⟨inner.reverse, ?_, ?_⟩
  · rw [List.cons_append, List.isChain_cons]
    refine ⟨fun x hx => ?_, hchain⟩
    rw [← List.reverse_cons, List.head?_reverse, hpath.getLast?] at hx
    obtain rfl := Option.some.inj hx
    exact hc.hasParent hm hparent hhandle hedge
  · rw [List.nodup_cons] at hnodup ⊢
    exact ⟨fun hin => hnodup.1 (List.mem_reverse.mp hin), List.nodup_reverse.mpr hnodup.2⟩

/-! ## 2. Parents that stay -/

theorem Cluster.exists_table_of_shown
    (h : c'.tables.map (·.mapMarks f) = c.tables.map (·.mapMarks f)) {table : Table N}
    (ht : c.tables[i]? = some table) :
    ∃ table', c'.tables[i]? = some table' ∧ table'.mapMarks f = table.mapMarks f := by
  have hget := congrArg (·[i]?) h
  simp only [List.getElem?_map, ht, Option.map_some] at hget
  exact Option.map_eq_some_iff.mp hget

theorem Cluster.storesAt_of_shown
    (h : c'.tables.map (·.mapMarks f) = c.tables.map (·.mapMarks f)) (hv : c.StoresAt i slot v) :
    c'.StoresAt i slot v := by
  obtain ⟨table, ht, hslot⟩ := hv
  obtain ⟨table', ht', hsame⟩ := exists_table_of_shown h ht
  have hnodes : table'.nodes = table.nodes := (congrArg Table.nodes hsame :)
  exact ⟨table', ht', by rw [hnodes]; exact hslot⟩

theorem Cluster.marks_of_shown
    (h : c'.tables.map (·.mapMarks f) = c.tables.map (·.mapMarks f)) (hm : c.Marks v m) :
    ∃ m', c'.Marks v m' ∧ f m' = f m := by
  obtain ⟨table, htable, hentry⟩ := hm
  obtain ⟨i, ht⟩ := List.mem_iff_getElem?.mp htable
  obtain ⟨table', ht', hsame⟩ := exists_table_of_shown h ht
  have hmark := congrArg (Table.markOf · v) hsame
  simp only [Table.markOf_mapMarks, Table.mem_entries.mp hentry, Option.map_some] at hmark
  obtain ⟨m', hm', hf⟩ := Option.map_eq_some_iff.mp hmark
  exact ⟨m', ⟨table', List.mem_of_getElem? ht', Table.mem_entries.mpr hm'⟩, hf⟩

/-- Where the same parents are noted there is the same tree. -/
theorem Cluster.ParentTree.transfer {p : g.Promise} {reduction : Bool}
    (h : c.ParentTree p reduction)
    (hsame : c'.tables.map (·.mapMarks Mark.lineage) = c.tables.map (·.mapMarks Mark.lineage)) :
    c'.ParentTree p reduction := by
  have hback : ∀ {v m'}, c'.Marks v m' → ∃ m, c.Marks v m ∧ m.parent = m'.parent := by
    intro v m' hm'
    obtain ⟨m, hm, hf⟩ := marks_of_shown hsame.symm hm'
    exact ⟨m, hm, (congrArg Mark.parent hf :)⟩
  have hforth : ∀ {v u}, c.HasParent p reduction v u → c'.HasParent p reduction v u := by
    rintro v u ⟨m, k, hm, hp, hu, he⟩
    obtain ⟨m', hm', hf⟩ := marks_of_shown hsame hm
    exact ⟨m', k, hm', ((congrArg Mark.parent hf :) : m'.parent = m.parent).trans hp,
      storesAt_of_shown hsame hu, he⟩
  constructor
  · obtain ⟨m, hm⟩ := h.root
    obtain ⟨m', hm', -⟩ := marks_of_shown hsame hm
    exact ⟨m', hm'⟩
  · intro m' hm'
    obtain ⟨m, hm, hp⟩ := hback hm'
    rw [← hp]
    exact h.orphan hm
  · intro v m' hm' hne
    obtain ⟨m, hm, hp⟩ := hback hm'
    obtain ⟨k, u, hk, hu, he⟩ := h.parent hm hne
    exact ⟨k, u, hp ▸ hk, storesAt_of_shown hsame hu, he⟩
  · intro v m' hm'
    obtain ⟨m, hm, -⟩ := hback hm'
    obtain ⟨path, hhead, hlast, hchain, hnodup⟩ := h.path hm
    exact ⟨path, hhead, hlast, hchain.imp fun _ _ => hforth, hnodup⟩

end Parents

/-! ## 3. What takes no turns -/

/-- A computation that does not end for want of turns. -/
def RunM.Prompt {α : Type} (x : RunM N σ α) : Prop := ∀ r, (x r).1 ≠ .error .outOfTurns

theorem RunM.Prompt.bind {α β : Type} {x : RunM N σ α} {f : α → RunM N σ β} (hx : x.Prompt)
    (hf : ∀ a, (f a).Prompt) : (x >>= f).Prompt := by
  intro r
  rcases hrun : x r with ⟨stop | a, r'⟩
  · have hstop := hx r
    rw [hrun] at hstop
    rw [RunM.bind_error hrun]
    exact fun h => hstop (congrArg Except.error (Except.error.inj h))
  · rw [RunM.bind_ok hrun]
    exact hf a r'

theorem Cluster.ringFrom_ne_outOfTurns (errand : Errand) (count i : Nat) (l : Ledger N)
    (c : Cluster N σ) : (c.ringFrom errand count i l).1 ≠ .error .outOfTurns := by
  induction count generalizing i l c with
  | zero => simp [ringFrom]
  | succ count ih =>
    rw [ringFrom]
    rcases c.visit_cases errand l i with ⟨-, hvisit⟩ | ⟨w, -, ⟨l', cursor, log, -, hvisit⟩ | hvisit⟩
    · rw [hvisit]
      exact ih (i + 1) l c
    · rw [hvisit]
      exact ih (i + 1) l' _
    · rw [hvisit]
      simp

/-- **Without supersteps a computation does not run out of turns.** -/
theorem Check.composable_prompt [Std.TransOrd N] [Std.LawfulEqOrd N] (plan : Plan N σ) :
    Composable plan (fun _ => False) fun x => x.Prompt where
  ret _ _ h := by cases h
  fail _ _ h := by cases h
  crash _ h := by cases h
  bind hx hf := hx.bind hf
  read _ hf r := hf r r
  note _ _ h := by cases h
  record _ _ h := by cases h
  demand question := by
    refine .bind (fun r h => by cases h) fun answer => ?_
    cases answer with
    | some a => exact fun r h => by cases h
    | none => exact fun r h => by cases h
  ring errand r := by
    rcases hring : r.cluster.ring errand r.ledger with ⟨stop | l, c⟩
    · have hne := r.cluster.ringFrom_ne_outOfTurns errand r.cluster.workers.size 0 r.ledger
      change (r.cluster.ring errand r.ledger).1 ≠ _ at hne
      rw [hring] at hne
      rw [ring_of_eq hring]
      exact fun h => hne (congrArg Except.error (Except.error.inj h))
    · rw [ring_of_eq hring]
      exact fun h => by cases h
  superstep h := h.elim

section Chains

variable [Std.TransOrd N] [Std.LawfulEqOrd N] {t : Terrain N σ} {T : Nat → Table N} {c : N}
  {r : Run N σ}

/-- **The chase to the initial state ends in time.** -/
theorem Run.Found.stem_eq (plan : Plan N σ) (h : r.Found t T c) :
    ∃ stem r', Check.stem r = (.ok stem, r') ∧ stem.length ≤ r.generated + 2 ∧
      r'.Found t T c := by
  have hmeets : Meets True Check.stem r
      (fun path r' => Climbs t (fun _ => True) T t.graph.initial path c ∧ r'.Found t T c)
      (fun _ _ => False) := meets_stem h
  obtain ⟨stem, hstem, hpath, hfound⟩ :=
    hmeets.answers_self.exists_ok ((Check.composable_prompt plan).stem r)
  refine ⟨stem, _, Prod.ext hstem rfl, ?_, hfound⟩
  have hle := hpath.length_le h.parted fun hm _ => h.parted.mem_held.mpr (by rw [hm]; rfl)
  have hcount := h.counted
  omega

/-- **The chase around the cycle ends in time.** -/
theorem Run.Traced.chain_eq (plan : Plan N σ) {stamp : Nat} {k : Handle} {desk : Nat → Desk N}
    {cursor : Nat → Nat} (h : r.Traced t stamp c k desk cursor) :
    ∃ loop r', Check.chain k k true r = (.ok loop, r') ∧ loop.length ≤ r.generated + 2 := by
  have hmeets : Meets True (Check.chain k k true) r
      (fun states _ => t.Circles c states ∧ states.length ≤ r.generated + 2)
      (fun _ _ => False) := h.meets_chain
  obtain ⟨loop, hloop, -, hle⟩ :=
    hmeets.answers_self.exists_ok ((Check.composable_prompt plan).chain k k true r)
  exact ⟨loop, _, Prod.ext hloop rfl, hle⟩

end Chains

/-! ## 4. Up to the counterexample -/

section Approach

variable [Std.TransOrd N] [Std.LawfulEqOrd N] {plan : Plan N σ} {r : Run N σ}

/-- What follows the exploration, up to where a counterexample is put together: the rounds, the
verdict and, if there is need, the search for a cycle.  Gives the number of rounds, the ledger at
the verdict, and whether there is to be a counterexample. -/
def Check.approach (plan : Plan N σ) : RunM N σ (Nat × Ledger N × Bool) := do
  let n ← rounds plan (← RunM.ledger).size
  let l ← RunM.ledger
  let valid := !l.cycleFound && l.size == 0
  RunM.record (.decided valid n)
  let wanted := !valid && plan.config.counterexample
  if wanted && !l.cycleFound then findCycle plan
  return (n, l, wanted)

/-- The rest of a check: a stem and a loop, if there is to be a counterexample, and the report. -/
def Check.complete [DecidableEq N] (plan : Plan N σ) (stats : Stats) (x : Nat × Ledger N × Bool) :
    RunM N σ (Report N) := do
  let lasso ← if x.2.2 then some <$> build plan else pure none
  finish stats x.1 x.2.1 lasso

theorem Check.conclude_eq [DecidableEq N] (plan : Plan N σ) (stats : Stats) :
    conclude plan stats = approach plan >>= complete plan stats := by
  unfold conclude approach
  simp only [bind_assoc]
  refine congrArg _ (funext fun l₀ => congrArg _ (funext fun n => funext fun r => ?_))
  rw [decide_eq, RunM.ledger_bind, RunM.record_bind]
  cases hwanted : !(!r.ledger.cycleFound && r.ledger.size == 0) && plan.config.counterexample with
  | false => rfl
  | true =>
    have hcomplete (l : Ledger N) : complete plan stats (n, l, true) =
        build plan >>= fun x => finish stats n l (some x) := by
      unfold complete
      rw [if_pos rfl, map_eq_pure_bind, bind_assoc]
      rfl
    rw [if_pos rfl, map_eq_pure_bind, bind_assoc, Bool.true_and]
    change (counterexample plan >>= fun x => finish stats n r.ledger (some x)) _ = _
    have hcounter : counterexample plan = RunM.ledger >>= fun l =>
        if !l.cycleFound then findCycle plan >>= fun _ => build plan else build plan := rfl
    rw [hcounter, bind_assoc, RunM.ledger_bind]
    split
    · simp only [bind_assoc, pure_bind, hcomplete]
    · simp only [pure_bind, hcomplete]

theorem Check.Composable.approach {passes : Pass → Prop} {P : ∀ {α : Type}, RunM N σ α → Prop}
    (hP : Composable plan passes P) (h : passes .reset ∧ passes .reach ∧ passes .eliminate)
    (h' : passes .search) : P (Check.approach plan) := by
  refine hP.bind hP.ledger fun l => hP.bind (hP.rounds h _) fun n => hP.bind hP.ledger fun l' => ?_
  refine hP.bind (hP.record _) fun _ => ?_
  exact Composable.ite (hP.bind (hP.findCycle h') fun _ => hP.ret _) (hP.ret _)

/-- If the exploration has found a cycle, then there is nothing to do before the counterexample. -/
theorem Check.approach_of_found (hfound : r.ledger.cycleFound = true) :
    approach plan r = (.ok (0, r.ledger, plan.config.counterexample),
      { r with cluster := r.cluster.record (.decided false 0) }) := by
  unfold approach
  rw [RunM.ledger_bind, RunM.bind_ok (rounds_eq_of_found _ hfound), RunM.ledger_bind,
    RunM.record_bind]
  simp only [hfound, Bool.not_true, Bool.false_and, Bool.and_false]
  rfl

variable {t : Terrain N σ} {memory : σ} {limit : Nat} {stats : Stats} {r₁ : Run N σ}

/-- **Before the trace no parent changes.** -/
theorem Check.frozen_approach [t.Rooted] (hplan : plan.Covers t)
    (hexplore : explore plan (Run.begin plan.config memory limit) = (.ok stats, r₁)) :
    ∃ H, ∀ left, (approach plan { r₁ with left := left }).2.cluster.Frozen t H Mark.lineage
      (r₁.cluster.tables.map (·.mapMarks Mark.lineage)) := by
  have hend : (explore plan (Run.begin plan.config memory limit)).2 = r₁ :=
    congrArg Prod.snd hexplore
  cases hfound : r₁.ledger.cycleFound with
  | true =>
    have hcustody : r₁.cluster.Custody t (fun _ => False) := hend ▸ custody_explored hplan
    refine ⟨fun _ => False, fun left => ?_⟩
    rw [approach_of_found (r := { r₁ with left := left }) hfound]
    exact ⟨⟨hcustody.size, hcustody.worker, hcustody.letters⟩, rfl⟩
  | false =>
    obtain ⟨desk, hrests, hexp⟩ := explored_of_explore hplan hexplore
    have hlasting : Cluster.Lasting plan (fun pass => pass ≠ .explore ∧ pass ≠ .trace)
        (Cluster.Frozen t (· ∈ t.states) Mark.lineage
          (r₁.cluster.tables.map (·.mapMarks Mark.lineage))) :=
      Cluster.frozen_lasting hplan
        (fun hpass => ⟨fun _ => Iff.rfl, Pass.tends_lineage t.graph hpass.1 hpass.2⟩) _
    refine ⟨_, fun left => hlasting.composable.approach ?_ ?_ _ ?_⟩
    · decide
    · decide
    · exact ⟨hexp.custody hplan hend hrests hfound, rfl⟩

variable [DecidableEq N]

/-- **If there is to be a counterexample, then a state on a cycle is known.** -/
theorem Check.found_of_approach [t.Rooted] (hplan : plan.Covers t)
    (hexplore : explore plan (Run.begin plan.config memory limit) = (.ok stats, r₁))
    {left n : Nat} {l : Ledger N} {r₂ : Run N σ}
    (h : approach plan { r₁ with left := left } = (.ok (n, l, true), r₂)) :
    ∃ T c, r₂.Found t T c := by
  cases hfound : r₁.ledger.cycleFound with
  | true =>
    obtain ⟨desk, hrests, hexp⟩ := explored_of_explore hplan hexplore
    obtain ⟨c, hc⟩ := hexp.exists_found hrests hfound
    rw [approach_of_found (r := { r₁ with left := left }) hfound] at h
    obtain ⟨-, rfl⟩ := Prod.mk.inj h
    exact ⟨_, c, hc.record _ left⟩
  | false =>
    unfold approach at h
    rw [RunM.ledger_bind] at h
    obtain ⟨n', r', hrounds, h⟩ := exists_of_bind_eq_ok h
    obtain ⟨name, T, hdecided, -⟩ := decided_of_rounds hplan hexplore hfound hrounds
    rw [RunM.ledger_bind, RunM.record_bind] at h
    simp only [hdecided.between.found, Bool.not_false, Bool.true_and, Bool.and_true] at h
    split at h
    · rename_i hwanted
      have hsize : r'.ledger.size ≠ 0 := fun hzero => by simp [hzero] at hwanted
      obtain ⟨⟨⟩, r'', hsearch, h⟩ := exists_of_bind_eq_ok h
      obtain ⟨-, rfl⟩ := Prod.mk.inj h
      have hanswers := (meets_findCycle hplan (hdecided.record (.decided (r'.ledger.size == 0) n')
        r'.left) hsize).answers_self
      rw [hsearch] at hanswers
      obtain ⟨c, hc⟩ := hanswers
      exact ⟨T, c, hc⟩
    · rename_i hnot
      have hwanted := congrArg (·.2.2) (Except.ok.inj (Prod.mk.inj h).1)
      exact absurd hwanted hnot

end Approach

/-! ## 5. The parents of a check -/

section Check

variable [Std.TransOrd N] [Std.LawfulEqOrd N] [DecidableEq N]

/-- **Parents, from the end of the exploration on.**  Until the trace begins they form a tree over
the stored states, with the initial state as its root, and this at every moment and also if the
exploration was stopped early.  After a trace they lead from the cycle state, which lies on a cycle,
once around a cycle and back.  Neither of the two chases fails, and what they collect is never
longer than they allow. -/
theorem parents_lead {g : Graph N σ} (p : g.Promise) {config : Config}
    (hworkers : config.workers ≤ 2 ^ 32)
    (hfew : (p.reachable config.reduction).encard < 2 ^ 32 - 1) {turns : Nat → Turn}
    {limit : Nat} {memory : σ} {stats : Stats} {r₁ : Run N σ}
    (hexplore : Check.explore ⟨g, config, turns⟩ (Run.begin config memory limit) =
      (.ok stats, r₁)) :
    Check.conclude ⟨g, config, turns⟩ stats =
      Check.approach ⟨g, config, turns⟩ >>= Check.complete ⟨g, config, turns⟩ stats ∧
    r₁.cluster.ParentTree p config.reduction ∧
    (∀ left, (Check.approach ⟨g, config, turns⟩
      { r₁ with left := left }).2.cluster.ParentTree p config.reduction) ∧
    ∀ left n l r₂,
      Check.approach ⟨g, config, turns⟩ { r₁ with left := left } = (.ok (n, l, true), r₂) →
      ∃ stem r₃ k c, Check.stem r₂ = (.ok stem, r₃) ∧ stem.length ≤ r₂.generated + 2 ∧
        r₃.cluster.ParentTree p config.reduction ∧ r₃.ledger.cycleNode = some k ∧
        r₃.cluster.StoresAt k.worker.toNat k.slot.toNat c ∧ p.OnCycle config.reduction c ∧
        ∀ left result r₄, Check.superstep ⟨g, config, turns⟩ .trace
            { r₃ with
              ledger := { r₃.ledger with round := r₃.ledger.round + 1 }
              left := left } = (result, r₄) →
          result = .error .outOfTurns ∨
          result = .ok () ∧ r₄.cluster.ParentCycle p config.reduction c ∧
            ∃ loop r₅, Check.chain k k true r₄ = (.ok loop, r₅) ∧
              loop.length ≤ r₄.generated + 2 := by
  let t := p.terrain config hworkers hfew
  have hplan : (⟨g, config, turns⟩ : Plan N σ).Covers t := ⟨rfl, rfl, rfl⟩
  obtain ⟨desk, hrests, hexp⟩ := Check.explored_of_explore hplan hexplore
  have htree : r₁.cluster.ParentTree p config.reduction :=
    hexp.parentTree (hrests.shelved hexp.parted)
  obtain ⟨H, hfrozen⟩ := Check.frozen_approach hplan hexplore
  refine ⟨Check.conclude_eq _ stats, htree, fun left => htree.transfer (hfrozen left).shows,
    fun left n l r₂ happroach => ?_⟩
  obtain ⟨T, c, hfound⟩ := Check.found_of_approach hplan hexplore happroach
  obtain ⟨stem, r₃, hstem, hlength, hfound₃⟩ := hfound.stem_eq ⟨g, config, turns⟩
  obtain ⟨k, hk⟩ := hfound₃.exists_handle
  refine ⟨stem, r₃, k, c, hstem, hlength, ?_, hfound₃.node.trans hk, ?_, hfound₃.onCycle,
    fun left result r₄ htrace => ?_⟩
  · have hlasting : Cluster.Lasting ⟨g, config, turns⟩ (fun _ => False)
        (Cluster.Frozen t H Mark.lineage (r₁.cluster.tables.map (·.mapMarks Mark.lineage))) :=
      Cluster.frozen_lasting hplan (fun h => h.elim) _
    have hfrozen₂ := hfrozen left
    rw [happroach] at hfrozen₂
    have hfrozen₃ := hlasting.composable.stem r₂ hfrozen₂
    rw [hstem] at hfrozen₃
    exact htree.transfer hfrozen₃.shows
  · obtain ⟨desk₃, cursor, hrests₃, rfl⟩ := hfound₃.rests
    exact (hrests₃.shelved hfound₃.parted).storesAt_of_handleOf hk
  · by_cases hturns : result = .error .outOfTurns
    · exact .inl hturns
    have hanswers := (hfound₃.meets_trace hplan hk left).answers_self
    rw [htrace] at hanswers
    obtain ⟨⟨⟩, hok, stamp, desk₄, cursor, htraced⟩ := hanswers.exists_ok hturns
    exact .inr ⟨hok, htraced.parentCycle, htraced.chain_eq ⟨g, config, turns⟩⟩

/-- A single worker stops its exploration of the small graph early; the parents that it has noted
lead to the initial state, and those that the trace notes lead around the cycle. -/
theorem parents_lead_pendant :
    ∃ r₁ l r₂ r₃ r₄ c,
      Check.explore ⟨pendant 1, { workers := 1 }, Turn.roundRobin⟩
        (Run.begin { workers := 1 } () 300) = (.ok ⟨3, 3, 1, 0, []⟩, r₁) ∧
      r₁.ledger.cycleFound = true ∧
      Check.approach ⟨pendant 1, { workers := 1 }, Turn.roundRobin⟩
        { r₁ with left := 300 } = (.ok (0, l, true), r₂) ∧
      Check.stem r₂ = (.ok [0, 1], r₃) ∧
      r₃.cluster.ParentTree (pendantPromise 1) false ∧
      Check.superstep ⟨pendant 1, { workers := 1 }, Turn.roundRobin⟩ .trace
        { r₃ with ledger := { r₃.ledger with round := r₃.ledger.round + 1 }, left := 300 } =
          (.ok (), r₄) ∧
      (pendantPromise 1).OnCycle false c ∧ r₄.cluster.ParentCycle (pendantPromise 1) false c := by
  have hexplore : (Check.explore ⟨pendant 1, { workers := 1 }, Turn.roundRobin⟩
      (Run.begin { workers := 1 } () 300)).1 = .ok ⟨3, 3, 1, 0, []⟩ := by decide +kernel
  generalize hr₁ : (Check.explore ⟨pendant 1, { workers := 1 }, Turn.roundRobin⟩
    (Run.begin { workers := 1 } () 300)).2 = r₁
  have hfound : r₁.ledger.cycleFound = true := by
    subst hr₁
    decide +kernel
  have happroach : Check.approach ⟨pendant 1, { workers := 1 }, Turn.roundRobin⟩
      { r₁ with left := 300 } = (.ok (0, r₁.ledger, true),
        { r₁ with cluster := r₁.cluster.record (.decided false 0), left := 300 }) :=
    Check.approach_of_found hfound
  obtain ⟨-, -, -, hlead⟩ := parents_lead (pendantPromise 1) (by decide) (encard_lt_of_three _)
    (Prod.ext hexplore hr₁)
  obtain ⟨stem, r₃, k, c, hstem, -, htree, -, -, hon, htrace⟩ := hlead 300 _ _ _ happroach
  have hr₃ : (Check.stem { r₁ with
      cluster := r₁.cluster.record (.decided false 0), left := 300 }).2 = r₃ :=
    congrArg Prod.snd hstem
  have hstates : (Check.stem { r₁ with
      cluster := r₁.cluster.record (.decided false 0), left := 300 }).1 = .ok [0, 1] := by
    subst hr₁
    decide +kernel
  have hstep : (Check.superstep ⟨pendant 1, { workers := 1 }, Turn.roundRobin⟩ .trace
      { r₃ with
        ledger := { r₃.ledger with round := r₃.ledger.round + 1 }
        left := 300 }).1 = .ok () := by
    subst hr₃ hr₁
    decide +kernel
  rcases htrace 300 _ _ (Prod.ext hstep rfl) with hturns | ⟨-, hcycle, -⟩
  · exact absurd hturns (by simp)
  · exact ⟨r₁, _, _, _, _, c, Prod.ext hexplore hr₁, hfound, happroach, Prod.ext hstates hr₃, htree,
      Prod.ext hstep rfl, hon, hcycle⟩

end Check

end FairCycle
