/-
# The search for a cycle

A search starts from one accepting candidate and goes through candidates only, entering each once,
until it comes back to where it started.  Since the candidates are closed under edges, the search
comes back exactly when its seed lies on a cycle (`meets_search_pass`).  Searches from one
accepting candidate after the other find a cycle in the end, as there is an accepting candidate on
one.

A search writes nothing into the tables.  `Searching` is what the handling of an edge keeps; its
ghost `X` is the set of states that were entered.
-/
import FairCycle.Proofs.Frontier
import FairCycle.Proofs.Pick
import FairCycle.Proofs.Rounds

namespace FairCycle

open Desk StepM

variable {N σ : Type} [Ord N]

/-! ## 1. What a search keeps -/

section Searching

variable [DecidableEq N]

/-- What the handling of an edge keeps in a search from the state `c`, whose handle is `k`; the
states of `X` have been entered. -/
structure Searching (t : Terrain N σ) (l : Ledger N) (T : Nat → Table N) (c : N) (k : Handle)
    (X : Finset N) (s : Scene N) : Prop where
  tables : s.tables = T
  /-- The ledgers change only to say that the search is back at its seed. -/
  ledger : ∀ i, (s.desk i).ledger.share = l ∨
    (s.desk i).ledger.share = l.recordCycle k ∧ t.OnCycle c
  entered : ∀ {v}, v ∈ t.states →
    (s.desk (t.home v)).entered.contains (t.slotOf T v) = decide (v ∈ X)
  within : ∀ {v}, v ∈ X → v ∈ t.candidates T ∧ t.Reaches c v
  /-- The search goes on through candidates; an edge to the seed ends it. -/
  frontier : s.Frontier t c (t.handleOf T) (fun v => v ∈ t.candidates T → v ∈ X ∧ v ≠ c) X
  halted : ∀ {i}, s.halted i = true → (s.desk i).ledger.share = l.recordCycle k ∧ c ∈ X
  good : ∀ i, s.fault i = none

namespace Searching

variable {t : Terrain N σ} {l : Ledger N} {T : Nat → Table N} {c : N} {k : Handle} {X : Finset N}
  {s : Scene N} {e : Edge N} {v : N} {rest : Multiset (Edge N)} {h : Handle}

/-- Looking at an edge and doing nothing. -/
theorem forget (hs : Searching t l T c k X s) (hp : s.pending = e ::ₘ rest)
    (hsource : e.source ≠ none)
    (hv : e.target ∈ t.candidates T → e.target ∈ X ∧ e.target ≠ c) :
    Searching t l T c k X
      (s.handled (t.home e.target) rest (.ok .next) (s.desk (t.home e.target))) := by
  have hmem : e ∈ s.pending := by rw [hp]; exact Multiset.mem_cons_self ..
  refine
    { tables := Scene.tables_handled_same.trans hs.tables
      ledger := fun i => by rw [Scene.desk_handled_same]; exact hs.ledger i
      entered := fun hu => by rw [Scene.desk_handled_same]; exact hs.entered hu
      within := hs.within
      frontier := ?_
      halted := fun {i} hi => ?_
      good := fun i => by rw [Scene.fault_handled]; exact hs.good i }
  · refine hs.frontier.shrink hp (hs.frontier.mem_root hmem hsource) (add_zero rest)
      (Scene.total_handled_same _) (fun hi => ?_) (fun h => h) (fun h => h) (.inl hv)
    rw [Scene.halted_handled rfl]
    exact hi
  · rw [Scene.halted_handled rfl] at hi
    rw [Scene.desk_handled_same]
    exact hs.halted hi

/-- The search is back at its seed. -/
theorem close (hs : Searching t l T c k X s) {source : Handle}
    (hp : s.pending = ⟨some source, c⟩ ::ₘ rest) :
    Searching t l T c k X (s.handled (t.home c) rest (.ok .halt)
      { s.desk (t.home c) with ledger := (s.desk (t.home c)).ledger.recordCycle k }) := by
  have hmem : (⟨some source, c⟩ : Edge N) ∈ s.pending := by rw [hp]; exact Multiset.mem_cons_self ..
  obtain ⟨u, hu, -, hedge⟩ := hs.frontier.edges hmem rfl
  have hcycle : t.OnCycle c := (hs.within hu).2.precedes_of_edge hedge
  have hin : c ∈ X := hs.frontier.mem_root hmem nofun
  generalize hd : ({ s.desk (t.home c) with
    ledger := (s.desk (t.home c)).ledger.recordCycle k } : Desk N) = d
  have hrecord : d.ledger.share = l.recordCycle k := by
    have hshare : d.ledger.share = (s.desk (t.home c)).ledger.share.recordCycle k := by
      rw [← hd]
      rfl
    rcases hs.ledger (t.home c) with h | ⟨h, -⟩
    · rw [hshare, h]
    · rw [hshare, h]
      rfl
  refine
    { tables := ?_
      ledger := fun i => ?_
      entered := fun {v} hv => ?_
      within := hs.within
      frontier := ?_
      halted := fun {i} hi => ?_
      good := fun i => by rw [Scene.fault_handled]; exact hs.good i }
  · rw [Scene.tables_handled, ← hs.tables, ← hd]
    exact Function.update_eq_self _ _
  · rcases eq_or_ne i (t.home c) with rfl | hne
    · rw [Scene.desk_handled_self]
      exact .inr ⟨hrecord, hcycle⟩
    · rw [Scene.desk_handled_ne hne]
      exact hs.ledger i
  · rw [← hs.entered hv]
    rcases eq_or_ne (t.home v) (t.home c) with heq | hne
    · rw [heq, Scene.desk_handled_self, ← hd]
    · rw [Scene.desk_handled_ne hne]
  · refine hs.frontier.shrink hp hin (add_zero rest) ?_ Scene.halted_of_halted (fun h => h)
      (fun h => h) (.inr (by simp [Scene.handled, Scene.halts]))
    exact Scene.total_handled_of_eq (t.home_lt c) (by rw [← hd]; rfl)
  · rcases eq_or_ne i (t.home c) with rfl | hne
    · rw [Scene.desk_handled_self]
      exact ⟨hrecord, hin⟩
    · rw [Scene.halted_handled_ne hne] at hi
      rw [Scene.desk_handled_ne hne]
      exact hs.halted hi

/-- A candidate is entered and expanded. -/
theorem enter (hs : Searching t l T c k X s) (hp : s.pending = e ::ₘ rest)
    {name : N → Option Handle} (hT : t.Known name T) (hv : e.target ∈ t.candidates T)
    (hreach : t.Reaches c e.target) (hX : e.target ∉ X) (hh : name e.target = some h)
    (hfirst : e.target ≠ c ∨ X = ∅) :
    Searching t l T c k (insert e.target X)
      (s.handled (t.home e.target) rest (.ok (.expand h (t.targets e.target)))
        { s.desk (t.home e.target) with
          entered := (s.desk (t.home e.target)).entered.insert h.slot.toNat
          ledger := (s.desk (t.home e.target)).ledger.expanded (t.targets e.target).length }) := by
  generalize hd : ({ s.desk (t.home e.target) with
    entered := (s.desk (t.home e.target)).entered.insert h.slot.toNat
    ledger := (s.desk (t.home e.target)).ledger.expanded (t.targets e.target).length } : Desk N) = d
  have hhandle : t.handleOf T e.target = some h := (hT.names _).trans hh
  have hshare : d.ledger.share = (s.desk (t.home e.target)).ledger.share := by
    rw [← hd]
    rfl
  have hdesk : ∀ i,
      ((s.handled (t.home e.target) rest (.ok (.expand h (t.targets e.target)))
        d).desk i).ledger.share = (s.desk i).ledger.share := by
    intro i
    rcases eq_or_ne i (t.home e.target) with rfl | hne
    · rw [Scene.desk_handled_self, hshare]
    · rw [Scene.desk_handled_ne hne]
  refine
    { tables := ?_
      ledger := fun i => by rw [hdesk]; exact hs.ledger i
      entered := fun {v} hv => ?_
      within := fun {v} hv' => ?_
      frontier := ?_
      halted := fun {i} hi => ?_
      good := fun i => by rw [Scene.fault_handled]; exact hs.good i }
  · rw [Scene.tables_handled, ← hs.tables, ← hd]
    exact Function.update_eq_self _ _
  · have hold := hs.entered hv
    rcases eq_or_ne (t.home v) (t.home e.target) with heq | hne
    · rw [heq, Scene.desk_handled_self, ← hd, Std.TreeSet.contains_insert, ← heq, hold]
      rcases eq_or_ne v e.target with rfl | hne
      · rw [Terrain.slotOf_eq hhandle, Nat.compare_eq_eq.mpr rfl]
        simp
      · have hslot : h.slot.toNat ≠ t.slotOf T v := by
          intro hslot
          obtain ⟨h', hh'⟩ := hT.exists_name hv
          exact hne (hT.parted.slotOf_inj ((hT.names v).trans hh') hhandle heq
            (hslot.symm.trans (Terrain.slotOf_eq hhandle).symm))
        have hcmp : (compare h.slot.toNat (t.slotOf T v) == .eq) = false := by
          simpa [Nat.compare_eq_eq] using hslot
        rw [hcmp, Bool.false_or]
        simp [hne]
    · have hvne : v ≠ e.target := fun hv' => hne (by rw [hv'])
      rw [Scene.desk_handled_ne hne, hold]
      simp [hvne]
  · rcases Finset.mem_insert.mp hv' with rfl | hX'
    · exact ⟨hv, hreach⟩
    · exact hs.within hX'
  · refine hs.frontier.grow hp hX rfl ?_ (Scene.halted_handled rfl) (fun h => h) hhandle
      (fun hold hw => ?_) (hfirst.imp_left fun hne _ => ⟨Finset.mem_insert_self .., hne⟩)
    · obtain ⟨others, hgen, hgen'⟩ := Scene.exists_total_handled s rest
        (.ok (.expand h (t.targets e.target))) d (·.transitions) (t.home_lt e.target)
      rw [Scene.generated, Scene.generated, hgen, hgen', ← hd]
      exact Nat.add_right_comm ..
    · exact (hold hw).imp_left (Finset.mem_insert_of_mem ·)
  · rw [Scene.halted_handled rfl] at hi
    rw [hdesk]
    exact (hs.halted hi).imp_right (Finset.mem_insert_of_mem ·)

end Searching

end Searching

/-! ## 2. Handling an edge -/

section Rule

variable {d : Desk N} {h : Handle} {m : Mark}

theorem searchEdge_seed (fresh : Bool) (hnew : d.entered.contains h.slot.toNat = false) :
    (searchEdge none h fresh : DeskM N Action) d =
      (.ok .expand, { d with entered := d.entered.insert h.slot.toNat }) := by
  rw [searchEdge, DeskM.bind_ok (enter_of_new hnew)]
  rfl

/-- The search comes back to its seed. -/
theorem searchEdge_back (source : Handle) (fresh : Bool) (hseed : d.ledger.chase.seed = some h) :
    (searchEdge (some source) h fresh : DeskM N Action) d =
      (.ok .terminate, { d with ledger := d.ledger.recordCycle h }) := by
  rw [searchEdge, DeskM.get_bind, if_pos hseed]
  rfl

/-- What is no candidate is left alone. -/
theorem searchEdge_outside (source : Handle) (hseed : d.ledger.chase.seed ≠ some h)
    (hm : d.table.mark? h = some m) (hin : m.fields.inS = false) :
    (searchEdge (some source) h false : DeskM N Action) d = (.ok .forget, d) := by
  rw [searchEdge, DeskM.get_bind, if_neg hseed, if_neg (by decide), DeskM.bind_ok (mark_eq hm),
    Mark.inS_eq, hin]
  rfl

theorem searchEdge_entered (source : Handle) (hseed : d.ledger.chase.seed ≠ some h)
    (hm : d.table.mark? h = some m) (hold : d.entered.contains h.slot.toNat = true) :
    (searchEdge (some source) h false : DeskM N Action) d = (.ok .forget, d) := by
  rw [searchEdge, DeskM.get_bind, if_neg hseed, if_neg (by decide), DeskM.bind_ok (mark_eq hm)]
  cases m.inS with
  | true =>
    rw [if_neg (by decide), DeskM.bind_ok (enter_of_entered hold)]
    rfl
  | false => rfl

theorem searchEdge_enter (source : Handle) (hseed : d.ledger.chase.seed ≠ some h)
    (hm : d.table.mark? h = some m) (hin : m.fields.inS = true)
    (hnew : d.entered.contains h.slot.toNat = false) :
    (searchEdge (some source) h false : DeskM N Action) d =
      (.ok .expand, { d with entered := d.entered.insert h.slot.toNat }) := by
  rw [searchEdge, DeskM.get_bind, if_neg hseed, if_neg (by decide), DeskM.bind_ok (mark_eq hm),
    Mark.inS_eq, hin, if_neg (by decide), DeskM.bind_ok (enter_of_new hnew)]
  rfl

end Rule

namespace Searching

variable [DecidableEq N] [Std.TransOrd N] [Std.LawfulEqOrd N] {t : Terrain N σ}
  {name : N → Option Handle} {l : Ledger N} {T : Nat → Table N} {c : N} {k : Handle}
  {X : Finset N} {s : Scene N} {v : N} {rest : Multiset (Edge N)}

/-- The seed is entered first. -/
theorem handles_seed (hs : Searching t l T c k X s) (hT : t.Known name T) (hk : name c = some k)
    (hc : c ∈ t.candidates T) (hp : s.pending = ⟨none, v⟩ ::ₘ rest) :
    s.Handles t .search (fun s => ∃ X, Searching t l T c k X s) ⟨none, v⟩ rest := by
  obtain ⟨-, hX, heq⟩ :=
    hs.frontier.eq_seed (e := ⟨none, v⟩) (by rw [hp]; exact Multiset.mem_cons_self ..) rfl
  obtain rfl : c = v := (congrArg Edge.target heq).symm
  have hhandle : t.handleOf T c = some k := (hT.names c).trans hk
  have hstates := Terrain.candidates_subset hc
  have hst := hT.parted.store_known (d := s.desk (t.home c)) (by rw [← hs.tables]; rfl) hhandle
  have hnew : (s.desk (t.home c)).entered.contains k.slot.toNat = false := by
    rw [← Terrain.slotOf_eq hhandle, hs.entered hstates, hX]
    simp
  have hnode : (s.desk (t.home c)).table.node? k = some c := by
    change (s.tables (t.home c)).node? k = some c
    rw [hs.tables]
    exact hT.parted.node?_eq hhandle
  have hx := yields_expand_plain (t := t) (d := { s.desk (t.home c) with
    entered := (s.desk (t.home c)).entered.insert k.slot.toNat }) .search hstates rfl hnode
  refine ⟨_, _, yields_expand hst (searchEdge_seed false hnew) hx, trivial, ?_, insert c X, ?_⟩
  · rw [length_newEdges]
    rfl
  · refine hs.enter (e := ⟨none, c⟩) hp hT hc Relation.ReflTransGen.refl ?_ hk (.inr hX)
    rw [hX]
    exact Finset.notMem_empty c

/-- An edge leads back to the seed, out of the candidates, or to a candidate. -/
theorem handles_edge [t.Rooted] (hs : Searching t l T c k X s) (hT : t.Known name T)
    (hk : name c = some k) (hseed : l.chase.seed = some k) {source : Handle}
    (hp : s.pending = ⟨some source, v⟩ ::ₘ rest) :
    s.Handles t .search (fun s => ∃ X, Searching t l T c k X s) ⟨some source, v⟩ rest := by
  obtain ⟨u, hu, -, hedge⟩ :=
    hs.frontier.edges (by rw [hp]; exact Multiset.mem_cons_self ..) rfl
  obtain ⟨hcand, hreach⟩ := hs.within hu
  have hstates : v ∈ t.states :=
    Terrain.mem_states_of_edge (Terrain.candidates_subset hcand) hedge
  obtain ⟨m, hm, hfields⟩ := hT.exists_mark hstates
  obtain ⟨h, hh⟩ := hT.exists_name hstates
  have hhandle : t.handleOf T v = some h := (hT.names v).trans hh
  have htable : (s.desk (t.home v)).table = T (t.home v) := by
    rw [← hs.tables]
    rfl
  have hst := hT.parted.store_known (d := s.desk (t.home v)) htable hhandle
  have hmark? : (s.desk (t.home v)).table.mark? h = some m := by
    rw [htable]
    exact (hT.parted.mark?_eq hhandle).trans hm
  have hledger : (s.desk (t.home v)).ledger.chase.seed = some k := by
    rcases hs.ledger (t.home v) with hl | ⟨hl, -⟩
    · rw [← hseed, ← hl]
      rfl
    · change (s.desk (t.home v)).ledger.share.chase.seed = _
      rw [hl]
      exact hseed
  by_cases hv : v = c
  · obtain rfl := hv
    obtain rfl : h = k := Option.some.inj (hh.symm.trans hk)
    exact ⟨_, _, yields_halt hst (searchEdge_back source false hledger), trivial, rfl, X,
      hs.close hp⟩
  have hne : (s.desk (t.home v)).ledger.chase.seed ≠ some h := by
    rw [hledger]
    intro heq
    exact hv (hT.name_inj hh (hk.trans heq))
  by_cases hin : v ∈ t.candidates T
  · have hinS : m.fields.inS = true := by
      rw [← hfields]
      exact (Terrain.mem_candidates.mp hin).2
    have hcontains := hs.entered hstates
    rw [Terrain.slotOf_eq hhandle] at hcontains
    by_cases hX : v ∈ X
    · rw [decide_eq_true hX] at hcontains
      exact ⟨_, _, yields_forget hst (searchEdge_entered source hne hmark? hcontains), trivial, rfl,
        X, hs.forget (e := ⟨some source, v⟩) hp nofun fun _ => ⟨hX, hv⟩⟩
    · rw [decide_eq_false hX] at hcontains
      have hnode : (s.desk (t.home v)).table.node? h = some v := by
        rw [htable]
        exact hT.parted.node?_eq hhandle
      have hx := yields_expand_plain (t := t) (d := { s.desk (t.home v) with
        entered := (s.desk (t.home v)).entered.insert h.slot.toNat }) .search hstates rfl hnode
      refine ⟨_, _, yields_expand hst (searchEdge_enter source hne hmark? hinS hcontains) hx,
        trivial, ?_, insert v X, ?_⟩
      · rw [length_newEdges]
        rfl
      · exact hs.enter (e := ⟨some source, v⟩) hp hT hin (hreach.tail hedge) hX hh (.inl hv)
  · have hinS : m.fields.inS = false := by
      rw [← hfields, ← Bool.not_eq_true]
      exact fun h => hin (Terrain.mem_candidates.mpr ⟨hstates, h⟩)
    exact ⟨_, _, yields_forget hst (searchEdge_outside source hne hmark? hinS), trivial, rfl, X,
      hs.forget (e := ⟨some source, v⟩) hp nofun fun h => absurd h hin⟩

/-- **Handling an edge keeps the invariant of a search.** -/
theorem keeps [t.Rooted] (hT : t.Known name T) (hk : name c = some k) (hc : c ∈ t.candidates T)
    (hseed : l.chase.seed = some k) :
    Scene.Keeps t .search t.edgeCount (fun s => ∃ X, Searching t l T c k X s) where
  peers := fun ⟨_, hs⟩ i hi => by
    rw [show (Scene.desk _ i).table = T i by rw [← hs.tables]; rfl]
    exact hT.parted.peers i hi
  bound := fun ⟨_, hs⟩ =>
    hs.frontier.generated_le fun _ hv => Terrain.candidates_subset (hs.within hv).1
  step {_ s e rest} hs hp _ := by
    obtain ⟨X, hs⟩ := hs
    obtain ⟨source, v⟩ := e
    cases source with
    | none => exact hs.handles_seed hT hk hc hp
    | some source => exact hs.handles_edge hT hk hseed hp
  drop {_ s e rest} hs hp hh := by
    obtain ⟨X, hs⟩ := hs
    -- a worker halts only once the seed was entered
    exact ⟨X, { hs with frontier := hs.frontier.drop hp (hs.halted hh).2 hh }⟩
  stop {_ s i j} hs hf := by
    obtain ⟨X, hs⟩ := hs
    rw [hs.good j] at hf
    exact nomatch hf

end Searching

/-! ## 3. One search -/

section Search

variable {t : Terrain N σ} {name : N → Option Handle} {l : Ledger N} {T : Nat → Table N} {c : N}
  {k : Handle}

/-- A pass that starts from one stored state starts at its home. -/
theorem ownNode_eq (hT : t.Parted T) (hc : t.handleOf T c = some k) {i : Nat} (hi : i < t.peers)
    {d : Desk N} (hd : d.table = T i) :
    (ownNode (some k) : DeskM N (List N)) d = (.ok (t.seedAt c i), d) := by
  have hworker := hT.handle_worker hc
  rw [ownNode, DeskM.get_bind, hd, hT.worker i hi, hworker, Terrain.seedAt]
  by_cases hhome : t.home c = i
  · obtain rfl := hhome
    rw [if_pos rfl, if_pos rfl, DeskM.bind_ok (node_eq (hd ▸ hT.node?_eq hc))]
    rfl
  · rw [if_neg hhome, if_neg hhome]
    rfl

variable [DecidableEq N]

theorem Searching.start_of_known {o : Opening N} (htables : (o.scene t.peers).tables = T)
    (hseeds : o.seeds = t.seedAt c) (hledger : ∀ i, (o.desk i).ledger = l) (hl : l.share = l)
    (hentered : ∀ i, (o.desk i).entered = ∅) : Searching t l T c k ∅ (o.scene t.peers) := by
  refine
    { tables := htables
      ledger := fun i => .inl ?_
      entered := fun {v} _ => ?_
      within := fun hv => absurd hv (Finset.notMem_empty _)
      frontier := .start (Opening.pending_seedAt hseeds) ?_
      halted := nofun
      good := fun _ => rfl }
  · change (o.desk i).ledger.share = l
    rw [hledger, hl]
  · change (o.desk (t.home v)).entered.contains _ = _
    rw [hentered]
    simp
  · rw [Scene.generated, Scene.total]
    refine Finset.sum_eq_zero fun i _ => ?_
    change (o.desk i).ledger.transitions = 0
    rw [hledger, ← hl]
    rfl

/-- A search that does not come back has gone through everything behind its seed. -/
theorem Searching.not_onCycle {X : Finset N} {s : Scene N} (hs : Searching t l T c k X s)
    (hdone : s.pending = 0)
    (hclosed : ∀ {u v}, u ∈ t.candidates T → t.Edge u v → v ∈ t.candidates T)
    (hl : l.cycleFound = false) (hnone : ∀ i < t.peers, (s.desk i).ledger.share = l) :
    ¬t.OnCycle c := by
  have hhalted : ∀ i < t.peers, s.halted i ≠ true := by
    intro i hi hhalt
    have hrecord := (hs.halted hhalt).1
    rw [hnone i hi] at hrecord
    rw [hrecord] at hl
    exact nomatch hl
  obtain ⟨hin, hsettled⟩ := hs.frontier.settled_of_done hdone
  -- every edge from a state that was entered leads to one that was entered, and not to the seed
  have hnext : ∀ {u v}, u ∈ X → t.Edge u v → v ∈ X ∧ v ≠ c := by
    intro u v hu hedge
    rcases hsettled hu hedge with hX | hhalt
    · exact hX (hclosed (hs.within hu).1 hedge)
    · exact absurd hhalt (hhalted _ (t.home_lt v))
  intro hcycle
  obtain ⟨u, hreach, hedge⟩ := Relation.TransGen.tail'_iff.mp hcycle
  have hu : u ∈ X := by
    clear hedge
    induction hreach with
    | refl => exact hin
    | tail _ hedge ih => exact (hnext ih hedge).1
  exact (hnext hu hedge).2 rfl

variable [Std.TransOrd N] [Std.LawfulEqOrd N] {plan : Plan N σ} {desk : Nat → Desk N}
  {cursor : Nat → Nat} {r : Run N σ}

/-- **One search finds out whether its seed lies on a cycle.** -/
theorem meets_search_pass [t.Rooted] (hplan : plan.Covers t) (hr : r.cluster.Rests t desk cursor)
    (hT : t.Known name fun i => (desk i).table) (hk : name c = some k)
    (hc : c ∈ t.candidates fun i => (desk i).table)
    (hclosed : ∀ {u v}, u ∈ t.candidates (fun i => (desk i).table) → t.Edge u v →
      v ∈ t.candidates fun i => (desk i).table)
    (hseed : r.ledger.chase.seed = some k) (hfound : r.ledger.cycleFound = false)
    (hnode : r.ledger.cycleNode = none) :
    Meets plan.Fair (Check.superstep plan .search) r
      (fun _ r' => r.generated ≤ r'.generated ∧
        (∃ desk', r'.cluster.Rests t desk' cursor ∧
          (fun i => (desk' i).table) = fun i => (desk i).table) ∧
        (¬t.OnCycle c ∧ r'.ledger.share = r.ledger.share ∨
          t.OnCycle c ∧ r'.ledger.share = (r.ledger.recordCycle k).share))
      (fun _ _ => False) := by
  let o : Opening N :=
    { seeds := t.seedAt c
      desk := fun i => { desk i with ledger := r.ledger.share, entered := ∅ }
      cursor := cursor }
  have hopen : ∀ i < t.peers, Yields (Pass.search.start t.graph)
      { desk i with ledger := r.ledger.share } (.ok (o.seeds i)) (o.desk i) := by
    intro i hi
    refine yields_atDesk ?_
    change ownNode r.ledger.chase.seed (o.desk i) = _
    rw [hseed]
    exact ownNode_eq hT.parted ((hT.names c).trans hk) hi rfl
  have hkeeps := Searching.keeps (l := r.ledger.share) hT hk hc hseed
  have hstep := meets_superstep hplan hkeeps (o := o) hr hopen
    (fun i v hv => Terrain.home_of_mem_seedAt hv)
    ⟨∅, Searching.start_of_known rfl rfl (fun _ => rfl) rfl fun _ => rfl⟩
  refine hstep.mono ?_ ?_
  · rintro - r' ⟨s, hleaves⟩
    obtain ⟨X, hs⟩ := hleaves.holds
    refine ⟨?_, ⟨s.desk, hleaves.rests, hs.tables⟩, ?_⟩
    · rw [hleaves.generated]
      exact Nat.le_add_right _ _
    · have hparts : ∀ part ∈ (List.range t.peers).map fun i => (s.desk i).ledger,
          part.share = r.ledger.share ∨ part.share = (r.ledger.recordCycle k).share := by
        intro part hp
        obtain ⟨i, -, rfl⟩ := List.mem_map.mp hp
        exact (hs.ledger i).imp_right And.left
      rw [hleaves.ledger]
      rcases Ledger.share_reduce_of_record hnode hparts with ⟨hall, hsame⟩ | ⟨⟨p, hp, hrec⟩, hdone⟩
      · refine .inl ⟨hs.not_onCycle hleaves.done hclosed hfound fun i hi => ?_, hsame⟩
        exact hall _ (List.mem_map.mpr ⟨i, List.mem_range.mpr hi, rfl⟩)
      · obtain ⟨i, -, rfl⟩ := List.mem_map.mp hp
        refine .inr ⟨?_, hdone⟩
        rcases hs.ledger i with hl | ⟨-, hcycle⟩
        · rw [hl] at hrec
          exact nomatch hfound.symm.trans (congrArg Ledger.cycleFound hrec :)
        · exact hcycle
  · rintro f r' ⟨s, i, ⟨X, hs⟩, hf, -⟩
    rw [hs.good i] at hf
    exact nomatch hf

/-! ## 4. One search after the other -/

/-- A run between two searches; the candidates that are not left to try lie on no cycle. -/
structure Run.Seeking (t : Terrain N σ) (l : Ledger N) (least : Nat) (T : Nat → Table N)
    (cursor : Nat → Nat) (r : Run N σ) : Prop where
  rests : ∃ desk, r.cluster.Rests t desk cursor ∧ T = fun i => (desk i).table
  ledger : r.ledger.share.seeded none = l
  generated : least ≤ r.generated
  tried : ∀ {v}, v ∈ t.live T → v ∉ t.untried T cursor → ¬t.OnCycle v

/-- A run after a search that has found a cycle through the state `c`. -/
structure Run.Caught (t : Terrain N σ) (l : Ledger N) (least : Nat) (T : Nat → Table N) (k : Handle)
    (r : Run N σ) : Prop where
  rests : ∃ desk cursor, r.cluster.Rests t desk cursor ∧ T = fun i => (desk i).table
  ledger : r.ledger.share.seeded none = l.recordCycle k
  generated : least ≤ r.generated

omit [DecidableEq N] [Std.TransOrd N] [Std.LawfulEqOrd N] in
theorem Run.Caught.record {least : Nat} (h : r.Caught t l least T k) (e : Event) (left : Nat) :
    ({ r with cluster := r.cluster.record e, left := left } : Run N σ).Caught t l least T k := by
  obtain ⟨desk, cursor, hrests, hT⟩ := h.rests
  exact { h with rests := ⟨desk, cursor, hrests.record e, hT⟩ }

/-- The state `c`, whose handle is `k`, is the first of the accepting candidates on a cycle. -/
structure Terrain.Leads (t : Terrain N σ) (name : N → Option Handle) (T : Nat → Table N) (c : N)
    (k : Handle) : Prop where
  live : c ∈ t.live T
  onCycle : t.OnCycle c
  name : name c = some k
  first : ∀ {v}, v ∈ t.live T → t.OnCycle v → t.Ahead T c v

/-- Name the first candidate that was not tried yet and search from it.  Gives its handle, if there
is such a candidate. -/
def Check.attempt (plan : Plan N σ) : RunM N σ (Option Handle) := do
  RunM.note fun l => { l with chase := { l.chase with seed := none } }
  ring .pickSeed
  match (← RunM.ledger).chase.seed with
  | none => return none
  | some seed =>
    RunM.record (.trying seed)
    superstep plan .search
    return some seed

omit [DecidableEq N] in
/-- The search makes one attempt after the other, until one has found a cycle. -/
theorem Check.search_succ (plan : Plan N σ) (remaining bound : Nat) :
    search plan remaining (bound + 1) = (do
      match ← attempt plan with
      | none => RunM.fail (.missingCycle remaining)
      | some _ =>
        let l ← RunM.ledger
        if l.cycleFound then RunM.record (.cycleFound l.cycleNode)
        else search plan remaining bound) := by
  rw [search, attempt]
  simp only [bind_assoc]
  refine congrArg _ (funext fun _ => congrArg _ (funext fun _ => congrArg _ (funext fun l => ?_)))
  cases l.chase.seed with
  | none => rfl
  | some seed => simp only [bind_assoc, pure_bind]

/-- **An attempt finds out whether the first candidate that was not tried lies on a cycle.** -/
theorem meets_attempt [t.Rooted] (hplan : plan.Covers t) (hT : t.Known name T)
    (hclosed : ∀ {u v}, u ∈ t.candidates T → t.Edge u v → v ∈ t.candidates T)
    (hcycle : ∃ v ∈ t.live T, t.OnCycle v) (hfound : l.cycleFound = false)
    (hnode : l.cycleNode = none) {least : Nat} (hr : r.Seeking t l least T cursor) :
    Meets plan.Fair (Check.attempt plan) r
      (fun seed r' => ∃ c k, seed = some k ∧ name c = some k ∧
        (¬t.OnCycle c ∧ r'.ledger.cycleFound = false ∧
            (∃ cursor', r'.Seeking t l least T cursor' ∧
              (t.untried T cursor').card < (t.untried T cursor).card) ∨
          t.Leads name T c k ∧ r'.ledger.cycleFound = true ∧ r'.Caught t l least T k))
      (fun _ _ => False) := by
  obtain ⟨desk, hrests, rfl⟩ := hr.rests
  obtain ⟨w, hw, hwcycle⟩ := hcycle
  have hopen : ∀ {v}, v ∈ t.live (fun i => (desk i).table) → t.OnCycle v →
      v ∈ t.untried (fun i => (desk i).table) cursor := fun hv hon =>
    by_contra fun hnot => hr.tried hv hnot hon
  refine (Meets.note (Q := fun _ r₁ => r₁.cluster.Rests t desk cursor ∧
    r₁.ledger.chase.seed = none ∧ r₁.ledger.share = l ∧ least ≤ r₁.generated)
    fun left => ⟨hrests, rfl, ?_, hr.generated⟩).bind ?_
  · rw [← hr.ledger]
    rfl
  rintro - r₁ ⟨hrests₁, hseed₁, hledger₁, hgen₁⟩
  obtain ⟨c, k, c', cursor', hc, hfirst, hk, hring, hrests', herase⟩ :=
    hrests₁.ring_pick hT hseed₁ ⟨w, hopen hw hwcycle⟩
  refine (meets_ring hring).bind ?_
  rintro - r₂ ⟨hc₂, hl₂, hgen₂⟩
  have hlive := (Terrain.mem_untried.mp hc).1
  refine .ledger_bind ?_
  rw [hl₂]
  refine (Meets.record (Q := fun _ r₃ => r₃.cluster.Rests t desk cursor' ∧
    r₃.ledger = r₁.ledger.seeded (some k) ∧ least ≤ r₃.generated)
    fun left => ⟨(hc₂ ▸ hrests').record _, hl₂, ?_⟩).bind ?_
  · exact hgen₂ ▸ hgen₁
  rintro - r₃ ⟨hrests₃, hl₃, hgen₃⟩
  have hledger₃ : r₃.ledger.share.seeded none = l := by
    rw [hl₃, ← hledger₁]
    exact Ledger.seeded_none (l := r₁.ledger.share) hseed₁
  refine (meets_search_pass hplan hrests₃ hT hk (Terrain.live_subset hlive) hclosed
    (by rw [hl₃]; rfl) ?_ ?_).bind ?_
  · rw [← hfound, ← hledger₃]
    rfl
  · rw [← hnode, ← hledger₃]
    rfl
  rintro - r₄ ⟨hgen₄, ⟨desk₄, hrests₄, htables⟩, hcases⟩
  refine .pure fun left => ⟨c, k, rfl, hk, ?_⟩
  rcases hcases with ⟨hnot, hshare⟩ | ⟨hon, hshare⟩
  · refine .inl ⟨hnot, ?_, cursor', ?_, ?_⟩
    · rw [← hfound, ← hledger₃]
      exact (congrArg Ledger.cycleFound hshare :)
    · refine ⟨⟨desk₄, hrests₄, htables.symm⟩, ?_, hgen₃.trans hgen₄, ?_⟩
      · change r₄.ledger.share.seeded none = l
        rw [hshare, hledger₃]
      · intro v hv hnotin
        rw [herase, Finset.mem_erase, not_and_or, not_not] at hnotin
        rcases hnotin with rfl | hnotin
        · exact hnot
        · exact hr.tried hv hnotin
    · rw [herase]
      exact Finset.card_erase_lt_of_mem hc
  · refine .inr ⟨⟨hlive, hon, hk, fun hv hcycle => hfirst _ (hopen hv hcycle)⟩,
      (congrArg Ledger.cycleFound hshare :), ⟨desk₄, cursor', hrests₄, htables.symm⟩, ?_,
      hgen₃.trans hgen₄⟩
    change r₄.ledger.share.seeded none = _
    rw [hshare, ← hledger₃]
    rfl

/-- **Searches from one candidate after the other find a cycle**, if there is one through an
accepting candidate, and the first such candidate; `bound` is never used up. -/
theorem meets_search [t.Rooted] (hplan : plan.Covers t) (hT : t.Known name T)
    (hclosed : ∀ {u v}, u ∈ t.candidates T → t.Edge u v → v ∈ t.candidates T)
    (hcycle : ∃ v ∈ t.live T, t.OnCycle v) (hfound : l.cycleFound = false)
    (hnode : l.cycleNode = none) (remaining : Nat) {least : Nat} (bound : Nat)
    (hr : r.Seeking t l least T cursor) (hbound : (t.untried T cursor).card < bound) :
    Meets plan.Fair (Check.search plan remaining bound) r
      (fun _ r' => ∃ c k, t.Leads name T c k ∧ r'.Caught t l least T k)
      (fun _ _ => False) := by
  induction bound generalizing r cursor with
  | zero => exact absurd hbound (Nat.not_lt_zero _)
  | succ bound ih =>
    rw [Check.search_succ]
    refine (meets_attempt hplan hT hclosed hcycle hfound hnode hr).bind ?_
    rintro _ r' ⟨c, k, rfl, -, ⟨-, hgoes, cursor', hr', hless⟩ | ⟨hleads, hends, hcaught⟩⟩
    · refine .ledger_bind ?_
      rw [hgoes, if_neg (by decide)]
      exact ih hr' (by omega)
    · refine .ledger_bind ?_
      rw [hends, if_pos rfl]
      exact .record fun left => ⟨c, k, hleads, hcaught.record _ left⟩

end Search

/-! ## 5. Runs that know a cycle -/

/-- A run in which a state is known that lies on an accepting cycle. -/
structure Run.Found (t : Terrain N σ) (T : Nat → Table N) (c : N) (r : Run N σ) : Prop where
  rests : ∃ desk cursor, r.cluster.Rests t desk cursor ∧ T = fun i => (desk i).table
  parted : t.Parted T
  climbs : ∀ {v}, v ∈ t.held T → ∃ path, Climbs t (fun _ => True) T t.graph.initial path v
  counted : (t.held T).card ≤ 1 + r.generated
  initial : r.ledger.chase.initial = t.handleOf T t.graph.initial
  node : r.ledger.cycleNode = t.handleOf T c
  held : c ∈ t.held T
  accepting : t.accepting c = true
  onCycle : t.OnCycle c
  /-- No state bears the stamp of the next round. -/
  stamps : ∀ {v m}, t.markOf T v = some m →
    m.fields.iteration ≠ (r.ledger.round + 1).toNat % 2 ^ 15

section Found

variable {t : Terrain N σ} {T : Nat → Table N} {r : Run N σ}

theorem Run.Found.record {c : N} (h : r.Found t T c) (e : Event) (left : Nat) :
    ({ r with cluster := r.cluster.record e, left := left } : Run N σ).Found t T c := by
  obtain ⟨desk, cursor, hrests, hT⟩ := h.rests
  exact { h with rests := ⟨desk, cursor, hrests.record e, hT⟩ }

theorem Run.Found.mem_accepted {c : N} (h : r.Found t T c) : c ∈ t.accepted :=
  Terrain.mem_accepted.mpr ⟨(Finset.mem_filter.mp h.held).1, h.accepting⟩

/-- The exploration itself may have found a cycle. -/
theorem Explored.exists_found {desk : Nat → Desk N} (hrests : r.cluster.Rests t desk (fun _ => 0))
    (h : Explored t (fun i => (desk i).table) r.ledger r.generated)
    (hfound : r.ledger.cycleFound = true) : ∃ c, r.Found t (fun i => (desk i).table) c := by
  obtain ⟨c, hnode, hheld, hacc, hcycle, -⟩ := h.witness hfound
  refine ⟨c, ⟨desk, fun _ => 0, hrests, rfl⟩, h.parted, h.climbs, h.counted, h.initial, hnode,
    hheld, hacc, hcycle, fun hm => ?_⟩
  rw [h.fields hm, h.round]
  exact Nat.zero_ne_one

/-- The tables together hold as many states as are stored. -/
theorem Terrain.Parted.sum_size (hT : t.Parted T) :
    ∑ i ∈ Finset.range t.peers, (T i).size = (t.held T).card := by
  have hstates : t.statesWhere T (fun _ => true) = t.held T := by
    refine Finset.filter_congr fun v _ => ?_
    cases t.markOf T v <;> simp
  rw [← hstates, ← hT.length_nodesWhere]
  refine Finset.sum_congr rfl fun i hi => ?_
  have hnodes : t.nodesWhere T (fun _ => true) i = (T i).nodes.toList := by
    rw [Terrain.nodesWhere, if_pos (Finset.mem_range.mp hi), List.filter_true,
      Table.map_fst_entries]
  rw [hnodes]
  exact Array.length_toList.symm

variable [DecidableEq N] [Std.TransOrd N] [Std.LawfulEqOrd N] {plan : Plan N σ}
  {name : N → Option Handle}

omit [Std.TransOrd N] [Std.LawfulEqOrd N] in
/-- When the rounds are over no candidate was tried yet. -/
theorem Run.Decided.seeking {least : Nat} (hr : r.Decided t name least T) :
    r.Seeking t (r.ledger.share.seeded none) least T (fun _ => 0) := by
  obtain ⟨⟨desk, hrests, htables⟩, -, -, hgenerated⟩ := hr.between.holds
  refine ⟨⟨desk, hrests, htables⟩, rfl, hgenerated, fun hv hnot => ?_⟩
  exact absurd (Terrain.mem_untried.mpr ⟨hv, Nat.zero_le _⟩) hnot

omit [Std.TransOrd N] [Std.LawfulEqOrd N] in
/-- If accepting candidates are left, then there is one on a cycle. -/
theorem Run.Decided.exists_onCycle [t.Rooted] {least : Nat} (hr : r.Decided t name least T)
    (hsize : r.ledger.size ≠ 0) : ∃ v ∈ t.live T, t.OnCycle v := by
  by_contra hnone
  refine hsize (hr.size_eq_zero_iff.mpr fun v hv hcycle => hnone ⟨v, ?_, hcycle⟩)
  exact hr.between.complete hv hcycle

omit [Std.TransOrd N] [Std.LawfulEqOrd N] in
/-- The candidates that are left are closed under edges. -/
theorem Run.Decided.mem_candidates_of_edge [t.Rooted] {least : Nat} (hr : r.Decided t name least T)
    (hsize : r.ledger.size ≠ 0) {u v : N} (hu : u ∈ t.candidates T) (hedge : t.Edge u v) :
    v ∈ t.candidates T := by
  rw [(hr.exact.resolve_left hsize).2] at hu ⊢
  exact Terrain.mem_core_of_edge hu hedge

/-- **If accepting candidates are left, then the first one on a cycle is found.** -/
theorem meets_findCycle_leads [t.Rooted] (hplan : plan.Covers t) {least : Nat}
    (hr : r.Decided t name least T) (hsize : r.ledger.size ≠ 0) :
    Meets plan.Fair (Check.findCycle plan) r
      (fun _ r' => ∃ c k, t.Leads name T c k ∧
        r'.Caught t (r.ledger.share.seeded none) least T k)
      (fun _ _ => False) := by
  have hb := hr.between
  have hknown := hb.holds.known
  refine .ledger_bind ?_
  rw [if_neg hsize]
  refine (Meets.record (Q := fun _ r₁ => ∃ left,
    r₁ = { r with cluster := r.cluster.record _, left := left }) fun left => ⟨left, rfl⟩).bind ?_
  rintro - _ ⟨left, rfl⟩
  refine .get_bind (fun _ => rfl) ?_
  have hr₁ := hr.record (.searching r.ledger.size) left
  obtain ⟨desk, hrests, htables⟩ := hr₁.between.holds.rests
  refine meets_search (l := r.ledger.share.seeded none) hplan hknown
    (hr.mem_candidates_of_edge hsize) (hr.exists_onCycle hsize) hb.found hb.node _ _ hr₁.seeking ?_
  have hsizes : ((r.cluster.record (.searching r.ledger.size)).tables.map Table.size).foldl
      (· + ·) 0 = t.states.card := by
    rw [← List.sum_eq_foldl, Cluster.tables, List.map_map, ← hknown.all, ← hknown.parted.sum_size,
      hrests.map_workers (g := fun i => (T i).size)]
    · rfl
    · intro i w hw
      rw [Function.comp_apply, hrests.desk hw, htables]
  rw [hsizes]
  have hsub : t.untried T (fun _ => 0) ⊆ t.states :=
    (Finset.filter_subset _ _).trans (Terrain.live_subset.trans Terrain.candidates_subset)
  exact Nat.lt_succ_of_le (Finset.card_le_card hsub)

/-- After such a search a counterexample can be built. -/
theorem meets_findCycle [t.Rooted] (hplan : plan.Covers t)
    (hr : r.Decided t name (t.states.card - 1) T) (hsize : r.ledger.size ≠ 0) :
    Meets plan.Fair (Check.findCycle plan) r (fun _ r' => ∃ c, r'.Found t T c)
      (fun _ _ => False) := by
  have hb := hr.between
  have hknown := hb.holds.known
  refine (meets_findCycle_leads hplan hr hsize).mono ?_ fun _ _ h => h
  rintro - r' ⟨c, k, ⟨hlive, hon, hk, -⟩, hcaught⟩
  have hshare := hcaught.ledger
  have hround : r'.ledger.round = r.ledger.round := (congrArg Ledger.round hshare :)
  have hcstates := Terrain.candidates_subset (Terrain.live_subset hlive)
  refine ⟨c, hcaught.rests, hknown.parted, fun hv => hknown.climbs (hknown.all ▸ hv), ?_, ?_, ?_,
    by rw [hknown.all]; exact hcstates, (Terrain.mem_live.mp hlive).2, hon, fun {v m} hm => ?_⟩
  · have hgen := hcaught.generated
    rw [hknown.all]
    omega
  · rw [hknown.names]
    exact (congrArg (·.chase.initial) hshare :).trans hb.initial
  · rw [hknown.names, hk]
    exact (congrArg Ledger.cycleNode hshare :)
  · rw [← Terrain.fieldsOf_eq hm, hround]
    obtain ⟨hne, hne'⟩ := Mark.stamp_succ_ne r.ledger.round
    rcases hb.stamps (hknown.parted.mem_states hm) with h | h
    · rw [h]
      exact hne.symm
    · rw [h]
      exact hne'.symm

end Found

end FairCycle
