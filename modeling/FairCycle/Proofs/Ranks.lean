/-
# Ranks that come back

With a single worker the exploration hands numbers on along the edges that it handles: the rank of
an accepting state, which is its slot counted from one, goes to what the state leads to and on from
there, and of several ranks the largest is kept (`Mark.ancestor`).  An accepting state that gets its
own rank back lies on a cycle.

A rank is handed on also to states that are not yet known to be accepting, and a smaller one is
lost where it meets a larger one.  That may hide a cycle, but it never makes one up: at every moment
a rank that is noted is that of an accepting state, already expanded, from which a path leads to
where it is noted (`explore_ranks`).
-/
import FairCycle.Proofs.Drift

namespace FairCycle

variable {N σ : Type} [Ord N]

/-! ## 1. Ranks and slots -/

theorem Handle.toNat_of_rank? {h : Handle} {rank : UInt32} (hr : h.rank? = some rank) :
    rank.toNat = h.slot.toNat + 1 := by
  unfold Handle.rank? at hr
  split at hr
  · exact absurd hr (by simp)
  · rename_i hlast
    have hne : h.slot.toNat ≠ 0xffffffff := fun heq => hlast (UInt32.toNat_inj.mp heq)
    have hlt := h.slot.toNat_lt
    rw [← Option.some.inj hr, UInt32.toNat_add]
    change (h.slot.toNat + 1) % 2 ^ 32 = _
    omega

section Tables

variable {t : Terrain N σ} {T : Nat → Table N} {c : Cluster N σ} {v : N} {m : Mark} {rank : UInt32}

/-- A rank of the only worker leads to the slot of its state. -/
theorem Cluster.Shelved.storesAt_of_rank (hc : c.Shelved t T) (hone : t.peers = 1) {h : Handle}
    (hv : t.handleOf T v = some h) (hr : h.rank? = some rank) :
    c.StoresAt 0 (rank.toNat - 1) v := by
  have hhome := Terrain.home_eq_zero hone v
  rw [Terrain.handleOf, hhome] at hv
  obtain ⟨slot, hslot, rfl⟩ := Table.find?_eq_some_iff.mp hv
  have hfits := hc.parted.fits (hone ▸ Nat.one_pos : 0 < t.peers)
  refine hc.storesAt_iff.mpr ⟨hone ▸ Nat.one_pos, ?_⟩
  rw [Handle.toNat_of_rank? hr, Nat.add_sub_cancel, hfits.handle_slot (Table.slot_lt hslot)]
  exact hslot

/-- The largest rank that a state has seen does not get smaller. -/
theorem Pass.tends_explore (g : Graph N σ) :
    explore.Tends g fun m m' : Mark => m.ancestor ≤ m'.ancestor where
  refl m := UInt32.le_refl m.ancestor
  trans h h' := UInt32.le_trans h h'
  resets h := absurd h (by decide)
  writes {d h m m'} hw := by
    cases hw with
    | parent source =>
      unfold Mark.setParentOnce
      split
      · exact UInt32.le_refl m.ancestor
      · exact UInt32.le_refl m.ancestor
    | ancestor hmore => exact UInt32.le_of_lt hmore
    | acceptance hv ha =>
      rw [Mark.ancestor_setInS, Mark.ancestor_setInF]
      exact UInt32.le_refl m.ancestor

end Tables

/-! ## 2. Edges that end the work of a worker -/

section Halts

variable [Std.TransOrd N] [Std.LawfulEqOrd N] {t : Terrain N σ} {c : Cluster N σ} {i : Nat}
  {w : Worker N} {e : Edge N}

/-- **A worker that explores halts only at an edge that closes an accepting cycle.** -/
theorem Exploring.closesCycle [t.Rooted] (hc : c.Orderly t .explore t.opening)
    (hs : Exploring t (c.scene t.opening)) (hw : c.workers[i]? = some w)
    (he : w.upNext c.commons = some e)
    (hhalt : (handleEdge (t.task .explore) e (w.desk, c.commons.memory)).1 = .ok .halt) :
    e.ClosesCycle t (c.scene t.opening).tables := by
  obtain ⟨hdesk, rest, hpending⟩ := hc.of_upNext hw he
  obtain ⟨r, d, h⟩ := hs.explores hpending
  have hyields := h.yields
  rw [hdesk] at hyields
  obtain ⟨memory, hrun⟩ := hyields c.commons.memory
  rw [hrun] at hhalt
  exact h.halts hhalt

end Halts

/-! ## 3. The ranks of an exploration -/

section Explore

variable [Std.TransOrd N] [Std.LawfulEqOrd N]

/-- **Ranks do not make cycles up.**  At every moment of the exploration by a single worker, a rank
that is noted with a state is that of an accepting state, already expanded, that stands in the slot
before it and from which a path of at least one edge leads to where the rank is noted.  The rank
noted with a state does not get smaller.  If an edge makes the worker halt, then it leads from a
stored state to an accepting one and closes a cycle through it. -/
theorem explore_ranks {g : Graph N σ} (p : g.Promise) {config : Config}
    (hone : config.peers = 1) (hfew : (p.reachable config.reduction).encard < 2 ^ 32 - 1)
    (turns : Nat → Turn) (memory : σ) :
    (∀ time v m, (Check.exploring ⟨g, config, turns⟩ memory time).Marks v m → 0 < m.ancestor →
      ∃ a, (Check.exploring ⟨g, config, turns⟩ memory time).StoresAt 0 (m.ancestor.toNat - 1) a ∧
        p.accepting a = true ∧
        a ∈ Check.expanded ⟨g, config, turns⟩ .explore (Run.begin config memory time) ∧
        Relation.TransGen (p.Edge config.reduction) a v) ∧
    (∀ time time' v m, time ≤ time' →
      (Check.exploring ⟨g, config, turns⟩ memory time).Marks v m →
      (∃ m', (Check.exploring ⟨g, config, turns⟩ memory time').Marks v m') ∧
        ∀ m', (Check.exploring ⟨g, config, turns⟩ memory time').Marks v m' →
          m.ancestor ≤ m'.ancestor) ∧
    ∀ time w e, (Check.exploring ⟨g, config, turns⟩ memory time).workers[0]? = some w →
      w.upNext (Check.exploring ⟨g, config, turns⟩ memory time).commons = some e →
      (handleEdge ⟨g, config.reduction, .explore⟩ e
        (w.desk, (Check.exploring ⟨g, config, turns⟩ memory time).commons.memory)).1 =
          .ok .halt →
      p.accepting e.target = true ∧
      ∃ source u, e.source = some source ∧ w.desk.table.node? source = some u ∧
        p.Edge config.reduction u e.target ∧ p.Reaches config.reduction e.target u := by
  have hworkers : config.workers ≤ 2 ^ 32 := by
    have hle : config.workers ≤ config.peers := le_max_left _ _
    omega
  let t := p.terrain config hworkers hfew
  have hplan : (⟨g, config, turns⟩ : Plan N σ).Covers t := ⟨rfl, rfl, rfl⟩
  have hpeers : t.peers = 1 := hone
  have hshelved : ∀ time, (Check.exploring ⟨g, config, turns⟩ memory time).Shelved t
      ((Check.exploring ⟨g, config, turns⟩ memory time).scene t.opening).tables := by
    intro time
    obtain ⟨hc, -, hs⟩ := Check.exploring_explores hplan memory time
    exact hc.shelved (by decide) hs.parted
  refine ⟨fun time v m hm hpos => ?_, fun time time' v m hle hm => ?_,
    fun time w e hw he hhalt => ?_⟩
  · obtain ⟨hc, hexpanded, hs⟩ := Check.exploring_explores hplan memory time
    have hmark := (hshelved time).marks_iff.mp hm
    rcases hs.ancestor hmark with hzero | ⟨a, h, ha, hr, hacc, hpath⟩
    · rw [hzero] at hpos
      exact absurd hpos (by decide)
    · refine ⟨a, (hshelved time).storesAt_of_rank hpeers ha hr, hacc, ?_, hpath⟩
      rw [show Check.expanded ⟨g, config, turns⟩ .explore (Run.begin config memory time) = _
        from hexpanded, Finset.mem_val, hs.parted.mem_held, ← Terrain.isSome_handleOf, ha]
      rfl
  · have hdrifts : (Check.exploring ⟨g, config, turns⟩ memory time).Drifts _
        (Check.exploring ⟨g, config, turns⟩ memory time') :=
      Check.drifts_driveWorkers (Pass.tends_explore g) (Run.begin config memory 0) hle
    obtain ⟨m', hm', hmore⟩ := hdrifts.exists_later hm
    refine ⟨⟨m', hm'⟩, fun m'' hm'' => ?_⟩
    have hsame := (hshelved time').marks_iff.mp hm'
    rw [(hshelved time').marks_iff.mp hm''] at hsame
    rw [Option.some.inj hsame]
    exact hmore
  · obtain ⟨hc, -, hs⟩ := Check.exploring_explores hplan memory time
    obtain ⟨hacc, u, source, hsource, hu, hedge, hback⟩ := hs.closesCycle hc hw he hhalt
    refine ⟨hacc, source, u, hsource, ?_, hedge, hback⟩
    have hnode := hs.parted.node?_eq hu
    obtain ⟨hstance, -⟩ := Worker.of_upNext_eq_some he
    rw [Terrain.home_eq_zero hpeers, Scene.tables, Cluster.scene_desk hw] at hnode
    simp only [Worker.shown, hstance] at hnode
    exact hnode

end Explore

/-- The single worker of the small graph has handed the rank of the accepting state on to the last
one, and gets it back with the edge that closes the cycle. -/
theorem explore_ranks_pendant :
    ∃ w m a, (Check.exploring ⟨pendant 1, { workers := 1 }, Turn.roundRobin⟩ () 10).workers[0]? =
        some w ∧
      w.upNext (Check.exploring ⟨pendant 1, { workers := 1 }, Turn.roundRobin⟩ () 10).commons =
        some ⟨some ⟨0, 2⟩, 1⟩ ∧
      (handleEdge ⟨pendant 1, false, .explore⟩ ⟨some ⟨0, 2⟩, 1⟩ (w.desk, ())).1 = .ok .halt ∧
      (∃ u, w.desk.table.node? ⟨0, 2⟩ = some u ∧ (pendantPromise 1).Edge false u 1 ∧
        (pendantPromise 1).Reaches false 1 u) ∧
      (Check.exploring ⟨pendant 1, { workers := 1 }, Turn.roundRobin⟩ () 10).Marks 2 m ∧
      m.ancestor = 2 ∧
      (Check.exploring ⟨pendant 1, { workers := 1 }, Turn.roundRobin⟩ () 10).StoresAt 0 1 a ∧
      (pendantPromise 1).accepting a = true := by
  have hnext : ((Check.exploring ⟨pendant 1, { workers := 1 }, Turn.roundRobin⟩ ()
      10).workers[0]?.bind fun w =>
        (w.upNext (Check.exploring ⟨pendant 1, { workers := 1 }, Turn.roundRobin⟩ ()
          10).commons).map fun e => (e.source, e.target)) = some (some ⟨0, 2⟩, 1) := by
    decide +kernel
  have hhalts : ((Check.exploring ⟨pendant 1, { workers := 1 }, Turn.roundRobin⟩ ()
      10).workers[0]?.all fun w =>
        Scene.halts (handleEdge ⟨pendant 1, false, .explore⟩ ⟨some ⟨0, 2⟩, 1⟩ (w.desk, ())).1 &&
        !isFault (handleEdge ⟨pendant 1, false, .explore⟩ ⟨some ⟨0, 2⟩, 1⟩ (w.desk, ())).1) =
      true := by
    decide +kernel
  have hmark : ((Check.exploring ⟨pendant 1, { workers := 1 }, Turn.roundRobin⟩ () 10).tables.any
      fun table => table.entries.any fun entry =>
        entry.1 == 2 && entry.2.ancestor == 2) = true := by
    decide +kernel
  obtain ⟨hrank, -, hclose⟩ := explore_ranks (pendantPromise 1)
    (show ({ workers := 1 } : Config).peers = 1 by decide) (encard_lt_of_three _)
    Turn.roundRobin ()
  obtain ⟨w, hw, hnext⟩ := Option.bind_eq_some_iff.mp hnext
  obtain ⟨⟨source, v⟩, he, hpair⟩ := Option.map_eq_some_iff.mp hnext
  obtain ⟨rfl, rfl⟩ := Prod.mk.inj hpair
  rw [hw, Option.all_some] at hhalts
  have hhalt : (handleEdge ⟨pendant 1, false, .explore⟩ ⟨some ⟨0, 2⟩, 1⟩ (w.desk, ())).1 =
      .ok .halt := by
    revert hhalts
    rcases (handleEdge ⟨pendant 1, false, .explore⟩ ⟨some ⟨0, 2⟩, 1⟩ (w.desk, ())).1 with
      (_ | _ | _) | (_ | _ | _)
    all_goals simp [Scene.halts, isFault]
  obtain ⟨-, source, u, hsource, hu⟩ := hclose 10 w _ hw he hhalt
  obtain rfl := Option.some.inj hsource
  obtain ⟨table, htable, hentry⟩ := List.any_eq_true.mp hmark
  obtain ⟨⟨v, m⟩, hm, hin⟩ := List.any_eq_true.mp hentry
  obtain ⟨hv, hanc⟩ := (Bool.and_eq_true _ _).mp hin
  obtain rfl := eq_of_beq hv
  have hanc := eq_of_beq hanc
  obtain ⟨a, hstores, hacc, -⟩ := hrank 10 2 m ⟨table, htable, hm⟩ (by rw [hanc]; decide)
  rw [hanc] at hstores
  exact ⟨w, m, a, hw, he, hhalt, ⟨u, hu⟩, ⟨table, htable, hm⟩, hanc, hstores, hacc⟩

end FairCycle
