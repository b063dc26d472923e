/-
# Every check comes to its end

Whatever a graph over finitely many states answers, and be it something else at every call, a check
ends with a report, with a fault, or because somebody broke down, as soon as it gets enough turns
and every worker gets a turn again and again (`Check.exists_enough`).  Between two passes nobody has
anything to do, so that the next one starts as it should; a pass ends because only so many edges
come up in it; and all else the master does takes no turns.

A computation that comes to its end in this sense `Halts`.
-/
import FairCycle.Proofs.Budget
import FairCycle.Proofs.Lasting

namespace FairCycle

variable {N σ α β : Type} [Ord N]

/-! ## 1. Computations that come to an end -/

/-- A run between two passes: the workers of the plan are there and have nothing to do. -/
structure Run.Idle (plan : Plan N σ) (r : Run N σ) : Prop where
  still : r.cluster.Still
  size : r.cluster.workers.size = plan.config.peers

/-- Between two passes, a computation comes to its end with enough turns, and leaves those that it
does not need.  If it gives a result, then this is between two passes again. -/
def Halts (plan : Plan N σ) (x : RunM N σ α) : Prop :=
  ∀ r : Run N σ, r.Idle plan → ∃ (n : Nat) (e : Except Stop α) (r' : Run N σ),
    e ≠ .error .outOfTurns ∧ (∀ a, e = .ok a → r'.Idle plan) ∧
      ∀ left, x { r with left := n + left } = (e, { r' with left := left })

namespace Halts

variable {plan : Plan N σ}

/-- A computation that takes no turns. -/
theorem of_eq {x : RunM N σ α}
    (hx : ∀ r : Run N σ, r.Idle plan → ∃ (e : Except Stop α) (r' : Run N σ),
      e ≠ .error .outOfTurns ∧ (∀ a, e = .ok a → r'.Idle plan) ∧
        ∀ left, x { r with left := left } = (e, { r' with left := left })) : Halts plan x := by
  intro r hr
  obtain ⟨e, r', hne, hidle, heq⟩ := hx r hr
  exact ⟨0, e, r', hne, hidle, fun left => by rw [Nat.zero_add]; exact heq left⟩

theorem throws (e : Stop) (he : e ≠ .outOfTurns) : Halts plan (throw e : RunM N σ α) :=
  of_eq fun r hr => ⟨.error e, r, by simpa using he, fun _ _ => hr, fun _ => rfl⟩

theorem bind {x : RunM N σ α} {f : α → RunM N σ β} (hx : Halts plan x)
    (hf : ∀ a, Halts plan (f a)) : Halts plan (x >>= f) := by
  intro r hr
  obtain ⟨n, e, r', hne, hidle, hn⟩ := hx r hr
  cases e with
  | ok a =>
    obtain ⟨m, e', r'', hne', hidle', hm⟩ := hf a r' (hidle a rfl)
    refine ⟨n + m, e', r'', hne', hidle', fun left => ?_⟩
    rw [Nat.add_assoc, RunM.bind_ok (hn (m + left))]
    exact hm left
  | error stop =>
    exact ⟨n, .error stop, r', fun heq => hne (congrArg _ (Except.error.inj heq)), by simp,
      fun left => RunM.bind_error (hn left)⟩

theorem read {f : Run N σ → RunM N σ α} (hf : ∀ r left, f { r with left := left } = f r)
    (hhalts : ∀ r, Halts plan (f r)) : Halts plan (get >>= f) := by
  intro r hr
  obtain ⟨n, e, r', hne, hidle, hn⟩ := hhalts r r hr
  refine ⟨n, e, r', hne, hidle, fun left => ?_⟩
  change f { r with left := n + left } { r with left := n + left } = _
  rw [hf]
  exact hn left

theorem demand (question : StateM σ (Option α)) : Halts plan (RunM.demand question) := by
  refine bind (of_eq fun r hr => ?_) fun answer => ?_
  · refine ⟨.ok (question r.cluster.commons.memory).1,
      { r with cluster := { r.cluster with commons :=
        { r.cluster.commons with memory := (question r.cluster.commons.memory).2 } } }, by simp,
      fun _ _ => ⟨⟨hr.still.lost, hr.still.inboxes, hr.still.letters, hr.still.id, hr.still.peers,
        hr.still.queue⟩, hr.size⟩, fun _ => rfl⟩
  · cases answer with
    | some a => exact of_eq fun r hr => ⟨.ok a, r, by simp, fun _ _ => hr, fun _ => rfl⟩
    | none => exact throws .crash (by simp)

end Halts

/-! ## 2. The master's steps -/

variable {plan : Plan N σ}

/-- While all are still a ledger can go around the ring, unless somebody breaks down. -/
theorem Cluster.Still.ringFrom_cases (errand : Errand) (count i : Nat) (l : Ledger N)
    {c : Cluster N σ} (hc : c.Still) :
    (∃ l' c', c.ringFrom errand count i l = (.ok l', c') ∧ c'.Still ∧
        c'.workers.size = c.workers.size) ∨
      ∃ f c', c.ringFrom errand count i l = (.error (.fault f), c') := by
  induction count generalizing i l c with
  | zero => exact .inl ⟨l, c, rfl, hc, rfl⟩
  | succ count ih =>
    rcases c.visit_cases errand l i with
      ⟨-, hvisit⟩ | ⟨w, hw, ⟨l', cursor, log, -, hvisit⟩ | hvisit⟩
    · rw [Cluster.ringFrom, hvisit]
      exact ih (i + 1) l hc
    · rw [Cluster.ringFrom, hvisit]
      have hstill : (c.replace i { w with cursor := cursor }
          { c.commons with log := log }).Still := hc.replace hw rfl rfl rfl rfl rfl
      rcases ih (i + 1) l' hstill with ⟨l'', c', heq, hc', hsize⟩ | hfault
      · exact .inl ⟨l'', c', heq, hc', hsize.trans Cluster.size_replace⟩
      · exact .inr hfault
    · rw [Cluster.ringFrom, hvisit]
      exact .inr ⟨_, _, rfl⟩

theorem Check.halts_ring (errand : Errand) : Halts plan (ring errand : RunM N σ Unit) := by
  refine .of_eq fun r hr => ?_
  rcases hr.still.ringFrom_cases errand r.cluster.workers.size 0 r.ledger with
    ⟨l', c', heq, hc', hsize⟩ | ⟨f, c', heq⟩
  · exact ⟨.ok (), { r with cluster := c', ledger := l' }, by simp,
      fun _ _ => ⟨hc', hsize.trans hr.size⟩,
      fun left => ring_of_eq (r := { r with left := left }) heq⟩
  · exact ⟨.error (.fault f), { r with cluster := c' }, by simp, by simp,
      fun left => ring_of_eq (r := { r with left := left }) heq⟩

section Superstep

variable [Std.TransOrd N] [Std.LawfulEqOrd N]

theorem Cluster.size_drive (task : Task N σ) (turns : Nat → Turn) (left time : Nat)
    (c : Cluster N σ) : (c.drive task turns left time).2.2.workers.size = c.workers.size := by
  induction left generalizing time c with
  | zero => rfl
  | succ left ih =>
    rw [drive]
    split
    · rfl
    · rw [ih, size_turn]

variable [Finite N]

/-- **Every pass comes to its end** from where the workers are still, whatever the graph answers. -/
theorem Cluster.Still.settles {c : Cluster N σ} (hc : c.Still) (l : Ledger N) (task : Task N σ)
    {turns : Nat → Turn} (hfair : Turn.Fair c.workers.size turns) (time : Nat) :
    (c.arm l).Settles task turns time := by
  obtain ⟨bound, hb⟩ := (c.arm l).exists_takesOnAtMost task turns time
  refine (hc.balanced_arm l).manned.settles ?_ hb
  rwa [arm, Array.size_map]

theorem Check.halts_superstep (hfair : plan.Fair) (pass : Pass) :
    Halts plan (superstep plan pass) := by
  intro r hr
  obtain ⟨n, c', hsettled, hdrive⟩ := hr.still.settles r.ledger
    ⟨plan.graph, plan.config.reduction, pass⟩ (hr.size.symm ▸ hfair : Turn.Fair _ plan.turns) r.time
  have hworkers (left : Nat) : driveWorkers plan pass { r with left := n + left } =
      { r with cluster := c', time := r.time + n, left := left } := by
    simp only [driveWorkers, hdrive]
  have hend : ((r.cluster.arm r.ledger).drive ⟨plan.graph, plan.config.reduction, pass⟩ plan.turns
      (n + 0) r.time).2.2 = c' := by
    rw [hdrive 0]
  have hsize : c'.workers.size = plan.config.peers := by
    rw [← hend, Cluster.size_drive, Cluster.arm, Array.size_map]
    exact hr.size
  cases hlost : c'.commons.lost with
  | some worker =>
    refine ⟨n, .error (.fault (.workerLost worker)), { r with cluster := c', time := r.time + n },
      by simp, by simp, fun left => ?_⟩
    simp only [superstep_eq, hworkers, hsettled, if_true, hlost]
  | none =>
    cases hfault : c'.firstFault with
    | some fault =>
      refine ⟨n, .error (.fault fault), { r with cluster := c', time := r.time + n },
        by simp, by simp, fun left => ?_⟩
      simp only [superstep_eq, hworkers, hsettled, if_true, hlost, hfault]
    | none =>
      refine ⟨n, .ok (), collect { r with cluster := c', time := r.time + n }, by simp,
        fun _ _ => ⟨?_, hsize⟩, fun left => ?_⟩
      · rw [← hend] at hlost hsettled ⊢
        exact ((hr.still.balanced_arm r.ledger).drive hlost).still hsettled
      · simp only [superstep_eq, hworkers, hsettled, if_true, hlost, hfault]
        rfl

/-! ## 3. The whole run -/

theorem Check.composable_halts (hfair : plan.Fair) :
    Composable plan (fun _ => True) fun x => Halts plan x where
  ret a := .of_eq fun r hr => ⟨.ok a, r, by simp, fun _ _ => hr, fun _ => rfl⟩
  fail _ := .throws _ (by simp)
  crash := .throws _ (by simp)
  bind := .bind
  read := .read
  note f := .of_eq fun r hr =>
    ⟨.ok (), { r with ledger := f r.ledger }, by simp, fun _ _ => ⟨hr.still, hr.size⟩, fun _ => rfl⟩
  record e := .of_eq fun r hr => ⟨.ok (), { r with cluster := r.cluster.record e }, by simp,
    fun _ _ => ⟨⟨hr.still.lost, hr.still.inboxes, hr.still.letters, hr.still.id, hr.still.peers,
      hr.still.queue⟩, hr.size⟩, fun _ => rfl⟩
  demand := .demand
  ring := halts_ring
  superstep _ := halts_superstep hfair _

/-- **A check comes to its end** if every worker gets a turn again and again: with enough turns it
does not end for want of turns, and more turns than these change nothing. -/
theorem Check.exists_enough [DecidableEq N] (hfair : plan.Fair) (memory : σ) :
    ∃ (enough : Nat) (result : Except Stop (Report N)), result ≠ .error .outOfTurns ∧
      ∀ limit, enough ≤ limit →
        (run plan { cluster := .create plan.config.peers memory, left := limit }).1 = result := by
  obtain ⟨n, result, r', hne, -, hn⟩ := (composable_halts hfair).run
    (fun _ => trivial) { cluster := .create plan.config.peers memory, left := 0 }
    ⟨Cluster.still_create _ _, by simp [Cluster.create]⟩
  refine ⟨n, result, hne, fun limit hlimit => ?_⟩
  obtain ⟨more, rfl⟩ := Nat.exists_eq_add_of_le hlimit
  rw [hn more]

end Superstep

end FairCycle
