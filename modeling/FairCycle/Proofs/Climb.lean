/-
# Chains of parents

Following parents from a state leads back to the state that a search started from, along edges and
without coming to a state twice.  `Climbs` says so and names the path.

Which parents count is left open: after the exploration all do, after a trace only those of states
that the trace has stamped.
-/
import Mathlib.Data.List.Chain
import FairCycle.Proofs.Partition

namespace FairCycle

variable {N σ : Type} [Ord N]

/-- Following parents from a state leads to `root`, along the path given; the marks on the way
satisfy `ok`. -/
inductive Climbs (t : Terrain N σ) (ok : Mark → Prop) (T : Nat → Table N) (root : N) :
    List N → N → Prop
  | root {m : Mark} (hm : t.markOf T root = some m) (hok : ok m) : Climbs t ok T root [root] root
  | step {path : List N} {u v : N} {m : Mark} {h : Handle} (hne : v ≠ root)
      (hm : t.markOf T v = some m) (hok : ok m) (hp : m.parent = some h)
      (hu : t.handleOf T u = some h) (he : t.Edge u v) (hc : Climbs t ok T root path u) :
      Climbs t ok T root (path ++ [v]) v

namespace Climbs

variable {t : Terrain N σ} {ok : Mark → Prop} {T T' : Nat → Table N} {root u v : N}
  {path : List N} {m : Mark}

/-- A chain of parents stays one as long as no parent on it changes.  The parent of the root does
not count. -/
theorem transfer {ok' : Mark → Prop}
    (hmark : ∀ {x m}, t.markOf T x = some m → ok m →
      ∃ m', t.markOf T' x = some m' ∧ ok' m' ∧ (x = root ∨ m'.parent = m.parent))
    (hhandle : ∀ {x h}, t.handleOf T x = some h → t.handleOf T' x = some h)
    (hc : Climbs t ok T root path u) : Climbs t ok' T' root path u := by
  induction hc with
  | root hm hok =>
    obtain ⟨m', hm', hok', -⟩ := hmark hm hok
    exact .root hm' hok'
  | step hne hm hok hp hu he hc ih =>
    obtain ⟨m', hm', hok', hparent⟩ := hmark hm hok
    exact .step hne hm' hok' ((hparent.resolve_left hne).trans hp) (hhandle hu) he ih

/-- Writing a mark leaves a chain of parents, if it does not change a parent that counts. -/
theorem mono (hw : t.Writes T v m T')
    (hv : ∀ m₀, t.markOf T v = some m₀ → ok m₀ → ok m ∧ (v = root ∨ m.parent = m₀.parent))
    (hc : Climbs t ok T root path u) : Climbs t ok T' root path u := by
  refine hc.transfer (fun {x m₀} hm₀ hok => ?_) hw.handle
  rcases eq_or_ne x v with rfl | hne
  · exact ⟨m, hw.mark_self, hv m₀ hm₀ hok⟩
  · exact ⟨m₀, (hw.mark_ne x hne).trans hm₀, hok, .inr rfl⟩

/-- A chain of parents is determined by its last state. -/
theorem unique (hT : t.Parted T) (hc : Climbs t ok T root path v) :
    ∀ {path' : List N}, Climbs t ok T root path' v → path = path' := by
  induction hc with
  | root hm hok =>
    intro path' hc'
    cases hc' with
    | root => rfl
    | step hne => exact absurd rfl hne
  | @step path u v m h hne hm hok hp hu he hc ih =>
    intro path' hc'
    cases hc' with
    | root => exact absurd rfl hne
    | step _ hm' _ hp' hu' _ hc' =>
      obtain rfl := Option.some.inj (hm.symm.trans hm')
      obtain rfl := Option.some.inj (hp.symm.trans hp')
      obtain rfl := hT.handle_inj hu hu'
      rw [ih hc']

theorem getLast? (hc : Climbs t ok T root path v) : path.getLast? = some v := by
  cases hc with
  | root => rfl
  | step => exact List.getLast?_concat

theorem head? (hc : Climbs t ok T root path v) : path.head? = some root := by
  induction hc with
  | root => rfl
  | step _ _ _ _ _ _ _ ih => rw [List.head?_append, ih]; rfl

theorem isChain (hc : Climbs t ok T root path v) : path.IsChain t.Edge := by
  induction hc with
  | root => exact List.isChain_singleton _
  | step hne hm hok hp hu he hc ih =>
    refine ih.append (List.isChain_singleton _) fun x hx y hy => ?_
    obtain rfl := Option.some.inj (hc.getLast?.symm.trans hx)
    obtain rfl := Option.some.inj (hy : some _ = some y)
    exact he

/-- Every state on the way has a chain of its own, the first part of the whole one. -/
theorem exists_of_mem (hc : Climbs t ok T root path v) {x : N} (hx : x ∈ path) :
    ∃ front, front <+: path ∧ Climbs t ok T root front x := by
  induction hc with
  | root hm hok =>
    obtain rfl := List.mem_singleton.mp hx
    exact ⟨_, List.prefix_rfl, .root hm hok⟩
  | @step path u v m h hne hm hok hp hu he hc ih =>
    rcases List.mem_append.mp hx with hx | hx
    · obtain ⟨front, hfront, hcx⟩ := ih hx
      exact ⟨front, hfront.trans (List.prefix_append _ _), hcx⟩
    · obtain rfl := List.mem_singleton.mp hx
      exact ⟨_, List.prefix_rfl, .step hne hm hok hp hu he hc⟩

/-- **No state comes twice on a chain of parents.** -/
theorem nodup (hT : t.Parted T) (hc : Climbs t ok T root path v) : path.Nodup := by
  induction hc with
  | root => exact List.nodup_singleton _
  | @step path u v m h hne hm hok hp hu he hc ih =>
    refine List.nodup_append.mpr ⟨ih, List.nodup_singleton _, fun x hx y hy hxy => ?_⟩
    obtain rfl := List.mem_singleton.mp hy
    obtain rfl := hxy
    obtain ⟨front, hfront, hcx⟩ := hc.exists_of_mem hx
    have heq := hcx.unique hT (.step hne hm hok hp hu he hc)
    have hlen := hfront.length_le
    rw [heq, List.length_append, List.length_singleton] at hlen
    omega

theorem exists_mark (hc : Climbs t ok T root path v) : ∃ m, t.markOf T v = some m ∧ ok m := by
  cases hc with
  | root hm hok => exact ⟨_, hm, hok⟩
  | step _ hm hok => exact ⟨_, hm, hok⟩

/-- A chain of parents is no longer than there are states with marks that count. -/
theorem length_le (hT : t.Parted T) (hc : Climbs t ok T root path v) {X : Finset N}
    (hX : ∀ {x m}, t.markOf T x = some m → ok m → x ∈ X) : path.length ≤ X.card := by
  classical
  rw [← List.toFinset_card_of_nodup (hc.nodup hT)]
  refine Finset.card_le_card fun x hx => ?_
  obtain ⟨front, -, hcx⟩ := hc.exists_of_mem (List.mem_toFinset.mp hx)
  obtain ⟨m, hm, hok⟩ := hcx.exists_mark
  exact hX hm hok

end Climbs

end FairCycle
