/-
# Tables only grow

Whatever graph a pass runs over, and however a step of it ends, no state that was stored is ever
forgotten, and of the fields of its mark the one that says whether it is accepting is only written
when the graph has been asked.  `Table.Grows` says so, and says which states may have been stored
in the meantime.

Nothing here relies on the graph answering equal questions equally.
-/
import FairCycle.Proofs.Rules

namespace FairCycle

open Desk StepM

/-! ## 1. Growth of a table -/

variable {N σ : Type} [Ord N]

/-- `T'` has all the states of `T`, and otherwise only such as are `new`.  Of a state that both
have it says the same about being accepting, or something that the graph has said. -/
structure Table.Grows (g : Graph N σ) (new : N → Prop) (T T' : Table N) : Prop where
  worker : T'.worker = T.worker
  peers : T'.peers = T.peers
  stored : ∀ {v : N}, v ∈ T'.nodes.toList → v ∈ T.nodes.toList ∨ new v
  marks : ∀ {v : N} {m : Mark}, T.markOf v = some m → ∃ m', T'.markOf v = some m' ∧
    (m'.inF = m.inF ∨ ∃ memory, (g.accepting v memory).1 = some m'.inF)

namespace Table.Grows

variable {g : Graph N σ} {new : N → Prop} {T T' T'' : Table N} {h : Handle} {m m' : Mark}

theorem refl (g : Graph N σ) (new : N → Prop) (T : Table N) : T.Grows g new T where
  worker := rfl
  peers := rfl
  stored := .inl
  marks hm := ⟨_, hm, .inl rfl⟩

theorem trans (h : T.Grows g new T') (h' : T'.Grows g new T'') : T.Grows g new T'' where
  worker := h'.worker.trans h.worker
  peers := h'.peers.trans h.peers
  stored hv := (h'.stored hv).elim h.stored .inr
  marks hm := by
    obtain ⟨m', hm', hF⟩ := h.marks hm
    obtain ⟨m'', hm'', hF'⟩ := h'.marks hm'
    refine ⟨m'', hm'', ?_⟩
    rcases hF' with hF' | hF'
    · rw [hF']
      exact hF
    · exact .inr hF'

/-- Writing a mark that says of its state what was said before, or what the graph has said. -/
theorem setMark (hT : T.Grows g new T') (hm : T'.mark? h = some m)
    (hF : m'.inF = m.inF ∨
      ∃ v memory, T'.node? h = some v ∧ (g.accepting v memory).1 = some m'.inF) :
    T.Grows g new (T'.setMark h m') := by
  refine hT.trans ⟨worker_setMark .., peers_setMark .., ?_, fun {v k} hk => ?_⟩
  · intro v hv
    exact .inl (by rwa [nodes_setMark] at hv)
  · rcases markOf_setMark hm m' v with ⟨hv, hnode, hv'⟩ | hsame
    · obtain rfl := Option.some.inj (hv.symm.trans hk)
      refine ⟨m', hv', hF.imp_right ?_⟩
      rintro ⟨u, memory, hu, ha⟩
      exact ⟨memory, by rwa [Option.some.inj (hnode.symm.trans hu)]⟩
    · exact ⟨k, hsame.trans hk, .inl rfl⟩

/-- Changing all marks, but not what they say about being accepting. -/
theorem mapMarks (hT : T.Grows g new T') {f : Mark → Mark} (hf : ∀ m, (f m).inF = m.inF) :
    T.Grows g new (T'.mapMarks f) := by
  refine hT.trans ⟨rfl, rfl, .inl, fun {v k} hk => ⟨f k, ?_, .inl (hf k)⟩⟩
  rw [markOf_mapMarks, hk]
  rfl

variable [Std.TransOrd N] [Std.LawfulEqOrd N]

/-- Storing a state that belongs here. -/
theorem store (hT : T.Grows g new T') {v : N} {hash : UInt64}
    (hv : T'.owns hash = true → new v) : T.Grows g new (T'.store v hash).2 := by
  rcases T'.store_cases v hash with ⟨hsame, -⟩ | ⟨howns, hfind, hput, -⟩
  · rwa [hsame]
  · refine hT.trans ⟨hput.worker, hput.peers, fun {u} hu => ?_,
      fun {u k} hk => ⟨k, hput.markOf_of_new hfind hk, .inl rfl⟩⟩
    simp only [hput.nodes_of_new hfind, Array.toList_push, List.mem_append,
      List.mem_singleton] at hu
    exact hu.imp_right fun heq => by rw [heq]; exact hv howns

end Table.Grows

/-! ## 2. Handling an edge -/

section Handling

variable {g : Graph N σ} {new : N → Prop} {T : Table N} {d : Desk N} {h : Handle}

/-- The desks with a table that has grown out of `T`. -/
def Desk.Grown (g : Graph N σ) (new : N → Prop) (T : Table N) (d : Desk N) : Prop :=
  T.Grows g new d.table

/-- What a pass writes says of the state what was said before, or what the graph has said. -/
theorem Pass.Writes.inF {pass : Pass} {m m' : Mark} (hw : pass.Writes g d h m m') :
    m'.inF = m.inF ∨
      ∃ v memory, d.table.node? h = some v ∧ (g.accepting v memory).1 = some m'.inF := by
  cases hw with
  | parent => left; rw [Mark.inF_eq, Mark.fields_setParentOnce, Mark.inF_eq]
  | ancestor => exact .inl rfl
  | @acceptance v memory _ hv ha =>
    refine .inr ⟨v, memory, hv, ?_⟩
    rw [ha, Mark.inF_eq, Mark.fields_setInS, Mark.fields_setInF]
  | counts hm => left; rw [Mark.inF_eq, Mark.fields_setInS, Mark.fields_countUp hm, Mark.inF_eq]
  | visits hm =>
    left
    rw [Mark.inF_eq, Mark.fields_setIteration, Mark.fields_setInS, Mark.fields_countUp hm,
      Mark.inF_eq]
  | uncounts hm => left; rw [Mark.inF_eq, (Mark.fields_countDown hm).2, Mark.inF_eq]
  | drops => left; rw [Mark.inF_eq, Mark.fields_setInS, Mark.inF_eq]
  | stamps => left; rw [Mark.inF_eq, Mark.fields_setIteration, Mark.inF_eq]
  | closes => exact .inl rfl
  | traces =>
    left
    rw [Mark.inF_eq, Mark.fields_replaceParent, Mark.fields_setIteration, Mark.inF_eq]

theorem keeps_grown (g : Graph N σ) (pass : Pass) (new : N → Prop) (T : Table N) :
    pass.Keeps g (Grown g new T) where
  writes hm hw hd := Table.Grows.setMark hd hm hw.inF
  notes _ hd := hd
  enters _ _ hd := hd

variable [Std.TransOrd N] [Std.LawfulEqOrd N]

/-- **Handling an edge lets the table grow**, by the target of the edge at most, and by that only
if it belongs here. -/
theorem grows_handleEdge (task : Task N σ) (e : Edge N) (d : Desk N) (memory : σ) :
    d.table.Grows task.graph
      (fun v => v = e.target ∧ ∃ memory, d.table.owns (task.graph.hash v memory).1 = true)
      (handleEdge task e (d, memory)).2.1.table :=
  (keeps_grown task.graph task.pass _ d.table).handleEdge
    (fun hd => hd.store fun howns => ⟨rfl, memory, howns⟩) (.refl _ _ _)

end Handling

/-! ## 3. The start of a pass -/

section Start

variable {g : Graph N σ}

/-- The start of a pass stores nothing. -/
theorem grows_start (pass : Pass) (g : Graph N σ) (d : Desk N) (memory : σ) :
    d.table.Grows g (fun _ => False) (pass.start g (d, memory)).2.1.table := by
  rw [Pass.desk_start]
  cases pass with
  | reset =>
    refine (Table.Grows.refl g _ d.table).mapMarks fun m => ?_
    rw [Mark.inF_eq, Mark.fields_startRound, Mark.inF_eq]
  | explore | reach | eliminate | search | trace => exact .refl g _ d.table

theorem mem_of_node? {T : Table N} {h : Handle} {v : N} (hv : T.node? h = some v) :
    v ∈ T.nodes.toList := by
  obtain ⟨slot, -, hslot⟩ := Option.bind_eq_some_iff.mp hv
  exact List.mem_of_getElem? (by rwa [Array.getElem?_toList])

theorem mem_of_filter_entries {p : N × Mark → Bool} {T : Table N} {v : N}
    (hv : v ∈ (T.entries.filter p).map Prod.fst) : v ∈ T.nodes.toList := by
  rw [← Table.map_fst_entries]
  exact List.map_subset _ (List.filter_subset_self _) hv

theorem mem_of_ownNode {h : Option Handle} {d d' : Desk N} {seeds : List N}
    (hx : (ownNode h : DeskM N (List N)) d = (.ok seeds, d')) {v : N} (hv : v ∈ seeds) :
    v ∈ d'.table.nodes.toList := by
  have hstays : d' = d := by rw [← snd_ownNode h d, hx]
  rw [hstays]
  cases h with
  | none =>
    obtain rfl := Except.ok.inj (Prod.mk.inj hx).1
    exact absurd hv List.not_mem_nil
  | some h =>
    rw [ownNode, DeskM.get_bind] at hx
    split at hx
    · rcases Desk.node_cases h d with ⟨u, hu, heq⟩ | heq
      · rw [DeskM.bind_ok heq] at hx
        obtain rfl := Except.ok.inj (Prod.mk.inj hx).1
        rw [List.mem_singleton.mp hv]
        exact mem_of_node? hu
      · rw [DeskM.bind_error heq] at hx
        exact absurd (Prod.mk.inj hx).1 (by simp)
    · obtain rfl := Except.ok.inj (Prod.mk.inj hx).1
      exact absurd hv List.not_mem_nil

/-- A pass starts from the initial state or from states that are stored. -/
theorem mem_of_start {pass : Pass} {d d' : Desk N} {memory memory' : σ} {seeds : List N}
    (hx : pass.start g (d, memory) = (.ok seeds, d', memory')) {v : N} (hv : v ∈ seeds) :
    v = g.initial ∨ v ∈ d'.table.nodes.toList := by
  cases pass with
  | explore =>
    obtain ⟨hash, p₁, -, hx₁⟩ := exists_of_bind_eq_ok hx
    obtain ⟨desk, p₂, -, hx₂⟩ := exists_of_bind_eq_ok hx₁
    split at hx₂
    · obtain rfl := Except.ok.inj (Prod.mk.inj hx₂).1
      exact .inl (List.mem_singleton.mp hv)
    · obtain rfl := Except.ok.inj (Prod.mk.inj hx₂).1
      exact absurd hv List.not_mem_nil
  | reset =>
    obtain rfl := Except.ok.inj (Prod.mk.inj hx).1
    exact absurd hv List.not_mem_nil
  | reach | eliminate =>
    obtain ⟨hseeds, hstate⟩ := Prod.mk.inj hx
    obtain rfl := Except.ok.inj hseeds
    obtain rfl := (Prod.mk.inj hstate).1
    exact .inr (mem_of_filter_entries hv)
  | search | trace =>
    obtain ⟨hseeds, hstate⟩ := Prod.mk.inj hx
    obtain rfl := (Prod.mk.inj hstate).1
    exact .inr (mem_of_ownNode (Prod.ext hseeds rfl) hv)

end Start

end FairCycle
