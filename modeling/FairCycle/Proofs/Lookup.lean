/-
# Tables, state by state

A table is a function in disguise: it says of every state under which handle it is stored
(`Table.find?`) and what is noted of it (`Table.markOf`).  Handling an edge writes the mark of its
target and stores the target before that if it is new; `Table.Puts` says so, and everything that
the passes do to a table is of that form.

A handle is two words, so it names its state only as long as the numbers fit (`Table.Fits`).

Storing with a fingerprint does one of three things: it refuses a state that belongs elsewhere,
finds one that is there, or puts a new one behind the others (section 4).
-/
import Mathlib.Algebra.Group.Nat.Defs
import Mathlib.Data.List.Nodup
import FairCycle.Table

namespace FairCycle

namespace Table

variable {N : Type} [Ord N]

/-! ## 1. What is noted of a state -/

/-- The mark of a state, if it is stored. -/
def markOf (t : Table N) (node : N) : Option Mark := t.index[node]?.bind (t.marks[·]?)

theorem index_eq_some {t : Table N} {node : N} {slot : Nat} :
    t.index[node]? = some slot ↔ t.nodes[slot]? = some node := t.index_iff node slot

theorem slot_lt {t : Table N} {node : N} {slot : Nat} (h : t.nodes[slot]? = some node) :
    slot < t.size := (Array.getElem?_eq_some_iff.mp h).1

theorem find?_eq_some_iff {t : Table N} {node : N} {h : Handle} :
    t.find? node = some h ↔ ∃ slot : Nat, t.nodes[slot]? = some node ∧ t.handle slot = h := by
  simp only [find?, Option.map_eq_some_iff, index_eq_some]

theorem find?_eq_none_iff {t : Table N} {node : N} :
    t.find? node = none ↔ ∀ slot : Nat, t.nodes[slot]? ≠ some node := by
  rw [find?, Option.map_eq_none_iff, Option.eq_none_iff_forall_ne_some]
  exact forall_congr' fun slot => not_congr index_eq_some

theorem markOf_eq_some_iff {t : Table N} {node : N} {m : Mark} :
    t.markOf node = some m ↔
      ∃ slot : Nat, t.nodes[slot]? = some node ∧ t.marks[slot]? = some m := by
  simp only [markOf, Option.bind_eq_some_iff, index_eq_some]

/-- A state has a mark exactly when it has a handle. -/
theorem isSome_markOf (t : Table N) (node : N) :
    (t.markOf node).isSome = (t.find? node).isSome := by
  unfold markOf find?
  cases hs : t.index[node]? with
  | none => rfl
  | some slot =>
    have hlt : slot < t.marks.size := by
      rw [t.size_marks]; exact slot_lt (index_eq_some.mp hs)
    simp [hlt]

theorem markOf_eq_none_iff {t : Table N} {node : N} :
    t.markOf node = none ↔ t.find? node = none := by
  rw [← Option.not_isSome_iff_eq_none, isSome_markOf, Option.not_isSome_iff_eq_none]

theorem exists_handle {t : Table N} {node : N} {m : Mark} (h : t.markOf node = some m) :
    ∃ handle, t.find? node = some handle := by
  rw [← Option.isSome_iff_exists, ← isSome_markOf, h]
  rfl

theorem exists_mark {t : Table N} {node : N} {handle : Handle} (h : t.find? node = some handle) :
    ∃ m, t.markOf node = some m := by
  rw [← Option.isSome_iff_exists, isSome_markOf, h]
  rfl

/-- The pairs of states and marks are those that the table says. -/
theorem mem_entries {t : Table N} {node : N} {m : Mark} :
    (node, m) ∈ t.entries ↔ t.markOf node = some m := by
  rw [markOf_eq_some_iff, entries, List.mem_iff_getElem?]
  refine exists_congr fun slot => ?_
  rw [List.getElem?_zip_eq_some, Array.getElem?_toList, Array.getElem?_toList]

/-- The states that are stored, each once. -/
theorem nodup_nodes (t : Table N) : t.nodes.toList.Nodup := by
  rw [List.nodup_iff_injective_getElem]
  intro i j hij
  have hi : t.nodes[(i : Nat)]? = some t.nodes.toList[(i : Nat)] := by
    rw [← Array.getElem?_toList, List.getElem?_eq_getElem i.isLt]
  have hj : t.nodes[(j : Nat)]? = some t.nodes.toList[(j : Nat)] := by
    rw [← Array.getElem?_toList, List.getElem?_eq_getElem j.isLt]
  exact Fin.ext (t.slot_unique (hi.trans (congrArg some hij)) hj)

theorem mem_nodes {t : Table N} {node : N} :
    node ∈ t.nodes.toList ↔ (t.markOf node).isSome := by
  rw [isSome_markOf, Option.isSome_iff_exists, List.mem_iff_getElem?]
  simp only [Array.getElem?_toList, find?_eq_some_iff]
  exact ⟨fun ⟨slot, h⟩ => ⟨_, slot, h, rfl⟩, fun ⟨_, slot, h, _⟩ => ⟨slot, h⟩⟩

theorem map_fst_entries (t : Table N) : t.entries.map Prod.fst = t.nodes.toList := by
  rw [entries, List.map_fst_zip]
  simp [t.size_marks]

/-! ## 2. Handles -/

theorem slot?_eq_some_iff {t : Table N} {h : Handle} {slot : Nat} :
    t.slot? h = some slot ↔ h.worker.toNat = t.worker ∧ h.slot.toNat = slot := by
  simp [slot?]

/-- A handle that leads to a mark is one of this table. -/
theorem mark?_eq_some_iff {t : Table N} {h : Handle} {m : Mark} :
    t.mark? h = some m ↔ h.worker.toNat = t.worker ∧ t.marks[h.slot.toNat]? = some m := by
  simp [mark?, Option.bind_eq_some_iff, slot?_eq_some_iff, and_assoc]

theorem node?_eq_some_iff {t : Table N} {h : Handle} {node : N} :
    t.node? h = some node ↔ h.worker.toNat = t.worker ∧ t.nodes[h.slot.toNat]? = some node := by
  simp [node?, Option.bind_eq_some_iff, slot?_eq_some_iff, and_assoc]

/-- The worker and the slots are numbers that a handle can hold. -/
structure Fits (t : Table N) : Prop where
  worker : t.worker < 2 ^ 32
  size : t.size ≤ 2 ^ 32

theorem Fits.handle_worker {t : Table N} (hf : t.Fits) (slot : Nat) :
    (t.handle slot).worker.toNat = t.worker :=
  Nat.mod_eq_of_lt hf.worker

theorem Fits.handle_slot {t : Table N} (hf : t.Fits) {slot : Nat} (h : slot < t.size) :
    (t.handle slot).slot.toNat = slot :=
  Nat.mod_eq_of_lt (Nat.lt_of_lt_of_le h hf.size)

theorem Fits.slot?_handle {t : Table N} (hf : t.Fits) {slot : Nat} (h : slot < t.size) :
    t.slot? (t.handle slot) = some slot := by
  rw [slot?, if_pos (hf.handle_worker slot), hf.handle_slot h]

/-- A handle of a table leads back to its state. -/
theorem Fits.node?_eq_some {t : Table N} (hf : t.Fits) {node : N} {h : Handle}
    (hh : t.find? node = some h) : t.node? h = some node := by
  obtain ⟨slot, hslot, rfl⟩ := find?_eq_some_iff.mp hh
  rw [node?, hf.slot?_handle (slot_lt hslot)]
  exact hslot

/-- A handle of a table leads to the mark of its state. -/
theorem Fits.mark?_eq {t : Table N} (hf : t.Fits) {node : N} {h : Handle}
    (hh : t.find? node = some h) : t.mark? h = t.markOf node := by
  obtain ⟨slot, hslot, rfl⟩ := find?_eq_some_iff.mp hh
  rw [mark?, hf.slot?_handle (slot_lt hslot), markOf, index_eq_some.mpr hslot]

/-- A handle names one state only. -/
theorem Fits.find?_inj {t : Table N} (hf : t.Fits) {u v : N} {h : Handle}
    (hu : t.find? u = some h) (hv : t.find? v = some h) : u = v :=
  Option.some.inj ((hf.node?_eq_some hu).symm.trans (hf.node?_eq_some hv))

/-- Fetching refuses a state that belongs elsewhere. -/
theorem fetch_of_foreign {t : Table N} {node : N} {hash : UInt64} (ho : t.owns hash = false) :
    t.fetch node hash = .error (.notOwner t.worker (owner hash t.peers)) := by
  rw [fetch, if_neg (by rw [ho]; decide)]

theorem fetch_of_owns {t : Table N} {node : N} {hash : UInt64} (ho : t.owns hash = true) :
    t.fetch node hash = .ok (t.find? node) := by
  rw [fetch, if_pos ho]

theorem find?_of_fetch {t : Table N} {node : N} {hash : UInt64} {found : Option Handle}
    (hfetch : t.fetch node hash = .ok found) : t.find? node = found := by
  cases ho : t.owns hash with
  | false => simp [fetch_of_foreign ho] at hfetch
  | true => exact Except.ok.inj ((fetch_of_owns ho).symm.trans hfetch)

/-! ## 3. Writing the mark of a state -/

/-- `t'` is `t` with the mark of `node` written, and `node` stored before that if it was new. -/
structure Puts (t : Table N) (node : N) (m : Mark) (t' : Table N) : Prop where
  worker : t'.worker = t.worker
  peers : t'.peers = t.peers
  nodes : t'.nodes = if (t.find? node).isSome then t.nodes else t.nodes.push node
  mark_self : t'.markOf node = some m
  mark_ne : ∀ other, other ≠ node → t'.markOf other = t.markOf other

namespace Puts

variable {t t' t'' : Table N} {node : N} {m m' : Mark}

theorem handle (h : t.Puts node m t') (slot : Nat) : t'.handle slot = t.handle slot := by
  rw [Table.handle, Table.handle, h.worker]

/-- A state that is stored keeps its slot. -/
theorem nodes_of_some (h : t.Puts node m t') {slot : Nat} {other : N}
    (hs : t.nodes[slot]? = some other) : t'.nodes[slot]? = some other := by
  rw [h.nodes]
  split
  · exact hs
  · have hlt : slot < t.nodes.size := slot_lt hs
    rw [Array.getElem?_push, if_neg (Nat.ne_of_lt hlt)]
    exact hs

/-- A state that is stored keeps its handle. -/
theorem find?_of_some (h : t.Puts node m t') {other : N} {k : Handle}
    (hk : t.find? other = some k) : t'.find? other = some k := by
  obtain ⟨slot, hslot, rfl⟩ := find?_eq_some_iff.mp hk
  exact find?_eq_some_iff.mpr ⟨slot, h.nodes_of_some hslot, h.handle slot⟩

/-- The written state is stored. -/
theorem exists_find? (h : t.Puts node m t') : ∃ k, t'.find? node = some k :=
  exists_handle h.mark_self

/-- A new state is put behind the others. -/
theorem nodes_of_new (h : t.Puts node m t') (hk : t.find? node = none) :
    t'.nodes = t.nodes.push node := by
  rw [h.nodes, hk]
  rfl

theorem find?_of_new (h : t.Puts node m t') (hk : t.find? node = none) :
    t'.find? node = some (t.handle t.size) := by
  refine find?_eq_some_iff.mpr ⟨t.size, ?_, h.handle _⟩
  rw [h.nodes_of_new hk]
  simp [Table.size]

/-- A new state leaves the marks of the others alone. -/
theorem markOf_of_new (h : t.Puts node m t') (hk : t.find? node = none) {other : N}
    (hm : t.markOf other = some m') : t'.markOf other = some m' := by
  rw [h.mark_ne other fun heq => ?_, hm]
  rw [heq, markOf_eq_none_iff.mpr hk] at hm
  simp at hm

/-- Of two marks written to one state the later one stays. -/
theorem trans (h : t.Puts node m t') (h' : t'.Puts node m' t'') : t.Puts node m' t'' where
  worker := h'.worker.trans h.worker
  peers := h'.peers.trans h.peers
  nodes := by
    obtain ⟨k, hk⟩ := h.exists_find?
    rw [h'.nodes, hk, Option.isSome_some, if_pos rfl, h.nodes]
  mark_self := h'.mark_self
  mark_ne other hne := (h'.mark_ne other hne).trans (h.mark_ne other hne)

/-- Writing what is there already changes nothing. -/
theorem refl (h : t.markOf node = some m) : t.Puts node m t where
  worker := rfl
  peers := rfl
  nodes := by rw [if_pos (by rw [← isSome_markOf, h]; rfl)]
  mark_self := h
  mark_ne _ _ := rfl

end Puts

/-- Writing a mark behind the handle of a state writes the mark of that state. -/
theorem Fits.puts_setMark {t : Table N} (hf : t.Fits) {node : N} {h : Handle}
    (hh : t.find? node = some h) (m : Mark) : t.Puts node m (t.setMark h m) := by
  obtain ⟨slot, hslot, rfl⟩ := find?_eq_some_iff.mp hh
  have hlt := slot_lt hslot
  have hset : (t.setMark (t.handle slot) m).marks = t.marks.setIfInBounds slot m := by
    rw [setMark, if_pos (hf.handle_worker slot)]
    simp only [hf.handle_slot hlt]
  refine ⟨worker_setMark t _ m, peers_setMark t _ m, ?_, ?_, ?_⟩
  · rw [hh, Option.isSome_some, if_pos rfl, nodes_setMark]
  · refine markOf_eq_some_iff.mpr ⟨slot, by rwa [nodes_setMark], ?_⟩
    rw [hset, Array.getElem?_setIfInBounds_self_of_lt (by rw [t.size_marks]; exact hlt)]
  · intro other hne
    refine Option.ext fun k => ?_
    rw [markOf_eq_some_iff, markOf_eq_some_iff, nodes_setMark, hset]
    refine exists_congr fun i => and_congr_right fun hi => ?_
    have hi : slot ≠ i := fun heq => hne (Option.some.inj (hi.symm.trans (heq ▸ hslot)))
    rw [Array.getElem?_setIfInBounds_ne hi]

/-- Changing every mark changes what is noted of every state. -/
theorem markOf_mapMarks (t : Table N) (f : Mark → Mark) (node : N) :
    (t.mapMarks f).markOf node = (t.markOf node).map f := by
  rw [markOf, markOf, Option.map_bind]
  refine congrArg _ (funext fun slot => ?_)
  exact Array.getElem?_map

theorem find?_mapMarks (t : Table N) (f : Mark → Mark) (node : N) :
    (t.mapMarks f).find? node = t.find? node := rfl

variable [Std.TransOrd N] [Std.LawfulEqOrd N]

/-- Storing a state that is there already. -/
theorem insert_of_find? {t : Table N} {node : N} {h : Handle} (hh : t.find? node = some h) :
    ∃ slot, t.insert node = (slot, false, t) ∧ t.handle slot = h := by
  obtain ⟨slot, hslot, rfl⟩ := find?_eq_some_iff.mp hh
  exact ⟨slot, insert_of_known hslot, rfl⟩

/-- Storing a state that is new. -/
theorem puts_insert_of_none {t : Table N} {node : N} (hn : t.find? node = none) :
    ∃ t', t.insert node = (t.size, true, t') ∧ t.Puts node {} t' ∧
      t'.marks = t.marks.push {} := by
  obtain ⟨t', hins, hw, hp, hnodes, hmarks⟩ := insert_of_new (find?_eq_none_iff.mp hn)
  have hsize : t.marks.size = t.nodes.size := t.size_marks
  refine ⟨t', hins, ⟨hw, hp, by rw [hn, hnodes]; rfl, ?_, ?_⟩, hmarks⟩
  · refine markOf_eq_some_iff.mpr ⟨t.nodes.size, by rw [hnodes]; simp, ?_⟩
    rw [hmarks, ← hsize]
    simp
  · intro other hne
    refine Option.ext fun k => ?_
    rw [markOf_eq_some_iff, markOf_eq_some_iff, hnodes, hmarks]
    refine exists_congr fun i => ?_
    rw [Array.getElem?_push, Array.getElem?_push, hsize]
    by_cases hi : i = t.nodes.size
    · subst hi
      simp [hne.symm]
    · rw [if_neg hi, if_neg hi]

/-! ## 4. Storing with a fingerprint -/

section Store

variable {t : Table N} {node : N} {hash : UInt64}

/-- A state that belongs elsewhere is refused. -/
theorem store_of_foreign (ho : t.owns hash = false) :
    t.store node hash = (.error (.notOwner t.worker (owner hash t.peers)), t) := by
  rw [store, if_neg (by rw [ho]; decide)]

/-- A state that is there already is found. -/
theorem store_of_find? {h : Handle} (ho : t.owns hash = true) (hh : t.find? node = some h) :
    t.store node hash = (.ok (h, false), t) := by
  obtain ⟨slot, hins, rfl⟩ := insert_of_find? hh
  rw [store, if_pos ho, hins]

/-- A new state is put behind the others. -/
theorem store_of_none (ho : t.owns hash = true) (hn : t.find? node = none) :
    ∃ t', t.store node hash = (.ok (t.handle t.size, true), t') ∧ t.Puts node {} t' ∧
      t'.marks = t.marks.push {} := by
  obtain ⟨t', hins, hput, hmarks⟩ := puts_insert_of_none hn
  refine ⟨t', ?_, hput, hmarks⟩
  rw [store, if_pos ho, hins, ← hput.handle]

/-- Storing a state leaves the table as it is, or puts the state behind the others with a blank
mark. -/
theorem store_cases (t : Table N) (node : N) (hash : UInt64) :
    ((t.store node hash).2 = t ∧ ∀ h, (t.store node hash).1 ≠ .ok (h, true)) ∨
      (t.owns hash = true ∧ t.find? node = none ∧ t.Puts node {} (t.store node hash).2 ∧
        (t.store node hash).2.marks = t.marks.push {}) := by
  cases howns : t.owns hash with
  | false =>
    rw [store_of_foreign howns]
    exact .inl ⟨rfl, fun h heq => absurd heq (by simp)⟩
  | true =>
    cases hfind : t.find? node with
    | some k =>
      rw [store_of_find? howns hfind]
      exact .inl ⟨rfl, fun h heq => absurd heq (by simp)⟩
    | none =>
      obtain ⟨t', hst, hput, hmarks⟩ := store_of_none howns hfind
      rw [hst]
      exact .inr ⟨rfl, rfl, hput, hmarks⟩

end Store

end Table

end FairCycle
