/-
# What is done to a table

A table is asked to store states, to find them again and to change what is noted of them, in any
order.  What it holds is read off these calls: the states of the stores that succeed, each where it
came first (`Table.nodes_after`).

A call at most puts one state behind the others, so all states keep their slots (`Table.Extends`)
and every handle that was given out stays the handle of its state (`Table.Given.find?`).  The mark
behind a handle is changed by the updates through that handle and by nothing else
(`Table.mark?_after`).  `Table.calls_keep_states` says so of everything that can be done to a new
table.
-/
import FairCycle.Proofs.Lookup

namespace FairCycle

namespace Table

variable {N : Type} [Ord N]

/-! ## 1. Tables that grow -/

/-- `t'` has every state of `t` where it stood. -/
structure Extends (t t' : Table N) : Prop where
  worker : t'.worker = t.worker
  peers : t'.peers = t.peers
  nodes : ∀ {slot : Nat} {node : N}, t.nodes[slot]? = some node → t'.nodes[slot]? = some node

namespace Extends

variable {t t' t'' : Table N}

theorem refl (t : Table N) : t.Extends t := ⟨rfl, rfl, id⟩

theorem trans (h : t.Extends t') (h' : t'.Extends t'') : t.Extends t'' where
  worker := h'.worker.trans h.worker
  peers := h'.peers.trans h.peers
  nodes hslot := h'.nodes (h.nodes hslot)

theorem size_le (h : t.Extends t') : t.size ≤ t'.size := by
  by_contra hgt
  have hlt : t'.size < t.nodes.size := Nat.lt_of_not_le hgt
  exact Nat.lt_irrefl _ (slot_lt (h.nodes (Array.getElem?_eq_getElem hlt)))

theorem fits (h : t.Extends t') (hf : t'.Fits) : t.Fits :=
  ⟨h.worker ▸ hf.worker, Nat.le_trans h.size_le hf.size⟩

/-- A state keeps its handle. -/
theorem find?_of_some (h : t.Extends t') {node : N} {k : Handle} (hk : t.find? node = some k) :
    t'.find? node = some k := by
  obtain ⟨slot, hslot, rfl⟩ := find?_eq_some_iff.mp hk
  refine find?_eq_some_iff.mpr ⟨slot, h.nodes hslot, ?_⟩
  rw [handle, handle, h.worker]

end Extends

/-! ## 2. Calls -/

/-- A call to a table. -/
inductive Call (N : Type) where
  | store (node : N) (hash : UInt64)
  | fetch (node : N) (hash : UInt64)
  /-- Change the mark behind a handle. -/
  | update (h : Handle) (change : Mark → Mark)

/-- The change that a call makes to the mark behind a handle, if it does. -/
def Call.changes (h : Handle) : Call N → List (Mark → Mark)
  | .update k change => if k = h then [change] else []
  | .store _ _ | .fetch _ _ => []

/-- Change the mark behind a handle.  A handle that leads nowhere changes nothing. -/
def update (t : Table N) (h : Handle) (change : Mark → Mark) : Table N :=
  match t.mark? h with
  | some m => t.setMark h (change m)
  | none => t

@[simp] theorem nodes_update (t : Table N) (h : Handle) (change : Mark → Mark) :
    (t.update h change).nodes = t.nodes := by
  unfold update
  cases t.mark? h <;> simp

theorem extends_update (t : Table N) (h : Handle) (change : Mark → Mark) :
    t.Extends (t.update h change) := by
  refine ⟨?_, ?_, fun hslot => by rwa [nodes_update]⟩
  all_goals
    unfold update
    cases t.mark? h <;> simp

/-- An update changes the mark behind its handle and no other. -/
theorem mark?_update {t : Table N} {h : Handle} {m : Mark} (hm : t.mark? h = some m) (k : Handle)
    (change : Mark → Mark) :
    (t.update k change).mark? h = some (if k = h then change m else m) := by
  by_cases hkh : k = h
  · subst hkh
    have hnode : (t.node? k).isSome := by rw [← isSome_mark?, hm]; rfl
    simp only [update, hm, if_true]
    exact mark?_setMark_self (change m) hnode
  · rw [if_neg hkh, update]
    cases t.mark? k with
    | none => exact hm
    | some other => exact (mark?_setMark_of_ne t (change other) (Ne.symm hkh)).trans hm

variable [Std.TransOrd N] [Std.LawfulEqOrd N]

/-- What a call makes of a table. -/
def call (t : Table N) : Call N → Table N
  | .store node hash => (t.store node hash).2
  | .fetch _ _ => t
  | .update h change => t.update h change

/-- A table after some calls. -/
def after (t : Table N) (calls : List (Call N)) : Table N := calls.foldl call t

/-- The state of a store that succeeds. -/
def accepts (t : Table N) : Call N → List N
  | .store node hash =>
    match (t.store node hash).1 with
    | .ok _ => [node]
    | .error _ => []
  | .fetch _ _ | .update _ _ => []

/-- The states of the stores that succeed, one after the other. -/
def stored (t : Table N) : List (Call N) → List N
  | [] => []
  | c :: calls => t.accepts c ++ (t.call c).stored calls

/-- A call gives out a handle for a state. -/
inductive Gives (t : Table N) : Call N → N → Handle → Prop where
  | store {node : N} {hash : UInt64} {h : Handle} {fresh : Bool}
      (hst : (t.store node hash).1 = .ok (h, fresh)) : Gives t (.store node hash) node h
  | fetch {node : N} {hash : UInt64} {h : Handle}
      (hfetch : t.fetch node hash = .ok (some h)) : Gives t (.fetch node hash) node h

/-- One of some calls gives out a handle for a state. -/
def Given (t : Table N) (calls : List (Call N)) (node : N) (h : Handle) : Prop :=
  ∃ before c later, calls = before ++ c :: later ∧ (t.after before).Gives c node h

theorem after_append (t : Table N) (before later : List (Call N)) :
    t.after (before ++ later) = (t.after before).after later := List.foldl_append

/-! ## 3. States keep their slots -/

theorem extends_store (t : Table N) (node : N) (hash : UInt64) :
    t.Extends (t.store node hash).2 := by
  rcases t.store_cases node hash with ⟨hsame, -⟩ | ⟨-, -, hput, -⟩
  · rw [hsame]
    exact .refl t
  · exact ⟨hput.worker, hput.peers, hput.nodes_of_some⟩

theorem extends_call (t : Table N) (c : Call N) : t.Extends (t.call c) := by
  cases c with
  | store node hash => exact t.extends_store node hash
  | fetch node hash => exact .refl t
  | update h change => exact t.extends_update h change

theorem extends_after (t : Table N) (calls : List (Call N)) : t.Extends (t.after calls) := by
  induction calls generalizing t with
  | nil => exact .refl t
  | cons c calls ih => exact (t.extends_call c).trans (ih (t.call c))

/-- The handle that a store gives is that of the state afterwards. -/
theorem find?_store {t : Table N} {node : N} {hash : UInt64} {h : Handle} {fresh : Bool}
    (hst : (t.store node hash).1 = .ok (h, fresh)) :
    (t.store node hash).2.find? node = some h := by
  cases howns : t.owns hash with
  | false => simp [store_of_foreign howns] at hst
  | true =>
    cases hfind : t.find? node with
    | some k =>
      rw [store_of_find? howns hfind] at hst ⊢
      cases hst
      exact hfind
    | none =>
      obtain ⟨t', hst', hput, -⟩ := store_of_none howns hfind
      rw [hst'] at hst ⊢
      cases hst
      exact hput.find?_of_new hfind

theorem Gives.find? {t : Table N} {c : Call N} {node : N} {h : Handle} (hg : t.Gives c node h) :
    (t.call c).find? node = some h := by
  cases hg with
  | store hst => exact find?_store hst
  | fetch hfetch => exact find?_of_fetch hfetch

/-- **A handle that was given out stays the handle of its state.** -/
theorem Given.find? {t : Table N} {calls : List (Call N)} {node : N} {h : Handle}
    (hg : t.Given calls node h) : (t.after calls).find? node = some h := by
  obtain ⟨before, c, later, rfl, hc⟩ := hg
  rw [after_append]
  exact ((t.after before).call c |>.extends_after later).find?_of_some hc.find?

/-! ## 4. Which states there are -/

section Stored

variable [DecidableEq N] {t : Table N} {seen : List N}

/-- A call adds the state that it stores to those that were seen. -/
theorem nodes_call (hseen : t.nodes.toList = seen.eraseDups) (c : Call N) :
    (t.call c).nodes.toList = (seen ++ t.accepts c).eraseDups := by
  cases c with
  | store node hash =>
    cases howns : t.owns hash with
    | false => simpa [call, accepts, store_of_foreign howns] using hseen
    | true =>
      have hmem : node ∈ seen ↔ (t.find? node).isSome := by
        rw [← List.mem_eraseDups, ← hseen, mem_nodes, isSome_markOf]
      cases hfind : t.find? node with
      | some h =>
        have hknown : node ∈ seen := by simp [hmem, hfind]
        simp only [call, accepts, store_of_find? howns hfind]
        rw [eraseDups_append_of_mem hknown, List.append_nil, hseen]
      | none =>
        have hnew : node ∉ seen := by simp [hmem, hfind]
        obtain ⟨t', hst, hput, -⟩ := store_of_none howns hfind
        simp only [call, accepts, hst]
        rw [eraseDups_append_of_notMem hnew, hput.nodes_of_new hfind, Array.toList_push, hseen]
  | fetch node hash => simpa [call, accepts] using hseen
  | update h change => simpa [call, accepts] using hseen

/-- **The states stand in the order in which they were first stored.** -/
theorem nodes_after (hseen : t.nodes.toList = seen.eraseDups) (calls : List (Call N)) :
    (t.after calls).nodes.toList = (seen ++ t.stored calls).eraseDups := by
  -- What was seen before goes along, since a later store may meet it again.
  induction calls generalizing t seen with
  | nil => simpa [after, stored] using hseen
  | cons c calls ih =>
    have hrest := ih (nodes_call hseen c)
    rwa [List.append_assoc] at hrest

theorem nodes_after_of_empty (ht : t.nodes = #[]) (calls : List (Call N)) :
    (t.after calls).nodes.toList = (t.stored calls).eraseDups := by
  have hseen : t.nodes.toList = ([] : List N).eraseDups := by
    rw [ht]
    rfl
  exact nodes_after hseen calls

/-- A table that was empty holds the states that were stored. -/
theorem mem_stored_iff (ht : t.nodes = #[]) {node : N} {calls : List (Call N)} :
    node ∈ t.stored calls ↔ ((t.after calls).find? node).isSome := by
  rw [← isSome_markOf, ← mem_nodes, nodes_after_of_empty ht, List.mem_eraseDups]

end Stored

/-! ## 5. What is noted of a state -/

/-- A store leaves the marks alone. -/
theorem mark?_store {t : Table N} {h : Handle} {m : Mark} (hm : t.mark? h = some m) (node : N)
    (hash : UInt64) : (t.store node hash).2.mark? h = some m := by
  rcases t.store_cases node hash with ⟨hsame, -⟩ | ⟨-, -, hput, hmarks⟩
  · rwa [hsame]
  · -- The blank mark of a new state comes behind the others.
    obtain ⟨hw, hmark⟩ := mark?_eq_some_iff.mp hm
    have hlt : h.slot.toNat < t.marks.size := (Array.getElem?_eq_some_iff.mp hmark).1
    refine mark?_eq_some_iff.mpr ⟨hput.worker ▸ hw, ?_⟩
    rw [hmarks, Array.getElem?_push, if_neg (Nat.ne_of_lt hlt), hmark]

theorem mark?_call {t : Table N} {h : Handle} {m : Mark} (hm : t.mark? h = some m) (c : Call N) :
    (t.call c).mark? h = some ((c.changes h).foldl (fun m change => change m) m) := by
  cases c with
  | store node hash => exact mark?_store hm node hash
  | fetch node hash => exact hm
  | update k change =>
    refine (mark?_update hm k change).trans ?_
    by_cases hkh : k = h <;> simp [Call.changes, hkh]

/-- **The mark behind a handle is changed only through that handle.** -/
theorem mark?_after {t : Table N} {h : Handle} {m : Mark} (hm : t.mark? h = some m)
    (calls : List (Call N)) :
    (t.after calls).mark? h =
      some ((calls.flatMap (Call.changes h)).foldl (fun m change => change m) m) := by
  induction calls generalizing t m with
  | nil => exact hm
  | cons c calls ih =>
    rw [List.flatMap_cons, List.foldl_append]
    exact ih (mark?_call hm c)

/-! ## 6. Answers -/

/-- A store of a state that belongs here gives the slot of the state, and the mark there is blank if
the state is new. -/
theorem store_of_owns {t : Table N} {node : N} {hash : UInt64} (howns : t.owns hash = true)
    (hf : (t.store node hash).2.Fits) :
    ∃ h fresh t', t.store node hash = (.ok (h, fresh), t') ∧ h.worker.toNat = t.worker ∧
      t'.nodes[h.slot.toNat]? = some node ∧ (fresh = true ↔ t.find? node = none) ∧
      (fresh = true → t'.mark? h = some {}) := by
  cases hfind : t.find? node with
  | some h =>
    rw [store_of_find? howns hfind] at hf ⊢
    obtain ⟨hw, hslot⟩ := node?_eq_some_iff.mp (hf.node?_eq_some hfind)
    exact ⟨h, false, t, rfl, hw, hslot, by simp, by simp⟩
  | none =>
    obtain ⟨t', hst, hput, -⟩ := store_of_none howns hfind
    have hnew : t'.find? node = some (t.handle t.size) := hput.find?_of_new hfind
    rw [hst] at hf ⊢
    obtain ⟨hw, hslot⟩ := node?_eq_some_iff.mp (hf.node?_eq_some hnew)
    refine ⟨_, true, t', rfl, hw.trans hput.worker, hslot, by simp, fun _ => ?_⟩
    rw [hf.mark?_eq hnew, hput.mark_self]

/-- **A table is an arena of states that only grows.**  Whatever is done to a new table, as long as
its slots can be told apart by handles:

* its states are those of the stores that succeed, in the order in which they were first stored;
* a store is refused exactly if the state belongs to another worker, and then changes nothing; else
  it gives the worker and the slot of the state, and a state that is new bears a blank mark;
* a fetch is refused under the same condition, and else it finds the states that were stored;
* a handle that was given out leads to its state at every later moment, and two states never have
  the same one;
* the mark behind a handle has gone through the updates through that handle, and nothing else has
  changed it. -/
theorem calls_keep_states [DecidableEq N] {worker peers : Nat} {start : Table N}
    (hstart : empty? worker peers = some start) (hworker : worker < 2 ^ 32)
    (calls : List (Call N)) (hsize : (start.after calls).size ≤ 2 ^ 32) :
    (start.after calls).nodes.toList = (start.stored calls).eraseDups ∧
    (∀ before node hash later, calls = before ++ .store node hash :: later →
      (hash.toNat % peers ≠ worker →
        (start.after before).store node hash =
          (.error (.notOwner worker (hash.toNat % peers)), start.after before)) ∧
      (hash.toNat % peers = worker → ∃ h fresh t,
        (start.after before).store node hash = (.ok (h, fresh), t) ∧
        h.worker.toNat = worker ∧ t.nodes[h.slot.toNat]? = some node ∧
        (fresh = true ↔ node ∉ start.stored before) ∧
        (fresh = true → t.mark? h = some ⟨none, 0, 0⟩))) ∧
    (∀ before node hash later, calls = before ++ .fetch node hash :: later →
      (hash.toNat % peers ≠ worker →
        (start.after before).fetch node hash =
          .error (.notOwner worker (hash.toNat % peers))) ∧
      (hash.toNat % peers = worker → ∃ found,
        (start.after before).fetch node hash = .ok found ∧
        (found.isSome ↔ node ∈ start.stored before) ∧
        ∀ h, found = some h → h.worker.toNat = worker ∧
          (start.after before).nodes[h.slot.toNat]? = some node)) ∧
    (∀ before later node h, calls = before ++ later → start.Given before node h →
      (start.after before).node? h = some node) ∧
    (∀ u v h k, start.Given calls u h → start.Given calls v k → (h = k ↔ u = v)) ∧
    ∀ before later h m, calls = before ++ later → (start.after before).mark? h = some m →
      (start.after calls).mark? h =
        some ((later.flatMap (Call.changes h)).foldl (fun m change => change m) m) := by
  have hnew : start = empty worker peers := by
    obtain ⟨-, rfl⟩ : worker < peers ∧ empty worker peers = start := by
      simpa [empty?] using hstart
    rfl
  have hblank : start.nodes = #[] := by
    rw [hnew]
    rfl
  have hw : ∀ before, (start.after before).worker = worker := by
    intro before
    rw [(start.extends_after before).worker, hnew]
    rfl
  have hp : ∀ before, (start.after before).peers = peers := by
    intro before
    rw [(start.extends_after before).peers, hnew]
    rfl
  have hfits : ∀ before later, calls = before ++ later → (start.after before).Fits := by
    rintro before later rfl
    have hlast : (start.after (before ++ later)).Fits := ⟨by rwa [hw], hsize⟩
    rw [after_append] at hlast
    exact ((start.after before).extends_after later).fits hlast
  have howns : ∀ before hash, (start.after before).owns hash = true ↔
      hash.toNat % peers = worker := by
    intro before hash
    rw [owns, hw, hp, beq_iff_eq, owner]
  have hforeign : ∀ before hash, hash.toNat % peers ≠ worker →
      (start.after before).owns hash = false :=
    fun before hash hne => Bool.eq_false_iff.mpr (mt (howns before hash).mp hne)
  refine ⟨nodes_after_of_empty hblank calls, ?_, ?_, ?_, ?_, ?_⟩
  · rintro before node hash later rfl
    constructor
    · intro hne
      rw [store_of_foreign (hforeign before hash hne), hw, hp, owner]
    · intro heq
      -- A new state may take the last slot, so it is the table with it that has to fit.
      have hf : ((start.after before).store node hash).2.Fits := by
        have hnext := hfits (before ++ [.store node hash]) later (by simp)
        rwa [after_append] at hnext
      obtain ⟨h, fresh, t, hst, hh, hslot, hfresh, hmark⟩ :=
        store_of_owns ((howns before hash).mpr heq) hf
      refine ⟨h, fresh, t, hst, hh.trans (hw before), hslot, ?_, hmark⟩
      rw [hfresh, mem_stored_iff hblank, Option.not_isSome_iff_eq_none]
  · rintro before node hash later rfl
    constructor
    · intro hne
      rw [fetch_of_foreign (hforeign before hash hne), hw, hp, owner]
    · intro heq
      refine ⟨_, fetch_of_owns ((howns before hash).mpr heq),
        (mem_stored_iff hblank).symm, ?_⟩
      intro h hfind
      have hnode := (hfits before _ rfl).node?_eq_some hfind
      rwa [node?_eq_some_iff, hw] at hnode
  · rintro before later node h rfl hg
    exact (hfits before later rfl).node?_eq_some hg.find?
  · intro u v h k hu hv
    have hf := hfits calls [] (by simp)
    constructor
    · rintro rfl
      exact hf.find?_inj hu.find? hv.find?
    · rintro rfl
      exact Option.some.inj (hu.find?.symm.trans hv.find?)
  · rintro before later h m rfl hm
    rw [after_append]
    exact mark?_after hm later

/-- Calls to the second of two workers: one state belongs to the first worker, and another one is
stored again after an update. -/
def errands : List (Call Nat) :=
  [.store 3 3, .store 4 4, .store 5 7, .update ⟨1, 0⟩ (·.setInS true), .store 3 3, .fetch 5 7]

theorem calls_keep_states_errands :
    empty? 1 2 = some (empty 1 2 : Table Nat) ∧
      ((empty 1 2 : Table Nat).after errands).size ≤ 2 ^ 32 ∧
      ((empty 1 2 : Table Nat).after errands).nodes.toList = [3, 5] ∧
      (((empty 1 2 : Table Nat).after [.store 3 3]).store 4 4).1 = .error (.notOwner 1 0) ∧
      ((empty 1 2 : Table Nat).after errands).node? ⟨1, 0⟩ = some 3 ∧
      ((empty 1 2 : Table Nat).after errands).mark? ⟨1, 0⟩ = some (Mark.setInS {} true) := by
  have hstart : empty? 1 2 = some (empty 1 2 : Table Nat) := rfl
  have hsize : ((empty 1 2 : Table Nat).after errands).size ≤ 2 ^ 32 := by decide
  obtain ⟨hnodes, hstore, -, hkept, -, hmarks⟩ :=
    calls_keep_states hstart (by decide) errands hsize
  refine ⟨hstart, hsize, hnodes.trans (by decide), ?_, ?_, ?_⟩
  · rw [(hstore [.store 3 3] 4 4 (errands.drop 2) rfl).1 (by decide)]
    rfl
  · exact hkept errands [] 3 ⟨1, 0⟩ rfl ⟨[], _, errands.drop 1, rfl, .store rfl⟩
  · exact (hmarks (errands.take 1) (errands.drop 1) ⟨1, 0⟩ {} rfl (by decide)).trans (by decide)

end Table

end FairCycle
