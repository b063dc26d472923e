/-
# What a builder has been told

A builder is called again and again: states, edges, accepting and initial states come in any order,
and an automaton may be asked for before there can be one.  What the calls say is read off their
list: which names they mention, which targets they give to a name, which names they make accepting
or initial (section 1).

A failed attempt forgets only that two initial states differed.  So a builder shows, after any calls
that have not given an automaton, everything that was said, and in place of all the initial states
only the recent ones count for a second one that differs (`Builder.shows_after`).  From this follows
which result the next attempt has (`Builder.build_after`).
-/
import FairCycle.Proofs.Grammar
import Mathlib.Algebra.Group.Nat.Defs
import Mathlib.Data.List.DropRight

namespace FairCycle

namespace Builder

/-! ## 1. Calls -/

/-- A call to a builder. -/
inductive Call where
  | state (name : String)
  | edge (source target : String)
  | accept (name : String)
  | start (name : String)
  | build
deriving DecidableEq

/-- What a call makes of a builder. -/
def call (b : Builder) : Call → Builder
  | .state name => (b.state name).2
  | .edge source target => b.edge source target
  | .accept name => b.accept name
  | .start name => (b.start name).2
  | .build => b.build.2

/-- A new builder after some calls. -/
def after (calls : List Call) : Builder := calls.foldl call {}

namespace Call

/-- The names in a call, in order. -/
def mentions : Call → List String
  | .state name | .accept name | .start name => [name]
  | .edge source target => [source, target]
  | .build => []

/-- The target that a call gives to a state, if it does. -/
def targetsOf (name : String) : Call → List String
  | .edge source target => if source = name then [target] else []
  | _ => []

/-- The state that a call makes accepting, if it does. -/
def acceptings : Call → List String
  | .accept name => [name]
  | _ => []

/-- The state that a call declares initial, if it does. -/
def initials : Call → List String
  | .start name => [name]
  | _ => []

/-- The calls since an automaton was last asked for. -/
def recent (calls : List Call) : List Call := calls.rtakeWhile (· ≠ .build)

/-- The first state of all that was declared initial, and the first other one that was declared so
since an automaton was last asked for. -/
def Rivals (calls : List Call) (first second : String) : Prop :=
  (calls.flatMap initials).head? = some first ∧
    ((recent calls).flatMap initials).find? (· ≠ first) = some second

/-- No call has given an automaton yet. -/
def Fruitless (calls : List Call) : Prop :=
  ∀ n < calls.length, calls[n]? = some .build →
    ((after (calls.take n)).build.1).toOption = none

instance (calls : List Call) : Decidable (Fruitless calls) :=
  inferInstanceAs (Decidable (∀ n < calls.length, calls[n]? = some .build →
    ((after (calls.take n)).build.1).toOption = none))

theorem fruitless_of_notMem {calls : List Call} (h : .build ∉ calls) : Fruitless calls := by
  intro n _ hbuild
  exact absurd (List.mem_of_getElem? hbuild) h

theorem mem_acceptings {c : Call} {name : String} : name ∈ c.acceptings ↔ c = .accept name := by
  cases c <;> simp [acceptings, eq_comm]

theorem mem_initials {c : Call} {name : String} : name ∈ c.initials ↔ c = .start name := by
  cases c <;> simp [initials, eq_comm]

theorem flatMap_recent_append (calls : List Call) (c : Call) :
    (recent (calls ++ [c])).flatMap initials =
      if c = .build then [] else (recent calls).flatMap initials ++ c.initials := by
  rw [recent, recent, List.rtakeWhile_concat]
  by_cases hc : c = .build <;> simp [hc]

end Call

/-! ## 2. What they leave -/

namespace Shows

variable {b : Builder} {mentioned : List String} {targets : String → List String}
  {accepting initials recent : List String}

/-- **A failed attempt forgets which initial states were recent, and nothing else.** -/
theorem build_of_error (h : b.Shows mentioned targets accepting initials recent)
    {e : AutomatonError} (he : b.build.1 = .error e) :
    b.build.2.states = b.states ∧ b.build.2.index = b.index ∧ b.build.2.initial = b.initial ∧
      b.build.2.Shows mentioned targets accepting initials [] := by
  have hnone : rival? mentioned.eraseDups initials [] = none := by
    cases hfirst : initials.head? <;> simp [rival?, hfirst]
  have hforget : ∀ {b' : Builder}, b'.states = b.states → b'.initial = b.initial →
      b'.duplicate = none → b'.Shows mentioned targets accepting initials [] :=
    fun hstates hinitial hduplicate => h.withInitials h.initial_mem List.nil_suffix hstates
      (hinitial.trans h.initial) (hduplicate.trans hnone.symm)
  unfold Builder.build at he ⊢
  cases hduplicate : b.duplicate with
  | some pair => exact ⟨rfl, rfl, rfl, hforget rfl rfl rfl⟩
  | none =>
    rw [hduplicate] at he
    dsimp only at he ⊢
    split
    · exact ⟨rfl, rfl, rfl, hforget rfl rfl hduplicate⟩
    · rename_i hfew
      rw [if_neg hfew] at he
      cases hinitial : b.initial with
      | none => exact ⟨rfl, rfl, hinitial, hforget rfl rfl hduplicate⟩
      | some id =>
        rw [hinitial] at he
        exact absurd he (by simp)

/-- **A call adds what it says.** -/
theorem call (h : b.Shows mentioned targets accepting initials recent) (c : Call)
    (hc : c = .build → b.build.1.toOption = none) :
    (b.call c).Shows (mentioned ++ c.mentions) (fun name => targets name ++ c.targetsOf name)
      (accepting ++ c.acceptings) (initials ++ c.initials)
      (if c = .build then [] else recent ++ c.initials) := by
  cases c with
  | state name =>
    simp only [Call.targetsOf, Call.acceptings, Call.initials, List.append_nil, reduceCtorEq,
      if_false]
    exact (h.state name).1
  | edge source target =>
    simp only [Call.acceptings, Call.initials, List.append_nil, reduceCtorEq, if_false]
    have hedge := h.edge source target
    rwa [List.append_assoc] at hedge
  | accept name =>
    simp only [Call.targetsOf, Call.initials, List.append_nil, reduceCtorEq, if_false]
    exact h.accept name
  | start name =>
    simp only [Call.targetsOf, Call.acceptings, List.append_nil, reduceCtorEq, if_false]
    exact (h.start name).1
  | build =>
    simp only [Call.mentions, Call.targetsOf, Call.acceptings, Call.initials, List.append_nil,
      if_true]
    cases hbuild : b.build.1 with
    | error e => exact (h.build_of_error hbuild).2.2.2
    | ok a =>
      have hnone := hc rfl
      rw [hbuild] at hnone
      exact absurd hnone (Option.some_ne_none a)

end Shows

theorem after_append (calls : List Call) (c : Call) : after (calls ++ [c]) = (after calls).call c :=
  List.foldl_concat ..

theorem Call.Fruitless.of_append {calls : List Call} {c : Call} (h : Fruitless (calls ++ [c])) :
    Fruitless calls ∧ (c = .build → (after calls).build.1.toOption = none) := by
  constructor
  · intro n hn hbuild
    have hbuild' : (calls ++ [c])[n]? = some .build := by
      rw [List.getElem?_append_left hn, hbuild]
    have hfailed := h n (by simp; omega) hbuild'
    rwa [List.take_append_of_le_length hn.le] at hfailed
  · rintro rfl
    have hfailed := h calls.length (by simp) (by simp)
    rwa [List.take_left] at hfailed

/-- **After any calls that have not given an automaton, a builder shows what they said.** -/
theorem shows_after {calls : List Call} (h : Call.Fruitless calls) :
    (after calls).Shows (calls.flatMap Call.mentions)
      (fun name => calls.flatMap (Call.targetsOf name)) (calls.flatMap Call.acceptings)
      (calls.flatMap Call.initials) ((Call.recent calls).flatMap Call.initials) := by
  induction calls using List.reverseRecOn with
  | nil => exact Shows.empty
  | append_singleton calls c ih =>
    obtain ⟨hcalls, hc⟩ := h.of_append
    have hstep := (ih hcalls).call c hc
    rw [after_append]
    simpa only [List.flatMap_append, List.flatMap_singleton, Call.flatMap_recent_append] using hstep

end Builder

/-! ## 3. The automaton that they describe -/

namespace Automaton

open Builder

/-- What the calls that an automaton was built by say of it. -/
structure Reflects (a : Automaton) (calls : List Call) : Prop where
  /-- The names stand in the order of first mention. -/
  names_eq : a.names = (calls.flatMap Call.mentions).eraseDups
  nodup : a.names.Nodup
  /-- Every state has a number. -/
  size_lt : a.size < 2 ^ 32
  id_name : ∀ i : UInt32, i.toNat < a.size → ∃ name, a.name? i = some name ∧ a.id? name = some i
  id_eq_none : ∀ name ∉ calls.flatMap Call.mentions, a.id? name = none
  /-- The edges of a state are those that were added to its name, in order. -/
  edges : ∀ i name, a.name? i = some name → ∃ targets, a.targets? i = some targets ∧
    targets.map a.name? = (calls.flatMap (Call.targetsOf name)).map some ∧
    ∀ target ∈ targets, target.toNat < a.size
  /-- They are labelled from one on, as long as there are labels for all of them. -/
  labels : ∀ i targets, a.targets? i = some targets → targets.length < 2 ^ 32 → ∃ edges,
    a.edges? i = some edges ∧ edges.map Prod.fst = targets ∧
    edges.map (fun edge => edge.2.toNat) = List.range' 1 targets.length ∧
    a.graph.successors i () = (some targets, ())
  /-- A state with more edges cannot be expanded. -/
  unlabelled : ∀ i targets, a.targets? i = some targets → 2 ^ 32 ≤ targets.length →
    a.edges? i = none ∧ a.graph.successors i () = (none, ())
  accepting : ∀ i name, a.name? i = some name →
    a.accepting? i = some (decide (.accept name ∈ calls))
  initial : ∃ first, (calls.flatMap Call.initials).head? = some first ∧
    a.id? first = some a.initial ∧ a.initial.toNat < a.size

theorem map_fst_labelled (targets : List UInt32) :
    ((targets.zipIdx 1).map fun (target, label) => (target, label.toUInt32)).map Prod.fst =
      targets := by
  rw [List.map_map]
  exact List.zipIdx_map_fst ..

/-- **As long as there are labels for all of them, edges are labelled from one on.** -/
theorem labelled_of_lt {targets : List UInt32} (h : targets.length < 2 ^ 32) :
    ∃ edges, labelled targets = some edges ∧ edges.map Prod.fst = targets ∧
      edges.map (fun edge => edge.2.toNat) = List.range' 1 targets.length := by
  refine ⟨_, if_pos h, map_fst_labelled targets, ?_⟩
  have hlabel : ∀ edge ∈ targets.zipIdx 1, edge.2.toUInt32.toNat = edge.2 := fun edge hedge => by
    have hlt := List.snd_lt_add_of_mem_zipIdx hedge
    exact Nat.mod_eq_of_lt (Nat.lt_of_lt_of_le hlt (by rw [Nat.add_comm]; exact h))
  rw [List.map_map]
  exact (List.map_congr_left hlabel).trans (List.zipIdx_map_snd ..)

theorem labelled_of_le {targets : List UInt32} (h : 2 ^ 32 ≤ targets.length) :
    labelled targets = none :=
  if_neg (Nat.not_lt.mpr h)

section Expand

variable {a : Automaton} {i : UInt32} {targets : List UInt32} (h : a.targets? i = some targets)
include h

theorem expand_of_lt (hfew : targets.length < 2 ^ 32) : ∃ edges,
    a.edges? i = some edges ∧ edges.map Prod.fst = targets ∧
    edges.map (fun edge => edge.2.toNat) = List.range' 1 targets.length ∧
    a.graph.successors i () = (some targets, ()) := by
  obtain ⟨edges, hedges, hfst, hsnd⟩ := labelled_of_lt hfew
  have hlabelled : a.edges? i = some edges := by rw [edges?, h, Option.bind_some, hedges]
  refine ⟨edges, hlabelled, hfst, hsnd, ?_⟩
  change (a.successors? i, ()) = _
  rw [successors?, hlabelled, Option.map_some, hfst]

theorem expand_of_le (hmany : 2 ^ 32 ≤ targets.length) :
    a.edges? i = none ∧ a.graph.successors i () = (none, ()) := by
  have hnone : a.edges? i = none := by rw [edges?, h, Option.bind_some, labelled_of_le hmany]
  refine ⟨hnone, ?_⟩
  change (a.successors? i, ()) = _
  rw [successors?, hnone, Option.map_none]

end Expand

end Automaton

namespace Builder.Shows

variable {b : Builder} {mentioned : List String} {targets : String → List String}
  {accepting initials recent : List String} {a : Automaton}

theorem name?_eq (h : b.Shows mentioned targets accepting initials recent)
    (ha : a.states = b.states) (i : UInt32) : a.name? i = mentioned.eraseDups[i.toNat]? := by
  rw [Automaton.name?, Automaton.state?, ha, h.getElem?_name]

theorem size_eq (h : b.Shows mentioned targets accepting initials recent)
    (ha : a.states = b.states) : a.size = mentioned.eraseDups.length := by
  rw [Automaton.size, ha, h.size]

theorem id?_eq (h : b.Shows mentioned targets accepting initials recent)
    (ha : a.states = b.states) {name : String} (hname : name ∈ mentioned) :
    a.id? name = some (numberOf mentioned.eraseDups name) := by
  rw [Automaton.id?, ha, ← b.index_eq_find?, h.index_of_mem hname]
  rfl

section Few

variable (h : b.Shows mentioned targets accepting initials recent)
  (hfew : mentioned.eraseDups.length ≤ UInt32.size) (ha : a.states = b.states)
include h hfew ha

theorem id?_of_name? {name : String} {i : UInt32} (hi : a.name? i = some name) :
    a.id? name = some i := by
  rw [h.name?_eq ha] at hi
  obtain ⟨hlt, hname⟩ := List.getElem?_eq_some_iff.mp hi
  have hmem : name ∈ mentioned.eraseDups := List.mem_of_getElem? hi
  rw [h.id?_eq ha (List.mem_eraseDups.mp hmem), Option.some_inj, ← UInt32.toNat_inj,
    toNat_numberOf hfew hmem, ← hname, (nodup_eraseDups mentioned).idxOf_getElem i.toNat hlt]

theorem name?_numberOf {name : String} (hname : name ∈ mentioned) :
    a.name? (numberOf mentioned.eraseDups name) = some name := by
  rw [h.name?_eq ha, getElem?_numberOf hfew (List.mem_eraseDups.mpr hname)]

theorem state?_eq {name : String} {i : UInt32} (hi : a.name? i = some name) :
    a.state? i = some (.drawn mentioned.eraseDups targets accepting name) := by
  rw [h.name?_eq ha] at hi
  rw [Automaton.state?, ha, ← Array.getElem?_toList, h.states hfew, List.getElem?_map, hi]
  rfl

/-- **An automaton with the states of a builder has the edges that were added to them.** -/
theorem edges_eq {name : String} {i : UInt32} (hi : a.name? i = some name) :
    ∃ numbers, a.targets? i = some numbers ∧
      numbers.map a.name? = (targets name).map some ∧
      ∀ target ∈ numbers, target.toNat < a.size := by
  refine ⟨(targets name).map (numberOf mentioned.eraseDups), ?_, ?_, ?_⟩
  · rw [Automaton.targets?, h.state?_eq hfew ha hi]
    rfl
  · rw [List.map_map]
    exact List.map_congr_left fun t ht => h.name?_numberOf hfew ha (h.target_mem ht)
  · intro target htarget
    obtain ⟨t, ht, rfl⟩ := List.mem_map.mp htarget
    exact h.size_eq ha ▸ toNat_numberOf_lt (List.mem_eraseDups.mpr (h.target_mem ht))

end Few

theorem initial_eq (h : b.Shows mentioned targets accepting initials recent)
    (ha : a.states = b.states) (hinitial : b.initial = some a.initial) :
    ∃ first, initials.head? = some first ∧ a.id? first = some a.initial ∧
      a.initial.toNat < a.size := by
  rw [h.initial] at hinitial
  obtain ⟨first, hfirst, hnumber⟩ := Option.map_eq_some_iff.mp hinitial
  have hmem := h.initial_mem (List.mem_of_head? hfirst)
  refine ⟨first, hfirst, ?_, ?_⟩
  · rw [h.id?_eq ha hmem, hnumber]
  · rw [h.size_eq ha, ← hnumber]
    exact toNat_numberOf_lt (List.mem_eraseDups.mpr hmem)

end Builder.Shows

namespace Builder

variable {calls : List Call}

/-- **The automaton of a builder reflects what the builder was told.** -/
theorem reflects (h : Call.Fruitless calls)
    (hfew : (calls.flatMap Call.mentions).eraseDups.length < 2 ^ 32) {a : Automaton}
    (ha : a.states = (after calls).states) (hinitial : (after calls).initial = some a.initial) :
    a.Reflects calls := by
  have hb := shows_after h
  have hnames : a.names = (calls.flatMap Call.mentions).eraseDups := by
    rw [Automaton.names, ha, hb.names]
  exact
    { names_eq := hnames
      nodup := hnames ▸ nodup_eraseDups _
      size_lt := hb.size_eq ha ▸ hfew
      id_name := fun i hi => by
        rw [hb.size_eq ha] at hi
        have hname := (hb.name?_eq ha i).trans (List.getElem?_eq_getElem hi)
        exact ⟨_, hname, hb.id?_of_name? hfew.le ha hname⟩
      id_eq_none := fun name hname => by
        rw [Automaton.id?, ha, ← Builder.index_eq_find?, hb.index_of_notMem hname, Option.map_none]
      edges := fun i name hi => hb.edges_eq hfew.le ha hi
      labels := fun i targets => Automaton.expand_of_lt
      unlabelled := fun i targets => Automaton.expand_of_le
      accepting := fun i name hi => by
        rw [Automaton.accepting?, hb.state?_eq hfew.le ha hi]
        simp [State.drawn, Call.mem_acceptings]
      initial := hb.initial_eq ha hinitial }

/-! ## 4. Asking for it -/

theorem build_cases (b : Builder) (hfew : b.states.size ≤ stateLimit) :
    (∃ first second, b.duplicate = some (first, second) ∧
        b.build.1 = .error (.duplicateInitial first second)) ∨
      (b.duplicate = none ∧ b.initial = none ∧ b.build.1 = .error .missingInitial) ∨
      ∃ a : Automaton, b.duplicate = none ∧ a.states = b.states ∧ b.initial = some a.initial ∧
        b.build.1 = .ok a := by
  unfold Builder.build
  cases b.duplicate with
  | some pair => exact .inl ⟨_, _, rfl, rfl⟩
  | none =>
    dsimp only
    rw [if_neg (Nat.not_lt.mpr hfew)]
    cases b.initial with
    | none => exact .inr (.inl ⟨rfl, rfl, rfl⟩)
    | some initial => exact .inr (.inr ⟨⟨b.states, initial⟩, rfl, rfl, rfl, rfl⟩)

theorem of_build_eq_ok {b : Builder} {a : Automaton} (h : b.build.1 = .ok a) :
    a.states = b.states ∧ b.initial = some a.initial ∧ b.states.size ≤ stateLimit := by
  have hfew : ¬stateLimit < b.states.size := fun hmany => by
    unfold Builder.build at h
    cases hduplicate : b.duplicate <;> simp [hduplicate, hmany] at h
  rcases build_cases b (Nat.not_lt.mp hfew) with ⟨first, second, -, hbuild⟩ | ⟨-, -, hbuild⟩ |
    ⟨a', -, hstates, hinitial, hbuild⟩
  · exact absurd (hbuild.symm.trans h) (by simp)
  · exact absurd (hbuild.symm.trans h) (by simp)
  · obtain rfl := Except.ok.inj (hbuild.symm.trans h)
    exact ⟨hstates, hinitial, Nat.not_lt.mp hfew⟩

theorem duplicate_eq_some_iff (h : Call.Fruitless calls)
    (hfew : (calls.flatMap Call.mentions).eraseDups.length < 2 ^ 32) {first second : String} :
    (after calls).duplicate = some (first, second) ↔ Call.Rivals calls first second := by
  have hb := shows_after h
  have hmem : ∀ {name}, name ∈ calls.flatMap Call.initials →
      name ∈ (calls.flatMap Call.mentions).eraseDups := fun hname =>
    List.mem_eraseDups.mpr (hb.initial_mem hname)
  rw [hb.duplicate, rival?_of_few hfew.le hmem hb.recent_suffix, Option.bind_eq_some_iff]
  constructor
  · rintro ⟨first', hfirst, hsecond⟩
    obtain ⟨second', hfind, heq⟩ := Option.map_eq_some_iff.mp hsecond
    obtain ⟨rfl, rfl⟩ := Prod.mk.inj heq
    exact ⟨hfirst, hfind⟩
  · rintro ⟨hfirst, hfind⟩
    exact ⟨first, hfirst, Option.map_eq_some_iff.mpr ⟨second, hfind, rfl⟩⟩

theorem initial_eq_none_iff (h : Call.Fruitless calls) :
    (after calls).initial = none ↔ ∀ name, .start name ∉ calls := by
  rw [(shows_after h).initial, Option.map_eq_none_iff, List.head?_eq_none_iff,
    List.eq_nil_iff_forall_not_mem]
  simp [Call.mem_initials]

theorem size_le_stateLimit (h : Call.Fruitless calls)
    (hfew : (calls.flatMap Call.mentions).eraseDups.length < 2 ^ 32) :
    (after calls).states.size ≤ stateLimit := by
  rw [(shows_after h).size]
  exact Nat.le_of_lt_succ hfew

/-- One initial state and no other: there is an automaton, and it is the one that was described. -/
theorem exists_reflects (h : Call.Fruitless calls)
    (hfew : (calls.flatMap Call.mentions).eraseDups.length < 2 ^ 32)
    (hnone : ∀ first second, ¬Call.Rivals calls first second)
    (hsome : ∃ name, .start name ∈ calls) :
    ∃ a, (after calls).build.1 = .ok a ∧ a.Reflects calls := by
  rcases build_cases _ (size_le_stateLimit h hfew) with ⟨first, second, hduplicate, -⟩ |
    ⟨-, hinitial, -⟩ | ⟨a, -, hstates, hinitial, hbuild⟩
  · exact absurd ((duplicate_eq_some_iff h hfew).mp hduplicate) (hnone first second)
  · obtain ⟨name, hname⟩ := hsome
    exact absurd hname ((initial_eq_none_iff h).mp hinitial name)
  · exact ⟨a, hbuild, reflects h hfew hstates hinitial⟩

/-- **What a builder gives after any calls that have not given an automaton.**  Two initial states
come first, then the lack of one; otherwise there is an automaton, and it is the one that the calls
describe.  A failed attempt changes neither states nor the initial state, and no call breaks off. -/
theorem build_after (calls : List Call) (h : Call.Fruitless calls)
    (hfew : (calls.flatMap Call.mentions).eraseDups.length < 2 ^ 32) :
    (∀ first second, (after calls).build.1 = .error (.duplicateInitial first second) ↔
        Call.Rivals calls first second) ∧
      ((after calls).build.1 = .error .missingInitial ↔
        (∀ first second, ¬Call.Rivals calls first second) ∧ ∀ name, .start name ∉ calls) ∧
      ((∀ first second, ¬Call.Rivals calls first second) → (∃ name, .start name ∈ calls) →
        ∃ a, (after calls).build.1 = .ok a ∧ a.Reflects calls) ∧
      (∀ e, (after calls).build.1 = .error e →
        (after calls).build.2.states = (after calls).states ∧
          (after calls).build.2.index = (after calls).index ∧
          (after calls).build.2.initial = (after calls).initial) ∧
      ∀ name, ((after calls).start name).1 = some () := by
  have hb := shows_after h
  refine ⟨?_, ?_, exists_reflects h hfew, ?_, fun name => (hb.start name).2⟩
  · intro first second
    rw [← duplicate_eq_some_iff h hfew]
    rcases build_cases _ (size_le_stateLimit h hfew) with ⟨first, second, hduplicate, hbuild⟩ |
      ⟨hduplicate, -, hbuild⟩ | ⟨a, hduplicate, -, -, hbuild⟩
    all_goals simp [hbuild, hduplicate]
  · simp only [← duplicate_eq_some_iff h hfew, ← initial_eq_none_iff h]
    rcases build_cases _ (size_le_stateLimit h hfew) with ⟨first, second, hduplicate, hbuild⟩ |
      ⟨hduplicate, hinitial, hbuild⟩ | ⟨a, hduplicate, -, hinitial, hbuild⟩
    · simp [hbuild, hduplicate]
    · simp [hbuild, hduplicate, hinitial]
    · simp [hbuild, hinitial]
  · intro e he
    obtain ⟨hstates, hindex, hinitial, -⟩ := hb.build_of_error he
    exact ⟨hstates, hindex, hinitial⟩

/-- Calls among which an automaton is asked for when two states are initial. -/
def hasty : List Call :=
  [.start "b", .edge "a" "b", .start "c", .build, .accept "c", .edge "a" "a", .start "b",
    .edge "a" "b"]

theorem build_after_hasty :
    Call.Fruitless hasty ∧ (hasty.flatMap Call.mentions).eraseDups.length < 2 ^ 32 ∧
      (after (hasty.take 3)).build.1 = .error (.duplicateInitial "b" "c") ∧
      ∃ a, (after hasty).build.1 = .ok a ∧ a.Reflects hasty := by
  have h : Call.Fruitless hasty := by decide +kernel
  have hfew : (hasty.flatMap Call.mentions).eraseDups.length < 2 ^ 32 := by decide
  have hnone : ∀ first second, ¬Call.Rivals hasty first second := by
    rintro first second ⟨hfirst, hsecond⟩
    obtain rfl : "b" = first := Option.some.inj hfirst
    have hsame : ((Call.recent hasty).flatMap Call.initials).find? (· ≠ "b") = none := by decide
    exact absurd (hsame.symm.trans hsecond) (by simp)
  have htwo := build_after (hasty.take 3) (by decide +kernel) (by decide)
  refine ⟨h, hfew, (htwo.1 "b" "c").mpr ⟨by decide, by decide⟩, ?_⟩
  exact (build_after hasty h hfew).2.2.1 hnone ⟨"b", by decide⟩

/-- Calls that give a state many edges to itself. -/
def looping (edges : Nat) : List Call := .start "a" :: List.replicate edges (.edge "a" "a")

section Looping

variable (edges : Nat)

theorem flatMap_looping (f : Call → List String) :
    (looping edges).flatMap f =
      f (.start "a") ++ (List.replicate edges (f (.edge "a" "a"))).flatten := by
  rw [looping, List.flatMap_cons, List.flatMap_replicate]

theorem fruitless_looping : Call.Fruitless (looping edges) :=
  Call.fruitless_of_notMem (by simp [looping])

theorem eraseDups_looping : ((looping edges).flatMap Call.mentions).eraseDups = ["a"] := by
  rw [flatMap_looping, Call.mentions, List.singleton_append, List.eraseDups_cons,
    List.filter_eq_nil_iff.mpr]
  · rfl
  · simp +contextual [Call.mentions]

theorem initials_looping : (looping edges).flatMap Call.initials = ["a"] := by
  rw [flatMap_looping]
  simp [Call.initials]

theorem not_rivals_looping (first second : String) :
    ¬Call.Rivals (looping edges) first second := by
  rintro ⟨hfirst, hsecond⟩
  obtain rfl : "a" = first := by simpa [initials_looping] using hfirst
  have hrecent := (shows_after (fruitless_looping edges)).recent_suffix.subset
    (List.mem_of_find?_eq_some hsecond)
  obtain rfl : second = "a" := by simpa [initials_looping] using hrecent
  exact absurd (List.find?_some hsecond) (by simp)

end Looping

/-- A state with too many edges for the labels, in an automaton that there is. -/
theorem exists_unlabelled {edges : Nat} (hmany : 2 ^ 32 ≤ edges) :
    Call.Fruitless (looping edges) ∧
      ((looping edges).flatMap Call.mentions).eraseDups.length < 2 ^ 32 ∧
      ∃ a, (after (looping edges)).build.1 = .ok a ∧ a.id? "a" = some a.initial ∧
        a.graph.successors a.initial () = (none, ()) := by
  have hfruitless := fruitless_looping edges
  have hfew : ((looping edges).flatMap Call.mentions).eraseDups.length < 2 ^ 32 := by
    rw [eraseDups_looping]
    decide
  obtain ⟨a, ha, hreflects⟩ := exists_reflects hfruitless hfew (not_rivals_looping edges)
    ⟨"a", List.mem_cons_self⟩
  obtain ⟨first, hfirst, hid, hlt⟩ := hreflects.initial
  obtain rfl : "a" = first := by simpa [initials_looping] using hfirst
  -- there is no other state
  obtain ⟨name, hname, hnumber⟩ := hreflects.id_name a.initial hlt
  obtain rfl : name = "a" := by
    by_contra hother
    have hnone := hreflects.id_eq_none name fun hmem => by
      rw [← List.mem_eraseDups, eraseDups_looping] at hmem
      exact hother (List.mem_singleton.mp hmem)
    exact absurd (hnone.symm.trans hnumber) (by simp)
  obtain ⟨targets, htargets, hsame, -⟩ := hreflects.edges a.initial _ hname
  have hlength : targets.length = edges := by
    have hlengths := congrArg List.length hsame
    rw [flatMap_looping] at hlengths
    simpa [Call.targetsOf] using hlengths
  exact ⟨hfruitless, hfew, a, ha, hid, (hreflects.unlabelled _ _ htargets (hlength ▸ hmany)).2⟩

/-- With one name and `2 ^ 32` edges there is an automaton, but its state cannot be expanded. -/
theorem build_after_looping :
    Call.Fruitless (looping (2 ^ 32)) ∧
      ((looping (2 ^ 32)).flatMap Call.mentions).eraseDups.length < 2 ^ 32 ∧
      ∃ a, (after (looping (2 ^ 32))).build.1 = .ok a ∧ a.id? "a" = some a.initial ∧
        a.graph.successors a.initial () = (none, ()) :=
  exists_unlabelled (Nat.le_refl _)

end Builder

end FairCycle
