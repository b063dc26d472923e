/-
# Reading back what was written

The text of an automaton is made of its directives, a line for each.  They mean this automaton again
(`Writable.ofDirectives_directives`) if its names are distinct words in which no comment begins, its
numbers are those of states, and no state with edges has a reserved name; a name may still be an
arrow, or look like another part of a text.  So every automaton of this kind is read back as it was
(`Automaton.parse_render`), if its states can be numbered.
-/
import FairCycle.Proofs.Grammar
import Mathlib.Algebra.Group.Nat.Defs

namespace FairCycle

open Text

/-! ## 1. Directives that are written -/

namespace Automaton

/-- The names of the accepting states, by number. -/
def acceptingNames (a : Automaton) : List String :=
  (a.states.toList.filter State.accepting).map State.name

/-- An automaton that can be written down: names are distinct and plain, numbers are those of
states, and no row of edges would begin with a reserved word. -/
@[mk_iff]
structure Writable (a : Automaton) : Prop where
  distinct : a.names.Nodup
  plain : ∀ name ∈ a.names, Plain name
  targets : a.Closed
  reserved : ∀ s ∈ a.states, s.name ∈ Directive.reserved → s.targets = #[]
  initial : a.initial.toNat < a.size

instance (a : Automaton) : Decidable a.Writable := decidable_of_iff _ (writable_iff a).symm

/-- The name of a number. -/
def nameOf (a : Automaton) (id : UInt32) : String := (a.name? id).getD ""

/-- The row of edges of a state. -/
def edgeRow (a : Automaton) (s : State) : Directive :=
  .edges s.name (s.targets.toList.map a.nameOf)

variable {a : Automaton}

theorem directives_eq :
    a.directives = [.states a.names, .initial (a.nameOf a.initial)] ++
      (if a.acceptingNames.isEmpty then [] else [.accepting a.acceptingNames]) ++
      (a.states.toList.filter (!·.targets.isEmpty)).map a.edgeRow := rfl

theorem mem_directives {d : Directive} :
    d ∈ a.directives ↔ d = .states a.names ∨ d = .initial (a.nameOf a.initial) ∨
      (a.acceptingNames ≠ [] ∧ d = .accepting a.acceptingNames) ∨
      ∃ s ∈ a.states, s.targets ≠ #[] ∧ d = a.edgeRow s := by
  have haccepting : d ∈ (if a.acceptingNames.isEmpty then [] else
      [Directive.accepting a.acceptingNames]) ↔
        a.acceptingNames ≠ [] ∧ d = .accepting a.acceptingNames := by
    split <;> simp_all
  rw [directives_eq, List.mem_append, List.mem_append, haccepting]
  simp [or_assoc, and_assoc, @eq_comm _ d]

theorem length_names : a.names.length = a.size := by simp [names, size]

theorem flatMap_directives (f : Directive → List String) :
    a.directives.flatMap f = f (.states a.names) ++ f (.initial (a.nameOf a.initial)) ++
      (if a.acceptingNames.isEmpty then [] else f (.accepting a.acceptingNames)) ++
      (a.states.toList.filter (!·.targets.isEmpty)).flatMap fun s => f (a.edgeRow s) := by
  rw [directives_eq, List.flatMap_append, List.flatMap_append, List.flatMap_map]
  split <;> simp

theorem flatMap_initials : a.directives.flatMap Directive.initials = [a.nameOf a.initial] := by
  rw [flatMap_directives]
  simp [Directive.initials, edgeRow]

theorem flatMap_acceptings : a.directives.flatMap Directive.acceptings = a.acceptingNames := by
  have hedges : ((a.states.toList.filter (!·.targets.isEmpty)).flatMap fun s =>
      (a.edgeRow s).acceptings) = [] := List.flatMap_eq_nil_iff.mpr fun _ _ => rfl
  rw [flatMap_directives, hedges, List.append_nil]
  split
  · rename_i hnone
    exact (List.isEmpty_iff.mp hnone).symm
  · rfl

theorem nameOf_eq {id : UInt32} (h : id.toNat < a.size) :
    a.names[id.toNat]? = some (a.nameOf id) := by
  have hid : a.states[id.toNat]? = some a.states[id.toNat] := Array.getElem?_eq_getElem h
  simp [names, nameOf, name?, state?, hid]

theorem nameOf_mem {id : UInt32} (h : id.toNat < a.size) : a.nameOf id ∈ a.names :=
  List.mem_of_getElem? (nameOf_eq h)

/-! ## 2. What they mean -/

namespace Writable

variable (h : a.Writable)
include h

/-- Even among too many names, a number that was given is given again. -/
theorem numberOf_nameOf {id : UInt32} (hid : id.toNat < a.size) :
    numberOf a.names (a.nameOf id) = id := by
  obtain ⟨hlt, hname⟩ := List.getElem?_eq_some_iff.mp (nameOf_eq hid)
  rw [← hname, numberOf, h.distinct.idxOf_getElem id.toNat hlt]
  exact UInt32.ofNat_toNat

/-- States with the same name are the same. -/
theorem eq_of_name {s t : State} (hs : s ∈ a.states) (ht : t ∈ a.states) (hname : s.name = t.name) :
    s = t :=
  List.inj_on_of_nodup_map h.distinct (by simpa using hs) (by simpa using ht) hname

theorem mem_acceptingNames {s : State} (hs : s ∈ a.states) :
    s.name ∈ a.acceptingNames ↔ s.accepting = true := by
  constructor
  · intro hmem
    obtain ⟨t, ht, hname⟩ := List.mem_map.mp hmem
    obtain ⟨ht, haccepting⟩ := List.mem_filter.mp ht
    exact h.eq_of_name (by simpa using ht) hs hname ▸ haccepting
  · intro haccepting
    exact List.mem_map.mpr ⟨s, List.mem_filter.mpr ⟨by simpa using hs, haccepting⟩, rfl⟩

theorem spelled {d : Directive} (hd : d ∈ a.directives) : Directive.Spelled d.words d := by
  rcases mem_directives.mp hd with rfl | rfl | ⟨hsome, rfl⟩ | ⟨s, hs, hsome, rfl⟩
  · exact .states _
  · exact .initial _
  · exact .accepting hsome
  · refine .edges (fun hres => hsome (h.reserved s hs hres)) ?_
    simpa using hsome

theorem mentions_mem {d : Directive} (hd : d ∈ a.directives) {name : String}
    (hname : name ∈ d.mentions) : name ∈ a.names := by
  rcases mem_directives.mp hd with rfl | rfl | ⟨-, rfl⟩ | ⟨s, hs, -, rfl⟩
  · exact hname
  · exact List.mem_singleton.mp hname ▸ nameOf_mem h.initial
  · obtain ⟨s, hs, rfl⟩ := List.mem_map.mp hname
    exact List.mem_map_of_mem (List.mem_of_mem_filter hs)
  · rcases List.mem_cons.mp hname with rfl | htarget
    · exact List.mem_map_of_mem (by simpa using hs)
    · obtain ⟨id, hid, rfl⟩ := List.mem_map.mp htarget
      exact nameOf_mem (h.targets s hs id (by simpa using hid))

/-- The first row names all states, in order, and no other row names more. -/
theorem names_directives : Directive.names a.directives = a.names := by
  have hmore : ∀ name ∈ (a.directives.drop 1).flatMap Directive.mentions, name ∈ a.names := by
    intro name hname
    obtain ⟨d, hd, hname⟩ := List.mem_flatMap.mp hname
    exact h.mentions_mem (List.mem_of_mem_drop hd) hname
  have hsplit : a.directives.flatMap Directive.mentions =
      a.names ++ (a.directives.drop 1).flatMap Directive.mentions := rfl
  have hnone : ((a.directives.drop 1).flatMap Directive.mentions).removeAll a.names = [] := by
    simpa [List.removeAll] using hmore
  rw [Directive.names, hsplit, List.eraseDups_append, hnone, eraseDups_eq_self h.distinct]
  exact List.append_nil _

/-- Each state has the targets of its own row and no others. -/
theorem flatMap_targetsOf {s : State} (hs : s ∈ a.states) :
    a.directives.flatMap (Directive.targetsOf s.name) = s.targets.toList.map a.nameOf := by
  have hrows : a.directives.flatMap (Directive.targetsOf s.name) =
      (a.states.toList.filter (!·.targets.isEmpty)).flatMap fun t =>
        if t.name = s.name then t.targets.toList.map a.nameOf else [] := by
    rw [flatMap_directives]
    simp [Directive.targetsOf, edgeRow]
  obtain ⟨before, after, heq⟩ := List.append_of_mem (show s ∈ a.states.toList by simpa using hs)
  have hdistinct := h.distinct
  rw [names, heq, List.map_append, List.map_cons, List.nodup_middle, List.nodup_cons,
    List.mem_append, not_or] at hdistinct
  obtain ⟨⟨hbefore, hafter⟩, -⟩ := hdistinct
  have hother : ∀ others : List State, s.name ∉ others.map State.name →
      ((others.filter (!·.targets.isEmpty)).flatMap fun t =>
        if t.name = s.name then t.targets.toList.map a.nameOf else []) = [] := by
    intro others hothers
    refine List.flatMap_eq_nil_iff.mpr fun t ht => if_neg fun hname => hothers ?_
    exact hname ▸ List.mem_map_of_mem (List.mem_of_mem_filter ht)
  rw [hrows, heq, List.filter_append, List.flatMap_append, hother before hbefore, List.nil_append,
    List.filter_cons]
  split
  · rw [List.flatMap_cons, if_pos rfl, hother after hafter, List.append_nil]
  · rename_i hnone
    rw [hother after hafter]
    simp_all

/-- A state is drawn as it is. -/
theorem drawn_name {s : State} (hs : s ∈ a.states) :
    State.drawn a.names (fun name => a.directives.flatMap (Directive.targetsOf name))
      (a.directives.flatMap Directive.acceptings) s.name = s := by
  have htargets : (s.targets.toList.map a.nameOf).map (numberOf a.names) =
      s.targets.toList := by
    rw [List.map_map]
    refine (List.map_congr_left fun id hid => ?_).trans (List.map_id _)
    exact h.numberOf_nameOf (h.targets s hs id (by simpa using hid))
  have haccepting : decide (s.name ∈ a.acceptingNames) = s.accepting := by
    simp [h.mem_acceptingNames hs]
  rw [State.drawn, h.flatMap_targetsOf hs, htargets, flatMap_acceptings, haccepting]

/-- **The directives of an automaton mean this automaton.** -/
theorem ofDirectives_directives :
    Automaton.ofDirectives a.directives (a.nameOf a.initial) = a := by
  have hstates : (a.names.map (State.drawn a.names
      (fun name => a.directives.flatMap (Directive.targetsOf name))
      (a.directives.flatMap Directive.acceptings))) = a.states.toList := by
    rw [names, List.map_map]
    refine (List.map_congr_left fun s hs => ?_).trans (List.map_id _)
    exact h.drawn_name (by simpa using hs)
  rw [Automaton.ofDirectives, h.names_directives, hstates, h.numberOf_nameOf h.initial]

theorem plain_words {d : Directive} (hd : d ∈ a.directives) :
    d.words ≠ [] ∧ ∀ word ∈ d.words, Plain word := by
  have hmentions : ∀ word ∈ d.mentions, Plain word := fun word hword =>
    h.plain word (h.mentions_mem hd hword)
  have hbehind : ∀ keyword ∈ "->" :: Directive.reserved,
      keyword :: d.mentions ≠ [] ∧ ∀ word ∈ keyword :: d.mentions, Plain word :=
    fun keyword hkeyword => ⟨List.cons_ne_nil _ _,
      List.forall_mem_cons.mpr ⟨Directive.plain_keyword keyword hkeyword, hmentions⟩⟩
  rcases mem_directives.mp hd with rfl | rfl | ⟨-, rfl⟩ | ⟨s, -, -, rfl⟩
  · exact hbehind _ (by decide)
  · exact hbehind _ (by decide)
  · exact hbehind _ (by decide)
  · obtain ⟨hsource, htargets⟩ := List.forall_mem_cons.mp hmentions
    exact ⟨List.cons_ne_nil _ _, List.forall_mem_cons.mpr
      ⟨hsource, List.forall_mem_cons.mpr ⟨Directive.plain_keyword _ (by decide), htargets⟩⟩⟩

/-- **The text of an automaton falls into the rows of its directives.** -/
theorem rows_render : Rows a.render (a.directives.map Directive.words) := by
  have hrows := @rows_ofRows (a.directives.map Directive.words) fun row hrow => by
    obtain ⟨d, hd, rfl⟩ := List.mem_map.mp hrow
    exact h.plain_words hd
  rwa [ofRows, List.map_map] at hrows

end Writable

theorem parse_render_of_le (h : a.Writable) (hfew : a.size ≤ Builder.stateLimit) :
    Automaton.parse a.render = .ok a := by
  have hlength : (Directive.names a.directives).length = a.size := by
    rw [h.names_directives, length_names]
  have hresult := Denotes.automaton h.rows_render
    (Directive.listed_words fun d hd => h.spelled hd) (hlength ▸ hfew)
    (show a.nameOf a.initial ∈ _ by simp [flatMap_initials]) (by simp [flatMap_initials])
  rw [hresult.parse_eq, h.ofDirectives_directives]

theorem parse_render_of_lt (h : a.Writable) (hmany : Builder.stateLimit < a.size) :
    Automaton.parse a.render = .error (.tooManyStates Builder.stateLimit) := by
  have hlength : (Directive.names a.directives).length = a.size := by
    rw [h.names_directives, length_names]
  refine (Denotes.crowd h.rows_render (Directive.listed_words fun d hd => h.spelled hd)
    (hlength ▸ hmany) ?_).parse_eq
  simp [flatMap_initials]

/-- **Every automaton that can be written down is read back as it was**, unless it has more states
than can be numbered. -/
theorem parse_render (a : Automaton) (h : a.Writable) :
    Automaton.parse a.render =
      if a.size < 2 ^ 32 then .ok a else .error (.tooManyStates (2 ^ 32 - 1)) := by
  split
  · rename_i hfew
    exact parse_render_of_le h (Nat.le_of_lt_succ hfew)
  · rename_i hmany
    exact parse_render_of_lt h (Nat.lt_of_succ_le (Nat.not_lt.mp hmany))

/-- An automaton whose names look like other parts of a text. -/
def crooked : Automaton where
  states := #[⟨"->", #[1, 0, 1], false⟩, ⟨"INIT", #[], true⟩, ⟨"\\", #[3], false⟩,
    ⟨"*a", #[2, 2], true⟩]
  initial := 3

theorem parse_render_crooked :
    crooked.Writable ∧
      crooked.render = "STATES -> INIT \\ *a\nINIT *a\nACCEPT INIT *a\n" ++
        "-> -> INIT -> INIT\n\\ -> *a\n*a -> \\ \\\n" ∧
      Automaton.parse crooked.render = .ok crooked := by
  have h : crooked.Writable := by decide
  exact ⟨h, by decide +kernel, (parse_render crooked h).trans (if_pos (by decide))⟩

/-- An automaton without edges. -/
def edgeless (size : Nat) : Automaton where
  states := ((numerals size).map fun name => { name := name }).toArray
  initial := 0

theorem names_edgeless (size : Nat) : (edgeless size).names = numerals size := by
  rw [names, edgeless, List.map_map]
  exact List.map_id _

theorem targets_edgeless {size : Nat} {s : State} (hs : s ∈ (edgeless size).states) :
    s.targets = #[] := by
  rw [edgeless, List.mem_toArray] at hs
  obtain ⟨name, -, rfl⟩ := List.mem_map.mp hs
  rfl

theorem size_edgeless (size : Nat) : (edgeless size).size = size := by
  rw [← length_names, names_edgeless, length_numerals]

theorem writable_edgeless {size : Nat} (hsize : 0 < size) : (edgeless size).Writable where
  distinct := names_edgeless size ▸ nodup_numerals size
  plain := names_edgeless size ▸ fun _ => plain_numerals
  targets s hs id hid := by
    rw [targets_edgeless hs] at hid
    exact absurd hid (by simp)
  reserved s hs _ := targets_edgeless hs
  initial := (size_edgeless size).symm ▸ hsize

/-- With `2 ^ 32` states an automaton can be written down, but it is not read back. -/
theorem parse_render_edgeless :
    (edgeless (2 ^ 32)).Writable ∧
      Automaton.parse (edgeless (2 ^ 32)).render = .error (.tooManyStates (2 ^ 32 - 1)) := by
  have h : (edgeless (2 ^ 32)).Writable := writable_edgeless (by decide)
  refine ⟨h, parse_render_of_lt h ?_⟩
  rw [size_edgeless]
  exact Nat.lt_of_succ_le (Nat.le_refl _)

end Automaton

end FairCycle
