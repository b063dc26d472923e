/-
# What the text of an automaton means

The grammar has four kinds of rows (`Directive.Spelled`), and for every other row that is not blank
there is one thing wrong with it (`Directive.Flawed`).  The directives of a text name states in some
order; the automaton that they mean has a state for each name, numbered by first mention, and to
each state belong the targets of all its rows, one after the other (`Automaton.ofDirectives`).

`Automaton.Denotes` says which result a text denotes, in these terms alone.  Reading a text gives
exactly this result (`Automaton.parse_eq_iff`).
-/
import FairCycle.Proofs.Written
import Mathlib.Algebra.Group.Nat.Defs
import Mathlib.Data.List.Find

namespace FairCycle

open Text

/-! ## 1. Rows and directives -/

namespace Directive

/-- The words that no row of edges begins with. -/
def reserved : List String := ["STATES", "INIT", "ACCEPT"]

/-- The words of the format are plain themselves. -/
theorem plain_keyword : ∀ word ∈ "->" :: reserved, Plain word := by decide

/-- The grammar of a row. -/
inductive Spelled : List String → Directive → Prop
  | states (names : List String) : Spelled ("STATES" :: names) (.states names)
  | initial (name : String) : Spelled ["INIT", name] (.initial name)
  | accepting {names : List String} (hsome : names ≠ []) :
      Spelled ("ACCEPT" :: names) (.accepting names)
  | edges {source : String} {targets : List String} (hsource : source ∉ reserved)
      (hsome : targets ≠ []) : Spelled (source :: "->" :: targets) (.edges source targets)

/-- What is wrong with a row that is neither blank nor spelled right. -/
inductive Flawed : List String → DirectiveFlaw → Prop
  | noInitial : Flawed ["INIT"] .noInitial
  | manyInitial (first second : String) (others : List String) :
      Flawed ("INIT" :: first :: second :: others) .manyInitial
  | noAccepting : Flawed ["ACCEPT"] .noAccepting
  | noTarget {source : String} (hsource : source ∉ reserved) :
      Flawed [source, "->"] (.noTarget source)
  | unknown {head : String} {words : List String} (hhead : head ∉ reserved)
      (harrow : words.head? ≠ some "->") : Flawed (head :: words) (.unknown head)

theorem ofWords?_of_spelled {row : List String} {d : Directive} (h : Spelled row d) :
    ofWords? row = .ok (some d) := by
  cases h with
  | states names => rfl
  | initial name => rfl
  | @accepting names hsome =>
    cases names with
    | nil => exact absurd rfl hsome
    | cons name names => rfl
  | @edges source targets hsource hsome =>
    cases targets with
    | nil => exact absurd rfl hsome
    | cons target targets =>
      simp only [reserved, List.mem_cons, List.not_mem_nil, or_false, not_or] at hsource
      simp [ofWords?, hsource]

theorem ofWords?_of_flawed {row : List String} {flaw : DirectiveFlaw} (h : Flawed row flaw) :
    ofWords? row = .error flaw := by
  cases h with
  | noInitial => rfl
  | manyInitial first second others => rfl
  | noAccepting => rfl
  | noTarget hsource =>
    simp only [reserved, List.mem_cons, List.not_mem_nil, or_false, not_or] at hsource
    simp [ofWords?, hsource]
  | @unknown head words hhead harrow =>
    simp only [reserved, List.mem_cons, List.not_mem_nil, or_false, not_or] at hhead
    cases words with
    | nil => simp [ofWords?, hhead]
    | cons word words =>
      have hword : word ≠ "->" := fun heq => harrow (congrArg some heq)
      simp [ofWords?, hhead, hword]

/-- **A row is blank, spelled right or flawed.** -/
theorem spelled_or_flawed (row : List String) :
    row = [] ∨ (∃ d, Spelled row d) ∨ ∃ flaw, Flawed row flaw := by
  rcases row with - | ⟨head, words⟩
  · exact .inl rfl
  refine .inr ?_
  by_cases hhead : head ∈ reserved
  · simp only [reserved, List.mem_cons, List.not_mem_nil, or_false] at hhead
    rcases hhead with rfl | rfl | rfl
    · exact .inl ⟨_, .states words⟩
    · rcases words with - | ⟨first, - | ⟨second, others⟩⟩
      · exact .inr ⟨_, .noInitial⟩
      · exact .inl ⟨_, .initial first⟩
      · exact .inr ⟨_, .manyInitial first second others⟩
    · rcases words with - | ⟨first, others⟩
      · exact .inr ⟨_, .noAccepting⟩
      · exact .inl ⟨_, .accepting (List.cons_ne_nil first others)⟩
  · by_cases harrow : words.head? = some "->"
    · obtain ⟨targets, rfl⟩ := List.head?_eq_some_iff.mp harrow
      rcases targets with - | ⟨target, others⟩
      · exact .inr ⟨_, .noTarget hhead⟩
      · exact .inl ⟨_, .edges hhead (List.cons_ne_nil target others)⟩
    · exact .inr ⟨_, .unknown hhead harrow⟩

/-- Rows without a flaw and their directives; blank rows have none. -/
inductive Listed : List (List String) → List Directive → Prop
  | nil : Listed [] []
  | blank {rows : List (List String)} {ds : List Directive} (hrest : Listed rows ds) :
      Listed ([] :: rows) ds
  | row {row : List String} {d : Directive} {rows : List (List String)} {ds : List Directive}
      (hrow : Spelled row d) (hrest : Listed rows ds) : Listed (row :: rows) (d :: ds)

/-- Directives are listed by the rows that they are written as. -/
theorem listed_words {ds : List Directive} (h : ∀ d ∈ ds, Spelled d.words d) :
    Listed (ds.map words) ds := by
  induction ds with
  | nil => exact .nil
  | cons d ds ih =>
    obtain ⟨hd, hds⟩ := List.forall_mem_cons.mp h
    exact .row hd (ih hds)

/-- **Either no row is flawed or there is a first one that is.** -/
theorem listed_or_flawed (rows : List (List String)) :
    (∃ ds, Listed rows ds) ∨
      ∃ before row after ds flaw, rows = before ++ row :: after ∧ Listed before ds ∧
        Flawed row flaw := by
  induction rows with
  | nil => exact .inl ⟨[], .nil⟩
  | cons row rows ih =>
    rcases spelled_or_flawed row with rfl | ⟨d, hd⟩ | ⟨flaw, hflaw⟩
    · rcases ih with ⟨ds, hds⟩ | ⟨before, row, after, ds, flaw, rfl, hds, hflaw⟩
      · exact .inl ⟨ds, .blank hds⟩
      · exact .inr ⟨[] :: before, row, after, ds, flaw, rfl, .blank hds, hflaw⟩
    · rcases ih with ⟨ds, hds⟩ | ⟨before, row', after, ds, flaw, rfl, hds, hflaw⟩
      · exact .inl ⟨d :: ds, .row hd hds⟩
      · exact .inr ⟨row :: before, row', after, d :: ds, flaw, rfl, .row hd hds, hflaw⟩
    · exact .inr ⟨[], row, rows, [], flaw, rfl, .nil, hflaw⟩

/-! ## 2. What directives say -/

/-- The names in a directive, in order. -/
def mentions : Directive → List String
  | .states names | .accepting names => names
  | .initial name => [name]
  | .edges source targets => source :: targets

/-- The targets that a directive gives to a state. -/
def targetsOf (name : String) : Directive → List String
  | .edges source targets => if source = name then targets else []
  | _ => []

/-- The states that a directive makes accepting. -/
def acceptings : Directive → List String
  | .accepting names => names
  | _ => []

/-- The states that a directive declares initial. -/
def initials : Directive → List String
  | .initial name => [name]
  | _ => []

/-- All names of some directives, each where it is first mentioned. -/
def names (ds : List Directive) : List String := (ds.flatMap mentions).eraseDups

end Directive

/-- The number of a name: its place, cut down to a word. -/
def numberOf (names : List String) (name : String) : UInt32 := (names.idxOf name).toUInt32

/-- The state of a name, when names are numbered by their places. -/
def State.drawn (names : List String) (targets : String → List String) (accepting : List String)
    (name : String) : State where
  name := name
  targets := ((targets name).map (numberOf names)).toArray
  accepting := decide (name ∈ accepting)

/-- The names of the states, by number. -/
def Automaton.names (a : Automaton) : List String := a.states.toList.map State.name

/-- Every edge leads to the number of a state. -/
def Automaton.Closed (a : Automaton) : Prop :=
  ∀ s ∈ a.states, ∀ id ∈ s.targets, id.toNat < a.size

theorem Automaton.closed_iff (a : Automaton) :
    (a.states.toList.all fun s => s.targets.toList.all (·.toNat < a.size)) = true ↔ a.Closed := by
  simp only [List.all_eq_true, Array.mem_toList_iff, decide_eq_true_eq, Automaton.Closed]

-- through the targets of the states, not through all numbers that there are
instance (a : Automaton) : Decidable a.Closed := decidable_of_iff _ a.closed_iff

/-- The automaton that directives mean, with the initial state `first`. -/
def Automaton.ofDirectives (ds : List Directive) (first : String) : Automaton where
  states := ((Directive.names ds).map (State.drawn (Directive.names ds)
    (fun name => ds.flatMap (Directive.targetsOf name))
    (ds.flatMap Directive.acceptings))).toArray
  initial := numberOf (Directive.names ds) first

/-- The result that a text denotes.  Names are told apart by their numbers, and up to the limit for
the number of states this is to tell them apart (`numberOf_inj`); beyond it there is no automaton,
and only the error still depends on the states declared initial. -/
inductive Automaton.Denotes (text : String) : Except AutomatonError Automaton → Prop
  /-- The first row that is flawed, whatever stands before and behind it. -/
  | malformed {before after : List (List String)} {row : List String} {ds : List Directive}
      {flaw : DirectiveFlaw} (hrows : Rows text (before ++ row :: after))
      (hbefore : Directive.Listed before ds) (hrow : Directive.Flawed row flaw) :
      Denotes text (.error (.malformed (before.length + 1) flaw.message))
  /-- The first state declared initial, and the first other one. -/
  | duplicate {rows : List (List String)} {ds : List Directive} {first second : String}
      {same others : List String} (hrows : Rows text rows) (hds : Directive.Listed rows ds)
      (hfew : (Directive.names ds).length ≤ Builder.stateLimit)
      (hinitial : ds.flatMap Directive.initials = first :: same ++ second :: others)
      (hsame : ∀ name ∈ same, name = first) (hother : second ≠ first) :
      Denotes text (.error (.duplicateInitial first second))
  | missing {rows : List (List String)} {ds : List Directive} (hrows : Rows text rows)
      (hds : Directive.Listed rows ds)
      (hfew : (Directive.names ds).length ≤ Builder.stateLimit)
      (hinitial : ds.flatMap Directive.initials = []) :
      Denotes text (.error .missingInitial)
  | automaton {rows : List (List String)} {ds : List Directive} {first : String}
      (hrows : Rows text rows) (hds : Directive.Listed rows ds)
      (hfew : (Directive.names ds).length ≤ Builder.stateLimit)
      (hinitial : first ∈ ds.flatMap Directive.initials)
      (hsame : ∀ name ∈ ds.flatMap Directive.initials, name = first) :
      Denotes text (.ok (.ofDirectives ds first))
  /-- The state with the number of the first one declared initial, and the first one declared
  initial that has another number. -/
  | crowdDuplicate {rows : List (List String)} {ds : List Directive} {first second named : String}
      {same others : List String} (hrows : Rows text rows) (hds : Directive.Listed rows ds)
      (hmany : Builder.stateLimit < (Directive.names ds).length)
      (hinitial : ds.flatMap Directive.initials = first :: same ++ second :: others)
      (hsame : ∀ name ∈ same,
        numberOf (Directive.names ds) name = numberOf (Directive.names ds) first)
      (hother : numberOf (Directive.names ds) second ≠ numberOf (Directive.names ds) first)
      (hnamed : (Directive.names ds)[(numberOf (Directive.names ds) first).toNat]? = some named) :
      Denotes text (.error (.duplicateInitial named second))
  | crowd {rows : List (List String)} {ds : List Directive} (hrows : Rows text rows)
      (hds : Directive.Listed rows ds)
      (hmany : Builder.stateLimit < (Directive.names ds).length)
      (hinitial : ∀ name ∈ ds.flatMap Directive.initials,
        ∀ name' ∈ ds.flatMap Directive.initials,
          numberOf (Directive.names ds) name = numberOf (Directive.names ds) name') :
      Denotes text (.error (.tooManyStates Builder.stateLimit))

/-! ## 3. Names by first mention -/

section Names

variable {mentioned : List String} {name : String}

theorem nodup_eraseDups (l : List String) : l.eraseDups.Nodup := by
  induction hn : l.length using Nat.strongRecOn generalizing l with
  | ind n ih =>
    cases l with
    | nil => exact List.nodup_nil
    | cons a l =>
      rw [List.eraseDups_cons]
      refine List.nodup_cons.mpr ⟨fun hmem => ?_, ih _ ?_ _ rfl⟩
      · simp at hmem
      · have hle := List.length_filter_le (fun b => !b == a) l
        rw [← hn, List.length_cons]
        omega

theorem eraseDups_eq_self {names : List String} (h : names.Nodup) : names.eraseDups = names := by
  induction names with
  | nil => rfl
  | cons name names ih =>
    obtain ⟨hname, hnames⟩ := List.nodup_cons.mp h
    have hkeep : names.filter (fun other => !other == name) = names :=
      List.filter_eq_self.mpr fun other hother => by
        simpa using fun heq : other = name => hname (heq ▸ hother)
    rw [List.eraseDups_cons, hkeep, ih hnames]

/-- The number of a name stays when others are mentioned. -/
theorem idxOf_eraseDups_append (h : name ∈ mentioned) (more : List String) :
    (mentioned ++ more).eraseDups.idxOf name = mentioned.eraseDups.idxOf name := by
  rw [List.eraseDups_append, List.idxOf_append_of_mem (List.mem_eraseDups.mpr h)]

/-- So does its number. -/
theorem numberOf_append (h : name ∈ mentioned) (more : List String) :
    numberOf (mentioned ++ more).eraseDups name = numberOf mentioned.eraseDups name :=
  congrArg Nat.toUInt32 (idxOf_eraseDups_append h more)

theorem length_eraseDups_append (mentioned more : List String) :
    mentioned.eraseDups.length ≤ (mentioned ++ more).eraseDups.length := by
  rw [List.eraseDups_append, List.length_append]
  exact Nat.le_add_right ..

theorem toNat_numberOf {names : List String} (hfew : names.length ≤ UInt32.size)
    (hname : name ∈ names) : (numberOf names name).toNat = names.idxOf name :=
  Nat.mod_eq_of_lt (Nat.lt_of_lt_of_le (List.idxOf_lt_length_iff.mpr hname) hfew)

/-- A number is that of a state even where it is not that of the name. -/
theorem toNat_numberOf_lt {names : List String} (hname : name ∈ names) :
    (numberOf names name).toNat < names.length :=
  Nat.lt_of_le_of_lt (Nat.mod_le ..) (List.idxOf_lt_length_iff.mpr hname)

/-- **Few names are told apart by their numbers.** -/
theorem numberOf_inj {names : List String} (hfew : names.length ≤ UInt32.size)
    (hname : name ∈ names) {other : String} (hother : other ∈ names) :
    numberOf names name = numberOf names other ↔ name = other := by
  rw [← UInt32.toNat_inj, toNat_numberOf hfew hname, toNat_numberOf hfew hother,
    List.idxOf_inj hname]

theorem getElem?_numberOf {names : List String} (hfew : names.length ≤ UInt32.size)
    (hname : name ∈ names) : names[(numberOf names name).toNat]? = some name := by
  have hlt := List.idxOf_lt_length_iff.mpr hname
  rw [toNat_numberOf hfew hname, List.getElem?_eq_getElem hlt, List.getElem_idxOf]

/-- To change one entry of a table of distinct names is to change what the name has. -/
theorem modify_map {l : List String} (hl : l.Nodup) (f : String → State) (g : State → State) :
    (l.map f).modify (l.idxOf name) g = l.map fun other =>
      if other = name then g (f other) else f other := by
  refine List.ext_getElem (by simp) fun i hmodify _ => ?_
  have hi : i < l.length := by simpa using hmodify
  simp only [List.getElem_modify, List.getElem_map]
  have hiff : l.idxOf name = i ↔ l[i] = name := by
    constructor
    · rintro rfl
      exact List.getElem_idxOf hi
    · intro heq
      rw [← heq, hl.idxOf_getElem i hi]
  split
  · rename_i heq
    rw [if_pos (hiff.mp heq)]
  · rename_i hne
    rw [if_neg (mt hiff.mpr hne)]

end Names

/-! ## 4. Building -/

/-- The state with the number of the first one declared initial, and the first of the recent ones
that has another number. -/
def rival? (names initials recent : List String) : Option (String × String) :=
  initials.head?.bind fun first =>
    (recent.find? (numberOf names · ≠ numberOf names first)).bind fun second =>
      names[(numberOf names first).toNat]?.map (·, second)

/-- What is in a builder to which the names in a list were mentioned, with these targets, accepting
states and initial states.  The `recent` ones of the initial states were declared since an automaton
was last asked for. -/
structure Builder.Shows (b : Builder) (mentioned : List String) (targets : String → List String)
    (accepting initials recent : List String) : Prop where
  names : b.states.toList.map State.name = mentioned.eraseDups
  states : mentioned.eraseDups.length ≤ UInt32.size → b.states.toList =
    mentioned.eraseDups.map (State.drawn mentioned.eraseDups targets accepting)
  source_mem : ∀ {source target}, target ∈ targets source → source ∈ mentioned
  target_mem : ∀ {source target}, target ∈ targets source → target ∈ mentioned
  accepting_mem : ∀ {name}, name ∈ accepting → name ∈ mentioned
  initial_mem : ∀ {name}, name ∈ initials → name ∈ mentioned
  initial : b.initial = initials.head?.map (numberOf mentioned.eraseDups)
  recent_suffix : recent <:+ initials
  duplicate : b.duplicate = rival? mentioned.eraseDups initials recent

/-- Who is a rival does not change when others are mentioned. -/
theorem rival?_mention {mentioned initials recent : List String}
    (hinitials : ∀ {name}, name ∈ initials → name ∈ mentioned) (hrecent : recent <:+ initials)
    (more : List String) :
    rival? (mentioned ++ more).eraseDups initials recent =
      rival? mentioned.eraseDups initials recent := by
  cases hhead : initials.head? with
  | none => rw [rival?, rival?, hhead, Option.bind_none, Option.bind_none]
  | some first =>
    have hfirst : first ∈ mentioned := hinitials (List.mem_of_head? hhead)
    have hlt := toNat_numberOf_lt (List.mem_eraseDups.mpr hfirst)
    have hfind : recent.find?
        (numberOf (mentioned ++ more).eraseDups · ≠ numberOf mentioned.eraseDups first) =
          recent.find? (numberOf mentioned.eraseDups · ≠ numberOf mentioned.eraseDups first) :=
      List.find?_congr fun name hname => by
        rw [numberOf_append (hinitials (hrecent.subset hname))]
    rw [rival?, rival?, hhead, Option.bind_some, Option.bind_some, numberOf_append hfirst, hfind,
      List.eraseDups_append, List.getElem?_append_left hlt]

theorem Builder.state_of_index {b : Builder} {name : String} {place : Nat}
    (h : b.index[name]? = some place) : b.state name = (place.toUInt32, b) := by
  unfold Builder.state
  split
  · rename_i hplace
    rw [Option.some.inj (h.symm.trans hplace)]
  · rename_i hnone
    exact absurd (h.symm.trans hnone) (by simp)

theorem Builder.state_of_index_none {b : Builder} {name : String} (h : b.index[name]? = none) :
    (b.state name).1 = b.states.size.toUInt32 ∧
      (b.state name).2.states = b.states.push { name := name } ∧
      (b.state name).2.initial = b.initial ∧ (b.state name).2.duplicate = b.duplicate := by
  unfold Builder.state
  split
  · rename_i hplace
    exact absurd (h.symm.trans hplace) (by simp)
  · exact ⟨rfl, rfl, rfl, rfl⟩

namespace Builder.Shows

variable {b : Builder} {mentioned : List String} {targets : String → List String}
  {accepting initials recent : List String}

theorem empty : ({} : Builder).Shows [] (fun _ => []) [] [] [] where
  names := rfl
  states _ := rfl
  source_mem h := absurd h List.not_mem_nil
  target_mem h := absurd h List.not_mem_nil
  accepting_mem h := absurd h List.not_mem_nil
  initial_mem h := absurd h List.not_mem_nil
  initial := rfl
  recent_suffix := List.suffix_rfl
  duplicate := rfl

theorem size (h : b.Shows mentioned targets accepting initials recent) :
    b.states.size = mentioned.eraseDups.length := by
  rw [← h.names, List.length_map, Array.length_toList]

/-- The index knows a name exactly at its place. -/
theorem index_iff (h : b.Shows mentioned targets accepting initials recent) {name : String}
    {place : Nat} :
    b.index[name]? = some place ↔ mentioned.eraseDups[place]? = some name := by
  rw [b.index_iff, ← h.names, ← Array.toList_map, Array.getElem?_toList]

theorem index_of_mem (h : b.Shows mentioned targets accepting initials recent) {name : String}
    (hname : name ∈ mentioned) : b.index[name]? = some (mentioned.eraseDups.idxOf name) := by
  have hlt := List.idxOf_lt_length_iff.mpr (List.mem_eraseDups.mpr hname)
  rw [h.index_iff, List.getElem?_eq_getElem hlt, List.getElem_idxOf]

theorem index_of_notMem (h : b.Shows mentioned targets accepting initials recent) {name : String}
    (hname : name ∉ mentioned) : b.index[name]? = none := by
  refine Option.eq_none_iff_forall_ne_some.mpr fun place hplace => hname ?_
  exact List.mem_eraseDups.mp (List.mem_of_getElem? (h.index_iff.mp hplace))

/-- Only the order of first mention counts. -/
theorem congr (h : b.Shows mentioned targets accepting initials recent) {mentioned' : List String}
    (heq : mentioned'.eraseDups = mentioned.eraseDups) :
    b.Shows mentioned' targets accepting initials recent := by
  have hmem : ∀ {name}, name ∈ mentioned → name ∈ mentioned' := fun hname => by
    rw [← List.mem_eraseDups, heq]
    exact List.mem_eraseDups.mpr hname
  exact
    { names := by rw [heq]; exact h.names
      states := by rw [heq]; exact h.states
      source_mem := fun ht => hmem (h.source_mem ht)
      target_mem := fun ht => hmem (h.target_mem ht)
      accepting_mem := fun ha => hmem (h.accepting_mem ha)
      initial_mem := fun hi => hmem (h.initial_mem hi)
      initial := by rw [heq]; exact h.initial
      recent_suffix := h.recent_suffix
      duplicate := by rw [heq]; exact h.duplicate }

/-- A name that is new is drawn without targets, and the others as before. -/
theorem drawn_append (h : b.Shows mentioned targets accepting initials recent) {new : String}
    (hnew : new ∉ mentioned) :
    (mentioned ++ [new]).eraseDups.map
        (State.drawn (mentioned ++ [new]).eraseDups targets accepting) =
      mentioned.eraseDups.map (State.drawn mentioned.eraseDups targets accepting) ++
        [{ name := new }] := by
  have hold : ∀ name, State.drawn (mentioned ++ [new]).eraseDups targets accepting name =
      State.drawn mentioned.eraseDups targets accepting name := fun name => by
    have htargets : (targets name).map (numberOf (mentioned ++ [new]).eraseDups) =
        (targets name).map (numberOf mentioned.eraseDups) :=
      List.map_congr_left fun target ht => numberOf_append (h.target_mem ht) [new]
    rw [State.drawn, State.drawn, htargets]
  have htargets : targets new = [] :=
    List.eq_nil_iff_forall_not_mem.mpr fun target ht => hnew (h.source_mem ht)
  have haccepting : new ∉ accepting := fun ha => hnew (h.accepting_mem ha)
  rw [List.map_congr_left fun name _ => hold name, eraseDups_append_of_notMem hnew,
    List.map_append, List.map_singleton]
  simp [State.drawn, htargets, haccepting]

/-- A new state with a new name, and nothing else, is what a mention of this name leaves. -/
theorem mention (h : b.Shows mentioned targets accepting initials recent) {name : String}
    (hname : name ∉ mentioned) {b' : Builder} (hstates : b'.states = b.states.push { name := name })
    (hinitial : b'.initial = b.initial) (hduplicate : b'.duplicate = b.duplicate) :
    b'.Shows (mentioned ++ [name]) targets accepting initials recent where
  names := by
    rw [hstates, Array.toList_push, List.map_append, h.names, eraseDups_append_of_notMem hname]
    rfl
  states hfew := by
    rw [hstates, Array.toList_push, h.drawn_append hname,
      h.states (Nat.le_trans (length_eraseDups_append ..) hfew)]
  source_mem ht := List.mem_append_left _ (h.source_mem ht)
  target_mem ht := List.mem_append_left _ (h.target_mem ht)
  accepting_mem ha := List.mem_append_left _ (h.accepting_mem ha)
  initial_mem hi := List.mem_append_left _ (h.initial_mem hi)
  initial := by
    rw [hinitial, h.initial]
    cases initials with
    | nil => rfl
    | cons first others =>
      exact congrArg some (numberOf_append (h.initial_mem List.mem_cons_self) [name]).symm
  recent_suffix := h.recent_suffix
  duplicate := by rw [hduplicate, h.duplicate, rival?_mention h.initial_mem h.recent_suffix]

/-- **To declare a state is to mention it.** -/
theorem state (h : b.Shows mentioned targets accepting initials recent) (name : String) :
    (b.state name).2.Shows (mentioned ++ [name]) targets accepting initials recent ∧
      (b.state name).1 = numberOf (mentioned ++ [name]).eraseDups name := by
  by_cases hname : name ∈ mentioned
  · have hsame : (mentioned ++ [name]).eraseDups = mentioned.eraseDups := by
      rw [eraseDups_append_of_mem hname, List.append_nil]
    rw [state_of_index (h.index_of_mem hname), hsame]
    exact ⟨h.congr hsame, rfl⟩
  · have hfresh : name ∉ mentioned.eraseDups := mt List.mem_eraseDups.mp hname
    obtain ⟨hid, hstates, hinitial, hduplicate⟩ := state_of_index_none (h.index_of_notMem hname)
    refine ⟨h.mention hname hstates hinitial hduplicate, ?_⟩
    rw [hid, h.size, numberOf, eraseDups_append_of_notMem hname, List.idxOf_append_of_notMem hfresh]
    simp

/-- A change to the state of a name changes what is drawn there. -/
theorem update (h : b.Shows mentioned targets accepting initials recent) {name : String}
    (hname : name ∈ mentioned) {f : State → State} (hf : ∀ s, (f s).name = s.name)
    {targets' : String → List String} {accepting' : List String}
    (htargets : ∀ {source target}, target ∈ targets' source →
      source ∈ mentioned ∧ target ∈ mentioned)
    (haccepting : ∀ {name}, name ∈ accepting' → name ∈ mentioned)
    (hself : f (.drawn mentioned.eraseDups targets accepting name) =
      .drawn mentioned.eraseDups targets' accepting' name)
    (hother : ∀ other, other ≠ name → State.drawn mentioned.eraseDups targets accepting other =
      .drawn mentioned.eraseDups targets' accepting' other) :
    (b.update (numberOf mentioned.eraseDups name) f hf).Shows mentioned targets' accepting'
      initials recent where
  names := by
    rw [← h.names]
    change (b.states.modify _ f).toList.map State.name = _
    refine List.ext_getElem (by simp) fun i _ _ => ?_
    simp only [List.getElem_map, Array.getElem_toList, Array.getElem_modify]
    split
    · exact hf _
    · rfl
  states hfew := by
    change (b.states.modify _ f).toList = _
    rw [toNat_numberOf hfew (List.mem_eraseDups.mpr hname), Array.toList_modify, h.states hfew,
      modify_map (nodup_eraseDups mentioned)]
    refine List.map_congr_left fun other _ => ?_
    by_cases heq : other = name
    · rw [if_pos heq, heq, hself]
    · rw [if_neg heq, hother other heq]
  source_mem ht := (htargets ht).1
  target_mem ht := (htargets ht).2
  accepting_mem := haccepting
  initial_mem := h.initial_mem
  initial := h.initial
  recent_suffix := h.recent_suffix
  duplicate := h.duplicate

/-- **To add an edge is to mention both its ends and to give the source one more target.** -/
theorem edge (h : b.Shows mentioned targets accepting initials recent) (source target : String) :
    (b.edge source target).Shows (mentioned ++ [source] ++ [target])
      (fun name => targets name ++ if source = name then [target] else []) accepting initials
      recent := by
  obtain ⟨hb₁, hid₁⟩ := h.state source
  obtain ⟨hb₂, hid₂⟩ := hb₁.state target
  have hsource : source ∈ mentioned ++ [source] := by simp
  have hnumber : (b.state source).1 =
      numberOf (mentioned ++ [source] ++ [target]).eraseDups source := by
    rw [hid₁, numberOf_append hsource]
  rw [Builder.edge]
  dsimp only
  simp only [hnumber, hid₂]
  refine hb₂.update (List.mem_append_left _ hsource) _ (fun {name t} ht => ?_) hb₂.accepting_mem ?_
    fun other hne => ?_
  · rcases List.mem_append.mp ht with hold | hnew
    · exact ⟨hb₂.source_mem hold, hb₂.target_mem hold⟩
    · split at hnew
      · rename_i heq
        rw [List.mem_singleton.mp hnew, ← heq]
        simp
      · exact absurd hnew List.not_mem_nil
  · simp [State.drawn]
  · simp [State.drawn, Ne.symm hne]

/-- **To make a state accepting is to mention it so.** -/
theorem accept (h : b.Shows mentioned targets accepting initials recent) (name : String) :
    (b.accept name).Shows (mentioned ++ [name]) targets (accepting ++ [name]) initials recent := by
  obtain ⟨hb, hid⟩ := h.state name
  rw [Builder.accept]
  dsimp only
  simp only [hid]
  refine hb.update (by simp) _ (fun ht => ⟨hb.source_mem ht, hb.target_mem ht⟩)
    (fun {n} ha => ?_) ?_ fun other hne => ?_
  · rcases List.mem_append.mp ha with ha | ha
    · exact hb.accepting_mem ha
    · exact List.mem_append_right _ ha
  · simp [State.drawn]
  · simp [State.drawn, hne]

theorem rival?_append {names : List String} {first named : String}
    (hfirst : initials.head? = some first)
    (hnamed : names[(numberOf names first).toNat]? = some named) (recent : List String)
    (name : String) :
    rival? names (initials ++ [name]) (recent ++ [name]) =
      (rival? names initials recent).or
        (if numberOf names name = numberOf names first then none else some (named, name)) := by
  have hhead : (initials ++ [name]).head? = some first := by simp [hfirst]
  rw [rival?, rival?, hhead, hfirst, Option.bind_some, Option.bind_some, List.find?_append, hnamed]
  by_cases heq : numberOf names name = numberOf names first
  · simp [heq]
  · cases recent.find? (numberOf names · ≠ numberOf names first) <;> simp [heq]

theorem getElem?_name (h : b.Shows mentioned targets accepting initials recent) (place : Nat) :
    b.states[place]?.map State.name = mentioned.eraseDups[place]? := by
  rw [← h.names, List.getElem?_map, Array.getElem?_toList]

theorem withInitials (h : b.Shows mentioned targets accepting initials recent) {b' : Builder}
    {initials' recent' : List String} (hmem : ∀ {name}, name ∈ initials' → name ∈ mentioned)
    (hrecent : recent' <:+ initials') (hstates : b'.states = b.states)
    (hinitial : b'.initial = initials'.head?.map (numberOf mentioned.eraseDups))
    (hduplicate : b'.duplicate = rival? mentioned.eraseDups initials' recent') :
    b'.Shows mentioned targets accepting initials' recent' where
  names := by rw [hstates, h.names]
  states := by rw [hstates]; exact h.states
  source_mem := h.source_mem
  target_mem := h.target_mem
  accepting_mem := h.accepting_mem
  initial_mem := hmem
  initial := hinitial
  recent_suffix := hrecent
  duplicate := hduplicate

/-- **To declare a state initial is to mention it so**, and it always succeeds. -/
theorem start (h : b.Shows mentioned targets accepting initials recent) (name : String) :
    (b.start name).2.Shows (mentioned ++ [name]) targets accepting (initials ++ [name])
        (recent ++ [name]) ∧
      (b.start name).1 = some () := by
  obtain ⟨hb, hid⟩ := h.state name
  have hmem : ∀ {n}, n ∈ initials ++ [name] → n ∈ mentioned ++ [name] := fun hn =>
    (List.mem_append.mp hn).elim (fun hn => hb.initial_mem hn) fun hn => List.mem_append_right _ hn
  have hrecent : recent ++ [name] <:+ initials ++ [name] := by
    obtain ⟨earlier, rfl⟩ := h.recent_suffix
    exact ⟨earlier, (List.append_assoc ..).symm⟩
  have hinitial := hb.initial
  have hduplicate := hb.duplicate
  rw [Builder.start]
  dsimp only
  cases hinitials : initials.head? with
  | none =>
    obtain rfl := List.head?_eq_none_iff.mp hinitials
    obtain rfl := List.suffix_nil.mp h.recent_suffix
    rw [show (b.state name).2.initial = none from hinitial]
    refine ⟨hb.withInitials hmem hrecent rfl (by rw [hid]; rfl) ?_, rfl⟩
    simpa [rival?] using hduplicate
  | some first =>
    have hfirst : first ∈ mentioned ++ [name] := hb.initial_mem (List.mem_of_head? hinitials)
    rw [hinitials, Option.map_some] at hinitial
    have hinitial' : (b.state name).2.initial =
        (initials ++ [name]).head?.map (numberOf (mentioned ++ [name]).eraseDups) := by
      rw [List.head?_append, hinitials, hinitial]
      rfl
    -- the number of the first one is that of a state, and this state is reported
    have hnamed := List.getElem?_eq_getElem (toNat_numberOf_lt (List.mem_eraseDups.mpr hfirst))
    obtain ⟨s, hs, hname⟩ := Option.map_eq_some_iff.mp ((hb.getElem?_name _).trans hnamed)
    have hrival := rival?_append hinitials hnamed recent name
    rw [← hduplicate, ← hname] at hrival
    rw [hinitial, hid]
    cases hdup : (b.state name).2.duplicate with
    | some pair =>
      rw [hdup] at hrival
      exact ⟨hb.withInitials hmem hrecent rfl hinitial' (hdup.trans hrival.symm), rfl⟩
    | none =>
      rw [hdup, Option.none_or] at hrival
      dsimp only
      split
      · rename_i heq
        rw [if_pos heq.symm] at hrival
        exact ⟨hb.withInitials hmem hrecent rfl hinitial' (hdup.trans hrival.symm), rfl⟩
      · rename_i hne
        rw [if_neg (Ne.symm hne)] at hrival
        rw [hs]
        exact ⟨hb.withInitials hmem hrecent rfl (hinitial.symm.trans hinitial') hrival.symm, rfl⟩

theorem declare (h : b.Shows mentioned targets accepting initials recent) (names : List String) :
    (b.declare names).Shows (mentioned ++ names) targets accepting initials recent := by
  rw [Builder.declare]
  induction names generalizing b mentioned with
  | nil => rwa [List.append_nil]
  | cons name names ih =>
    have hnames := ih (h.state name).1
    rwa [List.append_assoc, List.singleton_append] at hnames

theorem foldl_accept (h : b.Shows mentioned targets accepting initials recent)
    (names : List String) :
    (names.foldl Builder.accept b).Shows (mentioned ++ names) targets (accepting ++ names)
      initials recent := by
  induction names generalizing b mentioned accepting with
  | nil => rwa [List.append_nil, List.append_nil]
  | cons name names ih =>
    have hnames := ih (h.accept name)
    rwa [List.append_assoc, List.singleton_append, List.append_assoc, List.singleton_append]
      at hnames

theorem append_targets (source target : String) (others : List String) :
    (fun name => targets name ++ (if source = name then [target] else []) ++
        if source = name then others else []) =
      fun name => targets name ++ if source = name then target :: others else [] := by
  funext name
  split
  · rw [List.append_assoc, List.singleton_append]
  · rw [List.append_nil]

/-- Several edges of a source that was mentioned before. -/
theorem foldl_edge (h : b.Shows mentioned targets accepting initials recent) {source : String}
    (hmem : source ∈ mentioned) (others : List String) :
    (others.foldl (fun b target => b.edge source target) b).Shows (mentioned ++ others)
      (fun name => targets name ++ if source = name then others else []) accepting initials
      recent := by
  induction others generalizing b mentioned targets with
  | nil => simpa using h
  | cons target others ih =>
    have hagain : (mentioned ++ [target]).eraseDups =
        (mentioned ++ [source] ++ [target]).eraseDups := by
      rw [List.append_assoc, List.singleton_append, eraseDups_append_of_mem hmem]
    have hothers := ih ((h.edge source target).congr hagain) (List.mem_append_left _ hmem)
    rw [List.append_assoc, List.singleton_append] at hothers
    rwa [append_targets] at hothers

/-- **To follow a directive is to take in what it says.** -/
theorem apply (h : b.Shows mentioned targets accepting initials recent) {row : List String}
    {d : Directive} (hd : Directive.Spelled row d) :
    (b.apply d).Shows (mentioned ++ d.mentions) (fun name => targets name ++ d.targetsOf name)
      (accepting ++ d.acceptings) (initials ++ d.initials) (recent ++ d.initials) := by
  cases hd with
  | states names =>
    simp only [Directive.targetsOf, Directive.acceptings, Directive.initials, List.append_nil]
    exact h.declare names
  | initial name =>
    simp only [Directive.targetsOf, Directive.acceptings, List.append_nil]
    exact (h.start name).1
  | @accepting names hsome =>
    simp only [Directive.targetsOf, Directive.initials, List.append_nil]
    exact h.foldl_accept names
  | @edges source others hsource hsome =>
    obtain ⟨target, others, rfl⟩ := List.exists_cons_of_ne_nil hsome
    simp only [Directive.mentions, Directive.targetsOf, Directive.acceptings, Directive.initials,
      List.append_nil]
    -- the first edge mentions the source
    have hmem : source ∈ mentioned ++ [source] ++ [target] := by simp
    have hagain : (mentioned ++ [source] ++ [target] ++ others) =
        mentioned ++ source :: target :: others := by simp
    have hedges := (h.edge source target).foldl_edge hmem others
    rw [hagain] at hedges
    rwa [append_targets] at hedges

end Builder.Shows

/-- Directives add what they say to what a builder shows. -/
theorem Builder.Shows.foldl_apply {rows : List (List String)} {ds : List Directive}
    {b : Builder} {mentioned : List String} {targets : String → List String}
    {accepting initials recent : List String}
    (h : b.Shows mentioned targets accepting initials recent) (hds : Directive.Listed rows ds) :
    (ds.foldl Builder.apply b).Shows (mentioned ++ ds.flatMap Directive.mentions)
      (fun name => targets name ++ ds.flatMap (Directive.targetsOf name))
      (accepting ++ ds.flatMap Directive.acceptings)
      (initials ++ ds.flatMap Directive.initials) (recent ++ ds.flatMap Directive.initials) := by
  induction hds generalizing b mentioned targets accepting initials recent with
  | nil => simpa using h
  | blank hrest ih => exact ih h
  | row hrow hrest ih =>
    have hrow := ih (h.apply hrow)
    simpa only [List.foldl_cons, List.flatMap_cons, List.append_assoc] using hrow

/-- **A builder that has followed directives shows what they say.** -/
theorem Builder.shows_directives {rows : List (List String)} {ds : List Directive}
    (hds : Directive.Listed rows ds) :
    (ds.foldl Builder.apply {}).Shows (ds.flatMap Directive.mentions)
      (fun name => ds.flatMap (Directive.targetsOf name)) (ds.flatMap Directive.acceptings)
      (ds.flatMap Directive.initials) (ds.flatMap Directive.initials) :=
  Builder.Shows.empty.foldl_apply hds

/-! ## 5. Reading -/

/-- Rows without a flaw are read as their directives. -/
theorem Builder.readLine_of_listed {rows : List (List String)} {ds : List Directive}
    (h : Directive.Listed rows ds) (b : Builder) (number : Nat) :
    ((rows.zipIdx number).map Prod.swap).foldlM Builder.readLine b =
      .ok (ds.foldl Builder.apply b) := by
  induction h generalizing b number with
  | nil => rfl
  | blank hrest ih => exact ih b (number + 1)
  | row hrow hrest ih =>
    rw [List.zipIdx_cons, List.map_cons, List.foldlM_cons, Prod.swap_prod_mk, Builder.readLine,
      Directive.ofWords?_of_spelled hrow]
    exact ih _ (number + 1)

/-- Reading ends at the first row with a flaw. -/
theorem Builder.readLine_of_flawed {before after : List (List String)} {row : List String}
    {ds : List Directive} {flaw : DirectiveFlaw} (hbefore : Directive.Listed before ds)
    (hrow : Directive.Flawed row flaw) (b : Builder) :
    (((before ++ row :: after).zipIdx 1).map Prod.swap).foldlM Builder.readLine b =
      .error (.malformed (before.length + 1) flaw.message) := by
  rw [List.zipIdx_append, List.map_append, List.foldlM_append, readLine_of_listed hbefore,
    List.zipIdx_cons, List.map_cons]
  change ((((row :: after).zipIdx (1 + before.length)).map Prod.swap).foldlM Builder.readLine
    (ds.foldl Builder.apply b) : Except AutomatonError Builder) = _
  rw [List.zipIdx_cons, List.map_cons, List.foldlM_cons, Prod.swap_prod_mk, Builder.readLine,
    Directive.ofWords?_of_flawed hrow, Nat.add_comm]
  rfl

/-- The builder that has read a text without a flaw. -/
theorem Automaton.parse_of_listed {text : String} {rows : List (List String)}
    {ds : List Directive} (hrows : Rows text rows) (hds : Directive.Listed rows ds) :
    parse text = (ds.foldl Builder.apply {}).build.1 := by
  rw [parse, numberedWords_eq hrows, Builder.readLine_of_listed hds]

theorem rival?_of_same {names l : List String}
    (h : ∀ name ∈ l, ∀ name' ∈ l, numberOf names name = numberOf names name') :
    rival? names l l = none := by
  cases hfirst : l.head? with
  | none => rw [rival?, hfirst, Option.bind_none]
  | some first =>
    have hnone : l.find? (numberOf names · ≠ numberOf names first) = none := by
      refine List.find?_eq_none.mpr fun name hname => ?_
      simpa using h name hname first (List.mem_of_head? hfirst)
    rw [rival?, hfirst, Option.bind_some, hnone, Option.bind_none]

theorem rival?_of_other {names : List String} {first second named : String}
    {same others : List String} (hsame : ∀ name ∈ same, numberOf names name = numberOf names first)
    (hother : numberOf names second ≠ numberOf names first)
    (hnamed : names[(numberOf names first).toNat]? = some named) :
    rival? names (first :: same ++ second :: others) (first :: same ++ second :: others) =
      some (named, second) := by
  have hnone : (first :: same).find? (numberOf names · ≠ numberOf names first) = none :=
    List.find?_eq_none.mpr fun name hname => by
      rcases List.mem_cons.mp hname with rfl | hname
      · simp
      · simpa using hsame name hname
  rw [rival?, List.cons_append, List.head?_cons, Option.bind_some, ← List.cons_append,
    List.find?_append, hnone, Option.none_or, List.find?_cons_of_pos (by simpa using hother),
    Option.bind_some, hnamed]
  rfl

/-- Among few names a rival is another name. -/
theorem rival?_of_few {names initials recent : List String}
    (hfew : names.length ≤ UInt32.size) (hinitials : ∀ {name}, name ∈ initials → name ∈ names)
    (hrecent : recent <:+ initials) :
    rival? names initials recent =
      initials.head?.bind fun first => (recent.find? (· ≠ first)).map (first, ·) := by
  cases hhead : initials.head? with
  | none => rw [rival?, hhead, Option.bind_none, Option.bind_none]
  | some first =>
    have hfirst : first ∈ names := hinitials (List.mem_of_head? hhead)
    have hfind : recent.find? (numberOf names · ≠ numberOf names first) =
        recent.find? (· ≠ first) :=
      List.find?_congr fun name hname => by
        simp only [ne_eq, numberOf_inj hfew (hinitials (hrecent.subset hname)) hfirst]
    rw [rival?, hhead, Option.bind_some, Option.bind_some, hfind, getElem?_numberOf hfew hfirst]
    cases recent.find? (· ≠ first) <;> rfl

/-- By any key, some names are all the same, or there is a first one that differs from the
first. -/
theorem same_or_other {κ : Type} [DecidableEq κ] (key : String → κ) (l : List String) :
    (∀ name ∈ l, ∀ name' ∈ l, key name = key name') ∨
      ∃ first second same others, l = first :: same ++ second :: others ∧
        (∀ name ∈ same, key name = key first) ∧ key second ≠ key first := by
  cases l with
  | nil => exact .inl fun _ h => absurd h List.not_mem_nil
  | cons first rest =>
    cases hfind : rest.find? (key · ≠ key first) with
    | none =>
      have hall : ∀ name ∈ first :: rest, key name = key first := by
        intro name hname
        rcases List.mem_cons.mp hname with rfl | hname
        · rfl
        · simpa using List.find?_eq_none.mp hfind name hname
      exact .inl fun name hname name' hname' => (hall name hname).trans (hall name' hname').symm
    | some second =>
      obtain ⟨hother, same, others, rfl, hsame⟩ := List.find?_eq_some_iff_append.mp hfind
      exact .inr ⟨first, second, same, others, rfl,
        fun name hname => by simpa using hsame name hname, by simpa using hother⟩

theorem Directive.initials_mem {rows : List (List String)} {ds : List Directive}
    (hds : Listed rows ds) {name : String} (hname : name ∈ ds.flatMap initials) :
    name ∈ names ds :=
  List.mem_eraseDups.mpr ((Builder.shows_directives hds).initial_mem hname)

namespace Automaton

section Listed

variable {text : String} {rows : List (List String)} {ds : List Directive}
  (hrows : Rows text rows) (hds : Directive.Listed rows ds)
include hrows hds

theorem parse_of_rival {first second : String}
    (hrival : rival? (Directive.names ds) (ds.flatMap Directive.initials)
      (ds.flatMap Directive.initials) = some (first, second)) :
    parse text = .error (.duplicateInitial first second) := by
  have hduplicate := (Builder.shows_directives hds).duplicate.trans hrival
  rw [parse_of_listed hrows hds, Builder.build, hduplicate]

/-- **Without rivals a text gives the automaton of its directives**, if there are not too many names
and some state is initial. -/
theorem parse_of_no_rival
    (hrival : rival? (Directive.names ds) (ds.flatMap Directive.initials)
      (ds.flatMap Directive.initials) = none) :
    parse text =
      if Builder.stateLimit < (Directive.names ds).length then
        .error (.tooManyStates Builder.stateLimit)
      else (ds.flatMap Directive.initials).head?.elim (.error .missingInitial) fun first =>
        .ok (.ofDirectives ds first) := by
  have hb := Builder.shows_directives hds
  have hsize : _ = (Directive.names ds).length := hb.size
  rw [parse_of_listed hrows hds, Builder.build, hb.duplicate.trans hrival]
  dsimp only
  rw [hsize, hb.initial]
  split
  · rfl
  · rename_i hfew
    have hstates := hb.states (Nat.le_trans (Nat.not_lt.mp hfew) (Nat.sub_le ..))
    cases (ds.flatMap Directive.initials).head? with
    | none => rfl
    | some first =>
      refine congrArg Except.ok (congrArg₂ Automaton.mk ?_ ?_)
      · exact Array.toList_inj.mp hstates
      · rfl

end Listed

end Automaton

namespace Automaton.Denotes

variable {text : String} {result : Except AutomatonError Automaton}

/-- **What a text denotes is what is read.** -/
theorem parse_eq (h : Denotes text result) : Automaton.parse text = result := by
  cases h with
  | malformed hrows hbefore hrow =>
    rw [parse, numberedWords_eq hrows, Builder.readLine_of_flawed hbefore hrow]
  | @duplicate rows ds first second same others hrows hds hfew hinitial hsame hother =>
    have hsize : (Directive.names ds).length ≤ UInt32.size := Nat.le_trans hfew (Nat.sub_le ..)
    have hfirst : first ∈ Directive.names ds :=
      Directive.initials_mem hds (by rw [hinitial]; simp)
    have hsecond : second ∈ Directive.names ds :=
      Directive.initials_mem hds (by rw [hinitial]; simp)
    refine parse_of_rival hrows hds ?_
    rw [hinitial]
    exact rival?_of_other (fun name hname => congrArg _ (hsame name hname))
      (mt (numberOf_inj hsize hsecond hfirst).mp hother) (getElem?_numberOf hsize hfirst)
  | missing hrows hds hfew hinitial =>
    rw [parse_of_no_rival hrows hds (by rw [hinitial]; rfl), if_neg (Nat.not_lt.mpr hfew), hinitial]
    rfl
  | @automaton rows ds first hrows hds hfew hinitial hsame =>
    have hnone := rival?_of_same fun name hname name' hname' =>
      congrArg (numberOf (Directive.names ds)) ((hsame name hname).trans (hsame name' hname').symm)
    have hhead : (ds.flatMap Directive.initials).head? = some first := by
      obtain ⟨head, tail, heq⟩ := List.exists_cons_of_ne_nil (List.ne_nil_of_mem hinitial)
      rw [heq, List.head?_cons, hsame head (heq ▸ List.mem_cons_self)]
    rw [parse_of_no_rival hrows hds hnone, if_neg (Nat.not_lt.mpr hfew), hhead, Option.elim_some]
  | crowdDuplicate hrows hds hmany hinitial hsame hother hnamed =>
    refine parse_of_rival hrows hds ?_
    rw [hinitial]
    exact rival?_of_other hsame hother hnamed
  | crowd hrows hds hmany hinitial =>
    rw [parse_of_no_rival hrows hds (rival?_of_same hinitial), if_pos hmany]

/-- **Every text denotes something.** -/
theorem exists_result (text : String) : ∃ result, Denotes text result := by
  have hrows : Rows text _ := rows_iff.mpr rfl
  rcases Directive.listed_or_flawed
    ((lines text).map fun line => words (cutAt commentMarks line)) with
    ⟨ds, hds⟩ | ⟨before, row, after, ds, flaw, heq, hbefore, hrow⟩
  · rcases Nat.lt_or_ge Builder.stateLimit (Directive.names ds).length with hmany | hfew
    · rcases same_or_other (numberOf (Directive.names ds)) (ds.flatMap Directive.initials) with
        hsame | ⟨first, second, same, others, heq, hsame, hother⟩
      · exact ⟨_, .crowd hrows hds hmany hsame⟩
      · have hfirst : first ∈ Directive.names ds :=
          Directive.initials_mem hds (by rw [heq]; simp)
        have hnamed := List.getElem?_eq_getElem (toNat_numberOf_lt hfirst)
        exact ⟨_, .crowdDuplicate hrows hds hmany heq hsame hother hnamed⟩
    · rcases same_or_other id (ds.flatMap Directive.initials) with
        hsame | ⟨first, second, same, others, heq, hsame, hother⟩
      · cases hinitial : ds.flatMap Directive.initials with
        | nil => exact ⟨_, .missing hrows hds hfew hinitial⟩
        | cons first others =>
          have hmem : first ∈ ds.flatMap Directive.initials := hinitial ▸ List.mem_cons_self
          exact ⟨_, .automaton hrows hds hfew hmem fun name hname => hsame name hname first hmem⟩
      · exact ⟨_, .duplicate hrows hds hfew heq hsame hother⟩
  · rw [heq] at hrows
    exact ⟨_, .malformed hrows hbefore hrow⟩

end Automaton.Denotes

/-- **Reading a text gives what it denotes and nothing else.** -/
theorem Automaton.parse_eq_iff (text : String) (result : Except AutomatonError Automaton) :
    Automaton.parse text = result ↔ Automaton.Denotes text result := by
  constructor
  · rintro rfl
    obtain ⟨result, hresult⟩ := Denotes.exists_result text
    rw [hresult.parse_eq]
    exact hresult
  · exact Denotes.parse_eq

/-! ## 6. Too many names -/

/-- The text that declares some states, and some of them initial. -/
def declaring (names initials : List String) : String :=
  ofRows (("STATES" :: names) :: initials.map (["INIT", ·]))

section Declaring

variable {names initials : List String} (hplain : ∀ name ∈ names, Plain name)
  (hinitials : ∀ name ∈ initials, name ∈ names)
include hplain hinitials

theorem rows_declaring :
    Rows (declaring names initials) (("STATES" :: names) :: initials.map (["INIT", ·])) := by
  have hkeyword := Directive.plain_keyword
  refine rows_ofRows (List.forall_mem_cons.mpr ⟨⟨List.cons_ne_nil _ _, ?_⟩, fun row hrow => ?_⟩)
  · exact List.forall_mem_cons.mpr ⟨hkeyword _ (by decide), hplain⟩
  · obtain ⟨name, hname, rfl⟩ := List.mem_map.mp hrow
    refine ⟨List.cons_ne_nil _ _, List.forall_mem_cons.mpr ⟨hkeyword _ (by decide), ?_⟩⟩
    exact List.forall_mem_singleton.mpr (hplain name (hinitials name hname))

/-- Distinct names that are too many: whatever is declared initial must have one number. -/
theorem Automaton.parse_declaring (hnames : names.Nodup) (hmany : Builder.stateLimit < names.length)
    (hsame : ∀ name ∈ initials, ∀ name' ∈ initials, numberOf names name = numberOf names name') :
    Automaton.parse (declaring names initials) =
      .error (.tooManyStates Builder.stateLimit) := by
  have hlisted := @Directive.listed_words (.states names :: initials.map .initial) <| by
    refine List.forall_mem_cons.mpr ⟨.states names, fun d hd => ?_⟩
    obtain ⟨name, -, rfl⟩ := List.mem_map.mp hd
    exact .initial name
  have hrows := rows_declaring hplain hinitials
  have hwords : (Directive.states names :: initials.map Directive.initial).map Directive.words =
      ("STATES" :: names) :: initials.map (["INIT", ·]) := by
    rw [List.map_cons, List.map_map]
    rfl
  have hdeclared : (Directive.states names :: initials.map Directive.initial).flatMap
      Directive.initials = initials := by
    simp [Directive.initials, List.flatMap_map]
  have hmentioned : Directive.names (.states names :: initials.map .initial) = names := by
    have hmore : initials.removeAll names = [] := by simpa [List.removeAll] using hinitials
    have hall : (Directive.states names :: initials.map Directive.initial).flatMap
        Directive.mentions = names ++ initials := by
      simp [Directive.mentions, List.flatMap_map]
    rw [Directive.names, hall, List.eraseDups_append, hmore, eraseDups_eq_self hnames]
    exact List.append_nil _
  refine (Denotes.crowd hrows (hwords ▸ hlisted) ?_ ?_).parse_eq
  · rwa [hmentioned]
  · rwa [hmentioned, hdeclared]

end Declaring

theorem numberOf_numerals {n k : Nat} (h : k < n) : numberOf (numerals n) k.repr = k.toUInt32 := by
  rw [numberOf, idxOf_numerals h]

/-- A text of `2 ^ 32` names is refused for their number although none of them is initial, and one
of a name more although two different ones are. -/
theorem Automaton.parse_numerals :
    Automaton.parse (declaring (numerals (2 ^ 32)) []) = .error (.tooManyStates (2 ^ 32 - 1)) ∧
      Automaton.parse (declaring (numerals (2 ^ 32 + 1)) [Nat.repr 0, Nat.repr (2 ^ 32)]) =
        .error (.tooManyStates (2 ^ 32 - 1)) := by
  have hmany : ∀ n, 2 ^ 32 ≤ n → Builder.stateLimit < (numerals n).length := fun n hn => by
    rw [length_numerals]
    exact Nat.lt_of_succ_le hn
  constructor
  · exact parse_declaring (fun _ => plain_numerals) (fun _ h => absurd h List.not_mem_nil)
      (nodup_numerals _) (hmany _ (Nat.le_refl _)) fun _ h => absurd h List.not_mem_nil
  · -- the last name has come round to the number of the first one
    have hnumber : ∀ name ∈ [Nat.repr 0, Nat.repr (2 ^ 32)], name ∈ numerals (2 ^ 32 + 1) ∧
        numberOf (numerals (2 ^ 32 + 1)) name = 0 := by
      have hfirst : 0 < 2 ^ 32 + 1 := Nat.succ_pos _
      have hlast : 2 ^ 32 < 2 ^ 32 + 1 := Nat.lt_succ_self _
      refine List.forall_mem_cons.mpr ⟨⟨repr_mem_numerals hfirst, ?_⟩,
        List.forall_mem_singleton.mpr ⟨repr_mem_numerals hlast, ?_⟩⟩
      · exact numberOf_numerals hfirst
      · exact (numberOf_numerals hlast).trans (by decide)
    exact parse_declaring (fun _ => plain_numerals) (fun name h => (hnumber name h).1)
      (nodup_numerals _) (hmany _ (Nat.le_succ _)) fun name h name' h' =>
        (hnumber name h).2.trans (hnumber name' h').2.symm

end FairCycle
