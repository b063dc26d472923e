/-
# Builders that are used again

An automaton takes the states of its builder with it, and the builder goes on without any.  But it
still knows the number of the initial state, which was the number of a state that is no longer
there. So a builder that is used again does not answer as a new one does: it may give an automaton
for which no initial state was declared, whose initial state need not be one of its states, it may
report two initial states where one was declared, and it may break off because the earlier one has
no name any more.

How far the two go together is a matter of the further calls and of the number that was kept
(`Call.Harmless`).  They answer alike as long as nothing is said of an initial state and no
automaton is asked for; and if the first state that is declared initial gets the very number that
was kept, then they are the same from there on (`Builder.answers_after_build`).
-/
import FairCycle.Proofs.Construction

namespace FairCycle

namespace Builder

/-! ## 1. Answers -/

/-- What a call answers. -/
inductive Answer where
  | number (id : UInt32)
  | done
  /-- The call breaks off. -/
  | broken
  | built (a : Automaton)
  | failed (e : AutomatonError)
deriving DecidableEq

/-- What a builder answers to a call. -/
def answer (b : Builder) : Call → Answer
  | .state name => .number (b.state name).1
  | .edge _ _ | .accept _ => .done
  | .start name => if (b.start name).1 = some () then .done else .broken
  | .build =>
    match b.build.1 with
    | .ok a => .built a
    | .error e => .failed e

/-- What a builder answers to calls that are made one after the other. -/
def answers (b : Builder) : List Call → List Answer
  | [] => []
  | c :: calls => b.answer c :: (b.call c).answers calls

theorem length_answers (b : Builder) (calls : List Call) :
    (b.answers calls).length = calls.length := by
  induction calls generalizing b with
  | nil => rfl
  | cons c calls ih => simp [answers, ih]

theorem answers_append (b : Builder) (calls more : List Call) :
    b.answers (calls ++ more) = b.answers calls ++ (calls.foldl call b).answers more := by
  induction calls generalizing b with
  | nil => rfl
  | cons c calls ih => simp [answers, ih]

/-- Builders that answer alike all along answer each single call alike. -/
theorem answer_eq_of_answers_eq {b b' : Builder} {before after : List Call} {c : Call}
    (h : b.answers (before ++ c :: after) = b'.answers (before ++ c :: after)) :
    (before.foldl call b).answer c = (before.foldl call b').answer c := by
  rw [answers_append, answers_append] at h
  have htail := (List.append_inj h (by rw [length_answers, length_answers])).2
  exact (List.cons.inj htail).1

namespace Call

/-- A call that neither reads nor writes anything about the initial state. -/
def isPlain : Call → Bool
  | .state _ | .edge _ _ | .accept _ => true
  | .start _ | .build => false

/-- The names in some calls and then another one, by number. -/
def numbered (calls : List Call) (name : String) : List String :=
  (calls.flatMap mentions ++ [name]).eraseDups

/-- Calls that cannot tell a new builder from one that has kept the number `kept`.  The first state
to be declared initial gets this number; or it gets another one, but some state has the number that
was kept and no automaton is asked for afterwards. -/
inductive Harmless (kept : Nat) : List Call → Prop
  | plain {calls : List Call} (hcalls : ∀ c ∈ calls, c.isPlain = true) : Harmless kept calls
  | same {calls : List Call} {name : String} {rest : List Call}
      (hcalls : ∀ c ∈ calls, c.isPlain = true) (hsame : (numbered calls name).idxOf name = kept) :
      Harmless kept (calls ++ .start name :: rest)
  | unasked {calls : List Call} {name : String} {rest : List Call}
      (hcalls : ∀ c ∈ calls, c.isPlain = true) (hkept : kept < (numbered calls name).length)
      (hrest : .build ∉ rest) : Harmless kept (calls ++ .start name :: rest)

theorem plain_or_first (calls : List Call) :
    (∀ c ∈ calls, c.isPlain = true) ∨
      ∃ before c after, calls = before ++ c :: after ∧ (∀ c ∈ before, c.isPlain = true) ∧
        c.isPlain = false := by
  cases hfind : calls.find? (!·.isPlain) with
  | none => exact .inl fun c hc => by simpa using List.find?_eq_none.mp hfind c hc
  | some c =>
    obtain ⟨hc, before, after, rfl, hbefore⟩ := List.find?_eq_some_iff_append.mp hfind
    exact .inr ⟨before, c, after, rfl, fun c hc => by simpa using hbefore c hc, by simpa using hc⟩

theorem build_notMem {calls : List Call} (h : ∀ c ∈ calls, c.isPlain = true) :
    .build ∉ calls := by
  intro hmem
  exact absurd (h _ hmem) (by decide)

theorem length_eraseDups_le (calls more : List Call) :
    (calls.flatMap mentions).eraseDups.length ≤
      ((calls ++ more).flatMap mentions).eraseDups.length := by
  rw [List.flatMap_append]
  exact length_eraseDups_append ..

theorem length_numbered_le (calls : List Call) (name : String) (rest : List Call) :
    (numbered calls name).length ≤
      ((calls ++ .start name :: rest).flatMap mentions).eraseDups.length := by
  have hle := length_eraseDups_le (calls ++ [.start name]) rest
  rw [List.append_assoc, List.singleton_append] at hle
  rwa [List.flatMap_append, List.flatMap_singleton] at hle

end Call

/-! ## 2. The same states with another initial one -/

/-- A builder with other things noted about its initial state. -/
def recast (b : Builder) (initial : Option UInt32) (duplicate : Option (String × String)) :
    Builder :=
  { b with initial := initial, duplicate := duplicate }

section Recast

variable (b : Builder) (initial : Option UInt32) (duplicate : Option (String × String))

theorem state_recast (name : String) :
    (b.recast initial duplicate).state name =
      ((b.state name).1, (b.state name).2.recast initial duplicate) := by
  unfold state
  simp only [recast]
  split <;> rfl

theorem call_recast {c : Call} (hc : c.isPlain = true) :
    (b.recast initial duplicate).call c = (b.call c).recast initial duplicate := by
  cases c with
  | state name => simp only [call, state_recast]
  | edge source target =>
    simp only [call, edge, state_recast]
    rfl
  | accept name =>
    simp only [call, accept, state_recast]
    rfl
  | start name => exact absurd hc (by simp [Call.isPlain])
  | build => exact absurd hc (by simp [Call.isPlain])

theorem answer_recast {c : Call} (hc : c.isPlain = true) :
    (b.recast initial duplicate).answer c = b.answer c := by
  cases c with
  | state name => simp only [answer, state_recast]
  | edge source target => rfl
  | accept name => rfl
  | start name => exact absurd hc (by simp [Call.isPlain])
  | build => exact absurd hc (by simp [Call.isPlain])

/-- **Plain calls do not care about the initial state**, and leave what is noted about it. -/
theorem plain_recast {calls : List Call} (hcalls : ∀ c ∈ calls, c.isPlain = true) :
    (b.recast initial duplicate).answers calls = b.answers calls ∧
      calls.foldl call (b.recast initial duplicate) =
        (calls.foldl call b).recast initial duplicate := by
  induction calls generalizing b with
  | nil => exact ⟨rfl, rfl⟩
  | cons c calls ih =>
    have hc := hcalls c List.mem_cons_self
    obtain ⟨hanswers, hleft⟩ := ih (b.call c) fun c hc => hcalls c (List.mem_cons_of_mem _ hc)
    constructor
    · rw [answers, answers, answer_recast b _ _ hc, call_recast b _ _ hc, hanswers]
    · rw [List.foldl_cons, call_recast b _ _ hc, hleft]
      rfl

/-- A declaration writes nothing but what is noted about the initial state, and the state itself. -/
theorem recast_start (name : String) :
    (b.start name).2.recast initial duplicate = (b.state name).2.recast initial duplicate := by
  unfold start
  rcases b.state name with ⟨id, b⟩
  dsimp only
  split
  · rfl
  · rfl
  · split
    · rfl
    · split <;> rfl

theorem start_of_none (name : String) :
    (b.recast none none).start name =
      (some (), (b.state name).2.recast (some (b.state name).1) none) := by
  simp only [start, state_recast]
  rfl

theorem start_of_duplicate (kept : UInt32) (pair : String × String) (name : String) :
    (b.recast (some kept) (some pair)).start name =
      (some (), (b.state name).2.recast (some kept) (some pair)) := by
  simp only [start, state_recast]
  rfl

variable {b} {kept : UInt32} {name : String}

theorem start_of_same (h : (b.state name).1 = kept) :
    (b.recast (some kept) none).start name =
      (some (), (b.state name).2.recast (some kept) none) := by
  simp only [start, state_recast]
  simp [recast, h]

theorem start_of_other (h : (b.state name).1 ≠ kept) {s : State}
    (hs : (b.state name).2.states[kept.toNat]? = some s) :
    (b.recast (some kept) none).start name =
      (some (), (b.state name).2.recast (some kept) (some (s.name, name))) := by
  simp only [start, state_recast]
  simp [recast, Ne.symm h, hs]

theorem start_of_lost (h : (b.state name).1 ≠ kept)
    (hs : (b.state name).2.states[kept.toNat]? = none) :
    ((b.recast (some kept) none).start name).1 = none := by
  simp only [start, state_recast]
  simp [recast, Ne.symm h, hs]

end Recast

/-! ## 3. What a new builder has after plain calls -/

theorem foldl_call (calls : List Call) : calls.foldl call {} = after calls := rfl

theorem foldl_plain_recast {calls : List Call} (hcalls : ∀ c ∈ calls, c.isPlain = true)
    (initial : Option UInt32) (duplicate : Option (String × String)) :
    calls.foldl call (({} : Builder).recast initial duplicate) =
      (after calls).recast initial duplicate :=
  (plain_recast {} initial duplicate hcalls).2

theorem after_plain {calls : List Call} (hcalls : ∀ c ∈ calls, c.isPlain = true) :
    (after calls).recast none none = after calls :=
  (foldl_plain_recast hcalls none none).symm

/-- Where a declaration puts its name after plain calls. -/
theorem shows_state {calls : List Call} (hcalls : ∀ c ∈ calls, c.isPlain = true) (name : String) :
    ((after calls).state name).1 = numberOf (Call.numbered calls name) name ∧
      ((after calls).state name).2.states.toList.map State.name = Call.numbered calls name := by
  have hb := shows_after (Call.fruitless_of_notMem (Call.build_notMem hcalls))
  obtain ⟨hstate, hid⟩ := hb.state name
  exact ⟨hid, hstate.names⟩

theorem number_iff {calls : List Call} (hcalls : ∀ c ∈ calls, c.isPlain = true) {name : String}
    (hfew : (Call.numbered calls name).length < 2 ^ 32) {kept : UInt32} :
    ((after calls).state name).1 = kept ↔
      (Call.numbered calls name).idxOf name = kept.toNat := by
  have hmem : name ∈ Call.numbered calls name := by simp [Call.numbered]
  rw [(shows_state hcalls name).1, ← UInt32.toNat_inj, toNat_numberOf hfew.le hmem]

/-! ## 4. The builder that is left -/

/-- How an attempt can end, and what is left of the builder. -/
inductive Attempt (b : Builder) : Except AutomatonError Automaton → Builder → Prop
  | duplicate {first second : String} (hduplicate : b.duplicate = some (first, second)) :
      Attempt b (.error (.duplicateInitial first second)) { b with duplicate := none }
  | tooMany : Attempt b (.error (.tooManyStates stateLimit)) b
  | missing : Attempt b (.error .missingInitial) b
  | built {initial : UInt32} (hinitial : b.initial = some initial) :
      Attempt b (.ok ⟨b.states, initial⟩) (({} : Builder).recast (some initial) none)

theorem attempt_build (b : Builder) : b.Attempt b.build.1 b.build.2 := by
  unfold build
  cases hduplicate : b.duplicate with
  | some pair => exact .duplicate hduplicate
  | none =>
    dsimp only
    split
    · exact .tooMany
    · cases hinitial : b.initial with
      | none => exact .missing
      | some initial => exact .built hinitial

/-- What is left of a builder that has given an automaton. -/
theorem build_of_ok {b : Builder} {a : Automaton} (h : b.build.1 = .ok a) :
    b.initial = some a.initial ∧ b.build.2 = ({} : Builder).recast (some a.initial) none := by
  have hend := b.attempt_build
  rw [h] at hend
  generalize b.build.2 = left at hend
  cases hend with
  | built hinitial => exact ⟨hinitial, rfl⟩

theorem initial_of_built {b : Builder} {a : Automaton} (h : b.answer .build = .built a) :
    b.initial = some a.initial := by
  cases hbuild : b.build.1 with
  | error e => simp [answer, hbuild] at h
  | ok a' =>
    obtain rfl : a' = a := by simpa [answer, hbuild] using h
    exact (build_of_ok hbuild).1

theorem duplicate_of_failed {b : Builder} {first second : String}
    (h : b.answer .build = .failed (.duplicateInitial first second)) :
    b.duplicate = some (first, second) := by
  have hend := b.attempt_build
  cases hbuild : b.build.1 with
  | ok a => simp [answer, hbuild] at h
  | error e =>
    obtain rfl : e = .duplicateInitial first second := by simpa [answer, hbuild] using h
    rw [hbuild] at hend
    generalize b.build.2 = left at hend
    cases hend with
    | duplicate hduplicate => exact hduplicate

theorem initial_state (b : Builder) (name : String) : (b.state name).2.initial = b.initial := by
  unfold state
  split <;> rfl

/-- The number of an initial state stays whatever comes. -/
theorem initial_call {b : Builder} {kept : UInt32} (h : b.initial = some kept) (c : Call) :
    (b.call c).initial = some kept := by
  cases c with
  | state name => rw [call, initial_state, h]
  | edge source target =>
    simp only [call, edge, update, initial_state, h]
  | accept name =>
    simp only [call, accept, update, initial_state, h]
  | start name =>
    have hkept : (b.state name).2.initial = some kept := by rw [initial_state, h]
    simp only [call, start, hkept]
    cases (b.state name).2.duplicate with
    | some pair => exact hkept
    | none =>
      dsimp only
      split
      · exact hkept
      · split
        · rfl
        · exact hkept
  | build =>
    have hend := b.attempt_build
    rw [call]
    generalize b.build.1 = result, b.build.2 = left at hend ⊢
    cases hend with
    | duplicate | tooMany | missing => exact h
    | built hinitial => exact hinitial.symm.trans h

theorem initial_of_built_mem {b : Builder} {kept : UInt32} (h : b.initial = some kept)
    {calls : List Call} {a : Automaton} (ha : .built a ∈ b.answers calls) : a.initial = kept := by
  induction calls generalizing b with
  | nil => exact absurd ha List.not_mem_nil
  | cons c calls ih =>
    rcases List.mem_cons.mp ha with hhead | htail
    · cases c with
      | build =>
        have hinitial := initial_of_built hhead.symm
        exact Option.some.inj (hinitial.symm.trans h)
      | start name =>
        by_cases hstart : (b.start name).1 = some () <;> simp [answer, hstart] at hhead
      | state name => exact absurd hhead (by simp [answer])
      | edge source target => exact absurd hhead (by simp [answer])
      | accept name => exact absurd hhead (by simp [answer])
    · exact ih (initial_call h c) htail

/-! ## 5. Where the two part -/

section Parting

variable {kept : UInt32} {calls rest : List Call} {name : String}

/-- Nothing is said of an initial state: a new builder has none to give, the other one has. -/
theorem parts_at_build (hcalls : ∀ c ∈ calls, c.isPlain = true)
    (hfew : (calls.flatMap Call.mentions).eraseDups.length < 2 ^ 32) :
    (({} : Builder).recast (some kept) none).answers (calls ++ .build :: rest) ≠
      ({} : Builder).answers (calls ++ .build :: rest) := by
  intro h
  have hanswer := answer_eq_of_answers_eq h
  have hb := shows_after (Call.fruitless_of_notMem (Call.build_notMem hcalls))
  have hlimit : ¬stateLimit < (after calls).states.size := by
    rw [hb.size, Nat.not_lt]
    exact Nat.le_of_lt_succ hfew
  rw [foldl_plain_recast hcalls, foldl_call, ← after_plain hcalls] at hanswer
  simp [answer, build, recast, hlimit] at hanswer

/-- The first initial state has the number that was kept: from there on nothing differs. -/
theorem agree_of_same (hcalls : ∀ c ∈ calls, c.isPlain = true)
    (hid : ((after calls).state name).1 = kept) :
    (({} : Builder).recast (some kept) none).answers (calls ++ .start name :: rest) =
      ({} : Builder).answers (calls ++ .start name :: rest) := by
  rw [answers_append, answers_append, (plain_recast {} _ _ hcalls).1, foldl_plain_recast hcalls,
    foldl_call, ← after_plain hcalls]
  have hkept := start_of_same hid
  have hnew := start_of_none (after calls) name
  rw [hid, ← hkept] at hnew
  simp only [answers, answer, call]
  rw [after_plain hcalls] at hnew ⊢
  rw [hnew]

/-- A builder that has noted two initial states answers as another one does until an automaton is
asked for. -/
theorem agree_of_duplicate {b : Builder} {mentioned : List String}
    {targets : String → List String} {accepting initials recent : List String}
    (hb : b.Shows mentioned targets accepting initials recent) (pair : String × String)
    (hcalls : .build ∉ calls) :
    (b.recast (some kept) (some pair)).answers calls = b.answers calls ∧
      calls.foldl call (b.recast (some kept) (some pair)) =
        (calls.foldl call b).recast (some kept) (some pair) := by
  induction calls generalizing b mentioned targets accepting initials recent with
  | nil => exact ⟨rfl, rfl⟩
  | cons c calls ih =>
    rw [List.mem_cons, not_or] at hcalls
    obtain ⟨hc, hcalls⟩ := hcalls
    have hstep : (b.recast (some kept) (some pair)).answer c = b.answer c ∧
        (b.recast (some kept) (some pair)).call c = (b.call c).recast (some kept) (some pair) := by
      cases c with
      | start name =>
        constructor
        · simp only [answer, start_of_duplicate, (hb.start name).2]
        · simp only [call, start_of_duplicate, recast_start]
      | build => exact absurd rfl hc
      | state name => exact ⟨answer_recast b _ _ rfl, call_recast b _ _ rfl⟩
      | edge source target => exact ⟨rfl, call_recast b _ _ rfl⟩
      | accept name => exact ⟨rfl, call_recast b _ _ rfl⟩
    obtain ⟨hanswers, hleft⟩ := ih (hb.call c fun heq => absurd heq.symm hc) hcalls
    constructor
    · rw [answers, answers, hstep.1, hstep.2, hanswers]
    · rw [List.foldl_cons, hstep.2, hleft]
      rfl

theorem call_start_of_plain (hcalls : ∀ c ∈ calls, c.isPlain = true) :
    (after calls).call (.start name) =
        ((after calls).state name).2.recast (some ((after calls).state name).1) none ∧
      (after calls).answer (.start name) = .done := by
  have hnew := start_of_none (after calls) name
  rw [after_plain hcalls] at hnew
  simp [call, answer, hnew]

/-- The number that was kept is that of another state, which counts as a second initial one. -/
theorem call_start_of_other (hcalls : ∀ c ∈ calls, c.isPlain = true)
    (hfew : (Call.numbered calls name).length < 2 ^ 32)
    (hother : ((after calls).state name).1 ≠ kept)
    (hkept : kept.toNat < (Call.numbered calls name).length) :
    ∃ first, first ≠ name ∧
      ((after calls).recast (some kept) none).answer (.start name) = .done ∧
      ((after calls).recast (some kept) none).call (.start name) =
        ((after calls).call (.start name)).recast (some kept) (some (first, name)) := by
  have hnames := (shows_state hcalls name).2
  have hat : (((after calls).state name).2.states.toList.map State.name)[kept.toNat]? =
      some (Call.numbered calls name)[kept.toNat] := by
    rw [hnames]
    exact List.getElem?_eq_getElem hkept
  rw [List.getElem?_map, Array.getElem?_toList] at hat
  obtain ⟨s, hs, hname⟩ := Option.map_eq_some_iff.mp hat
  have hstart := start_of_other hother hs
  refine ⟨s.name, ?_, ?_, ?_⟩
  · rw [hname]
    intro heq
    have hnodup : (Call.numbered calls name).Nodup := nodup_eraseDups _
    have hplace := hnodup.idxOf_getElem kept.toNat hkept
    rw [heq] at hplace
    exact hother ((number_iff hcalls hfew).mpr hplace)
  · simp [answer, hstart]
  · rw [(call_start_of_plain hcalls).1]
    simp only [call, hstart]
    rfl

/-- The number that was kept is no longer that of a state: there is no name to report. -/
theorem parts_at_start (hcalls : ∀ c ∈ calls, c.isPlain = true)
    (hlost : (Call.numbered calls name).length ≤ kept.toNat) :
    (({} : Builder).recast (some kept) none).answers (calls ++ .start name :: rest) ≠
      ({} : Builder).answers (calls ++ .start name :: rest) := by
  intro h
  have hanswer := answer_eq_of_answers_eq h
  obtain ⟨hid, hnames⟩ := shows_state hcalls name
  have hmem : name ∈ Call.numbered calls name := by simp [Call.numbered]
  have hother : ((after calls).state name).1 ≠ kept := by
    rintro rfl
    rw [hid] at hlost
    exact absurd (toNat_numberOf_lt hmem) (Nat.not_lt.mpr hlost)
  have hnone : ((after calls).state name).2.states[kept.toNat]? = none := by
    rw [Array.getElem?_eq_none_iff, ← Array.length_toList]
    have hlen := congrArg List.length hnames
    rw [List.length_map] at hlen
    omega
  have hbroken := start_of_lost hother hnone
  rw [foldl_plain_recast hcalls, foldl_call, (call_start_of_plain hcalls).2] at hanswer
  simp [answer, hbroken] at hanswer

/-- The first of two initial states is the one that was declared first. -/
theorem first_of_duplicate (hcalls : ∀ c ∈ calls, c.isPlain = true) (hrest : .build ∉ rest)
    (hfew : ((calls ++ .start name :: rest).flatMap Call.mentions).eraseDups.length < 2 ^ 32)
    {first second : String}
    (h : (after (calls ++ .start name :: rest)).duplicate = some (first, second)) :
    first = name := by
  have hplain := Call.build_notMem hcalls
  have hnone : calls.flatMap Call.initials = [] := by
    rw [List.flatMap_eq_nil_iff]
    intro c hc
    have hplain := hcalls c hc
    cases c <;> simp_all [Call.isPlain, Call.initials]
  have hhead : ((calls ++ .start name :: rest).flatMap Call.initials).head? = some name := by
    rw [List.flatMap_append, hnone]
    rfl
  have hfruitless := Call.fruitless_of_notMem
    (show .build ∉ calls ++ .start name :: rest by simpa using ⟨hplain, hrest⟩)
  rw [duplicate_eq_some_iff hfruitless hfew] at h
  exact Option.some.inj (h.1.symm.trans hhead)

/-- Another state is declared initial: the two go on alike until an automaton is asked for. -/
theorem agree_iff_of_other (hcalls : ∀ c ∈ calls, c.isPlain = true)
    (hfew : ((calls ++ .start name :: rest).flatMap Call.mentions).eraseDups.length < 2 ^ 32)
    (hother : ((after calls).state name).1 ≠ kept)
    (hkept : kept.toNat < (Call.numbered calls name).length) :
    (({} : Builder).recast (some kept) none).answers (calls ++ .start name :: rest) =
        ({} : Builder).answers (calls ++ .start name :: rest) ↔
      .build ∉ rest := by
  obtain ⟨first, hfirst, hdone, hcall⟩ := call_start_of_other hcalls
    ((Call.length_numbered_le calls name rest).trans_lt hfew) hother hkept
  have hplain := Call.build_notMem hcalls
  have hb := shows_after (Call.fruitless_of_notMem
    (show .build ∉ calls ++ [.start name] by simpa using hplain))
  rw [after_append] at hb
  constructor
  · intro h hmem
    obtain ⟨before, later, rfl, hbefore⟩ := List.eq_append_cons_of_mem hmem
    rw [← List.cons_append, ← List.append_assoc] at h hfew
    have hfew := (Call.length_eraseDups_le ..).trans_lt hfew
    have hanswer := answer_eq_of_answers_eq h
    -- up to the first attempt the two builders differ in what is noted about the initial state only
    have hleft : (calls ++ .start name :: before).foldl call {} =
        before.foldl call ((after calls).call (.start name)) := by
      rw [List.foldl_append]
      rfl
    rw [List.foldl_append, foldl_plain_recast hcalls, List.foldl_cons, hcall,
      (agree_of_duplicate hb (first, name) hbefore).2, ← hleft] at hanswer
    exact hfirst (first_of_duplicate hcalls hbefore hfew (duplicate_of_failed hanswer.symm))
  · intro hrest
    rw [answers_append, answers_append, (plain_recast {} _ _ hcalls).1, foldl_plain_recast hcalls,
      foldl_call, answers, answers, hdone, (call_start_of_plain hcalls).2, hcall,
      (agree_of_duplicate hb (first, name) hrest).1]

end Parting

/-- **How far a builder that is used again answers as a new one.**  It does so exactly if the
further calls are harmless, given the number of the initial state that it has kept; and every
automaton that it still gives has this number for its initial state, whether there is such a state
in it or not. -/
theorem answers_after_build (calls more : List Call) (a : Automaton)
    (ha : (after calls).build.1 = .ok a)
    (hfew : (more.flatMap Call.mentions).eraseDups.length < 2 ^ 32) :
    ((after calls).build.2.answers more = ({} : Builder).answers more ↔
        Call.Harmless a.initial.toNat more) ∧
      ∀ a', .built a' ∈ (after calls).build.2.answers more → a'.initial = a.initial := by
  rw [(build_of_ok ha).2]
  refine ⟨⟨?_, ?_⟩, fun a' ha' => initial_of_built_mem rfl ha'⟩
  · intro hagree
    rcases Call.plain_or_first more with hplain | ⟨before, c, rest, rfl, hbefore, hc⟩
    · exact .plain hplain
    · cases c with
      | build =>
        have hle := Call.length_eraseDups_le before (.build :: rest)
        exact absurd hagree (parts_at_build hbefore (hle.trans_lt hfew))
      | start name =>
        have hle := Call.length_numbered_le before name rest
        by_cases hsame : ((after before).state name).1 = a.initial
        · exact .same hbefore ((number_iff hbefore (hle.trans_lt hfew)).mp hsame)
        · by_cases hkept : a.initial.toNat < (Call.numbered before name).length
          · exact .unasked hbefore hkept ((agree_iff_of_other hbefore hfew hsame hkept).mp hagree)
          · exact absurd hagree (parts_at_start hbefore (Nat.not_lt.mp hkept))
      | state name => exact absurd hc (by simp [Call.isPlain])
      | edge source target => exact absurd hc (by simp [Call.isPlain])
      | accept name => exact absurd hc (by simp [Call.isPlain])
  · intro hharmless
    cases hharmless with
    | plain hplain => exact (plain_recast {} _ _ hplain).1
    | @same before name rest hbefore hsame =>
      have hle := Call.length_numbered_le before name rest
      exact agree_of_same hbefore ((number_iff hbefore (hle.trans_lt hfew)).mpr hsame)
    | @unasked before name rest hbefore hkept hrest =>
      by_cases hsame : ((after before).state name).1 = a.initial
      · exact agree_of_same hbefore hsame
      · exact (agree_iff_of_other hbefore hfew hsame hkept).mpr hrest

/-- A builder that has given an automaton of two states, the second one initial, and is told of
another automaton in which again the second state is the initial one. -/
theorem answers_after_build_second :
    (after [.edge "a" "b", .start "b"]).build.1 =
        .ok ⟨#[{ name := "a", targets := #[1] }, { name := "b" }], 1⟩ ∧
      (after [.edge "a" "b", .start "b"]).build.2.answers
          [.edge "c" "d", .start "d", .accept "d", .build] =
        ({} : Builder).answers [.edge "c" "d", .start "d", .accept "d", .build] := by
  have ha : (after [.edge "a" "b", .start "b"]).build.1 =
      .ok ⟨#[{ name := "a", targets := #[1] }, { name := "b" }], 1⟩ := by decide +kernel
  refine ⟨ha, (answers_after_build _ _ _ ha (by decide)).1.mpr ?_⟩
  change Call.Harmless 1 ([.edge "c" "d"] ++ .start "d" :: [.accept "d", .build])
  exact .same (by decide) (by decide)

/-- A builder does not start afresh.  Asked for an automaton right after it has given one, it gives
another, whose initial state is none of its states; told of a new initial state, it breaks off. -/
theorem answers_after_build_stale :
    (after [.edge "a" "b", .start "b"]).build.1.toOption.isSome = true ∧
      (after [.edge "a" "b", .start "b"]).build.2.answers [.build] = [.built ⟨#[], 1⟩] ∧
      ({} : Builder).answers [.build] = [.failed .missingInitial] ∧
      (after [.edge "a" "b", .start "b"]).build.2.answers [.start "a"] = [.broken] ∧
      ({} : Builder).answers [.start "a"] = [.done] := by
  decide +kernel

end Builder

end FairCycle
