/-
# What the master's computations meet

A computation of the master ends with a result, with a fault, or for want of turns.
`Meets fair x r Q F` says of the computation `x`, started from the run `r` with any number of
turns left, that its results have the property `Q`, that its faults have the property `F`, and
that it never breaks down.  If `fair` holds, then it also comes to its end once there are enough
turns, and more turns than that change nothing.

The rules below follow the way computations are put together.
-/
import FairCycle.Check

namespace FairCycle

open RunM

variable {N σ α β : Type} [Ord N]

/-- Results have the property `Q`, faults have the property `F`, and nothing breaks down. -/
def Answers (Q : α → Run N σ → Prop) (F : Fault → Run N σ → Prop) :
    Except Stop α × Run N σ → Prop
  | (.ok a, r) => Q a r
  | (.error (.fault f), r) => F f r
  | (.error .crash, _) => False
  | (.error .outOfTurns, _) => True

theorem Answers.mono {Q Q' : α → Run N σ → Prop} {F F' : Fault → Run N σ → Prop}
    {result : Except Stop α × Run N σ} (h : Answers Q F result) (hQ : ∀ a r', Q a r' → Q' a r')
    (hF : ∀ f r', F f r' → F' f r') : Answers Q' F' result := by
  rcases result with ⟨(f | - | -) | a, r'⟩
  · exact hF f r' h
  · exact h
  · trivial
  · exact hQ a r' h

/-- A computation without faults gives a result unless it runs out of turns. -/
theorem Answers.exists_ok {Q : α → Run N σ → Prop} {result : Except Stop α × Run N σ}
    (h : Answers Q (fun _ _ => False) result) (hturns : result.1 ≠ .error .outOfTurns) :
    ∃ a, result.1 = .ok a ∧ Q a result.2 := by
  rcases result with ⟨(f | - | -) | a, r'⟩
  · exact h.elim
  · exact h.elim
  · exact absurd rfl hturns
  · exact ⟨a, rfl, h⟩

/-- What a computation does from a run, however many turns are left. -/
structure Meets (fair : Prop) (x : RunM N σ α) (r : Run N σ) (Q : α → Run N σ → Prop)
    (F : Fault → Run N σ → Prop) : Prop where
  /-- It ends as it should. -/
  answers : ∀ left, Answers Q F (x { r with left := left })
  /-- With enough turns it comes to its end, and leaves those that it does not need. -/
  ends : fair → ∃ (n : Nat) (e : Except Stop α) (r' : Run N σ), e ≠ .error .outOfTurns ∧
    ∀ left, x { r with left := n + left } = (e, { r' with left := left })

namespace RunM

theorem bind_ok {x : RunM N σ α} {f : α → RunM N σ β} {r r' : Run N σ} {a : α}
    (h : x r = (.ok a, r')) : (x >>= f) r = f a r' := by
  change ExceptT.bindCont f (x r).1 (x r).2 = _
  rw [h]
  rfl

theorem bind_error {x : RunM N σ α} {f : α → RunM N σ β} {r r' : Run N σ} {e : Stop}
    (h : x r = (.error e, r')) : (x >>= f) r = (.error e, r') := by
  change ExceptT.bindCont f (x r).1 (x r).2 = _
  rw [h]
  rfl

theorem ledger_bind (f : Ledger N → RunM N σ β) (r : Run N σ) :
    (ledger >>= f) r = f r.ledger r := rfl

theorem record_bind (e : Event) (f : Unit → RunM N σ β) (r : Run N σ) :
    (record e >>= f) r = f () { r with cluster := r.cluster.record e } := rfl

end RunM

/-- An errand changes the ledger unless it fails, and uses no turns. -/
theorem Check.ring_of_eq {errand : Errand} {result : Except Stop (Ledger N)} {r : Run N σ}
    {c : Cluster N σ} (h : r.cluster.ring errand r.ledger = (result, c)) :
    ring errand r = (result.map fun _ => (),
      { r with cluster := c, ledger := result.toOption.getD r.ledger }) := by
  have hsent : (Except.ok (r.cluster.ring errand r.ledger).1,
      { r with cluster := (r.cluster.ring errand r.ledger).2 }) =
        ((.ok result : Except Stop (Except Stop (Ledger N))), { r with cluster := c }) := by
    rw [h]
  refine (RunM.bind_ok hsent).trans ?_
  cases result with
  | ok l => rfl
  | error stop => rfl

variable {fair : Prop} {r : Run N σ} {Q : α → Run N σ → Prop} {F : Fault → Run N σ → Prop}

namespace Meets

/-- There is a number of turns that is enough. -/
theorem exists_enough {x : RunM N σ α} (h : Meets fair x r Q F) (hfair : fair) :
    ∃ enough, ∀ left, enough ≤ left → (x { r with left := left }).1 ≠ .error .outOfTurns := by
  obtain ⟨n, e, r', hne, hends⟩ := h.ends hfair
  refine ⟨n, fun left hleft => ?_⟩
  obtain ⟨more, rfl⟩ := Nat.exists_eq_add_of_le hleft
  rw [hends]
  exact hne

/-- A computation that always gives the same result and uses no turns. -/
theorem of_eq {x : RunM N σ α} {a : α} {f : Run N σ → Run N σ}
    (hx : ∀ left, x { r with left := left } = (.ok a, { f r with left := left }))
    (h : ∀ left, Q a { f r with left := left }) : Meets fair x r Q F where
  answers left := by
    rw [hx]
    exact h left
  ends _ := ⟨0, .ok a, f r, nofun, fun left => by rw [Nat.zero_add, hx]⟩

theorem pure {a : α} (h : ∀ left, Q a { r with left := left }) :
    Meets fair (Pure.pure a : RunM N σ α) r Q F :=
  of_eq (f := fun r => r) (fun _ => rfl) h

theorem note {f : Ledger N → Ledger N} {Q : Unit → Run N σ → Prop}
    (h : ∀ left, Q () { r with ledger := f r.ledger, left := left }) :
    Meets fair (RunM.note f) r Q F :=
  of_eq (f := fun r => { r with ledger := f r.ledger }) (fun _ => rfl) h

theorem record {e : Event} {Q : Unit → Run N σ → Prop}
    (h : ∀ left, Q () { r with cluster := r.cluster.record e, left := left }) :
    Meets fair (RunM.record e) r Q F :=
  of_eq (f := fun r => { r with cluster := r.cluster.record e }) (fun _ => rfl) h

theorem fail {f : Fault} (h : ∀ left, F f { r with left := left }) :
    Meets fair (RunM.fail f : RunM N σ α) r Q F where
  answers left := h left
  ends _ := ⟨0, .error (.fault f), r, nofun, fun left => by rw [Nat.zero_add]; rfl⟩

/-- One computation after another. -/
theorem bind {x : RunM N σ α} {f : α → RunM N σ β} {Q' : β → Run N σ → Prop}
    (hx : Meets fair x r Q F) (hf : ∀ a r', Q a r' → Meets fair (f a) r' Q' F) :
    Meets fair (x >>= f) r Q' F where
  answers left := by
    have ha := hx.answers left
    match h : x { r with left := left } with
    | (.ok a, r') =>
      rw [RunM.bind_ok h]
      rw [h] at ha
      exact (hf a r' ha).answers r'.left
    | (.error stop, r') =>
      rw [RunM.bind_error h]
      rw [h] at ha
      cases stop with
      | fault f => exact ha
      | crash => exact ha
      | outOfTurns => trivial
  ends hfair := by
    obtain ⟨n, e, r', he, hn⟩ := hx.ends hfair
    match e with
    | .ok a =>
      have ha := hx.answers (n + 0)
      rw [hn 0] at ha
      obtain ⟨m, e', r'', he', hm⟩ := (hf a _ ha).ends hfair
      refine ⟨n + m, e', r'', he', fun left => ?_⟩
      rw [Nat.add_assoc, RunM.bind_ok (hn (m + left))]
      exact hm left
    | .error stop =>
      exact ⟨n, .error stop, r', fun h => he (congrArg _ (Except.error.inj h)),
        fun left => RunM.bind_error (hn left)⟩

/-- What a computation does with the turns that are left in the run. -/
theorem answers_self {x : RunM N σ α} (hx : Meets fair x r Q F) : Answers Q F (x r) :=
  hx.answers r.left

/-- What is met may be weakened. -/
theorem mono {x : RunM N σ α} {Q' : α → Run N σ → Prop} {F' : Fault → Run N σ → Prop}
    (hx : Meets fair x r Q F) (hQ : ∀ a r', Q a r' → Q' a r') (hF : ∀ f r', F f r' → F' f r') :
    Meets fair x r Q' F' where
  answers left := (hx.answers left).mono hQ hF
  ends := hx.ends

/-- Finding something out, without a change. -/
theorem read_bind {x : RunM N σ β} {f : β → RunM N σ α} {b : β}
    (hx : ∀ left, x { r with left := left } = (.ok b, { r with left := left }))
    (h : Meets fair (f b) r Q F) : Meets fair (x >>= f) r Q F where
  answers left := by
    rw [RunM.bind_ok (hx left)]
    exact h.answers left
  ends hfair := by
    obtain ⟨n, e, r', he, hn⟩ := h.ends hfair
    refine ⟨n, e, r', he, fun left => ?_⟩
    rw [RunM.bind_ok (hx _)]
    exact hn left

/-- Reading the ledger. -/
theorem ledger_bind {f : Ledger N → RunM N σ α} (h : Meets fair (f r.ledger) r Q F) :
    Meets fair (RunM.ledger >>= f) r Q F :=
  read_bind (fun _ => rfl) h

/-- Asking the graph, which may remember that it was asked. -/
theorem demand {question : StateM σ (Option α)} {a : α}
    (ha : ∀ memory, (question memory).1 = some a)
    (h : ∀ memory left, Q a { r with
      cluster := { r.cluster with commons := { r.cluster.commons with memory := memory } }
      left := left }) :
    Meets fair (RunM.demand question) r Q F := by
  refine of_eq (f := fun r => { r with cluster := { r.cluster with commons :=
    { r.cluster.commons with memory := (question r.cluster.commons.memory).2 } } }) (fun left => ?_)
    fun left => h _ left
  have hasked : (modifyGet fun r => ((question r.cluster.commons.memory).1,
        { r with cluster := { r.cluster with commons := { r.cluster.commons with
          memory := (question r.cluster.commons.memory).2 } } }) : RunM N σ (Option α))
      { r with left := left } = (.ok (some a), { r with
        cluster := { r.cluster with commons := { r.cluster.commons with
          memory := (question r.cluster.commons.memory).2 } }
        left := left }) := by
    rw [← ha r.cluster.commons.memory]
    rfl
  exact (RunM.bind_ok hasked).trans rfl

/-- Looking at the run, but not at how many turns are left. -/
theorem get_bind {f : Run N σ → RunM N σ α} (hf : ∀ left, f { r with left := left } = f r)
    (h : Meets fair (f r) r Q F) : Meets fair (get >>= f) r Q F where
  answers left := by
    change Answers Q F (f { r with left := left } { r with left := left })
    rw [hf]
    exact h.answers left
  ends hfair := by
    obtain ⟨n, e, r', he, hn⟩ := h.ends hfair
    refine ⟨n, e, r', he, fun left => ?_⟩
    change f { r with left := n + left } { r with left := n + left } = _
    rw [hf]
    exact hn left

end Meets

end FairCycle
