import Mathlib.Data.Nat.Notation

/-! Runs of step functions, and runs of one that follow those of another. -/
namespace Egg.Data.StepSimulation

variable {S S' : Type*}

/-- The state after a number of steps. -/
def runs (step : S → Option S) : (n : Nat) → S → Option S
  | 0, state => some state
  | n + 1, state => (step state).bind (runs step n)

/-- Every step of the first is made by the other too, at once or with one state in between. -/
structure Follows (step : S → Option S) (step' : S' → Option S') (related : S → S' → Prop)
    (between : S' → Prop) : Prop where
  advance : ∀ s s' t, related s s' → step s = some t → ∃ t', related t t' ∧
    (step' s' = some t' ∨ ∃ middle, between middle ∧ step' s' = some middle ∧
      step' middle = some t')
  stop : ∀ s s', related s s' → step s = none → step' s' = none

namespace Follows

variable {step : S → Option S} {step' : S' → Option S'} {related : S → S' → Prop}
  {between : S' → Prop} {s t : S} {s' t' : S'} {n : Nat}

/-- A run of the first is followed. -/
theorem forward (follows : Follows step step' related between) (start : related s s')
    (run : runs step n s = some t) : ∃ m t', runs step' m s' = some t' ∧ related t t' := by
  induction n generalizing s s' with
  | zero =>
    cases run
    exact ⟨0, s', rfl, start⟩
  | succ n ih =>
    rw [runs] at run
    obtain ⟨next, one, rest⟩ := Option.bind_eq_some_iff.mp run
    obtain ⟨next', start', made⟩ := follows.advance s s' next start one
    obtain ⟨m, t', run', ended⟩ := ih start' rest
    rcases made with one' | ⟨middle, -, one', two'⟩
    · refine ⟨m + 1, t', ?_, ended⟩
      rw [runs, one', Option.bind_some, run']
    · refine ⟨m + 2, t', ?_, ended⟩
      rw [runs, one', Option.bind_some, runs, two', Option.bind_some, run']

/-- A run of the other that does not end in between follows one of the first. -/
theorem backward (follows : Follows step step' related between) (start : related s s')
    (run : runs step' n s' = some t') (ended : ¬ between t') :
    ∃ m t, runs step m s = some t ∧ related t t' := by
  induction n using Nat.strongRecOn generalizing s s' with
  | _ n ih =>
    cases n with
    | zero =>
      cases run
      exact ⟨0, s, rfl, start⟩
    | succ n =>
      rw [runs] at run
      obtain ⟨next', one', rest⟩ := Option.bind_eq_some_iff.mp run
      cases one : step s with
      | none =>
        rw [follows.stop s s' start one] at one'
        cases one'
      | some next =>
        obtain ⟨after, start', made⟩ := follows.advance s s' next start one
        have onward {k : Nat} (less : k < n + 1) (rest : runs step' k after = some t') :
            ∃ m t, runs step m s = some t ∧ related t t' := by
          obtain ⟨m, t, run, last⟩ := ih k less start' rest
          refine ⟨m + 1, t, ?_, last⟩
          rw [runs, one, Option.bind_some, run]
        rcases made with made | ⟨middle, inside, made, made'⟩
        · cases one'.symm.trans made
          exact onward (Nat.lt_succ_self n) rest
        · cases one'.symm.trans made
          cases n with
          | zero =>
            cases rest
            exact absurd inside ended
          | succ n =>
            rw [runs, made', Option.bind_some] at rest
            exact onward (Nat.lt_succ_of_lt (Nat.lt_succ_self n)) rest

end Follows

end Egg.Data.StepSimulation
