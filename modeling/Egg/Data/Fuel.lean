import Mathlib.Order.WellFounded

/-! Loops with fuel, and the rule that enough fuel lets them end in an invariant. -/
namespace Egg.Data

/-- Run the body until the state is done; the body gets the fuel that is left for its own loops. -/
def loop {σ : Type} (done : σ → Bool) (body : Nat → σ → Option σ) : Nat → σ → Option σ
  | 0, _ => none
  | fuel + 1, state =>
    if done state then some state else (body fuel state).bind (loop done body fuel)

/-- With enough fuel the computation has this result. -/
def Converges {α : Type} (computation : Nat → Option α) (result : α) : Prop :=
  ∃ bound, ∀ fuel, bound ≤ fuel → computation fuel = some result

namespace Converges

variable {α β σ : Type}

theorem pure (result : α) : Converges (fun _ => some result) result :=
  ⟨0, fun _ _ => rfl⟩

theorem bind {first : Nat → Option α} {next : Nat → α → Option β} {middle : α} {result : β}
    (starts : Converges first middle) (goes : Converges (fun fuel => next fuel middle) result) :
    Converges (fun fuel => (first fuel).bind (next fuel)) result := by
  obtain ⟨bound, starts⟩ := starts
  obtain ⟨bound', goes⟩ := goes
  refine ⟨max bound bound', fun fuel enough => ?_⟩
  have begun := starts fuel (Nat.le_trans (Nat.le_max_left ..) enough)
  have gone := goes fuel (Nat.le_trans (Nat.le_max_right ..) enough)
  simp only [begun, Option.bind_some]
  exact gone

theorem map {computation : Nat → Option α} {result : α} (f : α → β)
    (converges : Converges computation result) :
    Converges (fun fuel => (computation fuel).map f) (f result) := by
  obtain ⟨bound, converges⟩ := converges
  refine ⟨bound, fun fuel enough => ?_⟩
  simp only [converges fuel enough, Option.map_some]

theorem unique {computation : Nat → Option α} {first second : α}
    (one : Converges computation first) (other : Converges computation second) :
    first = second := by
  obtain ⟨bound, one⟩ := one
  obtain ⟨bound', other⟩ := other
  have same := (one _ (Nat.le_max_left bound bound')).symm.trans
    (other _ (Nat.le_max_right bound bound'))
  exact Option.some.inj same

variable {done : σ → Bool} {body : Nat → σ → Option σ}

theorem loop_done {state : σ} (ended : done state = true) :
    Converges (fun fuel => loop done body fuel state) state := by
  refine ⟨1, fun fuel enough => ?_⟩
  obtain ⟨rest, rfl⟩ := Nat.exists_eq_add_of_le' enough
  simp [loop, ended]

theorem loop_step {state middle result : σ} (going : done state = false)
    (step : Converges (fun fuel => body fuel state) middle)
    (rest : Converges (fun fuel => loop done body fuel middle) result) :
    Converges (fun fuel => loop done body fuel state) result := by
  obtain ⟨bound, both⟩ := step.bind rest
  refine ⟨bound + 1, fun fuel enough => ?_⟩
  obtain ⟨less, rfl⟩ := Nat.exists_eq_add_of_le' (Nat.one_le_of_lt enough)
  simp only [loop, going, Bool.false_eq_true, if_false]
  exact both less (Nat.le_of_succ_le_succ enough)

/-- A loop ends when its body keeps the invariant and goes down a well-founded measure. -/
theorem loop_of_measure {μ : Type} [Preorder μ] [WellFoundedLT μ] (done : σ → Bool)
    (body : Nat → σ → Option σ) (measure : σ → μ) {invariant : σ → Prop}
    (step : ∀ state, invariant state → done state = false → ∃ next,
      Converges (fun fuel => body fuel state) next ∧ invariant next ∧
        measure next < measure state)
    {start : σ} (starts : invariant start) :
    ∃ result, Converges (fun fuel => loop done body fuel start) result ∧ invariant result ∧
      done result = true := by
  induction lower : measure start using WellFoundedLT.induction generalizing start with
  | ind level ih =>
    cases ended : done start with
    | true => exact ⟨start, loop_done ended, starts, ended⟩
    | false =>
      obtain ⟨next, runs, kept, less⟩ := step start starts ended
      obtain ⟨result, rest, holds, ended'⟩ := ih (measure next) (lower ▸ less) kept rfl
      exact ⟨result, loop_step ended runs rest, holds, ended'⟩

/-- A pass over a list converges when each of its steps does. -/
theorem foldlM {items : List α} {step : Nat → σ → α → Option σ} {invariant : List α → σ → Prop}
    (each : ∀ passed item rest state, items = passed ++ item :: rest → invariant passed state →
      ∃ next, Converges (fun fuel => step fuel state item) next ∧
        invariant (passed ++ [item]) next)
    {start : σ} (starts : invariant [] start) :
    ∃ result, Converges (fun fuel => items.foldlM (step fuel) start) result ∧
      invariant items result := by
  suffices general : ∀ rest passed state, items = passed ++ rest → invariant passed state →
      ∃ result, Converges (fun fuel => rest.foldlM (step fuel) state) result ∧
        invariant items result from general items [] start rfl starts
  intro rest
  induction rest with
  | nil =>
    intro passed state split holds
    refine ⟨state, .pure state, ?_⟩
    rwa [split, List.append_nil]
  | cons item rest ih =>
    intro passed state split holds
    obtain ⟨next, runs, kept⟩ := each passed item rest state split holds
    obtain ⟨result, goes, ends⟩ := ih (passed ++ [item]) next (by simp [split]) kept
    refine ⟨result, ?_, ends⟩
    simp only [List.foldlM_cons]
    exact runs.bind goes

end Converges

/-- What the one computation finds, the other finds too. -/
def Extends {α : Type} (less more : Option α) : Prop :=
  ∀ result, less = some result → more = some result

namespace Extends

variable {α β σ : Type}

theorem refl (found : Option α) : Extends found found := fun _ same => same

theorem nothing {found : Option α} : Extends none found :=
  fun _ impossible => nomatch impossible

theorem bind {less more : Option α} {next next' : α → Option β} (first : Extends less more)
    (rest : ∀ middle, Extends (next middle) (next' middle)) :
    Extends (less.bind next) (more.bind next') := by
  intro result found
  obtain ⟨middle, begun, gone⟩ := Option.bind_eq_some_iff.mp found
  rw [first middle begun]
  exact rest middle result gone

theorem map {less more : Option α} (f : α → β) (first : Extends less more) :
    Extends (less.map f) (more.map f) := by
  intro result found
  obtain ⟨middle, begun, rfl⟩ := Option.map_eq_some_iff.mp found
  rw [first middle begun]
  rfl

theorem loop {done : σ → Bool} {body : Nat → σ → Option σ}
    (grows : ∀ fuel state, Extends (body fuel state) (body (fuel + 1) state)) (fuel : Nat) :
    ∀ state, Extends (loop done body fuel state) (loop done body (fuel + 1) state) := by
  induction fuel with
  | zero => exact fun state => nothing
  | succ fuel ih =>
    intro state
    rw [Data.loop, Data.loop]
    split
    · exact refl _
    · exact (grows fuel state).bind ih

end Extends

/-- More fuel never changes what is found. -/
def Grows {α : Type} (computation : Nat → Option α) : Prop :=
  ∀ fuel, Extends (computation fuel) (computation (fuel + 1))

namespace Grows

variable {α β : Type} {computation : Nat → Option α} {next : Nat → α → Option β}

theorem extends_of_le (grows : Grows computation) {less more : Nat} (le : less ≤ more) :
    Extends (computation less) (computation more) := by
  induction le with
  | refl => exact .refl _
  | step _ ih => exact fun result found => grows _ result (ih result found)

theorem converges (grows : Grows computation) {fuel : Nat} {result : α}
    (found : computation fuel = some result) : Converges computation result :=
  ⟨fuel, fun _ enough => grows.extends_of_le enough result found⟩

/-- What a sequence finds, its parts find. -/
theorem parts (grows : Grows computation) {result : β}
    (whole : Converges (fun fuel => (computation fuel).bind (next fuel)) result) :
    ∃ middle, Converges computation middle ∧ Converges (fun fuel => next fuel middle) result := by
  obtain ⟨bound, whole⟩ := whole
  obtain ⟨middle, begun, _⟩ := Option.bind_eq_some_iff.mp (whole bound le_rfl)
  refine ⟨middle, grows.converges begun, bound, fun fuel enough => ?_⟩
  have found : (computation fuel).bind (next fuel) = some result := whole fuel enough
  rw [grows.extends_of_le enough middle begun, Option.bind_some] at found
  exact found

theorem mapped (grows : Grows computation) {f : α → β} {result : β}
    (whole : Converges (fun fuel => (computation fuel).map f) result) :
    ∃ middle, Converges computation middle ∧ f middle = result := by
  obtain ⟨bound, whole⟩ := whole
  obtain ⟨middle, begun, same⟩ := Option.map_eq_some_iff.mp (whole bound le_rfl)
  exact ⟨middle, grows.converges begun, same⟩

end Grows

/-- One more step of fuel makes no difference to where a computation ends. -/
theorem Converges.succ_iff {α : Type} {computation : Nat → Option α} {result : α} :
    Converges (fun fuel => computation (fuel + 1)) result ↔ Converges computation result := by
  constructor
  · rintro ⟨bound, found⟩
    refine ⟨bound + 1, fun fuel enough => ?_⟩
    obtain ⟨less, rfl⟩ := Nat.exists_eq_add_of_le' (Nat.one_le_of_lt enough)
    exact found less (Nat.le_of_succ_le_succ enough)
  · rintro ⟨bound, found⟩
    exact ⟨bound, fun fuel enough => found (fuel + 1) (Nat.le_succ_of_le enough)⟩

end Egg.Data
