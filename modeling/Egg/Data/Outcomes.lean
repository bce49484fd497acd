import Mathlib.Logic.Relation
import Mathlib.Tactic.Common

/-! Computations that may have many outcomes, and may stop before they answer. -/
namespace Egg.Data

/-- What a computation may answer, and what it may stop with. -/
@[ext]
structure Outcomes (ω α : Type) where
  leaves : α → Prop
  stops : ω → Prop

namespace Outcomes

variable {ω α β σ τ : Type}

instance : Monad (Outcomes ω) where
  pure a := ⟨fun b => b = a, fun _ => False⟩
  bind first next :=
    ⟨fun b => ∃ a, first.leaves a ∧ (next a).leaves b,
      fun result => first.stops result ∨ ∃ a, first.leaves a ∧ (next a).stops result⟩

def stop (result : ω) : Outcomes ω α := ⟨fun _ => False, fun other => other = result⟩

/-- A computation that never comes to an end. -/
def never : Outcomes ω α := ⟨fun _ => False, fun _ => False⟩

@[simp] theorem leaves_pure (a b : α) : (pure a : Outcomes ω α).leaves b ↔ b = a := Iff.rfl

@[simp] theorem stops_pure (a : α) (result : ω) : ¬ (pure a : Outcomes ω α).stops result := id

@[simp] theorem leaves_bind (first : Outcomes ω α) (next : α → Outcomes ω β) (b : β) :
    (first >>= next).leaves b ↔ ∃ a, first.leaves a ∧ (next a).leaves b := Iff.rfl

@[simp] theorem stops_bind (first : Outcomes ω α) (next : α → Outcomes ω β) (result : ω) :
    (first >>= next).stops result ↔
      first.stops result ∨ ∃ a, first.leaves a ∧ (next a).stops result := Iff.rfl

@[simp] theorem leaves_stop (result : ω) (a : α) : ¬ (stop result : Outcomes ω α).leaves a := id

@[simp] theorem stops_stop (result other : ω) :
    (stop result : Outcomes ω α).stops other ↔ other = result := Iff.rfl

/-- Outcomes are alike if the same is answered and the same is stopped with. -/
theorem same {first second : Outcomes ω α} (leaves : ∀ a, first.leaves a ↔ second.leaves a)
    (stops : ∀ result, first.stops result ↔ second.stops result) : first = second :=
  Outcomes.ext (funext fun a => propext (leaves a)) (funext fun result => propext (stops result))

theorem pure_bind' (a : α) (next : α → Outcomes ω β) : pure a >>= next = next a := by
  apply same <;> intro b <;> simp

theorem bind_pure' (first : Outcomes ω α) : first >>= pure = first := by
  apply same <;> intro b <;> simp

theorem bind_assoc' {γ : Type} (first : Outcomes ω α) (next : α → Outcomes ω β)
    (last : β → Outcomes ω γ) :
    first >>= next >>= last = first >>= fun a => next a >>= last := by
  apply same
  · intro c
    constructor
    · rintro ⟨b, ⟨a, answered, went⟩, ended⟩
      exact ⟨a, answered, b, went, ended⟩
    · rintro ⟨a, answered, b, went, ended⟩
      exact ⟨b, ⟨a, answered, went⟩, ended⟩
  · intro result
    simp only [stops_bind, leaves_bind]
    constructor
    · rintro ((stopped | ⟨a, answered, stopped⟩) | ⟨b, ⟨a, answered, went⟩, stopped⟩)
      · exact Or.inl stopped
      · exact Or.inr ⟨a, answered, Or.inl stopped⟩
      · exact Or.inr ⟨a, answered, Or.inr ⟨b, went, stopped⟩⟩
    · rintro (stopped | ⟨a, answered, stopped | ⟨b, went, stopped⟩⟩)
      · exact Or.inl (Or.inl stopped)
      · exact Or.inl (Or.inr ⟨a, answered, stopped⟩)
      · exact Or.inr ⟨b, ⟨a, answered, went⟩, stopped⟩

instance : LawfulMonad (Outcomes ω) :=
  LawfulMonad.mk' (m := Outcomes ω) bind_pure' pure_bind' bind_assoc'

/-- What comes next matters only for what can be answered. -/
theorem bind_congr_of_leaves {first : Outcomes ω α} {next other : α → Outcomes ω β}
    (alike : ∀ a, first.leaves a → next a = other a) : first >>= next = first >>= other := by
  apply same
  · intro b
    exact exists_congr fun a => and_congr_right fun answered => by rw [alike a answered]
  · intro result
    exact or_congr_right (exists_congr fun a =>
      and_congr_right fun answered => by rw [alike a answered])

@[simp] theorem stop_bind (result : ω) (next : α → Outcomes ω β) :
    stop result >>= next = stop result := by
  apply same <;> intro b <;> simp

@[simp] theorem map_stop (f : α → β) (result : ω) :
    f <$> (stop result : Outcomes ω α) = stop result := by
  rw [map_eq_pure_bind, stop_bind]

@[simp] theorem leaves_map (f : α → β) (outcomes : Outcomes ω α) (b : β) :
    (f <$> outcomes).leaves b ↔ ∃ a, outcomes.leaves a ∧ b = f a := by
  rw [map_eq_pure_bind]
  exact Iff.rfl

@[simp] theorem stops_map (f : α → β) (outcomes : Outcomes ω α) (result : ω) :
    (f <$> outcomes).stops result ↔ outcomes.stops result := by
  rw [map_eq_pure_bind]
  simp only [stops_bind, stops_pure, and_false, exists_false, or_false]

/-- Rounds go on with the next state until one of them answers. -/
def iterate (round : σ → Outcomes ω (σ ⊕ α)) (s : σ) : Outcomes ω α where
  leaves a := ∃ t, Relation.ReflTransGen (fun s t => (round s).leaves (.inl t)) s t ∧
    (round t).leaves (.inr a)
  stops result := ∃ t, Relation.ReflTransGen (fun s t => (round s).leaves (.inl t)) s t ∧
    (round t).stops result

/-- The first round, and the rest of them. -/
theorem iterate_eq (round : σ → Outcomes ω (σ ⊕ α)) (s : σ) :
    iterate round s = round s >>= Sum.elim (iterate round) pure := by
  apply same
  · intro a
    constructor
    · rintro ⟨t, rounds, answered⟩
      rcases rounds.cases_head with rfl | ⟨u, first, rest⟩
      · exact ⟨.inr a, answered, rfl⟩
      · exact ⟨.inl u, first, t, rest, answered⟩
    · rintro ⟨u | b, first, rest⟩
      · obtain ⟨t, rounds, answered⟩ := rest
        exact ⟨t, .head first rounds, answered⟩
      · obtain rfl : a = b := rest
        exact ⟨s, .refl, first⟩
  · intro result
    constructor
    · rintro ⟨t, rounds, stopped⟩
      rcases rounds.cases_head with rfl | ⟨u, first, rest⟩
      · exact Or.inl stopped
      · exact Or.inr ⟨.inl u, first, t, rest, stopped⟩
    · rintro (stopped | ⟨u | b, first, rest⟩)
      · exact ⟨s, .refl, stopped⟩
      · obtain ⟨t, rounds, stopped⟩ := rest
        exact ⟨t, .head first rounds, stopped⟩
      · exact rest.elim

/-- What does a round and goes on as before has all the outcomes of the rounds. -/
theorem iterate_least {round : σ → Outcomes ω (σ ⊕ α)} {whole : σ → Outcomes ω α}
    (unfolds : ∀ s, whole s = round s >>= Sum.elim whole pure) (s : σ) :
    (∀ a, (iterate round s).leaves a → (whole s).leaves a) ∧
      ∀ result, (iterate round s).stops result → (whole s).stops result := by
  constructor
  · rintro a ⟨t, rounds, answered⟩
    induction rounds using Relation.ReflTransGen.head_induction_on with
    | refl =>
      rw [unfolds]
      exact ⟨.inr a, answered, rfl⟩
    | head first _ inductionHypothesis =>
      rw [unfolds]
      exact ⟨_, first, inductionHypothesis⟩
  · rintro result ⟨t, rounds, stopped⟩
    induction rounds using Relation.ReflTransGen.head_induction_on with
    | refl =>
      rw [unfolds]
      exact Or.inl stopped
    | head first _ inductionHypothesis =>
      rw [unfolds]
      exact Or.inr ⟨_, first, inductionHypothesis⟩

/-- Rounds that are alike, one state being a view of the other, answer alike. -/
theorem iterate_map {round : σ → Outcomes ω (σ ⊕ α)} {other : τ → Outcomes ω (τ ⊕ β)}
    (view : σ → τ) (answer : α → β)
    (alike : ∀ s, other (view s) = Sum.map view answer <$> round s) (s : σ) :
    iterate other (view s) = answer <$> iterate round s := by
  have forward : ∀ {t}, Relation.ReflTransGen (fun s t => (round s).leaves (.inl t)) s t →
      Relation.ReflTransGen (fun s t => (other s).leaves (.inl t)) (view s) (view t) := by
    intro t rounds
    refine rounds.lift view fun u v went => ?_
    show (other (view u)).leaves (.inl (view v))
    rw [alike, leaves_map]
    exact ⟨_, went, rfl⟩
  have backward : ∀ {t}, Relation.ReflTransGen (fun s t => (other s).leaves (.inl t)) (view s) t →
      ∃ u, t = view u ∧ Relation.ReflTransGen (fun s t => (round s).leaves (.inl t)) s u := by
    intro t rounds
    induction rounds with
    | refl => exact ⟨s, rfl, .refl⟩
    | tail _ step inductionHypothesis =>
      obtain ⟨u, rfl, rounds⟩ := inductionHypothesis
      rw [alike, leaves_map] at step
      obtain ⟨v | a, went, same⟩ := step
      · exact ⟨v, Sum.inl.inj same, rounds.tail went⟩
      · cases same
  apply same
  · intro b
    rw [leaves_map]
    constructor
    · rintro ⟨t, rounds, answered⟩
      obtain ⟨u, rfl, path⟩ := backward rounds
      rw [alike, leaves_map] at answered
      obtain ⟨v | a, went, same⟩ := answered
      · cases same
      · exact ⟨a, ⟨u, path, went⟩, Sum.inr.inj same⟩
    · rintro ⟨a, ⟨t, rounds, answered⟩, rfl⟩
      refine ⟨view t, forward rounds, ?_⟩
      rw [alike, leaves_map]
      exact ⟨_, answered, rfl⟩
  · intro result
    rw [stops_map]
    constructor
    · rintro ⟨t, rounds, stopped⟩
      obtain ⟨u, rfl, path⟩ := backward rounds
      rw [alike, stops_map] at stopped
      exact ⟨u, path, stopped⟩
    · rintro ⟨t, rounds, stopped⟩
      refine ⟨view t, forward rounds, ?_⟩
      rw [alike, stops_map]
      exact stopped

end Outcomes

end Egg.Data
