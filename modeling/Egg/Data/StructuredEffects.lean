import Egg.Data.Outcomes
import Egg.Data.StructuredCode

/-! What structured code does, from what its pieces do. -/
namespace Egg.Data.StructuredCode

variable {ι σ τ ω : Type}

/-- What an instruction does at a position: where control goes and with which state, or how it
stops. -/
abbrev Semantics (ι σ ω : Type) := ι → Nat → σ → Outcomes ω (Nat × σ)

namespace Semantics

variable (semantics : Semantics ι σ ω) (code : List ι)

/-- A step from inside a range of the code. -/
def Inside (low high : Nat) (before after : Nat × σ) : Prop :=
  (low ≤ before.1 ∧ before.1 < high) ∧ ∃ instruction, code[before.1]? = some instruction ∧
    (semantics instruction before.1 before.2).leaves after

/-- How control gets out of a range of the code, or stops inside. -/
def outcomes (low high position : Nat) (s : σ) : Outcomes ω (Nat × σ) where
  leaves after := Relation.ReflTransGen (semantics.Inside code low high) (position, s) after ∧
    ¬ (low ≤ after.1 ∧ after.1 < high)
  stops result := ∃ last, Relation.ReflTransGen (semantics.Inside code low high) (position, s) last ∧
    (low ≤ last.1 ∧ last.1 < high) ∧ ∃ instruction, code[last.1]? = some instruction ∧
      (semantics instruction last.1 last.2).stops result

variable {semantics code} {low high low' high' position : Nat} {s t : σ} {instruction : ι}

theorem outcomes_outside (outside : ¬ (low ≤ position ∧ position < high)) :
    semantics.outcomes code low high position s = pure (position, s) := by
  apply Outcomes.same
  · intro after
    constructor
    · rintro ⟨runs, -⟩
      rcases runs.cases_head with same | ⟨_, ⟨inside, -⟩, -⟩
      · exact same.symm
      · exact absurd inside outside
    · rintro rfl
      exact ⟨.refl, outside⟩
  · intro result
    constructor
    · rintro ⟨last, runs, inside, -⟩
      rcases runs.cases_head with rfl | ⟨_, ⟨within, -⟩, -⟩
      · exact absurd inside outside
      · exact absurd within outside
    · exact False.elim

/-- The first step, and the rest of them. -/
theorem outcomes_step (inside : low ≤ position ∧ position < high)
    (here : code[position]? = some instruction) :
    semantics.outcomes code low high position s = semantics instruction position s >>= fun after =>
      semantics.outcomes code low high after.1 after.2 := by
  apply Outcomes.same
  · intro last
    constructor
    · rintro ⟨runs, outside⟩
      rcases runs.cases_head with rfl | ⟨after, ⟨-, other, there, step⟩, rest⟩
      · exact absurd inside outside
      · obtain rfl := Option.some.inj (here.symm.trans there)
        exact ⟨after, step, rest, outside⟩
    · rintro ⟨after, step, rest, outside⟩
      exact ⟨.head ⟨inside, instruction, here, step⟩ rest, outside⟩
  · intro result
    constructor
    · rintro ⟨last, runs, within, other, there, stopped⟩
      rcases runs.cases_head with rfl | ⟨after, ⟨-, first, begins, step⟩, rest⟩
      · obtain rfl := Option.some.inj (here.symm.trans there)
        exact Or.inl stopped
      · obtain rfl := Option.some.inj (here.symm.trans begins)
        exact Or.inr ⟨after, step, last, rest, within, other, there, stopped⟩
    · rintro (stopped | ⟨after, step, last, rest, within, other, there, stopped⟩)
      · exact ⟨_, .refl, inside, instruction, here, stopped⟩
      · exact ⟨last, .head ⟨inside, instruction, here, step⟩ rest, within, other, there, stopped⟩

theorem Inside.widen {before after : Nat × σ} (step : semantics.Inside code low' high' before after)
    (below : low ≤ low') (above : high' ≤ high) : semantics.Inside code low high before after :=
  ⟨⟨below.trans step.1.1, step.1.2.trans_le above⟩, step.2⟩

/-- Control gets out of a part of the range first. -/
theorem outcomes_within (below : low ≤ low') (above : high' ≤ high) (start : Nat × σ) :
    semantics.outcomes code low high start.1 start.2 =
      semantics.outcomes code low' high' start.1 start.2 >>= fun after =>
        semantics.outcomes code low high after.1 after.2 := by
  have widened : ∀ {before after}, Relation.ReflTransGen (semantics.Inside code low' high')
      before after → Relation.ReflTransGen (semantics.Inside code low high) before after :=
    fun runs => Relation.ReflTransGen.mono (fun _ _ step => Inside.widen step below above) _ _ runs
  apply Outcomes.same
  · intro last
    constructor
    · rintro ⟨runs, outside⟩
      replace runs : Relation.ReflTransGen (semantics.Inside code low high) start last := runs
      induction runs using Relation.ReflTransGen.head_induction_on with
      | refl =>
        refine ⟨last, ⟨.refl, ?_⟩, .refl, outside⟩
        lia
      | @head before after step rest inductionHypothesis =>
        by_cases part : low' ≤ before.1 ∧ before.1 < high'
        · obtain ⟨exit, ⟨runs, left⟩, behind⟩ := inductionHypothesis
          exact ⟨exit, ⟨.head ⟨part, step.2⟩ runs, left⟩, behind⟩
        · exact ⟨before, ⟨.refl, part⟩, .head step rest, outside⟩
    · rintro ⟨exit, ⟨runs, -⟩, rest, outside⟩
      exact ⟨(widened runs).trans rest, outside⟩
  · intro result
    constructor
    · rintro ⟨last, runs, inside, stopped⟩
      replace runs : Relation.ReflTransGen (semantics.Inside code low high) start last := runs
      induction runs using Relation.ReflTransGen.head_induction_on with
      | refl =>
        by_cases part : low' ≤ last.1 ∧ last.1 < high'
        · exact Or.inl ⟨last, .refl, part, stopped⟩
        · exact Or.inr ⟨last, ⟨.refl, part⟩, last, .refl, inside, stopped⟩
      | @head before after step rest inductionHypothesis =>
        by_cases part : low' ≤ before.1 ∧ before.1 < high'
        · rcases inductionHypothesis with ⟨final, runs, ending⟩ | ⟨exit, ⟨runs, left⟩, behind⟩
          · exact Or.inl ⟨final, .head ⟨part, step.2⟩ runs, ending⟩
          · exact Or.inr ⟨exit, ⟨.head ⟨part, step.2⟩ runs, left⟩, behind⟩
        · exact Or.inr ⟨before, ⟨.refl, part⟩, last, .head step rest, inside, stopped⟩
    · rintro (⟨last, runs, inside, stopped⟩ | ⟨exit, ⟨runs, -⟩, last, rest, inside, stopped⟩)
      · exact ⟨last, widened runs, ⟨below.trans inside.1, inside.2.trans_le above⟩, stopped⟩
      · exact ⟨last, (widened runs).trans rest, inside, stopped⟩

section Loops

variable (semantics code) (low last : Nat) (back : ι)

/-- Once through a range whose last instruction may go back to its start. -/
def round (s : σ) : Outcomes ω (σ ⊕ Nat × σ) :=
  semantics.outcomes code low last low s >>= fun after =>
    if after.1 = last then
      (fun target => if target.1 = low then .inl target.2 else .inr target) <$>
        semantics back last after.2
    else pure (.inr after)

/-- What comes behind the range without its last instruction. -/
def finish (after : Nat × σ) : Outcomes ω (Nat × σ) :=
  if after.1 = last then
    semantics back last after.2 >>= fun target =>
      if target.1 = low then
        Outcomes.iterate (semantics.round code low last back) target.2
      else pure target
  else pure after

variable {semantics code low last back}

theorem iterate_round (s : σ) :
    Outcomes.iterate (semantics.round code low last back) s =
      semantics.outcomes code low last low s >>= semantics.finish code low last back := by
  rw [Outcomes.iterate_eq]
  conv_lhs => rw [round, bind_assoc]
  congr 1
  funext after
  unfold finish
  split
  · rw [bind_map_left]
    congr 1
    funext target
    split <;> rfl
  · rw [pure_bind]
    rfl

/-- A range whose last instruction goes back to its start, or out of it, is gone through in
rounds. -/
theorem outcomes_loop (ordered : low ≤ last) (here : code[last]? = some back)
    (targets : ∀ s target, (semantics back last s).leaves target →
      target.1 = low ∨ ¬ (low ≤ target.1 ∧ target.1 < last + 1)) (s : σ) :
    semantics.outcomes code low (last + 1) low s =
      Outcomes.iterate (semantics.round code low last back) s := by
  have ends : ∀ target : Nat × σ, ¬ (low ≤ target.1 ∧ target.1 < last + 1) →
      semantics.outcomes code low last target.1 target.2 >>=
        semantics.finish code low last back = pure target := by
    intro target outside
    rw [outcomes_outside (by lia), pure_bind, finish, if_neg (by lia)]
  have unfolds : ∀ s, semantics.outcomes code low (last + 1) low s =
      semantics.round code low last back s >>=
        Sum.elim (semantics.outcomes code low (last + 1) low) pure := by
    intro s
    rw [outcomes_within (Nat.le_refl low) (Nat.le_succ last) (low, s), round, bind_assoc]
    apply Outcomes.bind_congr_of_leaves
    rintro ⟨position, t⟩ ⟨-, left⟩
    by_cases arrived : position = last
    · subst arrived
      rw [if_pos rfl, bind_map_left, outcomes_step ⟨ordered, Nat.lt_succ_self _⟩ here]
      apply Outcomes.bind_congr_of_leaves
      intro target goes
      split
      · next again => rw [again, Sum.elim_inl]
      · next out =>
        rw [Sum.elim_inr]
        exact outcomes_outside ((targets _ _ goes).resolve_left out)
    · rw [if_neg arrived, pure_bind]
      exact outcomes_outside (by lia)
  apply Outcomes.same
  · intro exit
    refine ⟨?_, (Outcomes.iterate_least unfolds s).1 exit⟩
    rw [iterate_round]
    rintro ⟨runs, outside⟩
    have located : ∀ before, Relation.ReflTransGen (semantics.Inside code low (last + 1)) before
        exit → (semantics.outcomes code low last before.1 before.2 >>=
          semantics.finish code low last back).leaves exit := by
      intro before runs
      induction runs using Relation.ReflTransGen.head_induction_on with
      | refl =>
        rw [ends exit outside]
        rfl
      | @head before after step rest inductionHypothesis =>
        obtain ⟨inside, instruction, there, goes⟩ := step
        by_cases arrived : before.1 = last
        · rw [arrived] at there goes
          obtain rfl := Option.some.inj (here.symm.trans there)
          rw [outcomes_outside (by lia), pure_bind, finish, if_pos arrived]
          refine ⟨after, goes, ?_⟩
          beta_reduce
          by_cases again : after.1 = low
          · rw [if_pos again, iterate_round]
            rw [again] at inductionHypothesis
            exact inductionHypothesis
          · rw [if_neg again]
            rwa [ends after ((targets _ _ goes).resolve_left again)] at inductionHypothesis
        · rw [outcomes_step (by lia) there, bind_assoc]
          exact ⟨after, goes, inductionHypothesis⟩
    exact located (low, s) runs
  · intro result
    refine ⟨?_, (Outcomes.iterate_least unfolds s).2 result⟩
    rw [iterate_round]
    rintro ⟨final, runs, inside, instruction, there, stopped⟩
    have located : ∀ before, Relation.ReflTransGen (semantics.Inside code low (last + 1)) before
        final → (semantics.outcomes code low last before.1 before.2 >>=
          semantics.finish code low last back).stops result := by
      intro before runs
      induction runs using Relation.ReflTransGen.head_induction_on with
      | refl =>
        by_cases arrived : final.1 = last
        · rw [arrived] at there stopped
          obtain rfl := Option.some.inj (here.symm.trans there)
          rw [outcomes_outside (by lia), pure_bind, finish, if_pos arrived]
          exact Or.inl stopped
        · rw [outcomes_step (by lia) there, bind_assoc]
          exact Or.inl stopped
      | @head before after step rest inductionHypothesis =>
        obtain ⟨inside, other, here', goes⟩ := step
        by_cases arrived : before.1 = last
        · rw [arrived] at here' goes
          obtain rfl := Option.some.inj (here.symm.trans here')
          rw [outcomes_outside (by lia), pure_bind, finish, if_pos arrived]
          refine Or.inr ⟨after, goes, ?_⟩
          beta_reduce
          by_cases again : after.1 = low
          · rw [if_pos again, iterate_round]
            rw [again] at inductionHypothesis
            exact inductionHypothesis
          · rw [if_neg again]
            rwa [ends after ((targets _ _ goes).resolve_left again)] at inductionHypothesis
        · rw [outcomes_step (by lia) here', bind_assoc]
          exact Or.inr ⟨after, goes, inductionHypothesis⟩
    exact located (low, s) runs

end Loops

/-- A segment, wherever it stands, has certain outcomes from a state, and leaves at its end. -/
def Does (semantics : Semantics ι σ ω) (base : Nat) (segment : List ι) (s : σ)
    (does : Outcomes ω σ) : Prop :=
  ∀ code, Placed code base segment →
    semantics.outcomes code base (base + segment.length) base s =
      (fun t => (base + segment.length, t)) <$> does

section Rules

variable {base : Nat} {first second segment : List ι} {does : Outcomes ω σ}
  {next : σ → Outcomes ω σ}

/-- A segment that is gone through from its start, as a part of more code. -/
theorem Does.within (done : semantics.Does base segment s does) (placed : Placed code base segment)
    (below : low ≤ base) (above : base + segment.length ≤ high) :
    semantics.outcomes code low high base s =
      does >>= fun t => semantics.outcomes code low high (base + segment.length) t := by
  rw [outcomes_within below above (base, s), done code placed, bind_map_left]

theorem Does.nothing (base : Nat) (s : σ) : semantics.Does base [] s (pure s) := by
  intro code _
  rw [map_pure]
  exact outcomes_outside (by simp)

theorem Does.single
    (goes : semantics instruction base s = (fun t => (base + 1, t)) <$> does) :
    semantics.Does base [instruction] s does := by
  intro code placed
  rw [List.length_singleton, outcomes_step (by lia) placed.head, goes, bind_map_left,
    map_eq_pure_bind]
  congr 1
  funext t
  exact outcomes_outside (by lia)

/-- One segment behind another, from what the first one answers about the state it leaves. -/
theorem Does.append {view : τ → σ} {answers : Outcomes ω τ} {rest : τ → Outcomes ω σ}
    (left : semantics.Does base first s (view <$> answers))
    (right : ∀ x, answers.leaves x →
      semantics.Does (base + first.length) second (view x) (rest x)) :
    semantics.Does base (first ++ second) s (answers >>= rest) := by
  intro code placed
  have whole : base + (first ++ second).length = base + first.length + second.length := by
    rw [List.length_append, Nat.add_assoc]
  rw [whole, left.within placed.append_left (Nat.le_refl _) (by lia), bind_map_left, map_bind]
  apply Outcomes.bind_congr_of_leaves
  intro x answered
  rw [(right x answered).within placed.append_right (by lia) (Nat.le_refl _), map_eq_pure_bind]
  congr 1
  funext u
  exact outcomes_outside (by lia)

/-- Code behind an instruction that may go over it. -/
theorem Does.guard {branch : ι} {body : List ι} {decision : Outcomes ω (Bool × σ)}
    (decides : semantics branch base s =
      (fun choice => (if choice.1 then base + 1 + body.length else base + 1, choice.2)) <$>
        decision)
    (inner : ∀ t, semantics.Does (base + 1) body t (next t)) :
    semantics.Does base (branch :: body) s
      (decision >>= fun choice => if choice.1 then pure choice.2 else next choice.2) := by
  intro code placed
  have whole : base + (branch :: body).length = base + 1 + body.length := by
    rw [List.length_cons]
    lia
  rw [whole, outcomes_step (by lia) placed.head, decides, bind_map_left, map_bind]
  congr 1
  funext choice
  cases chosen : choice.1 with
  | false =>
    rw [if_neg Bool.false_ne_true, if_neg Bool.false_ne_true,
      (inner choice.2).within placed.tail (by lia) (Nat.le_refl _), map_eq_pure_bind]
    congr 1
    funext u
    exact outcomes_outside (by lia)
  | true =>
    rw [if_pos rfl, if_pos rfl, map_pure]
    exact outcomes_outside (by lia)

/-- A branch over the code behind it. -/
theorem Does.branch {branch : ι} {body : List ι} {test : Prop} [Decidable test]
    (decides : semantics branch base s =
      pure (if test then base + 1 + body.length else base + 1, s))
    (inner : ¬ test → semantics.Does (base + 1) body s does) :
    semantics.Does base (branch :: body) s (if test then pure s else does) := by
  intro code placed
  have whole : base + (branch :: body).length = base + 1 + body.length := by
    rw [List.length_cons]
    lia
  rw [whole, outcomes_step (by lia) placed.head, decides, pure_bind]
  by_cases skipped : test
  · rw [if_pos skipped, if_pos skipped, map_pure]
    exact outcomes_outside (by lia)
  · rw [if_neg skipped, if_neg skipped, (inner skipped).within placed.tail (by lia) (Nat.le_refl _),
      map_eq_pure_bind]
    congr 1
    funext t
    exact outcomes_outside (by lia)

/-- A branch to the second of two pieces of code, and a jump behind the first over it. -/
theorem Does.either {branch jump : ι} {test : Prop} [Decidable test] {left right : Outcomes ω σ}
    (decides : semantics branch base s =
      pure (if test then base + 1 + first.length + 1 else base + 1, s))
    (jumps : ∀ t, semantics jump (base + 1 + first.length) t =
      pure (base + 1 + first.length + 1 + second.length, t))
    (lefts : ¬ test → semantics.Does (base + 1) first s left)
    (rights : test → semantics.Does (base + 1 + first.length + 1) second s right) :
    semantics.Does base (branch :: (first ++ jump :: second)) s
      (if test then right else left) := by
  intro code placed
  have whole : base + (branch :: (first ++ jump :: second)).length =
      base + 1 + first.length + 1 + second.length := by
    simp only [List.length_cons, List.length_append]
    lia
  have behind := placed.tail.append_right
  rw [whole, outcomes_step (by lia) placed.head, decides, pure_bind]
  by_cases skipped : test
  · rw [if_pos skipped, if_pos skipped, (rights skipped).within behind.tail (by lia) (Nat.le_refl _),
      map_eq_pure_bind]
    congr 1
    funext t
    exact outcomes_outside (by lia)
  · rw [if_neg skipped, if_neg skipped, (lefts skipped).within placed.tail.append_left (by lia) (by lia),
      map_eq_pure_bind]
    congr 1
    funext t
    rw [outcomes_step (by lia) behind.head, jumps, pure_bind]
    exact outcomes_outside (by lia)

/-- Code with a branch behind it that may go back to its start. -/
theorem Does.again {branch : ι} {body : List ι} (view : τ → σ) {test : σ → Prop}
    [DecidablePred test] {round : τ → Outcomes ω τ}
    (inner : ∀ x, semantics.Does base body (view x) (view <$> round x))
    (decides : ∀ s, semantics branch (base + body.length) s =
      pure (if test s then base else base + body.length + 1, s)) (x : τ) :
    semantics.Does base (body ++ [branch]) (view x) (view <$> Outcomes.iterate
      (fun x => round x >>= fun y => pure (if test (view y) then .inl y else .inr y)) x) := by
  intro code placed
  have whole : base + (body ++ [branch]).length = base + body.length + 1 := by
    simp only [List.length_append, List.length_cons, List.length_nil]
    lia
  rw [whole, outcomes_loop (Nat.le_add_right _ _) placed.append_right.head]
  · rw [← comp_map]
    apply Outcomes.iterate_map view
    intro y
    rw [Semantics.round, inner y code placed.append_left, bind_map_left, bind_map_left, map_bind]
    congr 1
    funext z
    rw [if_pos rfl, decides, map_pure, map_pure]
    by_cases back : test (view z)
    · rw [if_pos back, if_pos back]
      simp only [if_true]
      rfl
    · rw [if_neg back, if_neg back, if_neg (show ¬ base + body.length + 1 = base by lia)]
      rfl
  · intro s target goes
    rw [decides] at goes
    obtain rfl := goes
    by_cases back : test s
    · exact Or.inl (if_pos back)
    · exact Or.inr (by simp only [if_neg back]; lia)

/-- A condition, a branch over the body behind it, and a jump back to the start. -/
theorem Does.loop {branch jump : ι} {condition body : List ι} (view : τ → σ) {test : σ → Prop}
    [DecidablePred test] {asks round : τ → Outcomes ω τ}
    (conditions : ∀ x, semantics.Does base condition (view x) (view <$> asks x))
    (decides : ∀ s, semantics branch (base + condition.length) s =
      pure (if test s then base + condition.length + 1 + body.length + 1
        else base + condition.length + 1, s))
    (bodies : ∀ x, ¬ test (view x) →
      semantics.Does (base + condition.length + 1) body (view x) (view <$> round x))
    (jumps : ∀ s, semantics jump (base + condition.length + 1 + body.length) s = pure (base, s))
    (x : τ) :
    semantics.Does base (condition ++ branch :: (body ++ [jump])) (view x)
      (view <$> Outcomes.iterate (fun x => asks x >>= fun y =>
        if test (view y) then pure (.inr y) else .inl <$> round y) x) := by
  intro code placed
  have whole : base + (condition ++ branch :: (body ++ [jump])).length =
      base + condition.length + 1 + body.length + 1 := by
    simp only [List.length_append, List.length_cons, List.length_nil]
    lia
  have behind := placed.append_right
  rw [whole, outcomes_loop (by lia) behind.tail.append_right.head]
  · rw [← comp_map]
    apply Outcomes.iterate_map view
    intro y
    rw [Semantics.round, (conditions y).within placed.append_left (Nat.le_refl _) (by lia),
      bind_assoc, bind_map_left, map_bind]
    congr 1
    funext z
    rw [outcomes_step (by lia) behind.head, decides, pure_bind]
    by_cases out : test (view z)
    · simp only [if_pos out]
      rw [outcomes_outside (by lia), pure_bind, if_neg (by lia), map_pure]
      rfl
    · simp only [if_neg out]
      rw [(bodies z out).within behind.tail.append_left (by lia) (Nat.le_refl _),
        bind_map_left, bind_assoc, ← comp_map, map_eq_pure_bind]
      congr 1
      funext u
      rw [outcomes_outside (by lia), pure_bind, if_pos rfl, jumps, map_pure, if_pos rfl]
      rfl
  · intro s target goes
    rw [jumps] at goes
    obtain rfl := goes
    exact Or.inl rfl

end Rules

end Semantics

end Egg.Data.StructuredCode
