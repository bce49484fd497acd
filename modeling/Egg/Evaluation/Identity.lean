import Egg.Evaluation.Reachable

/-! Activations keep their identity, and what lies below them, while they are active. -/
namespace Egg.Evaluation

variable {image : Image} {wellFormed : WellFormed image}

/-- An activation without the mark of native sends, which is all that changes in it. -/
def Activation.forget (activation : Activation) : Activation :=
  { activation with reentered := false }

/-- The activations of a machine up to that mark. -/
def Machine.frames (machine : Machine) : List Activation :=
  machine.activations.map Activation.forget

/-- Serials decrease outwards and are all used up. -/
structure Numbered (machine : Machine) : Prop where
  ordered : machine.frames.Pairwise fun inner outer => outer.serial < inner.serial
  used : ∀ activation ∈ machine.frames, activation.serial < machine.serials

/-- A step drops some inner activations and enters at most one new one. -/
inductive Reframes (machine next : Machine) : Prop where
  | drop : next.frames <:+ machine.frames → next.serials = machine.serials →
      Reframes machine next
  | enter (entered : Activation) (outer : List Activation) : outer <:+ machine.frames →
      next.frames = entered :: outer → entered.serial = machine.serials →
      next.serials = machine.serials + 1 → Reframes machine next

theorem Machine.frames_resume (machine : Machine) (control : Control) (reentered : Bool)
    (evaluator : Evaluator) (outer : List Activation) :
    (machine.resume control reentered evaluator outer).frames = outer.map Activation.forget := by
  cases outer <;> rfl

theorem belowHome_suffix (home : Int) (activations : List Activation) :
    belowHome home activations <:+ activations := by
  induction activations with
  | nil => exact List.suffix_refl _
  | cons top rest ih =>
    rw [belowHome]
    split
    · exact List.suffix_cons top rest
    · exact ih.trans (List.suffix_cons top rest)

theorem Step.reframes {machine next : Machine} {action : Action}
    (step : Step image machine action next) : Reframes machine next := by
  cases step with
  | execute | identifier | block | undermessage | primitive | finish | failPrimitive
  | failPrimitiveWith => exact .drop (List.suffix_refl _) rfl
  | invoke | messageNotUnderstood | nonLocalReturn | perform | sendToWith =>
    exact .enter _ _ (List.suffix_refl _) rfl rfl rfl
  | evaluateClosure closure native active =>
    refine .enter _ _ ?_ rfl rfl rfl
    rw [Machine.frames, active]
    exact List.suffix_cons _ _
  | returnTo =>
    refine .drop ?_ rfl
    rw [Machine.frames_resume]
    exact (belowHome_suffix _ _).map _
  | «return» =>
    refine .drop ?_ rfl
    rw [Machine.frames_resume]
    exact (List.tail_suffix _).map _
  | endSend running exhausted active =>
    refine .drop ?_ rfl
    rw [Machine.frames_resume, Machine.frames, active]
    exact List.suffix_cons _ _

theorem Numbered.step {machine next : Machine} (numbered : Numbered machine)
    (reframes : Reframes machine next) : Numbered next := by
  cases reframes with
  | drop suffix same =>
    refine ⟨numbered.ordered.sublist suffix.sublist, fun activation member => ?_⟩
    rw [same]
    exact numbered.used activation (suffix.subset member)
  | enter entered outer suffix frames serial next =>
    refine ⟨?_, fun activation member => ?_⟩
    · rw [frames, List.pairwise_cons]
      refine ⟨fun activation member => ?_, numbered.ordered.sublist suffix.sublist⟩
      rw [serial]
      exact numbered.used activation (suffix.subset member)
    · rw [frames] at member
      rw [next]
      rcases List.mem_cons.mp member with same | old
      · rw [same, serial]; lia
      · have used := numbered.used activation (suffix.subset old); lia

theorem Numbered.start (image : Image) (stack : Int → Word) :
    Numbered (Machine.start image stack) :=
  ⟨List.Pairwise.nil, fun _ none => by cases none⟩

theorem Numbered.run {allowed : Machine → Action → Prop} {first last : Machine}
    (numbered : Numbered first) (run : Run image allowed first last) : Numbered last := by
  induction run with
  | refl => exact numbered
  | step _ _ step ih => exact ih.step step.reframes

theorem Numbered.eq_of_serial {machine : Machine} {left right : Activation}
    (numbered : Numbered machine) (leftMember : left ∈ machine.frames)
    (rightMember : right ∈ machine.frames) (same : left.serial = right.serial) : left = right := by
  have distinct : machine.frames.Pairwise fun inner outer : Activation =>
      inner.serial = outer.serial → inner = outer :=
    numbered.ordered.imp fun less same => absurd same (Nat.ne_of_gt less)
  exact List.Pairwise.forall_of_forall_of_flip (fun _ _ _ => rfl) distinct
    (distinct.imp fun equal same => (equal same.symm).symm) leftMember rightMember same

/-- Dropping inner activations keeps one and all below it, or drops it too. -/
theorem suffix_cases {inner frames outer : List Activation} {activation : Activation}
    (suffix : frames <:+ inner ++ activation :: outer) :
    (∃ kept, frames = kept ++ activation :: outer) ∨ frames <:+ outer := by
  induction inner with
  | nil =>
    rcases List.suffix_cons_iff.mp suffix with same | further
    · exact Or.inl ⟨[], same⟩
    · exact Or.inr further
  | cons first rest ih =>
    rcases List.suffix_cons_iff.mp suffix with same | further
    · exact Or.inl ⟨first :: rest, same⟩
    · exact ih further

/-- What a run has done with an activation that was active at its start. -/
def Lasts (activation : Activation) (outer : List Activation) (machine : Machine) : Prop :=
  (∃ inner, machine.frames = inner ++ activation :: outer) ∨
    ∀ other ∈ machine.frames, other.serial ≠ activation.serial

theorem Lasts.dropped {activation : Activation} {frames outer : List Activation}
    {machine : Machine} (lasts : Lasts activation outer machine)
    (lower : ∀ other ∈ outer, other.serial ≠ activation.serial)
    (suffix : frames <:+ machine.frames) :
    (∃ inner, frames = inner ++ activation :: outer) ∨
      ∀ other ∈ frames, other.serial ≠ activation.serial := by
  rcases lasts with ⟨inner, same⟩ | gone
  · rw [same] at suffix
    rcases suffix_cases suffix with kept | below
    · exact Or.inl kept
    · exact Or.inr fun other member => lower other (below.subset member)
  · exact Or.inr fun other member => gone other (suffix.subset member)

/-- As long as an activation has not ended, everything below it is as it was. -/
theorem Run.lasts {allowed : Machine → Action → Prop} {first last : Machine}
    {outer : List Activation} {activation : Activation}
    (run : Run image allowed first last) (numbered : Numbered first) (inner : List Activation)
    (frames : first.frames = inner ++ activation :: outer) :
    Lasts activation outer last ∧ activation.serial < last.serials := by
  have ordered := numbered.ordered
  rw [frames, List.pairwise_append, List.pairwise_cons] at ordered
  have lower : ∀ other ∈ outer, other.serial ≠ activation.serial := by
    intro other member
    have less := ordered.2.1.1 other member
    lia
  induction run with
  | refl =>
    exact ⟨Or.inl ⟨inner, frames⟩, numbered.used activation (by simp [frames])⟩
  | step _ _ step ih =>
    obtain ⟨lasts, used⟩ := ih
    cases step.reframes with
    | drop suffix same => exact ⟨lasts.dropped lower suffix, by lia⟩
    | enter entered outer' suffix frames serial next =>
      refine ⟨?_, by lia⟩
      rw [Lasts, frames]
      rcases lasts.dropped lower suffix with ⟨inner, same⟩ | gone
      · exact Or.inl ⟨entered :: inner, by rw [same]; rfl⟩
      · refine Or.inr fun other member => ?_
        rcases List.mem_cons.mp member with same | old
        · rw [same]; lia
        · exact gone other old

end Egg.Evaluation
