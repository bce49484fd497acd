import Egg.Evaluation.Identity

/-! Sends that no method understands, against sends that one answers. -/
namespace Egg.Evaluation

variable {image : Image}

/-- What a send leaves to its sender when a method answers the value. -/
structure Answered (sender after : Evaluator) (value : Word) : Prop where
  regR : after.regR = value
  regBP : after.context.regBP = sender.context.regBP
  regPC : after.context.regPC = sender.context.regPC
  regSP : after.context.regSP = sender.context.regSP
  operands : ∀ index, sender.context.regSP ≤ index →
    after.context.stack index = sender.context.stack index

/-- The step hands control from the activation with this serial back to its sender. -/
def GivesBack (serial : Nat) (machine : Machine) : Action → Prop
  | .return => ∃ top outer, machine.activations = top :: outer ∧ top.serial = serial
  | .returnTo home => belowHome home machine.activations ≠ [] ∧
      ∃ activation ∈ machine.activations, activation.bp = home ∧ activation.serial = serial
  | _ => False

/-- An activation that is still there at the end never had a dead home returned to. -/
theorem Run.homesActive {allowed : Machine → Action → Prop} {first last : Machine}
    {outer : List Activation} {activation : Activation}
    (run : Run image allowed first last) (numbered : Numbered first) (inner : List Activation)
    (frames : first.frames = inner ++ activation :: outer)
    (present : ∃ other ∈ last.frames, other.serial = activation.serial) :
    Run image HomesActive first last := by
  induction run with
  | refl => exact .refl _
  | @step middle last action before permitted step ih =>
    obtain ⟨other, member, same⟩ := present
    obtain ⟨_, used⟩ := before.lasts numbered inner frames
    have earlier : ∃ other ∈ middle.frames, other.serial = activation.serial := by
      cases step.reframes with
      | drop suffix => exact ⟨other, suffix.subset member, same⟩
      | enter entered rest suffix framed serial =>
        rw [framed] at member
        rcases List.mem_cons.mp member with new | old
        · rw [new] at same; lia
        · exact ⟨other, suffix.subset old, same⟩
    refine .step (ih earlier) ?_ step
    cases step with
    | @returnTo _ fetched fetches =>
      intro ended
      rw [Machine.frames_resume, ended] at member
      cases member
    | _ => trivial

/-- When an activation gives control back, its sender is restored. -/
theorem givesBack_restores (wellFormed : WellFormed image) {entered last after : Machine}
    {activation : Activation} {outer : List Activation} {action : Action}
    (valid : Valid wellFormed entered) (numbered : Numbered entered)
    (frames : entered.frames = activation :: outer)
    (run : Run image (fun _ _ => True) entered last) (step : Step image last action after)
    (gives : GivesBack activation.serial last action) :
    RestoresSender activation.sender after.evaluator := by
  have found : ∀ found ∈ last.activations, found.serial = activation.serial →
      Valid wellFormed last ∧ found.sender = activation.sender := by
    intro found member serial
    have framed : found.forget ∈ last.frames := List.mem_map_of_mem member
    refine ⟨valid.run (run.homesActive numbered [] frames ⟨_, framed, serial⟩), ?_⟩
    rcases (run.lasts numbered [] frames).1 with ⟨inner, shape⟩ | gone
    · have ordered := (numbered.run run).ordered
      rw [shape, List.pairwise_append, List.pairwise_cons] at ordered
      rw [shape] at framed
      rcases List.mem_append.mp framed with above | below
      · have less := ordered.2.2 _ above activation (List.mem_cons_self ..)
        simp only [Activation.forget] at less
        lia
      · rcases List.mem_cons.mp below with same | deeper
        · rw [← same]; rfl
        · have less := ordered.2.1.1 _ deeper
          simp only [Activation.forget] at less
          lia
    · exact absurd serial (gone found.forget framed)
  cases step with
  | «return» fetches =>
    obtain ⟨top, rest, active, serial⟩ := gives
    obtain ⟨valid, same⟩ := found top (by simp [active]) serial
    obtain ⟨top', sender, _, active', _, _, restores, _⟩ :=
      valid.holds.return_restores (valid.return_inner fetches) fetches
    rw [active] at active'
    obtain ⟨rfl, _⟩ := List.cons.inj active'
    rw [← same]
    exact restores
  | returnTo fetches =>
    obtain ⟨nonempty, home, member, named, serial⟩ := gives
    obtain ⟨valid, same⟩ := found home member serial
    obtain ⟨home', _, _, member', named', _, chain, restores, _⟩ :=
      valid.holds.returnTo_restores fetches nonempty
    obtain rfl := valid.holds.chain.eq_of_bp member member' (named.trans named'.symm)
    rw [← same]
    exact restores
  | _ => cases gives

/-- Giving control back keeps R. -/
theorem givesBack_regR {last after : Machine} {serial : Nat} {action : Action}
    (step : Step image last action after) (gives : GivesBack serial last action) :
    after.evaluator.regR = last.evaluator.regR := by
  cases step with
  | «return» fetches =>
    obtain ⟨_, moved⟩ := Evaluator.nextOperation_some fetches.2
    rw [moved]
    rfl
  | returnTo fetches =>
    obtain ⟨_, moved⟩ := Evaluator.nextOperation_some fetches.2
    rw [moved]
    rfl
  | _ => cases gives

/-- An understood send that gets its answer is answered. -/
theorem understood_answered (wellFormed : WellFormed image) (stack : Int → Word)
    {before last after : Machine} {selector : Word} {argumentCount : Nat}
    {fetched entered : Evaluator} {action : Action} {method fresh : Word}
    (reached : Run image HomesActive (Machine.start image stack) before)
    (fetches : before.Fetches (.dispatchMessage selector argumentCount) fetched)
    (isMethod : image.isBlock method = false) (ordinary : image.isLauncher method = false)
    (invoked : fetched.invokeWith image method fetched.regR fresh = some entered)
    (run : Run image (fun _ _ => True)
      (before.activate false fetched entered before.activations) last)
    (back : Step image last action after) (gives : GivesBack before.serials last action) :
    Answered fetched after.evaluator last.evaluator.regR := by
  have step := Step.invoke method fresh fetches isMethod ordinary invoked
  have valid := ((Valid.start wellFormed stack).run reached).step
    (show HomesActive before .enter from trivial) step
  have numbered := ((Numbered.start image stack).run reached).step step.reframes
  have restores := givesBack_restores wellFormed valid numbered rfl run back gives
  exact ⟨givesBack_regR back gives, restores.regBP, restores.regPC, restores.regSP,
    restores.operands⟩

/-- When its handler has answered, the selector and the array of the arguments of a send
that was not understood are still on the stack. -/
theorem notUnderstood_regSP (wellFormed : WellFormed image) (stack : Int → Word)
    {before sent last after : Machine} {selector : Word} {argumentCount : Nat}
    {fetched : Evaluator} {action : Action}
    (reached : Run image HomesActive (Machine.start image stack) before)
    (fetches : before.Fetches (.dispatchMessage selector argumentCount) fetched)
    (send : Step image before .notUnderstood sent)
    (run : Run image (fun _ _ => True) sent last) (back : Step image last action after)
    (gives : GivesBack before.serials last action) :
    after.evaluator.context.regSP = fetched.context.regSP - 2 := by
  have valid := ((Valid.start wellFormed stack).run reached).step
    (show HomesActive before .notUnderstood from trivial) send
  have numbered := ((Numbered.start image stack).run reached).step send.reframes
  cases send with
  | @messageNotUnderstood selector' _ caller _ array dnu fresh fetches' =>
    have same : caller = fetched := (Prod.mk.inj (fetches'.2.symm.trans fetches.2)).2
    have restores := givesBack_restores wellFormed valid numbered rfl run back gives
    rw [restores.regSP, ← same]
    show caller.context.regSP - 1 - 1 = caller.context.regSP - 2
    lia

/-- A send that no method understands never ends as an understood one would. -/
theorem notUnderstood_not_answered (wellFormed : WellFormed image) (stack : Int → Word)
    {before sent last after : Machine} {selector value : Word} {argumentCount : Nat}
    {fetched : Evaluator} {action : Action}
    (reached : Run image HomesActive (Machine.start image stack) before)
    (fetches : before.Fetches (.dispatchMessage selector argumentCount) fetched)
    (send : Step image before .notUnderstood sent)
    (run : Run image (fun _ _ => True) sent last) (back : Step image last action after)
    (gives : GivesBack before.serials last action) :
    after.evaluator.context.regSP = fetched.context.regSP - 2 ∧
      ¬ Answered fetched after.evaluator value := by
  have lower := notUnderstood_regSP wellFormed stack reached fetches send run back gives
  refine ⟨lower, fun answered => ?_⟩
  have same := answered.regSP
  lia

/-- The host's send is not understood, and its handler answers the receiver. -/
theorem answerSelf_notUnderstood : ∃ before fetched sent last after,
    Run answerSelf HomesActive (Machine.start answerSelf fun _ => 0) before ∧
      before.Fetches (.dispatchMessage 7 1) fetched ∧
      Step answerSelf before .notUnderstood sent ∧
      Run answerSelf (fun _ _ => True) sent last ∧ Step answerSelf last .return after ∧
      GivesBack before.serials last .return := by
  have launched : Run answerSelf HomesActive (Machine.start answerSelf fun _ => 0) _ :=
    @Run.step _ _ _ _ _ .enter (.refl _) trivial (.sendToWith 7 1 5 [6] rfl rfl rfl rfl rfl rfl)
  exact ⟨_, _, _, _, _, launched, ⟨rfl, rfl⟩,
    .messageNotUnderstood 20 10 0 ⟨rfl, rfl⟩ rfl rfl rfl,
    @Run.step _ _ _ _ _ .stay (.refl _) trivial (.execute ⟨rfl, rfl⟩ rfl), .return ⟨rfl, rfl⟩,
    _, _, rfl, rfl⟩

theorem notUnderstood_not_answered_answerSelf :
    ∃ fetched after : Evaluator,
      after.context.regSP = fetched.context.regSP - 2 ∧ ¬ Answered fetched after 5 := by
  obtain ⟨before, fetched, sent, last, after, reached, fetches, send, run, back, gives⟩ :=
    answerSelf_notUnderstood
  exact ⟨fetched, after.evaluator, notUnderstood_not_answered answerSelf_wellFormed (fun _ => 0)
    reached fetches send run back gives⟩

/-- Whatever the handler of a send answers, the send is answered with it. -/
def NotUnderstoodAnswered (image : Image) : Prop :=
  ∀ stack (before sent last after : Machine) (selector : Word) (argumentCount : Nat) fetched action,
    Run image HomesActive (Machine.start image stack) before →
    before.Fetches (.dispatchMessage selector argumentCount) fetched →
    Step image before .notUnderstood sent → Run image (fun _ _ => True) sent last →
    Step image last action after → GivesBack before.serials last action →
    Answered fetched after.evaluator last.evaluator.regR

/-- The host's one-argument send loses two words of stack. -/
theorem notUnderstood_leaves_operands : ¬ NotUnderstoodAnswered answerSelf := by
  intro answered
  obtain ⟨before, fetched, sent, last, after, reached, fetches, send, run, back, gives⟩ :=
    answerSelf_notUnderstood
  have lower := notUnderstood_regSP answerSelf_wellFormed (fun _ => 0) reached fetches send run
    back gives
  have same := (answered _ before sent last after 7 1 fetched _ reached fetches send run back
    gives).regSP
  lia

end Egg.Evaluation
