import Egg.Process.Ensure

/-! When ensured closures are evaluated once, whichever way control leaves. -/
namespace Egg.Process.Ensure

open Egg.Evaluation (Word EvaluationContext canReturnTo)

/-- The last object pushed is on the top. -/
theorem pushAll_top (context : EvaluationContext) (objects : List Word) (object : Word) :
    (context.pushAll (objects ++ [object])).stack (context.regSP - objects.length - 1) =
      object := by
  obtain ⟨-, -, -, -, -, moved, -⟩ := context.pushAll_spec objects
  simp only [EvaluationContext.pushAll] at moved ⊢
  rw [List.foldl_append, List.foldl_cons, List.foldl_nil, EvaluationContext.push_stack,
    if_pos (by lia)]

/-- The frame of a send, and what lies over it. -/
structure Sent (context : EvaluationContext) (operands : List Word) (temps : Nat)
    (built : EvaluationContext) : Prop where
  regBP : built.regBP = context.regSP - operands.length - 2
  regSP : built.regSP = built.regBP - 4 - temps
  sender : built.stack built.regBP = context.regBP
  lastArgument : ∀ object, operands.getLast? = some object →
    lastArgumentOf built built.regBP = object
  kept : ∀ index, context.regSP ≤ index → built.stack index = context.stack index

/-- The context came back to where it was, with every word from its SP upwards. -/
structure CameBack (before after : EvaluationContext) : Prop where
  regBP : after.regBP = before.regBP
  regSP : after.regSP = before.regSP
  kept : ∀ index, before.regSP ≤ index → after.stack index = before.stack index

section Sends

variable {image : Image} {context built after : EvaluationContext} {operands : List Word}
  {callee : Callee} {temps : Nat}

theorem send_spec (sent : send image context operands callee = some built) :
    Sent context operands callee.temps built := by
  have frame := EvaluationContext.buildFrameFor_spec sent
  obtain ⟨-, -, -, sameBP, -, moved, kept⟩ := context.pushAll_spec operands
  have regBP := frame.regBP
  have regSP := frame.regSP
  refine ⟨by lia, by lia, frame.savedBP.trans sameBP, ?_, ?_⟩
  · intro object last
    obtain ⟨before, split⟩ := List.getLast?_eq_some_iff.mp last
    have length : operands.length = before.length + 1 := by simp [split]
    have top := pushAll_top context before object
    rw [← split] at top
    have slot : built.regBP + 2 = context.regSP - before.length - 1 := by lia
    rw [lastArgumentOf, frame.kept _ (by lia), slot, top]
  · intro index above
    rw [frame.kept index (by lia), kept index above]

/-- Leaving the frame of a send and dropping its operands comes back to the sender. -/
theorem Sent.cameBack (sent : Sent context operands temps built)
    (sameBP : after.regBP = built.regBP)
    (same : ∀ index, built.regBP ≤ index → after.stack index = built.stack index) :
    CameBack context (after.popFrame.dropOperands operands.length) := by
  have regBP := sent.regBP
  refine ⟨?_, ?_, ?_⟩
  · show after.stack after.regBP = context.regBP
    rw [sameBP, same _ (Int.le_refl _), sent.sender]
  · show after.regBP + 1 + 1 + (operands.length : Int) = context.regSP
    lia
  · intro index above
    show after.stack index = context.stack index
    rw [same index (by lia), sent.kept index above]

/-- The answer of `bp` is where its own frame was, right under its sender's words. -/
theorem nativeStackBP_spec {bp : Int}
    (answered : nativeStackBP image context = some (bp, after)) :
    bp = context.regSP - 2 ∧ CameBack context after := by
  simp only [nativeStackBP, Option.map_eq_some_iff, Prod.mk.injEq] at answered
  obtain ⟨answering, sent, rfl, rfl⟩ := answered
  have frame := send_spec sent
  have back := frame.cameBack rfl fun _ _ => rfl
  refine ⟨by simpa using frame.regBP, ?_⟩
  simpa [EvaluationContext.dropOperands] using back

end Sends

/-- The lowest word that an activation keeps while another one runs on top of it. -/
def Activation.floor (activation : Activation) : Int :=
  match activation.role with
  | .code => activation.bp - 4
  | .protecting _ | .ensuring _ | .unwinding _ => activation.bp - 5

/-- `evaluate:ensuring:` holds its cursor in its first temporary, two words over the frame of
what it evaluates, and the ensured closure in its last argument. -/
def Activation.Holds (stack : Int → Word) (activation : Activation) : Prop :=
  match activation.role with
  | .protecting protection | .ensuring protection =>
    protection.cursor = activation.bp - 9 ∧
      stack (activation.bp + 2) = protection.ensuredClosure ∧
      stack (activation.bp - 5) = protection.cursor
  | _ => True

/-- The frames of the activations follow each other from the registers up. -/
def Chained (stack : Int → Word) : Int → Int → List Activation → Prop
  | _, _, [] => True
  | regBP, regSP, activation :: outer =>
    regBP = activation.bp ∧ regSP ≤ activation.floor ∧ activation.Holds stack ∧
      Chained stack (stack activation.bp) (activation.bp + 2) outer

theorem Activation.floor_le (activation : Activation) : activation.floor ≤ activation.bp - 4 := by
  rcases activation with ⟨bp, _ | _ | _ | _, pending⟩ <;> simp only [floor] <;> lia

theorem Activation.Holds.congr {activation : Activation} {stack other : Int → Word}
    (holds : activation.Holds stack)
    (same : ∀ index, activation.floor ≤ index → other index = stack index) :
    activation.Holds other := by
  rcases activation with ⟨bp, _ | protection | protection | _, pending⟩
  · trivial
  · obtain ⟨cursor, argument, temporary⟩ := holds
    exact ⟨cursor, (same _ (by simp only [floor]; lia)).trans argument,
      (same _ (by simp only [floor]; lia)).trans temporary⟩
  · obtain ⟨cursor, argument, temporary⟩ := holds
    exact ⟨cursor, (same _ (by simp only [floor]; lia)).trans argument,
      (same _ (by simp only [floor]; lia)).trans temporary⟩
  · trivial

/-- The chain reads nothing under the limit it was given. -/
theorem Chained.congr {stack other : Int → Word} {regBP regSP : Int}
    {activations : List Activation} (chained : Chained stack regBP regSP activations)
    (same : ∀ index, regSP ≤ index → other index = stack index) :
    Chained other regBP regSP activations := by
  induction activations generalizing regBP regSP with
  | nil => trivial
  | cons activation outer ih =>
    obtain ⟨position, room, holds, rest⟩ := chained
    have low := activation.floor_le
    refine ⟨position, room, holds.congr fun index above => same index (by lia), ?_⟩
    rw [same _ (by lia)]
    exact ih rest fun index above => same index (by lia)

/-- Frames of callers lie higher. -/
theorem Chained.lower {stack : Int → Word} {regBP regSP : Int} {activations : List Activation}
    (chained : Chained stack regBP regSP activations) {activation : Activation}
    (member : activation ∈ activations) : regSP ≤ activation.bp - 4 := by
  induction activations generalizing regBP regSP with
  | nil => cases member
  | cons top outer ih =>
    obtain ⟨position, room, -, rest⟩ := chained
    have low := top.floor_le
    rcases List.mem_cons.mp member with rfl | old
    · lia
    · have := ih rest old
      lia

/-- Dropping the frames down to an activation leaves the chain of the rest. -/
theorem Chained.below {stack : Int → Word} {regBP regSP : Int} {above rest : List Activation}
    {left : Activation} (chained : Chained stack regBP regSP (above ++ left :: rest)) :
    Chained stack (stack left.bp) (left.bp + 2) rest := by
  induction above generalizing regBP regSP with
  | nil => exact chained.2.2.2
  | cons top outer ih => exact ih chained.2.2.2

theorem Chained.holds {stack : Int → Word} {regBP regSP : Int} {activations : List Activation}
    (chained : Chained stack regBP regSP activations) {activation : Activation}
    (member : activation ∈ activations) : activation.Holds stack := by
  induction activations generalizing regBP regSP with
  | nil => cases member
  | cons top outer ih =>
    rcases List.mem_cons.mp member with rfl | old
    · exact chained.2.2.1
    · exact ih chained.2.2.2 old

/-- Everything over an activation has its frame under it. -/
theorem Chained.above_lt {stack : Int → Word} {regBP regSP : Int} {above rest : List Activation}
    {left : Activation} (chained : Chained stack regBP regSP (above ++ left :: rest))
    {activation : Activation} (member : activation ∈ above) : activation.bp < left.bp := by
  induction above generalizing regBP regSP with
  | nil => cases member
  | cons top outer ih =>
    rcases List.mem_cons.mp member with rfl | old
    · have := chained.2.2.2.lower (List.mem_append_right _ List.mem_cons_self)
      lia
    · exact ih chained.2.2.2 old

/-- The protection an activation of `evaluate:ensuring:` is still evaluating the closure of. -/
def Activation.protection? (activation : Activation) : Option Protection :=
  match activation.role with
  | .protecting protection => some protection
  | _ => none

def protections (activations : List Activation) : List Protection :=
  activations.filterMap Activation.protection?

def cursors (activations : List Activation) : List Int :=
  (protections activations).map Protection.cursor

def numbers (activations : List Activation) : List Nat :=
  (protections activations).map Protection.number

@[simp] theorem protections_cons_of_none {activation : Activation} (activations : List Activation)
    (none : activation.protection? = none) :
    protections (activation :: activations) = protections activations := by
  simp [protections, none]

@[simp] theorem protections_protecting (bp : Int) (protection : Protection) (pending : List Int)
    (activations : List Activation) :
    protections (⟨bp, .protecting protection, pending⟩ :: activations) =
      protection :: protections activations := rfl

/-- Protected frames lie in the order of their activations. -/
theorem Chained.cursors_sorted {stack : Int → Word} {regBP regSP : Int}
    {activations : List Activation} (chained : Chained stack regBP regSP activations) :
    (cursors activations).Pairwise (· < ·) ∧ ∀ frame ∈ cursors activations, regSP ≤ frame + 5 := by
  induction activations generalizing regBP regSP with
  | nil => exact ⟨.nil, fun frame member => absurd member List.not_mem_nil⟩
  | cons top outer ih =>
    obtain ⟨position, room, holds, rest⟩ := chained
    obtain ⟨sorted, higher⟩ := ih rest
    have low := top.floor_le
    rcases top with ⟨bp, role, pending⟩
    cases role with
    | protecting protection =>
      have cursor : protection.cursor = bp - 9 := holds.1
      simp only at low higher
      refine ⟨.cons (fun frame member => ?_) sorted, fun frame member => ?_⟩
      · have := higher frame member
        lia
      · rcases List.mem_cons.mp member with rfl | old
        · lia
        · have := higher frame old
          lia
    | code | ensuring | unwinding =>
      refine ⟨sorted, fun frame member => ?_⟩
      have := higher frame member
      simp only at low this
      lia

/-- The pending protected frames are those of the activations that protect, now and at the
beginning of every activation. -/
structure Recorded (protectedFrames : List Int) (activations : List Activation) : Prop where
  now : protectedFrames = cursors activations
  before : ∀ above left rest, activations = above ++ left :: rest → left.pending = cursors rest

theorem Recorded.nil : Recorded [] [] where
  now := rfl
  before above left rest split := by simp at split

theorem Recorded.tail {protectedFrames : List Int} {top : Activation} {outer : List Activation}
    (recorded : Recorded protectedFrames (top :: outer)) : Recorded (cursors outer) outer where
  now := rfl
  before above left rest split := recorded.before (top :: above) left rest (by rw [split]; rfl)

theorem Recorded.cons {protectedFrames : List Int} {activations : List Activation}
    (recorded : Recorded protectedFrames activations) (top : Activation)
    (pending : top.pending = protectedFrames) :
    Recorded (cursors (top :: activations)) (top :: activations) where
  now := rfl
  before above left rest split := by
    cases above with
    | nil =>
      obtain ⟨rfl, rfl⟩ := List.cons.inj split
      exact pending.trans recorded.now
    | cons first above =>
      obtain ⟨-, split⟩ := List.cons.inj split
      exact recorded.before above left rest split

/-- An activation that protects nothing leaves the list of protected frames as it is. -/
theorem Recorded.activate {protectedFrames : List Int} {activations : List Activation}
    (recorded : Recorded protectedFrames activations) (bp : Int) (role : Role)
    (none : (⟨bp, role, protectedFrames⟩ : Activation).protection? = none) :
    Recorded protectedFrames (⟨bp, role, protectedFrames⟩ :: activations) := by
  have grown := recorded.cons ⟨bp, role, protectedFrames⟩ rfl
  rwa [cursors, protections_cons_of_none _ none, ← cursors, ← recorded.now] at grown

/-- What is known of the protections entered so far, from those still protecting. -/
structure Accounted (protecting : List Nat) (entered : Nat) (ran : List (Nat × Nat)) : Prop where
  ordered : protecting.Pairwise (· > ·)
  bounded : ∀ number ∈ protecting, number < entered
  known : ∀ number ∈ ran.map Prod.fst, number < entered
  once : ∀ number, number < entered →
    (ran.map Prod.fst).count number = if number ∈ protecting then 0 else 1
  innermost : ∀ later number count earlier, ran = later ++ (number, count) :: earlier →
    ∀ inner, number < inner → inner < count → inner ∈ earlier.map Prod.fst

theorem Accounted.enter {protecting : List Nat} {entered : Nat} {ran : List (Nat × Nat)}
    (accounted : Accounted protecting entered ran) :
    Accounted (entered :: protecting) (entered + 1) ran where
  ordered := .cons accounted.bounded accounted.ordered
  bounded number member := by
    rcases List.mem_cons.mp member with rfl | old
    · exact Nat.lt_succ_self _
    · exact Nat.lt_succ_of_lt (accounted.bounded number old)
  known number member := Nat.lt_succ_of_lt (accounted.known number member)
  once number below := by
    rcases Nat.lt_succ_iff_lt_or_eq.mp below with old | rfl
    · rw [accounted.once number old]
      have other : number ≠ entered := by lia
      simp [other]
    · have absent : number ∉ ran.map Prod.fst := fun member =>
        absurd (accounted.known number member) (Nat.lt_irrefl _)
      rw [List.count_eq_zero_of_not_mem absent, if_pos List.mem_cons_self]
  innermost := accounted.innermost

/-- The innermost protection is the one to run first. -/
theorem Accounted.run {number : Nat} {protecting : List Nat} {entered : Nat}
    {ran : List (Nat × Nat)} (accounted : Accounted (number :: protecting) entered ran) :
    Accounted protecting entered ((number, entered) :: ran) where
  ordered := (List.pairwise_cons.mp accounted.ordered).2
  bounded other member := accounted.bounded other (List.mem_cons_of_mem _ member)
  known other member := by
    rcases List.mem_cons.mp member with rfl | old
    · exact accounted.bounded _ List.mem_cons_self
    · exact accounted.known other old
  once other below := by
    have count := accounted.once other below
    by_cases same : other = number
    · subst same
      have outer : other ∉ protecting := fun member =>
        absurd ((List.pairwise_cons.mp accounted.ordered).1 other member) (Nat.lt_irrefl _)
      rw [if_pos List.mem_cons_self] at count
      rw [List.map_cons, List.count_cons_self, count, if_neg outer]
    · rw [List.map_cons, List.count_cons_of_ne (Ne.symm same), count]
      simp [same]
  innermost later inner count earlier split := by
    cases later with
    | nil =>
      obtain ⟨entry, rfl⟩ := List.cons.inj split
      obtain ⟨rfl, rfl⟩ := Prod.mk.inj entry
      intro other above below
      have absent : other ∉ number :: protecting := by
        intro member
        rcases List.mem_cons.mp member with rfl | old
        · exact Nat.lt_irrefl _ above
        · have := (List.pairwise_cons.mp accounted.ordered).1 other old
          lia
      have count := accounted.once other below
      rw [if_neg absent] at count
      exact List.count_pos_iff.mp (by lia)
    | cons last later =>
      obtain ⟨-, split⟩ := List.cons.inj split
      exact accounted.innermost later inner count earlier split

/-- Only the active activation unwinds, and no protected frame is in its way. -/
structure Clear (protectedFrames : List Int) (activations : List Activation) : Prop where
  active : ∀ bp home pending outer, activations = ⟨bp, .unwinding home, pending⟩ :: outer →
    ∀ frame ∈ protectedFrames, home < frame
  suspended : ∀ activation ∈ activations.tail, ∀ home, activation.role ≠ .unwinding home

/-- What every run that unwinds over no protected frame keeps. -/
structure Sound (process : ActiveProcess) : Prop where
  chained : Chained process.context.stack process.context.regBP process.context.regSP
    process.activations
  recorded : Recorded process.protectedFrames process.activations
  accounted : Accounted (numbers process.activations) process.entered process.ran
  clear : Clear process.protectedFrames process.activations

theorem Chained.mono {stack : Int → Word} {regBP regSP lower : Int}
    {activations : List Activation} (chained : Chained stack regBP regSP activations)
    (low : lower ≤ regSP) : Chained stack regBP lower activations := by
  cases activations with
  | nil => trivial
  | cons top outer => exact ⟨chained.1, Int.le_trans low chained.2.1, chained.2.2⟩

/-- A send puts the frame of an activation under the chain of its senders. -/
theorem Chained.send {context built : EvaluationContext} {operands : List Word} {temps : Nat}
    {activations : List Activation}
    (chained : Chained context.stack context.regBP context.regSP activations)
    (sent : Sent context operands temps built) {role : Role} {pending : List Int}
    (room : built.regSP ≤ (⟨built.regBP, role, pending⟩ : Activation).floor)
    (holds : (⟨built.regBP, role, pending⟩ : Activation).Holds built.stack) :
    Chained built.stack built.regBP built.regSP
      (⟨built.regBP, role, pending⟩ :: activations) := by
  refine ⟨rfl, room, holds, ?_⟩
  have position := sent.regBP
  rw [sent.sender]
  exact (chained.congr sent.kept).mono (by simp only; lia)

theorem Sent.codeRoom {context built : EvaluationContext} {operands : List Word} {temps : Nat}
    (sent : Sent context operands temps built) (pending : List Int) :
    built.regSP ≤ (⟨built.regBP, .code, pending⟩ : Activation).floor := by
  have room := sent.regSP
  simp only [Activation.floor]
  lia

theorem Chained.cameBack {before after : EvaluationContext} {activations : List Activation}
    (chained : Chained before.stack before.regBP before.regSP activations)
    (back : CameBack before after) :
    Chained after.stack after.regBP after.regSP activations := by
  rw [back.regBP, back.regSP]
  exact chained.congr back.kept

/-- Writing under the words that the active activation keeps leaves the chain. -/
theorem Chained.work {context : EvaluationContext} {top : Activation} {outer : List Activation}
    (chained : Chained context.stack context.regBP context.regSP (top :: outer))
    (after : EvaluationContext)
    (sameBP : after.regBP = context.regBP) (room : after.regSP ≤ top.floor)
    (same : ∀ index, top.floor ≤ index → after.stack index = context.stack index) :
    Chained after.stack after.regBP after.regSP (top :: outer) := by
  obtain ⟨position, -, holds, rest⟩ := chained
  have low := top.floor_le
  refine ⟨sameBP.trans position, room, holds.congr same, ?_⟩
  rw [same _ (by lia)]
  exact rest.congr fun index above => same index (by lia)

/-- The active activation goes back to its sender. -/
theorem Chained.popFrame {context : EvaluationContext} {top : Activation}
    {outer : List Activation}
    (chained : Chained context.stack context.regBP context.regSP (top :: outer)) :
    Chained context.popFrame.stack context.popFrame.regBP context.popFrame.regSP outer := by
  obtain ⟨position, -, -, rest⟩ := chained
  show Chained context.stack (context.stack context.regBP) (context.regBP + 1 + 1) outer
  rw [position, Int.add_assoc]
  exact rest

theorem Clear.ordinary {protectedFrames : List Int} {activations : List Activation}
    (ordinary : ∀ activation ∈ activations, ∀ home, activation.role ≠ .unwinding home) :
    Clear protectedFrames activations where
  active bp home pending outer split :=
    absurd rfl (ordinary ⟨bp, .unwinding home, pending⟩ (by simp [split]) home)
  suspended activation member := ordinary activation (List.mem_of_mem_tail member)

/-- No activation unwinds when the active one does not. -/
theorem Clear.none {protectedFrames : List Int} {top : Activation} {outer : List Activation}
    (clear : Clear protectedFrames (top :: outer)) (idle : ∀ home, top.role ≠ .unwinding home) :
    ∀ activation ∈ top :: outer, ∀ home, activation.role ≠ .unwinding home := by
  intro activation member
  rcases List.mem_cons.mp member with rfl | old
  · exact idle
  · exact clear.suspended activation old

theorem Clear.cons {protectedFrames others : List Int} {top : Activation}
    {outer : List Activation} (clear : Clear protectedFrames (top :: outer))
    (idle : ∀ home, top.role ≠ .unwinding home) {activation : Activation}
    (free : ∀ home, activation.role = .unwinding home → ∀ frame ∈ others, home < frame) :
    Clear others (activation :: top :: outer) where
  active bp home pending rest split := by
    obtain ⟨rfl, -⟩ := List.cons.inj split
    exact free home rfl
  suspended := clear.none idle

/-- A non-local return crosses no pending protected frame: the last one, if there is any, is
beyond the home frame. -/
def ActiveProcess.crossesNone (process : ActiveProcess) : Event → Bool
  | .nonLocalReturn _ _ home => process.protectedFrames.head?.all (home < ·)
  | _ => true

section Steps

variable {image : Image} {process next : ActiveProcess}

theorem Sound.work (sound : Sound process) {context : EvaluationContext}
    (worked : process.work context = some next)
    (sameBP : context.regBP = process.context.regBP)
    (room : context.regSP ≤ process.context.regBP - 4 ∨ context.regSP ≤ process.context.regSP)
    (same : ∀ index, process.context.regBP - 4 ≤ index ∧ process.context.regSP ≤ index →
      context.stack index = process.context.stack index) : Sound next := by
  rcases process with ⟨before, protectedFrames, activations, entered, ran⟩
  simp only [ActiveProcess.work] at worked
  split at worked
  · rename_i _ bp pending outer
    obtain rfl := Option.some.inj worked
    have chained := sound.chained
    simp only at sameBP room same chained
    obtain ⟨position, low, -, -⟩ := id chained
    simp only [Activation.floor] at position low
    refine ⟨chained.work context sameBP ?_ ?_, sound.recorded, sound.accounted, sound.clear⟩
    · simp only [Activation.floor]
      lia
    · intro index above
      simp only [Activation.floor] at above
      exact same index (by lia)
  · cases worked

theorem Sound.call (sound : Sound process) {operands : List Word} {callee : Callee}
    (called : process.call image operands callee = some next) : Sound next := by
  rcases process with ⟨before, protectedFrames, activations, entered, ran⟩
  simp only [ActiveProcess.call] at called
  split at called
  · rename_i _ bp pending outer
    obtain ⟨context, built, rfl⟩ := Option.map_eq_some_iff.mp called
    have sent := send_spec built
    exact ⟨sound.chained.send sent (sent.codeRoom _) trivial,
      sound.recorded.activate _ _ rfl, sound.accounted,
      sound.clear.cons (fun _ => Role.noConfusion) fun _ role => Role.noConfusion role⟩
  · cases called

theorem Sound.leave (sound : Sound process) (left : process.leave = some next) :
    Sound next := by
  rcases process with ⟨before, protectedFrames, activations, entered, ran⟩
  simp only [ActiveProcess.leave] at left
  split at left
  · rename_i _ bp pending outer
    obtain rfl := Option.some.inj left
    have same : protectedFrames = cursors outer := sound.recorded.now
    exact ⟨sound.chained.popFrame, same ▸ sound.recorded.tail, sound.accounted,
      .ordinary sound.clear.suspended⟩
  · cases left

theorem Sound.ensuredReturned (sound : Sound process)
    (returned : process.ensuredReturned = some next) : Sound next := by
  rcases process with ⟨before, protectedFrames, activations, entered, ran⟩
  simp only [ActiveProcess.ensuredReturned] at returned
  split at returned
  · rename_i _ bp protection pending outer
    obtain rfl := Option.some.inj returned
    have same : protectedFrames = cursors outer := sound.recorded.now
    exact ⟨sound.chained.popFrame, same ▸ sound.recorded.tail, sound.accounted,
      .ordinary sound.clear.suspended⟩
  · cases returned

theorem Sound.evaluateEnsuring (sound : Sound process) {aClosure ensuredClosure : Word}
    {callee : Callee}
    (evaluated : process.evaluateEnsuring image aClosure ensuredClosure callee = some next) :
    Sound next := by
  rcases process with ⟨before, protectedFrames, activations, count, ran⟩
  simp only [ActiveProcess.evaluateEnsuring] at evaluated
  split at evaluated
  · rename_i _ bp pending outer
    simp only [Option.bind_eq_bind, Option.bind_eq_some_iff] at evaluated
    obtain ⟨entered, called, ⟨cursor, returned⟩, answered, evaluating, valued, same⟩ := evaluated
    obtain rfl := Option.some.inj same
    have sent := send_spec called
    obtain ⟨position, back⟩ := nativeStackBP_spec answered
    have lowest : entered.regSP = entered.regBP - 4 - (3 : Nat) := sent.regSP
    have argument := sent.lastArgument ensuredClosure rfl
    have chained := (sound.chained.send sent (sent.codeRoom protectedFrames)
      trivial).cameBack back
    have stored : ∀ index, index ≠ returned.regBP - 5 →
        (returned.stackTemporaryAtPut 1 cursor).stack index = returned.stack index := by
      intro index other
      exact Function.update_of_ne (by lia) _ _
    have temporary : (returned.stackTemporaryAtPut 1 cursor).stack (returned.regBP - 5) =
        cursor := by
      simp only [EvaluationContext.stackTemporaryAtPut, Int.sub_sub]
      exact Function.update_self _ _ _
    have sameBP := back.regBP
    have sameSP := back.regSP
    obtain ⟨_, _, _, rest⟩ := chained.work (returned.stackTemporaryAtPut 1 cursor) rfl
      (by simp only [Activation.floor, EvaluationContext.stackTemporaryAtPut]; lia)
      (fun index above => stored index (by simp only [Activation.floor] at above; lia))
    have protecting : Chained (returned.stackTemporaryAtPut 1 cursor).stack returned.regBP
        returned.regSP (⟨returned.regBP, .protecting ⟨count, cursor, ensuredClosure⟩,
          protectedFrames⟩ :: ⟨bp, .code, pending⟩ :: outer) := by
      refine ⟨rfl, by simp only [Activation.floor]; lia, ⟨?_, ?_, temporary⟩, ?_⟩
      · simp only
        lia
      · simp only
        rw [stored _ (by lia), back.kept _ (by lia), back.regBP]
        exact argument
      · rw [sameBP]
        exact rest
    have inner := send_spec valued
    have records := sound.recorded.cons
      ⟨returned.regBP, .protecting ⟨count, cursor, ensuredClosure⟩, protectedFrames⟩ rfl
    have pushed : cursors (⟨returned.regBP, .protecting ⟨count, cursor, ensuredClosure⟩,
        protectedFrames⟩ :: ⟨bp, .code, pending⟩ :: outer) = cursor :: protectedFrames :=
      congrArg (cursor :: ·) sound.recorded.now.symm
    rw [pushed] at records
    have clear : Clear (cursor :: protectedFrames) (⟨returned.regBP,
        .protecting ⟨count, cursor, ensuredClosure⟩, protectedFrames⟩ ::
          ⟨bp, .code, pending⟩ :: outer) :=
      sound.clear.cons (fun _ => Role.noConfusion) fun _ role => Role.noConfusion role
    exact ⟨protecting.send inner (inner.codeRoom _) trivial, records.activate _ _ rfl,
      sound.accounted.enter,
      clear.cons (fun _ => Role.noConfusion) fun _ role => Role.noConfusion role⟩
  · cases evaluated

theorem Sound.closureReturned (sound : Sound process) {result : Word} {callee : Callee}
    (returned : process.closureReturned image result callee = some next) : Sound next := by
  rcases process with ⟨before, frames, activations, count, ran⟩
  simp only [ActiveProcess.closureReturned] at returned
  split at returned
  · rename_i _ _ bp protection pending outer prev protectedFrames
    simp only [Option.bind_eq_bind] at returned
    split at returned
    · cases returned
    · simp only [Option.bind_eq_some_iff] at returned
      obtain ⟨evaluating, valued, same⟩ := returned
      obtain rfl := Option.some.inj same
      obtain ⟨position, _, _, _⟩ := id sound.chained
      simp only at position
      have chained := sound.chained.work
        ((before.stackTemporaryAtPut 2 result).stackTemporaryAtPut 3 prev) rfl
        sound.chained.2.1 (by
          intro index above
          simp only [Activation.floor] at above
          simp only [EvaluationContext.stackTemporaryAtPut]
          rw [Function.update_of_ne (by lia), Function.update_of_ne (by lia)])
      obtain ⟨_, room, holds, rest⟩ := chained
      have ensuring : Chained
          ((before.stackTemporaryAtPut 2 result).stackTemporaryAtPut 3 prev).stack
          before.regBP before.regSP (⟨bp, .ensuring protection, pending⟩ :: outer) :=
        ⟨position, room, holds, rest⟩
      have argument : lastArgumentOf
          ((before.stackTemporaryAtPut 2 result).stackTemporaryAtPut 3 prev) bp =
            protection.ensuredClosure := holds.2.1
      have inner := send_spec valued
      have frames : prev :: protectedFrames = protection.cursor :: cursors outer :=
        sound.recorded.now
      obtain ⟨-, same⟩ := List.cons.inj frames
      have records : Recorded protectedFrames (⟨bp, .ensuring protection, pending⟩ :: outer) := by
        have begun : pending = cursors outer :=
          sound.recorded.before [] ⟨bp, .protecting protection, pending⟩ outer rfl
        rw [same, begun]
        exact sound.recorded.tail.activate _ _ rfl
      have clear : Clear protectedFrames (⟨bp, .ensuring protection, pending⟩ :: outer) :=
        .ordinary fun activation member => by
          rcases List.mem_cons.mp member with rfl | old
          · exact fun _ => Role.noConfusion
          · exact sound.clear.suspended activation old
      simp only [ActiveProcess.note, argument, if_true]
      exact ⟨ensuring.send inner (inner.codeRoom _) trivial, records.activate _ _ rfl,
        sound.accounted.run,
        clear.cons (fun _ => Role.noConfusion) fun _ role => Role.noConfusion role⟩
  · cases returned

theorem Sound.nonLocalReturn (sound : Sound process) {closure result : Word} {home : Int}
    (free : process.crossesNone (.nonLocalReturn closure result home))
    (returned : process.nonLocalReturn image closure result home = some next) :
    Sound next := by
  rcases process with ⟨before, protectedFrames, activations, count, ran⟩
  simp only [ActiveProcess.nonLocalReturn] at returned
  split at returned
  · rename_i _ bp pending outer
    simp only [Option.bind_eq_bind, Option.bind_eq_some_iff] at returned
    obtain ⟨returning, first, sending, second, checking, third, ⟨frame, answered⟩, fourth,
      returned⟩ := returned
    split at returned
    · cases returned
    · simp only [Option.bind_eq_some_iff] at returned
      obtain ⟨unwinding, fifth, same⟩ := returned
      obtain rfl := Option.some.inj same
      have outermost := send_spec first
      have middle := send_spec second
      have probe := send_spec third
      obtain ⟨-, probed⟩ := nativeStackBP_spec fourth
      have innermost := send_spec fifth
      have lowest := probe.regSP
      have back : CameBack sending (answered.popFrame.dropOperands 2) :=
        probe.cameBack probed.regBP fun index above => by
          have under := probed.kept index
          rw [EvaluationContext.push_regSP] at under
          rw [under (by lia), EvaluationContext.push_stack, if_neg (by lia)]
      have sender := (sound.chained.send outermost
        (outermost.codeRoom protectedFrames) trivial).send middle
        (middle.codeRoom protectedFrames) trivial
      have same := back.regBP
      have room := innermost.regSP
      have records := (sound.recorded.activate returning.regBP .code rfl).activate
        sending.regBP .code rfl
      have clear : Clear protectedFrames (⟨sending.regBP, .code, protectedFrames⟩ ::
          ⟨returning.regBP, .code, protectedFrames⟩ :: ⟨bp, .code, pending⟩ :: outer) :=
        ((sound.clear.cons (fun _ => Role.noConfusion) fun _ role => Role.noConfusion role :
          Clear protectedFrames _)).cons
          (fun _ => Role.noConfusion) fun _ role => Role.noConfusion role
      have beyond : ∀ frame ∈ protectedFrames, home < frame := by
        have sorted := sound.chained.cursors_sorted.1
        rw [← sound.recorded.now] at sorted
        cases protectedFrames with
        | nil => exact fun frame member => absurd member List.not_mem_nil
        | cons last others =>
          have nearest : home < last := of_decide_eq_true free
          intro frame member
          rcases List.mem_cons.mp member with rfl | old
          · exact nearest
          · exact Int.lt_trans nearest ((List.pairwise_cons.mp sorted).1 frame old)
      refine ⟨(sender.cameBack back).send innermost ?_ trivial, records.activate _ _ rfl,
        sound.accounted, clear.cons (fun _ => Role.noConfusion) fun other role => ?_⟩
      · simp only [Activation.floor]
        change unwinding.regSP = unwinding.regBP - 4 - (1 : Nat) at room
        lia
      · obtain rfl := Role.unwinding.inj role
        exact beyond
  · cases returned

/-- No ensured closure is looked for when none is in the way. -/
theorem Sound.evaluateEnsured (sound : Sound process) {callee : Callee}
    (evaluated : process.evaluateEnsured image callee = some next) : Sound next := by
  rcases process with ⟨before, frames, activations, count, ran⟩
  simp only [ActiveProcess.evaluateEnsured] at evaluated
  split at evaluated
  · rename_i _ _ bp home pending outer last protectedFrames
    split at evaluated
    · rename_i near
      exact absurd (sound.clear.active _ _ _ _ rfl last List.mem_cons_self) (by lia)
    · cases evaluated
  · cases evaluated

/-- What a non-local return leaves protects nothing. -/
theorem Sound.protections_below (sound : Sound process) {above below : List Activation}
    {left : Activation} (split : process.activations = above ++ left :: below)
    (beyond : ∀ frame ∈ process.protectedFrames, left.bp < frame) :
    protections process.activations = protections below := by
  have chained := sound.chained
  rw [split] at chained
  have idle : ∀ activation ∈ above ++ [left], activation.protection? = none := by
    intro activation member
    rcases activation with ⟨bp, role, pending⟩
    cases role with
    | protecting protection =>
      have under : bp ≤ left.bp := by
        rcases List.mem_append.mp member with past | self
        · exact Int.le_of_lt (chained.above_lt past)
        · exact Int.le_of_eq (congrArg Activation.bp (List.mem_singleton.mp self))
      have active : (⟨bp, .protecting protection, pending⟩ : Activation) ∈
          process.activations := by
        rw [split]
        rcases List.mem_append.mp member with past | self
        · exact List.mem_append_left _ past
        · exact List.mem_append_right _ (List.mem_singleton.mp self ▸ List.mem_cons_self)
      have cursor := (sound.chained.holds active).1
      have pushed : protection.cursor ∈ process.protectedFrames := by
        rw [sound.recorded.now]
        exact List.mem_map_of_mem (List.mem_filterMap.mpr ⟨_, active, rfl⟩)
      have := beyond _ pushed
      simp only at cursor
      lia
    | code | ensuring | unwinding => rfl
  rw [split, List.append_cons, protections, List.filterMap_append,
    List.filterMap_eq_nil_iff.mpr idle, List.nil_append]
  rfl

theorem Sound.returnTo (sound : Sound process) (returned : process.returnTo = some next) :
    Sound next := by
  simp only [ActiveProcess.returnTo] at returned
  split at returned
  · rename_i bp home pending outer active
    split at returned
    · cases returned
    · split at returned
      · cases returned
      · rename_i left below rest
        obtain rfl := Option.some.inj returned
        have beyond := sound.clear.active _ _ _ _ active
        obtain ⟨above, split⟩ : ∃ above, process.activations = above ++ left :: below :=
          ⟨_, by rw [← rest]; exact List.takeWhile_append_dropWhile.symm⟩
        have reached : left.bp = home := by
          have found := List.head?_dropWhile_not (fun activation => activation.bp ≠ home)
            process.activations
          rw [rest] at found
          simpa using found
        have unprotected := sound.protections_below split (by rw [reached]; exact beyond)
        have chained := sound.chained
        rw [split] at chained
        refine ⟨?_, ?_, ?_, ?_⟩
        · have lower := chained.below
          rw [reached] at lower
          show Chained process.context.stack (process.context.stack home) (home + 1 + 1) below
          rw [Int.add_assoc]
          exact lower
        · refine ⟨?_, fun past inner others split' => ?_⟩
          · rw [sound.recorded.now, cursors, unprotected, ← cursors]
          · have rebuilt : below = past ++ inner :: others := split'
            exact sound.recorded.before (above ++ left :: past) inner others
              (by rw [split, rebuilt]; simp)
        · show Accounted (numbers below) _ _
          rw [numbers, ← unprotected]
          exact sound.accounted
        · refine .ordinary fun activation member => sound.clear.suspended activation ?_
          rw [split]
          cases above with
          | nil => exact member
          | cons top above =>
            exact List.mem_append_right _ (List.mem_cons_of_mem _ member)
  · cases returned

/-- One lemma for each event, in their order. -/
theorem Sound.step (sound : Sound process) {event : Event} (free : process.crossesNone event)
    (stepped : process.step image event = some next) : Sound next := by
  cases event with
  | push object =>
    refine sound.work stepped rfl (.inr ?_) fun index above => ?_
    · rw [EvaluationContext.push_regSP]
      lia
    · rw [EvaluationContext.push_stack, if_neg (by lia)]
  | drop count =>
    simp only [ActiveProcess.step] at stepped
    split at stepped
    · rename_i room
      exact sound.work stepped rfl (.inl room) fun _ _ => rfl
    · cases stepped
  | store index object =>
    simp only [ActiveProcess.step] at stepped
    split at stepped
    · refine sound.work stepped rfl (.inr (Int.le_refl _)) fun other above => ?_
      exact Function.update_of_ne (by lia) _ _
    · cases stepped
  | jump pc => exact sound.work stepped rfl (.inr (Int.le_refl _)) fun _ _ => rfl
  | call operands callee => exact sound.call stepped
  | leave => exact sound.leave stepped
  | evaluateEnsuring aClosure ensuredClosure callee => exact sound.evaluateEnsuring stepped
  | closureReturned result callee => exact sound.closureReturned stepped
  | ensuredReturned => exact sound.ensuredReturned stepped
  | nonLocalReturn closure result home => exact sound.nonLocalReturn free stepped
  | evaluateEnsured callee => exact sound.evaluateEnsured stepped
  | returnTo => exact sound.returnTo stepped

end Steps

theorem Sound.start {context : EvaluationContext} (room : context.regSP ≤ context.regBP - 4) :
    Sound (ActiveProcess.start context) where
  chained := ⟨rfl, room, trivial, trivial⟩
  recorded := Recorded.nil.activate _ _ rfl
  accounted := ⟨.nil, fun _ member => absurd member List.not_mem_nil,
    fun _ member => absurd member List.not_mem_nil, fun _ below => absurd below (Nat.not_lt_zero _),
    fun later _ _ _ split => by simp [ActiveProcess.start] at split⟩
  clear := .ordinary fun activation member => by
    rw [List.mem_singleton.mp member]
    exact fun _ => Role.noConfusion

theorem ActiveProcess.Run.sound {image : Image} {context : EvaluationContext}
    {process : ActiveProcess} (room : context.regSP ≤ context.regBP - 4)
    (run : Run image (fun process event => process.crossesNone event) (start context) process) :
    Sound process := by
  induction run with
  | refl => exact Sound.start room
  | step before free stepped ih => exact ih.step free stepped

/-- The ensured closure of a protection is still to be evaluated: its protected frame is in
the list, and its activation on the stack. -/
def ActiveProcess.Pending (process : ActiveProcess) (number : Nat) : Prop :=
  ∃ protection ∈ protections process.activations,
    protection.number = number ∧ protection.cursor ∈ process.protectedFrames

/-- Every ensured closure is evaluated once, unless it is pending, and the innermost first. An
`evaluate:ensuring:` whose closure returns finds its own frame on top of the list. -/
structure ActiveProcess.EnsuresOnce (process : ActiveProcess) : Prop where
  once : ∀ number, number < process.entered →
    (process.Pending number ∧ (process.ran.map Prod.fst).count number = 0) ∨
      (¬ process.Pending number ∧ (process.ran.map Prod.fst).count number = 1)
  innermost : ∀ later number entered earlier,
    process.ran = later ++ (number, entered) :: earlier →
    ∀ inner, number < inner → inner < entered → inner ∈ earlier.map Prod.fst
  completes : ∀ bp protection pending outer,
    process.activations = ⟨bp, .protecting protection, pending⟩ :: outer →
    process.protectedFrames.head? = some (process.context.stackTemporaryAt 1)

/-- Whatever activation control leaves for good, the protected frames are again those there
were when it began. -/
def ActiveProcess.Restores (process next : ActiveProcess) : Prop :=
  ∀ above left, process.activations = above ++ left :: next.activations →
    next.protectedFrames = left.pending

theorem Sound.pending_iff {process : ActiveProcess} (sound : Sound process) (number : Nat) :
    process.Pending number ↔ number ∈ numbers process.activations := by
  constructor
  · rintro ⟨protection, member, rfl, -⟩
    exact List.mem_map_of_mem member
  · intro member
    obtain ⟨protection, protects, rfl⟩ := List.mem_map.mp member
    refine ⟨protection, protects, rfl, ?_⟩
    rw [sound.recorded.now]
    exact List.mem_map_of_mem protects

theorem Sound.ensuresOnce {process : ActiveProcess} (sound : Sound process) :
    process.EnsuresOnce where
  once number below := by
    have count := sound.accounted.once number below
    rw [sound.pending_iff]
    by_cases protects : number ∈ numbers process.activations
    · rw [if_pos protects] at count
      exact .inl ⟨protects, count⟩
    · rw [if_neg protects] at count
      exact .inr ⟨protects, count⟩
  innermost := sound.accounted.innermost
  completes bp protection pending outer active := by
    have chained := sound.chained
    rw [active] at chained
    obtain ⟨position, -, ⟨-, -, temporary⟩, -⟩ := chained
    rw [sound.recorded.now, active, EvaluationContext.stackTemporaryAt, position, Int.sub_sub]
    exact congrArg some temporary.symm

/-- As long as no non-local return crosses a pending protected frame, every ensured closure is
evaluated once and every activation leaves the pending ones as it found them. -/
theorem ActiveProcess.Run.ensures_once {image : Image} {context : EvaluationContext}
    {process : ActiveProcess} (room : context.regSP ≤ context.regBP - 4)
    (run : Run image (fun process event => process.crossesNone event) (start context) process) :
    process.EnsuresOnce ∧ ∀ event next, process.crossesNone event →
      process.step image event = some next → process.Restores next := by
  have sound := Run.sound room run
  refine ⟨sound.ensuresOnce, fun event next free stepped above left split => ?_⟩
  rw [(sound.step free stepped).recorded.now, sound.recorded.before above left _ split]

/-- Follow a list of events as long as a condition allows them. -/
def ActiveProcess.follow (image : Image) (allowed : ActiveProcess → Event → Bool)
    (process : ActiveProcess) (events : List Event) : Option ActiveProcess :=
  events.foldlM (fun process event =>
    if allowed process event then process.step image event else none) process

theorem ActiveProcess.Run.follow {image : Image} {allowed : ActiveProcess → Event → Bool}
    {first middle last : ActiveProcess} {events : List Event}
    (run : Run image (fun process event => allowed process event) first middle)
    (followed : middle.follow image allowed events = some last) :
    Run image (fun process event => allowed process event) first last := by
  induction events generalizing middle with
  | nil =>
    obtain rfl := Option.some.inj followed
    exact run
  | cons event events ih =>
    simp only [ActiveProcess.follow, List.foldlM_cons, Option.bind_eq_bind,
      Option.bind_eq_some_iff] at followed
    obtain ⟨next, stepped, followed⟩ := followed
    split at stepped
    · rename_i free
      exact ih (run.step free stepped) followed
    · cases stepped

section Runs

/-- An image whose objects are told apart by their numbers. -/
def smallImage : Image := ⟨1, 2, 3, 4, 5, 6, 7, 8, 9⟩

/-- A process in its first frame. -/
def firstFrame : EvaluationContext where
  regS := 0
  regM := 0
  regE := 0
  regSP := 64996
  regBP := 65000
  regPC := 0
  stack := fun _ => 0

/-- A method activated below the first frame protects a closure with an ensured one. -/
def protectedCall : List Event :=
  [.call [] ⟨20, 21, 1, 0⟩, .evaluateEnsuring 30 40 ⟨20, 31, 30, 0⟩]

/-- The protected closure returns, and then a closure returns out of the method. -/
theorem ActiveProcess.Run.ensures_once_completed :
    ∃ process : ActiveProcess, process.ran = [(0, 1)] ∧ process.activations.length = 1 ∧
      process.EnsuresOnce := by
  have computed : ((start firstFrame).follow smallImage crossesNone (protectedCall ++
      [.leave, .closureReturned 50 ⟨20, 41, 40, 0⟩, .leave, .ensuredReturned,
        .call [] ⟨20, 61, 60, 0⟩, .nonLocalReturn 60 70 64994, .returnTo])).map
      (fun process => (process.ran, process.activations.length)) = some ([(0, 1)], 1) := by
    decide +kernel
  obtain ⟨process, followed, same⟩ := Option.map_eq_some_iff.mp computed
  obtain ⟨ran, left⟩ := Prod.mk.inj same
  exact ⟨process, ran, left, (ensures_once (by decide) ((Run.refl _).follow followed)).1⟩

/-- A closure that returns out of the method while it is protected leaves without its ensured
closure: what is evaluated in place of that is a temporary of `evaluate:ensuring:`. -/
theorem ActiveProcess.Run.crossed_not_ensured :
    ¬ ∀ (image : Image) (context : EvaluationContext) (process : ActiveProcess),
      context.regSP ≤ context.regBP - 4 →
      Run image (fun _ _ => True) (start context) process → process.EnsuresOnce := by
  intro claim
  have computed : ((start firstFrame).follow smallImage (fun _ _ => true) (protectedCall ++
      [.nonLocalReturn 30 70 64994, .evaluateEnsured ⟨1, 80, 1, 0⟩, .leave, .returnTo])).map
      (fun process => (process.entered, process.ran, process.protectedFrames)) =
        some (1, [], []) := by
    decide +kernel
  obtain ⟨process, followed, same⟩ := Option.map_eq_some_iff.mp computed
  obtain ⟨entered, others⟩ := Prod.mk.inj same
  obtain ⟨ran, popped⟩ := Prod.mk.inj others
  have run := (@Run.refl smallImage _ (start firstFrame)).follow followed
  have unrestricted : Run smallImage (fun _ _ => True) (start firstFrame) process := by
    simpa using run
  rcases (claim _ _ _ (by decide) unrestricted).once 0 (by rw [entered]; decide) with
    ⟨⟨_, _, -, pending⟩, -⟩ | ⟨-, evaluated⟩
  · rw [popped] at pending
    cases pending
  · rw [ran] at evaluated
    cases evaluated

end Runs

end Egg.Process.Ensure
