import Mathlib.Data.List.Infix
import Mathlib.Logic.Relation
import Mathlib.Tactic.Common

/-! Code of nested sequences, branches and loops: where control gets, and what has been passed
on the way. -/
namespace Egg.Data.StructuredCode

/-- What is known of instructions: where control goes from a position, what they do to the
state there, and which ones are marked. -/
structure Machine (ι σ : Type) where
  next : ι → Nat → List Nat
  act : ι → Nat → σ → σ
  marked : ι → Bool

/-- The control skeleton of a piece of code; what is put `aside` may be kept as code elsewhere. -/
inductive Skeleton where
  | nothing
  | aside (inner : Skeleton) (kept : Bool)
  | step (marked : Bool)
  | halt
  | seq (first second : Skeleton)
  | guard (body : Skeleton)
  | either (first second : Skeleton)
  | loop (condition body : Skeleton)
  | again (body : Skeleton) (leaves : Bool)

namespace Skeleton

/-- Control that enters a piece of code can get to its end. -/
def completes : Skeleton → Bool
  | nothing | aside _ _ | step _ | guard _ => true
  | halt => false
  | seq first second => first.completes && second.completes
  | either first second => first.completes || second.completes
  | loop condition _ => condition.completes
  | again body leaves => body.completes && leaves

/-- Something in a piece of code is marked, whether control gets there or not. -/
def marks : Skeleton → Bool
  | nothing | aside _ _ | halt => false
  | step marked => marked
  | seq first second | either first second | loop first second => first.marks || second.marks
  | guard body | again body _ => body.marks

/-- Control that enters a piece of code can get to something marked, or behind it. -/
def passesMark : Skeleton → Bool
  | nothing | aside _ _ | halt => false
  | step marked => marked
  | seq first second => first.passesMark || first.completes && second.passesMark
  | guard body => body.marks
  | either first second => first.marks || second.passesMark || first.completes && second.marks
  | loop condition body => condition.passesMark || condition.completes && body.marks
  | again body _ => body.passesMark

/-- The pieces of code that are kept elsewhere, inner ones first. -/
def asides : Skeleton → List Skeleton
  | nothing | step _ | halt => []
  | aside inner kept => inner.asides ++ if kept then [inner] else []
  | seq first second | either first second | loop first second => first.asides ++ second.asides
  | guard body | again body _ => body.asides

/-- What control leaves behind it has been passed. -/
theorem passesMark_of_completes {skeleton : Skeleton} (completes : skeleton.completes = true)
    (marks : skeleton.marks = true) : skeleton.passesMark = true := by
  induction skeleton with
  | nothing | aside | halt => cases marks
  | step => exact marks
  | seq first second firstHypothesis secondHypothesis =>
    simp only [Skeleton.completes, Skeleton.marks, passesMark, Bool.and_eq_true,
      Bool.or_eq_true] at *
    exact marks.imp (firstHypothesis completes.1) fun marked =>
      ⟨completes.1, secondHypothesis completes.2 marked⟩
  | guard => exact marks
  | either first second firstHypothesis secondHypothesis =>
    simp only [Skeleton.completes, Skeleton.marks, passesMark, Bool.and_eq_true,
      Bool.or_eq_true] at *
    rcases marks with marked | marked
    · exact Or.inl (Or.inl marked)
    · rcases completes with through | through
      · exact Or.inr ⟨through, marked⟩
      · exact Or.inl (Or.inr (secondHypothesis through marked))
  | loop condition body conditionHypothesis =>
    simp only [Skeleton.completes, Skeleton.marks, passesMark, Bool.and_eq_true,
      Bool.or_eq_true] at *
    exact marks.imp (conditionHypothesis completes) fun marked => ⟨completes, marked⟩
  | again body leaves bodyHypothesis =>
    simp only [Skeleton.completes, Skeleton.marks, passesMark, Bool.and_eq_true] at *
    exact bodyHypothesis completes.1 marks

/-- Code that lets control through without passing a mark has none. -/
theorem unmarked_of_completes {skeleton : Skeleton} (completes : skeleton.completes = true)
    (passes : skeleton.passesMark = false) : skeleton.marks = false := by
  by_contra marked
  have passed := passesMark_of_completes completes (by simpa using marked)
  simp [passes] at passed

/-- Two skeletons let control through, and past marks, alike. -/
structure Agrees (precise rough : Skeleton) : Prop where
  completes : precise.completes = rough.completes
  marks : precise.marks = rough.marks
  passesMark : precise.passesMark = rough.passesMark

namespace Agrees

variable {first second first' second' : Skeleton}

theorem refl (skeleton : Skeleton) : skeleton.Agrees skeleton := ⟨rfl, rfl, rfl⟩

theorem trans {third : Skeleton} (left : first.Agrees second) (right : second.Agrees third) :
    first.Agrees third :=
  ⟨left.completes.trans right.completes, left.marks.trans right.marks,
    left.passesMark.trans right.passesMark⟩

theorem seq (left : first.Agrees first') (right : second.Agrees second') :
    (Skeleton.seq first second).Agrees (.seq first' second') := by
  constructor <;> simp only [Skeleton.completes, Skeleton.marks, Skeleton.passesMark,
    left.completes, left.marks, left.passesMark, right.completes, right.marks, right.passesMark]

theorem guard (inner : first.Agrees first') : (Skeleton.guard first).Agrees (.guard first') := by
  constructor <;> simp only [Skeleton.completes, Skeleton.marks, Skeleton.passesMark, inner.marks]

theorem either (left : first.Agrees first') (right : second.Agrees second') :
    (Skeleton.either first second).Agrees (.either first' second') := by
  constructor <;> simp only [Skeleton.completes, Skeleton.marks, Skeleton.passesMark,
    left.completes, left.marks, right.completes, right.marks, right.passesMark]

theorem loop (left : first.Agrees first') (right : second.Agrees second') :
    (Skeleton.loop first second).Agrees (.loop first' second') := by
  constructor <;> simp only [Skeleton.completes, Skeleton.marks, Skeleton.passesMark,
    left.completes, left.marks, left.passesMark, right.marks]

theorem again (inner : first.Agrees first') (leaves : Bool) :
    (Skeleton.again first leaves).Agrees (.again first' leaves) := by
  constructor <;> simp only [Skeleton.completes, Skeleton.marks, Skeleton.passesMark,
    inner.completes, inner.marks, inner.passesMark]

end Agrees

end Skeleton

/-- A segment stands at a position of the code. -/
def Placed {ι : Type} (code : List ι) (base : Nat) (segment : List ι) : Prop :=
  segment <+: code.drop base

namespace Placed

variable {ι : Type} {code first second : List ι} {base : Nat} {instruction : ι}

theorem whole (code : List ι) : Placed code 0 code := List.prefix_rfl

theorem append_left (placed : Placed code base (first ++ second)) : Placed code base first :=
  (List.prefix_append first second).trans placed

theorem append_right (placed : Placed code base (first ++ second)) :
    Placed code (base + first.length) second := by
  obtain ⟨rest, split⟩ := placed
  have behind : (code.drop base).drop first.length = second ++ rest := by
    rw [← split, List.append_assoc, List.drop_left]
  exact ⟨rest, by rw [← behind, List.drop_drop]⟩

theorem head (placed : Placed code base (instruction :: second)) :
    code[base]? = some instruction := by
  obtain ⟨rest, split⟩ := placed
  have first : (code.drop base)[0]? = some instruction := by rw [← split]; rfl
  rwa [List.getElem?_drop] at first

theorem tail (placed : Placed code base (instruction :: second)) :
    Placed code (base + 1) second := by
  have split : Placed code base ([instruction] ++ second) := placed
  exact split.append_right

end Placed

namespace Machine

variable {ι σ : Type} (machine : Machine ι σ)

/-- How many marked instructions stand before a position. -/
def marksBefore (code : List ι) (position : Nat) : Nat :=
  (code.take position).countP machine.marked

theorem marksBefore_mono (code : List ι) {low high : Nat} (ordered : low ≤ high) :
    machine.marksBefore code low ≤ machine.marksBefore code high :=
  (List.take_sublist_take_left ordered).countP_le

theorem marksBefore_placed {code segment : List ι} {base : Nat}
    (placed : Placed code base segment) :
    machine.marksBefore code (base + segment.length) =
      machine.marksBefore code base + segment.countP machine.marked := by
  obtain ⟨rest, split⟩ := placed
  unfold marksBefore
  rw [List.take_add, List.countP_append, ← split, List.take_left]

theorem marksBefore_succ {code : List ι} {position : Nat} {instruction : ι}
    (here : code[position]? = some instruction) :
    machine.marksBefore code (position + 1) =
      machine.marksBefore code position + (machine.marked instruction).toNat := by
  unfold marksBefore
  rw [List.take_add_one, here, List.countP_append]
  cases marked : machine.marked instruction <;> simp [marked]

/-- In a segment without marks no count changes. -/
theorem marksBefore_unmarked {code segment : List ι} {base position : Nat}
    (placed : Placed code base segment) (unmarked : segment.countP machine.marked = 0)
    (low : base ≤ position) (high : position ≤ base + segment.length) :
    machine.marksBefore code position = machine.marksBefore code base := by
  have upper := machine.marksBefore_mono code high
  have lower := machine.marksBefore_mono code low
  have whole := machine.marksBefore_placed placed
  lia

/-- One step of control, with the state carried along. -/
inductive Step (code : List ι) : Nat × σ → Nat × σ → Prop where
  | mk {position target : Nat} {state : σ} {instruction : ι}
      (here : code[position]? = some instruction)
      (target_mem : target ∈ machine.next instruction position) :
      Step code (position, state) (target, machine.act instruction position state)

abbrev Reaches (code : List ι) : Nat × σ → Nat × σ → Prop :=
  Relation.ReflTransGen (machine.Step code)

/-- An instruction that only directs control: to what, and what holds of it. -/
structure Directs (holds : Nat → ι → σ → Prop) (position marks : Nat) (state : σ)
    (instruction : ι) (targets : List Nat) : Prop where
  next : machine.next instruction position = targets
  act : machine.act instruction position state = state
  unmarked : machine.marked instruction = false
  holds : holds marks instruction state

/-- Code with a skeleton, from a position, a count of marks and a state on; `holds` is required of
each instruction with the count of marks up to it and the state before it. -/
inductive Structured (holds : Nat → ι → σ → Prop) :
    Nat → Nat → σ → σ → Skeleton → List ι → Prop where
  | nothing {base marks : Nat} {state : σ} :
      Structured holds base marks state state .nothing []
  | step {base marks : Nat} {state : σ} {instruction : ι}
      (next : machine.next instruction base = [base + 1])
      (required : holds (marks + (machine.marked instruction).toNat) instruction state) :
      Structured holds base marks state (machine.act instruction base state)
        (.step (machine.marked instruction)) [instruction]
  | halt {base marks : Nat} {state : σ} {instruction : ι}
      (directs : machine.Directs holds base marks state instruction []) :
      Structured holds base marks state state .halt [instruction]
  | seq {base marks : Nat} {state middle final : σ} {a b : Skeleton} {first second : List ι}
      (left : Structured holds base marks state middle a first)
      (right : Structured holds (base + first.length) (marks + first.countP machine.marked)
        middle final b second) :
      Structured holds base marks state final (.seq a b) (first ++ second)
  | guard {base marks : Nat} {state : σ} {a : Skeleton} {branch : ι} {body : List ι}
      (directs : machine.Directs holds base marks state branch
        [base + 1 + body.length, base + 1])
      (inner : Structured holds (base + 1) marks state state a body) :
      Structured holds base marks state state (.guard a) (branch :: body)
  | either {base marks : Nat} {state final : σ} {a b : Skeleton} {branch jump : ι}
      {first second : List ι}
      (directs : machine.Directs holds base marks state branch
        [base + 1 + first.length + 1, base + 1])
      (left : Structured holds (base + 1) marks state final a first)
      (leaves : machine.Directs holds (base + 1 + first.length)
        (marks + first.countP machine.marked) final jump
        [base + 1 + first.length + 1 + second.length])
      (right : Structured holds (base + 1 + first.length + 1)
        (marks + first.countP machine.marked) state final b second) :
      Structured holds base marks state final (.either a b)
        (branch :: (first ++ jump :: second))
  | loop {base marks : Nat} {state : σ} {a b : Skeleton} {branch jump : ι}
      {condition body : List ι}
      (left : Structured holds base marks state state a condition)
      (directs : machine.Directs holds (base + condition.length)
        (marks + condition.countP machine.marked) state branch
        [base + condition.length + 1 + body.length + 1, base + condition.length + 1])
      (right : Structured holds (base + condition.length + 1)
        (marks + condition.countP machine.marked) state state b body)
      (returns : machine.Directs holds (base + condition.length + 1 + body.length)
        (marks + condition.countP machine.marked + body.countP machine.marked) state jump
        [base]) :
      Structured holds base marks state state (.loop a b)
        (condition ++ branch :: (body ++ [jump]))
  | again {base marks : Nat} {state : σ} {a : Skeleton} {leaves : Bool} {branch : ι}
      {body : List ι}
      (inner : Structured holds base marks state state a body)
      (directs : machine.Directs holds (base + body.length)
        (marks + body.countP machine.marked) state branch
        (base :: if leaves then [base + body.length + 1] else [])) :
      Structured holds base marks state state (.again a leaves) (body ++ [branch])

/-- Marked code and code without marks are told apart by the skeleton. -/
theorem Structured.marks {machine : Machine ι σ} {holds : Nat → ι → σ → Prop}
    {base marks : Nat} {state final : σ} {skeleton : Skeleton} {segment : List ι}
    (structured : machine.Structured holds base marks state final skeleton segment) :
    0 < segment.countP machine.marked ↔ skeleton.marks = true := by
  induction structured with
  | nothing => simp [Skeleton.marks]
  | @step _ _ _ instruction =>
    cases marked : machine.marked instruction <;> simp [Skeleton.marks, marked]
  | halt directs => simp [Skeleton.marks, directs.unmarked]
  | seq _ _ firstHypothesis secondHypothesis =>
    simp only [Skeleton.marks, List.countP_append, Bool.or_eq_true, ← firstHypothesis,
      ← secondHypothesis]
    lia
  | guard directs _ bodyHypothesis =>
    simp only [Skeleton.marks, ← bodyHypothesis, List.countP_cons, directs.unmarked]
    simp
  | either directs _ leaves _ firstHypothesis secondHypothesis =>
    simp only [Skeleton.marks, Bool.or_eq_true, ← firstHypothesis, ← secondHypothesis,
      List.countP_cons, List.countP_append, directs.unmarked, leaves.unmarked]
    simp only [Bool.false_eq_true, if_false]
    lia
  | loop _ directs _ returns conditionHypothesis bodyHypothesis =>
    simp only [Skeleton.marks, Bool.or_eq_true, ← conditionHypothesis, ← bodyHypothesis,
      List.countP_cons, List.countP_append, List.countP_nil, directs.unmarked, returns.unmarked]
    simp only [Bool.false_eq_true, if_false]
    lia
  | again _ directs bodyHypothesis =>
    simp only [Skeleton.marks, ← bodyHypothesis, List.countP_append, List.countP_cons,
      List.countP_nil, directs.unmarked]
    simp

theorem Structured.unmarked {machine : Machine ι σ} {holds : Nat → ι → σ → Prop}
    {base marks : Nat} {state final : σ} {skeleton : Skeleton} {segment : List ι}
    (structured : machine.Structured holds base marks state final skeleton segment)
    (unmarked : skeleton.marks = false) : segment.countP machine.marked = 0 := by
  have marked := structured.marks
  rw [unmarked] at marked
  simpa using marked

/-- Control that comes to a position is inside or leaves at the end. -/
def Arrives (within : Nat → σ → Prop) (finish : Nat) (final : σ) (completes : Bool)
    (position : Nat) (state : σ) : Prop :=
  within position state ∨ position = finish ∧ state = final ∧ completes = true

/-- What control that enters a piece of code comes across there. -/
structure Covers (machine : Machine ι σ) (holds : Nat → ι → σ → Prop) (code : List ι)
    (base finish : Nat) (state final : σ) (skeleton : Skeleton) (within : Nat → σ → Prop) :
    Prop where
  entry : Arrives within finish final skeleton.completes base state
  bounded : ∀ position current, within position current → base ≤ position ∧ position < finish
  next : ∀ position current target following, within position current →
    machine.Step code (position, current) (target, following) →
    Arrives within finish final skeleton.completes target following
  holds : ∀ position current, within position current → ∃ instruction,
    code[position]? = some instruction ∧
      holds (machine.marksBefore code (position + 1)) instruction current
  unmarked : skeleton.passesMark = false → ∀ position current, within position current →
    machine.marksBefore code (position + 1) = machine.marksBefore code base

section Control

variable {machine : Machine ι σ} {holds : Nat → ι → σ → Prop} {code : List ι}

theorem Step.inv {position target : Nat} {state following : σ} {instruction : ι}
    (here : code[position]? = some instruction)
    (step : machine.Step code (position, state) (target, following)) :
    target ∈ machine.next instruction position ∧
      following = machine.act instruction position state := by
  cases step with
  | mk found target_mem =>
    have same := Option.some.inj (found.symm.trans here)
    subst same
    exact ⟨target_mem, rfl⟩

namespace Directs

variable {position marks : Nat} {state : σ} {instruction : ι} {targets : List Nat}

theorem stepped (directs : machine.Directs holds position marks state instruction targets)
    (here : code[position]? = some instruction) {target : Nat} {following : σ}
    (step : machine.Step code (position, state) (target, following)) :
    target ∈ targets ∧ following = state := by
  obtain ⟨target_mem, rfl⟩ := step.inv here
  exact ⟨directs.next ▸ target_mem, directs.act⟩

theorem takes (directs : machine.Directs holds position marks state instruction targets)
    (here : code[position]? = some instruction) {target : Nat} (target_mem : target ∈ targets) :
    machine.Reaches code (position, state) (target, state) := by
  have step : machine.Step code (position, state) (target, _) :=
    Step.mk here (directs.next ▸ target_mem)
  rw [directs.act] at step
  exact Relation.ReflTransGen.single step

theorem counted (directs : machine.Directs holds position marks state instruction targets)
    (here : code[position]? = some instruction) :
    machine.marksBefore code (position + 1) = machine.marksBefore code position := by
  rw [machine.marksBefore_succ here, directs.unmarked]
  rfl

end Directs

/-- Control that arrives at the end of a piece goes on with what comes next. -/
theorem Arrives.imp {within outside : Nat → σ → Prop} {finish last position : Nat}
    {final end_ state : σ} {completes ends : Bool}
    (arrives : Arrives within finish final completes position state)
    (inside : within position state → outside position state)
    (after : completes = true → Arrives outside last end_ ends finish final) :
    Arrives outside last end_ ends position state := by
  rcases arrives with here | ⟨rfl, rfl, through⟩
  · exact Or.inl (inside here)
  · exact after through

/-- Nothing is passed in a piece of code that is empty. -/
theorem Covers.empty {base : Nat} {state : σ} {skeleton : Skeleton}
    (completes : skeleton.completes = true) :
    machine.Covers holds code base base state state skeleton fun _ _ => False where
  entry := Or.inr ⟨rfl, rfl, completes⟩
  bounded _ _ inside := inside.elim
  next _ _ _ _ inside := inside.elim
  holds _ _ inside := inside.elim
  unmarked _ _ _ inside := inside.elim

/-- An instruction by itself. -/
theorem Covers.single {base : Nat} {state final : σ} {skeleton : Skeleton} {instruction : ι}
    (here : code[base]? = some instruction)
    (leads : ∀ target ∈ machine.next instruction base, target = base + 1 ∧
      machine.act instruction base state = final ∧ skeleton.completes = true)
    (required : holds (machine.marksBefore code (base + 1)) instruction state)
    (unmarked : skeleton.passesMark = false → machine.marked instruction = false) :
    machine.Covers holds code base (base + 1) state final skeleton
      fun position current => position = base ∧ current = state where
  entry := Or.inl ⟨rfl, rfl⟩
  bounded position current inside := by lia
  next position current target following inside step := by
    obtain ⟨rfl, rfl⟩ := inside
    obtain ⟨target_mem, rfl⟩ := step.inv here
    obtain ⟨rfl, rfl, completes⟩ := leads target target_mem
    exact Or.inr ⟨rfl, rfl, completes⟩
  holds position current inside := by
    obtain ⟨rfl, rfl⟩ := inside
    exact ⟨instruction, here, required⟩
  unmarked passes position current inside := by
    obtain ⟨rfl, rfl⟩ := inside
    rw [machine.marksBefore_succ here, unmarked passes]
    rfl

theorem Covers.seq {base between finish : Nat} {state middle final : σ} {a b : Skeleton}
    {inFirst inSecond : Nat → σ → Prop}
    (left : machine.Covers holds code base between state middle a inFirst)
    (right : machine.Covers holds code between finish middle final b inSecond)
    (first_le : base ≤ between) (second_le : between ≤ finish)
    (counted : a.marks = false → machine.marksBefore code between = machine.marksBefore code base) :
    machine.Covers holds code base finish state final (.seq a b) fun position current =>
      inFirst position current ∨ a.completes = true ∧ inSecond position current := by
  have enter : a.completes = true → Arrives (fun position current =>
      inFirst position current ∨ a.completes = true ∧ inSecond position current) finish final
      (Skeleton.seq a b).completes between middle := by
    intro through
    apply right.entry.imp
    · exact fun inside => Or.inr ⟨through, inside⟩
    · exact fun ends => Or.inr ⟨rfl, rfl, by simp [Skeleton.completes, through, ends]⟩
  refine ⟨left.entry.imp Or.inl enter, ?_, ?_, ?_, ?_⟩
  · rintro position current (inside | ⟨-, inside⟩)
    · have := left.bounded position current inside
      lia
    · have := right.bounded position current inside
      lia
  · rintro position current target following (inside | ⟨through, inside⟩) step
    · exact (left.next position current target following inside step).imp Or.inl enter
    · apply (right.next position current target following inside step).imp
      · exact fun inside => Or.inr ⟨through, inside⟩
      · exact fun ends => Or.inr ⟨rfl, rfl, by simp [Skeleton.completes, through, ends]⟩
  · rintro position current (inside | ⟨-, inside⟩)
    · exact left.holds position current inside
    · exact right.holds position current inside
  · intro passes position current inside
    simp only [Skeleton.passesMark, Bool.or_eq_false_iff, Bool.and_eq_false_iff] at passes
    rcases inside with inside | ⟨through, inside⟩
    · exact left.unmarked passes.1 position current inside
    · have unmarked := Skeleton.unmarked_of_completes through passes.1
      rw [← counted unmarked]
      exact right.unmarked (passes.2.resolve_left (by simp [through])) position current inside

theorem Covers.guard {base marks : Nat} {state : σ} {a : Skeleton} {branch : ι} {body : List ι}
    {within : Nat → σ → Prop} (placed : Placed code base (branch :: body))
    (directs : machine.Directs holds base marks state branch [base + 1 + body.length, base + 1])
    (counted : machine.marksBefore code base = marks)
    (inner : machine.Covers holds code (base + 1) (base + 1 + body.length) state state a within)
    (unmarked : a.marks = false → body.countP machine.marked = 0) :
    machine.Covers holds code base (base + 1 + body.length) state state (.guard a)
      fun position current => position = base ∧ current = state ∨ within position current := by
  have start := directs.counted placed.head
  refine ⟨Or.inl (Or.inl ⟨rfl, rfl⟩), ?_, ?_, ?_, ?_⟩
  · rintro position current (⟨rfl, -⟩ | inside)
    · lia
    · have := inner.bounded position current inside
      lia
  · rintro position current target following (⟨rfl, rfl⟩ | inside) step
    · obtain ⟨target_mem, rfl⟩ := directs.stepped placed.head step
      rcases List.mem_pair.mp target_mem with rfl | rfl
      · exact Or.inr ⟨rfl, rfl, rfl⟩
      · exact inner.entry.imp Or.inr fun _ => Or.inr ⟨rfl, rfl, rfl⟩
    · apply (inner.next position current target following inside step).imp Or.inr
      exact fun _ => Or.inr ⟨rfl, rfl, rfl⟩
  · rintro position current (⟨rfl, rfl⟩ | inside)
    · exact ⟨branch, placed.head, by rw [start, counted]; exact directs.holds⟩
    · exact inner.holds position current inside
  · rintro passes position current (⟨rfl, rfl⟩ | inside)
    · exact start
    · have := inner.bounded position current inside
      rw [machine.marksBefore_unmarked placed.tail (unmarked passes) (by lia) (by lia), start]

theorem Covers.either {base marks : Nat} {state final : σ} {a b : Skeleton} {branch jump : ι}
    {first second : List ι} {inFirst inSecond : Nat → σ → Prop}
    (placed : Placed code base (branch :: (first ++ jump :: second)))
    (directs : machine.Directs holds base marks state branch
      [base + 1 + first.length + 1, base + 1])
    (leaves : machine.Directs holds (base + 1 + first.length)
      (marks + first.countP machine.marked) final jump
      [base + 1 + first.length + 1 + second.length])
    (counted : machine.marksBefore code base = marks)
    (left : machine.Covers holds code (base + 1) (base + 1 + first.length) state final a inFirst)
    (right : machine.Covers holds code (base + 1 + first.length + 1)
      (base + 1 + first.length + 1 + second.length) state final b inSecond)
    (unmarkedFirst : a.marks = false → first.countP machine.marked = 0) :
    machine.Covers holds code base (base + 1 + first.length + 1 + second.length) state final
      (.either a b) fun position current => position = base ∧ current = state ∨
        inFirst position current ∨
        (position = base + 1 + first.length ∧ current = final ∧ a.completes = true) ∨
        inSecond position current := by
  have start := directs.counted placed.head
  have here : code[base + 1 + first.length]? = some jump := placed.tail.append_right.head
  have middle := machine.marksBefore_placed placed.tail.append_left
  have behind := leaves.counted here
  refine ⟨Or.inl (Or.inl ⟨rfl, rfl⟩), ?_, ?_, ?_, ?_⟩
  · rintro position current (⟨rfl, -⟩ | inside | ⟨rfl, -⟩ | inside)
    · lia
    · have := left.bounded position current inside
      lia
    · lia
    · have := right.bounded position current inside
      lia
  · rintro position current target following (⟨rfl, rfl⟩ | inside | ⟨rfl, rfl, through⟩ | inside)
      step
    · obtain ⟨target_mem, rfl⟩ := directs.stepped placed.head step
      rcases List.mem_pair.mp target_mem with rfl | rfl
      · apply right.entry.imp
        · exact fun inside => Or.inr (Or.inr (Or.inr inside))
        · exact fun ends => Or.inr ⟨rfl, rfl, by simp [Skeleton.completes, ends]⟩
      · apply left.entry.imp
        · exact fun inside => Or.inr (Or.inl inside)
        · exact fun through => Or.inl (Or.inr (Or.inr (Or.inl ⟨rfl, rfl, through⟩)))
    · apply (left.next position current target following inside step).imp
      · exact fun inside => Or.inr (Or.inl inside)
      · exact fun through => Or.inl (Or.inr (Or.inr (Or.inl ⟨rfl, rfl, through⟩)))
    · obtain ⟨target_mem, rfl⟩ := leaves.stepped here step
      obtain rfl := List.mem_singleton.mp target_mem
      exact Or.inr ⟨rfl, rfl, by simp [Skeleton.completes, through]⟩
    · apply (right.next position current target following inside step).imp
      · exact fun inside => Or.inr (Or.inr (Or.inr inside))
      · exact fun ends => Or.inr ⟨rfl, rfl, by simp [Skeleton.completes, ends]⟩
  · rintro position current (⟨rfl, rfl⟩ | inside | ⟨rfl, rfl, -⟩ | inside)
    · exact ⟨branch, placed.head, by rw [start, counted]; exact directs.holds⟩
    · exact left.holds position current inside
    · exact ⟨jump, here, by rw [behind, middle, start, counted]; exact leaves.holds⟩
    · exact right.holds position current inside
  · intro passes position current inside
    simp only [Skeleton.passesMark, Bool.or_eq_false_iff, Bool.and_eq_false_iff] at passes
    obtain ⟨⟨firstUnmarked, rightPasses⟩, -⟩ := passes
    have clear := unmarkedFirst firstUnmarked
    rcases inside with ⟨rfl, rfl⟩ | inside | ⟨rfl, rfl, -⟩ | inside
    · exact start
    · have := left.bounded position current inside
      rw [machine.marksBefore_unmarked placed.tail.append_left clear (by lia) (by lia), start]
    · rw [behind, middle, clear, start]
      rfl
    · rw [right.unmarked rightPasses position current inside, behind, middle, clear, start]
      rfl

theorem Covers.loop {base marks : Nat} {state : σ} {a b : Skeleton} {branch jump : ι}
    {condition body : List ι} {inCondition inBody : Nat → σ → Prop}
    (placed : Placed code base (condition ++ branch :: (body ++ [jump])))
    (directs : machine.Directs holds (base + condition.length)
      (marks + condition.countP machine.marked) state branch
      [base + condition.length + 1 + body.length + 1, base + condition.length + 1])
    (returns : machine.Directs holds (base + condition.length + 1 + body.length)
      (marks + condition.countP machine.marked + body.countP machine.marked) state jump [base])
    (counted : machine.marksBefore code base = marks)
    (left : machine.Covers holds code base (base + condition.length) state state a inCondition)
    (right : machine.Covers holds code (base + condition.length + 1)
      (base + condition.length + 1 + body.length) state state b inBody)
    (unmarkedCondition : a.marks = false → condition.countP machine.marked = 0)
    (unmarkedBody : b.marks = false → body.countP machine.marked = 0) :
    machine.Covers holds code base (base + condition.length + 1 + body.length + 1) state state
      (.loop a b) fun position current => inCondition position current ∨ a.completes = true ∧
        (position = base + condition.length ∧ current = state ∨ inBody position current ∨
          position = base + condition.length + 1 + body.length ∧ current = state) := by
  have atBranch : code[base + condition.length]? = some branch := placed.append_right.head
  have atJump : code[base + condition.length + 1 + body.length]? = some jump :=
    placed.append_right.tail.append_right.head
  have middle := machine.marksBefore_placed placed.append_left
  have behind := directs.counted atBranch
  have last := machine.marksBefore_placed placed.append_right.tail.append_left
  have after := returns.counted atJump
  have enter : Arrives (fun position current => inCondition position current ∨
      a.completes = true ∧ (position = base + condition.length ∧ current = state ∨
        inBody position current ∨
        position = base + condition.length + 1 + body.length ∧ current = state))
      (base + condition.length + 1 + body.length + 1) state (Skeleton.loop a b).completes
      base state :=
    left.entry.imp Or.inl fun through => Or.inl (Or.inr ⟨through, Or.inl ⟨rfl, rfl⟩⟩)
  refine ⟨enter, ?_, ?_, ?_, ?_⟩
  · rintro position current (inside | ⟨-, ⟨rfl, -⟩ | inside | ⟨rfl, -⟩⟩)
    · have := left.bounded position current inside
      lia
    · lia
    · have := right.bounded position current inside
      lia
    · lia
  · rintro position current target following
      (inside | ⟨through, ⟨rfl, rfl⟩ | inside | ⟨rfl, rfl⟩⟩) step
    · apply (left.next position current target following inside step).imp Or.inl
      exact fun through => Or.inl (Or.inr ⟨through, Or.inl ⟨rfl, rfl⟩⟩)
    · obtain ⟨target_mem, rfl⟩ := directs.stepped atBranch step
      rcases List.mem_pair.mp target_mem with rfl | rfl
      · exact Or.inr ⟨rfl, rfl, through⟩
      · apply right.entry.imp
        · exact fun inside => Or.inr ⟨through, Or.inr (Or.inl inside)⟩
        · exact fun _ => Or.inl (Or.inr ⟨through, Or.inr (Or.inr ⟨rfl, rfl⟩)⟩)
    · apply (right.next position current target following inside step).imp
      · exact fun inside => Or.inr ⟨through, Or.inr (Or.inl inside)⟩
      · exact fun _ => Or.inl (Or.inr ⟨through, Or.inr (Or.inr ⟨rfl, rfl⟩)⟩)
    · obtain ⟨target_mem, rfl⟩ := returns.stepped atJump step
      obtain rfl := List.mem_singleton.mp target_mem
      exact enter
  · rintro position current (inside | ⟨-, ⟨rfl, rfl⟩ | inside | ⟨rfl, rfl⟩⟩)
    · exact left.holds position current inside
    · exact ⟨branch, atBranch, by rw [behind, middle, counted]; exact directs.holds⟩
    · exact right.holds position current inside
    · exact ⟨jump, atJump, by
        rw [after, last, behind, middle, counted]; exact returns.holds⟩
  · intro passes position current inside
    simp only [Skeleton.passesMark, Bool.or_eq_false_iff, Bool.and_eq_false_iff] at passes
    rcases inside with inside | ⟨through, inside⟩
    · exact left.unmarked passes.1 position current inside
    · have noneFirst :=
        unmarkedCondition (Skeleton.unmarked_of_completes through passes.1)
      have noneBody := unmarkedBody (passes.2.resolve_left (by simp [through]))
      rcases inside with ⟨rfl, rfl⟩ | inside | ⟨rfl, rfl⟩
      · rw [behind, middle, noneFirst]
        rfl
      · have := right.bounded position current inside
        rw [machine.marksBefore_unmarked placed.append_right.tail.append_left noneBody
          (by lia) (by lia), behind, middle, noneFirst]
        rfl
      · rw [after, last, behind, middle, noneFirst, noneBody]
        rfl

theorem Covers.again {base marks : Nat} {state : σ} {a : Skeleton} {leaves : Bool} {branch : ι}
    {body : List ι} {within : Nat → σ → Prop} (placed : Placed code base (body ++ [branch]))
    (directs : machine.Directs holds (base + body.length)
      (marks + body.countP machine.marked) state branch
      (base :: if leaves then [base + body.length + 1] else []))
    (counted : machine.marksBefore code base = marks)
    (inner : machine.Covers holds code base (base + body.length) state state a within)
    (unmarked : a.marks = false → body.countP machine.marked = 0) :
    machine.Covers holds code base (base + body.length + 1) state state (.again a leaves)
      fun position current => within position current ∨
        a.completes = true ∧ position = base + body.length ∧ current = state := by
  have here : code[base + body.length]? = some branch := placed.append_right.head
  have middle := machine.marksBefore_placed placed.append_left
  have behind := directs.counted here
  have enter : Arrives (fun position current => within position current ∨
      a.completes = true ∧ position = base + body.length ∧ current = state)
      (base + body.length + 1) state (Skeleton.again a leaves).completes base state :=
    inner.entry.imp Or.inl fun through => Or.inl (Or.inr ⟨through, rfl, rfl⟩)
  refine ⟨enter, ?_, ?_, ?_, ?_⟩
  · rintro position current (inside | ⟨-, rfl, -⟩)
    · have := inner.bounded position current inside
      lia
    · lia
  · rintro position current target following (inside | ⟨through, rfl, rfl⟩) step
    · apply (inner.next position current target following inside step).imp Or.inl
      exact fun through => Or.inl (Or.inr ⟨through, rfl, rfl⟩)
    · obtain ⟨target_mem, rfl⟩ := directs.stepped here step
      rcases List.mem_cons.mp target_mem with rfl | leaving
      · exact enter
      · cases leaves with
        | false => cases leaving
        | true =>
          obtain rfl := List.mem_singleton.mp leaving
          exact Or.inr ⟨rfl, rfl, by simp [Skeleton.completes, through]⟩
  · rintro position current (inside | ⟨-, rfl, rfl⟩)
    · exact inner.holds position current inside
    · exact ⟨branch, here, by rw [behind, middle, counted]; exact directs.holds⟩
  · rintro passes position current (inside | ⟨through, rfl, rfl⟩)
    · exact inner.unmarked passes position current inside
    · have clear := unmarked (Skeleton.unmarked_of_completes through passes)
      rw [behind, middle, clear]
      rfl

/-- What control comes across in structured code. -/
theorem Structured.covers {base marks : Nat} {state final : σ} {skeleton : Skeleton}
    {segment : List ι}
    (structured : machine.Structured holds base marks state final skeleton segment)
    (placed : Placed code base segment) (counted : machine.marksBefore code base = marks) :
    ∃ within, machine.Covers holds code base (base + segment.length) state final skeleton
      within := by
  induction structured with
  | nothing => exact ⟨_, Covers.empty rfl⟩
  | @step base marks state instruction next required =>
    refine ⟨_, Covers.single placed.head ?_ ?_ id⟩
    · intro target target_mem
      rw [next] at target_mem
      exact ⟨List.mem_singleton.mp target_mem, rfl, rfl⟩
    · rw [machine.marksBefore_succ placed.head, counted]
      exact required
  | @halt base marks state instruction directs =>
    refine ⟨_, Covers.single placed.head ?_ ?_ fun _ => directs.unmarked⟩
    · intro target target_mem
      rw [directs.next] at target_mem
      cases target_mem
    · rw [directs.counted placed.head, counted]
      exact directs.holds
  | @seq base marks state middle final a b first second left right leftHypothesis
      rightHypothesis =>
    have between := machine.marksBefore_placed placed.append_left
    obtain ⟨_, coversLeft⟩ := leftHypothesis placed.append_left counted
    obtain ⟨_, coversRight⟩ := rightHypothesis placed.append_right (by rw [between, counted])
    rw [List.length_append, ← Nat.add_assoc]
    refine ⟨_, Covers.seq coversLeft coversRight (by lia) (by lia) ?_⟩
    intro unmarked
    have clear := left.unmarked unmarked
    lia
  | @guard base marks state a branch body directs inner bodyHypothesis =>
    have start := directs.counted placed.head
    obtain ⟨_, covers⟩ := bodyHypothesis placed.tail (by rw [start, counted])
    rw [List.length_cons, Nat.add_comm body.length, ← Nat.add_assoc]
    exact ⟨_, Covers.guard placed directs counted covers inner.unmarked⟩
  | @either base marks state final a b branch jump first second directs left leaves right
      leftHypothesis rightHypothesis =>
    have start := directs.counted placed.head
    have middle := machine.marksBefore_placed placed.tail.append_left
    have behind := leaves.counted placed.tail.append_right.head
    obtain ⟨_, coversLeft⟩ := leftHypothesis placed.tail.append_left (by rw [start, counted])
    obtain ⟨_, coversRight⟩ := rightHypothesis placed.tail.append_right.tail
      (by rw [behind, middle, start, counted])
    have length : base + (branch :: (first ++ jump :: second)).length =
        base + 1 + first.length + 1 + second.length := by
      simp only [List.length_cons, List.length_append]
      lia
    rw [length]
    exact ⟨_, Covers.either placed directs leaves counted coversLeft coversRight left.unmarked⟩
  | @loop base marks state a b branch jump condition body left directs right returns
      conditionHypothesis bodyHypothesis =>
    have middle := machine.marksBefore_placed placed.append_left
    have behind := directs.counted placed.append_right.head
    obtain ⟨_, coversLeft⟩ := conditionHypothesis placed.append_left counted
    obtain ⟨_, coversRight⟩ := bodyHypothesis placed.append_right.tail.append_left
      (by rw [behind, middle, counted])
    have length : base + (condition ++ branch :: (body ++ [jump])).length =
        base + condition.length + 1 + body.length + 1 := by
      simp only [List.length_cons, List.length_append, List.length_nil]
      lia
    rw [length]
    exact ⟨_, Covers.loop placed directs returns counted coversLeft coversRight left.unmarked
      right.unmarked⟩
  | @again base marks state a leaves branch body inner directs bodyHypothesis =>
    obtain ⟨_, covers⟩ := bodyHypothesis placed.append_left counted
    rw [List.length_append, ← Nat.add_assoc]
    exact ⟨_, Covers.again placed directs counted covers inner.unmarked⟩

/-- Control gets to the end of structured code whose skeleton says so. -/
theorem Structured.reaches_end {base marks : Nat} {state final : σ} {skeleton : Skeleton}
    {segment : List ι}
    (structured : machine.Structured holds base marks state final skeleton segment)
    (placed : Placed code base segment) (completes : skeleton.completes = true) :
    machine.Reaches code (base, state) (base + segment.length, final) := by
  induction structured with
  | nothing => exact Relation.ReflTransGen.refl
  | step next required =>
    apply Relation.ReflTransGen.single
    exact Step.mk placed.head (by rw [next]; exact List.mem_singleton.mpr rfl)
  | halt => cases completes
  | seq left right leftHypothesis rightHypothesis =>
    simp only [Skeleton.completes, Bool.and_eq_true] at completes
    rw [List.length_append, ← Nat.add_assoc]
    exact (leftHypothesis placed.append_left completes.1).trans
      (rightHypothesis placed.append_right completes.2)
  | @guard base marks state a branch body directs =>
    rw [List.length_cons, Nat.add_comm body.length, ← Nat.add_assoc]
    exact directs.takes placed.head (by simp)
  | @either base marks state final a b branch jump first second directs left leaves right
      leftHypothesis rightHypothesis =>
    have length : base + (branch :: (first ++ jump :: second)).length =
        base + 1 + first.length + 1 + second.length := by
      simp only [List.length_cons, List.length_append]
      lia
    simp only [Skeleton.completes, Bool.or_eq_true] at completes
    rw [length]
    rcases completes with through | through
    · have enter := directs.takes placed.head (List.mem_pair.mpr (Or.inr rfl))
      have leave := leaves.takes placed.tail.append_right.head (List.mem_singleton.mpr rfl)
      exact (enter.trans (leftHypothesis placed.tail.append_left through)).trans leave
    · have enter := directs.takes placed.head (List.mem_pair.mpr (Or.inl rfl))
      exact enter.trans (rightHypothesis placed.tail.append_right.tail through)
  | @loop base marks state a b branch jump condition body left directs right returns
      conditionHypothesis =>
    have length : base + (condition ++ branch :: (body ++ [jump])).length =
        base + condition.length + 1 + body.length + 1 := by
      simp only [List.length_cons, List.length_append, List.length_nil]
      lia
    rw [length]
    have leave := directs.takes placed.append_right.head (List.mem_pair.mpr (Or.inl rfl))
    exact (conditionHypothesis placed.append_left completes).trans leave
  | @again base marks state a leaves branch body inner directs bodyHypothesis =>
    simp only [Skeleton.completes, Bool.and_eq_true] at completes
    obtain ⟨through, rfl⟩ := completes
    rw [List.length_append, ← Nat.add_assoc]
    have leave := directs.takes placed.append_right.head (by simp : base + body.length + 1 ∈ _)
    exact (bodyHypothesis placed.append_left through).trans leave

/-- Control gets to something marked, or behind it, where the skeleton says so. -/
theorem Structured.reaches_mark {base marks : Nat} {state final : σ} {skeleton : Skeleton}
    {segment : List ι}
    (structured : machine.Structured holds base marks state final skeleton segment)
    (placed : Placed code base segment) (passes : skeleton.passesMark = true) :
    ∃ position current, machine.Reaches code (base, state) (position, current) ∧
      position ≤ base + segment.length ∧
      machine.marksBefore code base < machine.marksBefore code (position + 1) := by
  induction structured with
  | nothing | halt => cases passes
  | @step base marks state instruction =>
    refine ⟨base, state, Relation.ReflTransGen.refl, by lia, ?_⟩
    have marked : machine.marked _ = true := passes
    rw [machine.marksBefore_succ placed.head, marked]
    exact Nat.lt_succ_self _
  | @seq base marks state middle final a b first second left right leftHypothesis
      rightHypothesis =>
    simp only [Skeleton.passesMark, Bool.or_eq_true, Bool.and_eq_true] at passes
    rw [List.length_append]
    rcases passes with passes | ⟨through, passes⟩
    · obtain ⟨position, current, reaches, bounded, passed⟩ :=
        leftHypothesis placed.append_left passes
      exact ⟨position, current, reaches, by lia, passed⟩
    · obtain ⟨position, current, reaches, bounded, passed⟩ :=
        rightHypothesis placed.append_right passes
      have ordered := machine.marksBefore_mono code (Nat.le_add_right base first.length)
      exact ⟨position, current, (left.reaches_end placed.append_left through).trans reaches,
        by lia, by lia⟩
  | @guard base marks state a branch body directs inner =>
    have marked := inner.marks.mpr passes
    have counted := machine.marksBefore_placed placed.tail
    have start := directs.counted placed.head
    have ordered := machine.marksBefore_mono code
      (Nat.le_add_right (base + 1 + body.length) 1)
    refine ⟨base + 1 + body.length, state, directs.takes placed.head (by simp), ?_, by lia⟩
    rw [List.length_cons]
    lia
  | @either base marks state final a b branch jump first second directs left leaves right
      leftHypothesis rightHypothesis =>
    have start := directs.counted placed.head
    have middle := machine.marksBefore_placed placed.tail.append_left
    have behind := leaves.counted placed.tail.append_right.head
    have last := machine.marksBefore_placed placed.tail.append_right.tail
    have other := directs.takes placed.head (List.mem_pair.mpr (Or.inl rfl))
    simp only [Skeleton.passesMark, Bool.or_eq_true, Bool.and_eq_true] at passes
    simp only [List.length_cons, List.length_append]
    rcases passes with (marked | passes) | ⟨through, marked⟩
    · have positive := left.marks.mpr marked
      have ordered := machine.marksBefore_mono code
        (Nat.le_add_right (base + 1 + first.length + 1) 1)
      exact ⟨base + 1 + first.length + 1, state, other, by lia, by lia⟩
    · obtain ⟨position, current, reaches, bounded, passed⟩ :=
        rightHypothesis placed.tail.append_right.tail passes
      exact ⟨position, current, other.trans reaches, by lia, by lia⟩
    · have positive := right.marks.mpr marked
      have ordered := machine.marksBefore_mono code
        (Nat.le_add_right (base + 1 + first.length + 1 + second.length) 1)
      have enter := directs.takes placed.head (List.mem_pair.mpr (Or.inr rfl))
      have leave := leaves.takes placed.tail.append_right.head (List.mem_singleton.mpr rfl)
      have through := left.reaches_end placed.tail.append_left through
      exact ⟨_, final, (enter.trans through).trans leave, by lia, by lia⟩
  | @loop base marks state a b branch jump condition body left directs right returns
      conditionHypothesis =>
    simp only [Skeleton.passesMark, Bool.or_eq_true, Bool.and_eq_true] at passes
    simp only [List.length_cons, List.length_append, List.length_nil]
    rcases passes with passes | ⟨through, marked⟩
    · obtain ⟨position, current, reaches, bounded, passed⟩ :=
        conditionHypothesis placed.append_left passes
      exact ⟨position, current, reaches, by lia, passed⟩
    · have positive := right.marks.mpr marked
      have middle := machine.marksBefore_placed placed.append_left
      have behind := directs.counted placed.append_right.head
      have last := machine.marksBefore_placed placed.append_right.tail.append_left
      have ordered : machine.marksBefore code (base + condition.length + 1 + body.length) ≤
          machine.marksBefore code (base + condition.length + 1 + body.length + 1 + 1) :=
        machine.marksBefore_mono code (by lia)
      have leave := directs.takes placed.append_right.head (List.mem_pair.mpr (Or.inl rfl))
      exact ⟨_, state, (left.reaches_end placed.append_left through).trans leave, by lia,
        by lia⟩
  | @again base marks state a leaves branch body inner directs bodyHypothesis =>
    obtain ⟨position, current, reaches, bounded, passed⟩ :=
      bodyHypothesis placed.append_left passes
    rw [List.length_append]
    exact ⟨position, current, reaches, by lia, passed⟩

/-- Code that control cannot leave at its end: control only comes across what is required. -/
theorem Structured.holds_of_reaches {state final : σ} {skeleton : Skeleton} {code : List ι}
    (structured : machine.Structured holds 0 0 state final skeleton code)
    (ends : skeleton.completes = false) {position : Nat} {current : σ}
    (reaches : machine.Reaches code (0, state) (position, current)) :
    ∃ instruction, code[position]? = some instruction ∧
      holds (machine.marksBefore code (position + 1)) instruction current ∧
      (skeleton.passesMark = false → machine.marksBefore code (position + 1) = 0) := by
  obtain ⟨within, covers⟩ := structured.covers (Placed.whole code) rfl
  have stays : ∀ target, machine.Reaches code (0, state) target → within target.1 target.2 := by
    intro target reaches
    induction reaches with
    | refl =>
      rcases covers.entry with inside | ⟨-, -, through⟩
      · exact inside
      · simp [ends] at through
    | tail _ step inside =>
      rcases covers.next _ _ _ _ inside step with following | ⟨-, -, through⟩
      · exact following
      · simp [ends] at through
  have inside := stays (position, current) reaches
  obtain ⟨instruction, here, required⟩ := covers.holds position current inside
  exact ⟨instruction, here, required, fun passes => covers.unmarked passes _ _ inside⟩

/-- Exactly where the skeleton says so does control pass a mark. -/
theorem Structured.passesMark_iff {state final : σ} {skeleton : Skeleton} {code : List ι}
    (structured : machine.Structured holds 0 0 state final skeleton code)
    (ends : skeleton.completes = false) :
    skeleton.passesMark = true ↔ ∃ position current,
      machine.Reaches code (0, state) (position, current) ∧
        0 < machine.marksBefore code (position + 1) := by
  constructor
  · intro passes
    obtain ⟨position, current, reaches, -, passed⟩ :=
      structured.reaches_mark (Placed.whole code) passes
    exact ⟨position, current, reaches, by lia⟩
  · rintro ⟨position, current, reaches, passed⟩
    obtain ⟨_, _, _, unmarked⟩ := structured.holds_of_reaches ends reaches
    by_contra clear
    have := unmarked (by simpa using clear)
    lia

end Control

end Machine

end Egg.Data.StructuredCode
