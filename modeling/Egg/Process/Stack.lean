import Egg.Evaluation.Context

/-! Native stacks of suspended processes and the frame a fresh process starts from. -/
namespace Egg.Process

open Egg.Evaluation

/-- The contents of a native stack, at one-based indices. -/
abbrev Buffer := Int → Word

def bufferSize : Int := EvaluationContext.stackSize

/-- `at:put:` on a native stack fails outside its bounds. -/
def atPut (buffer : Buffer) (index : Int) (object : Word) : Buffer :=
  if 1 ≤ index ∧ index ≤ bufferSize then Function.update buffer index object else buffer

/-- Store objects at an index and below it; answer the index that follows. -/
def putDownwards (buffer : Buffer) (index : Int) : List Word → Buffer × Int
  | [] => (buffer, index)
  | object :: rest => putDownwards (atPut buffer index object) (index - 1) rest

/-- The reified first frame of a process. Its arguments and temporaries fit a native stack. -/
structure LaunchContext where
  receiver : Word
  code : Word
  environment : Word
  pc : Int
  arguments : List Word
  temporaries : List Word
  fits : arguments.length + temporaries.length + 8 < bufferSize

/-- Copy the frame below `start`; answer the saved SP. -/
def LaunchContext.copyTo (launch : LaunchContext) (nilObj : Word) (buffer : Buffer)
    (start : Int) : Buffer × Int :=
  let header := atPut (atPut buffer start launch.receiver) (start - 1) launch.code
  let linked := atPut (atPut header (start - 2) nilObj) (start - 3) launch.environment
  let (filled, next) := putDownwards linked (start - 4) launch.temporaries
  (atPut (atPut filled next launch.pc) (next - 1) (start + 1), next - 2)

/-- Copy the arguments, an outermost return address and the frame; answer the saved SP. -/
def LaunchContext.copyAllTo (launch : LaunchContext) (nilObj : Word) (buffer : Buffer) :
    Buffer × Int :=
  let (withArguments, index) := putDownwards buffer bufferSize launch.arguments
  let base := index - 1
  let outermost := atPut (atPut withArguments index 0) base 0
  launch.copyTo nilObj outermost (index - 2)

/-- What a process keeps of its native stack while it does not run. -/
structure ProcessVMStack where
  sp : Int
  bp : Int
  env : Word
  buffer : Buffer

/-- `fillFrom:` a first frame. -/
def ProcessVMStack.fillFrom (stack : ProcessVMStack) (nilObj : Word) (launch : LaunchContext) :
    ProcessVMStack :=
  let (buffer, sp) := launch.copyAllTo nilObj stack.buffer
  { stack with buffer := buffer, sp := sp, env := launch.environment }

theorem atPut_same {buffer : Buffer} {index : Int} {object : Word}
    (inside : 1 ≤ index ∧ index ≤ bufferSize) : atPut buffer index object index = object := by
  simp [atPut, inside]

theorem atPut_other {buffer : Buffer} {index other : Int} {object : Word}
    (different : other ≠ index) : atPut buffer index object other = buffer other := by
  unfold atPut
  split
  · exact Function.update_of_ne different _ _
  · rfl

theorem putDownwards_snd (buffer : Buffer) (index : Int) (objects : List Word) :
    (putDownwards buffer index objects).2 = index - objects.length := by
  induction objects generalizing buffer index with
  | nil => simp [putDownwards]
  | cons object rest ih =>
    rw [putDownwards, ih, List.length_cons]
    omega

/-- Words above the first index written, or below the last one, are kept. -/
theorem putDownwards_kept {buffer : Buffer} {index other : Int} {objects : List Word}
    (outside : index < other ∨ other ≤ index - objects.length) :
    (putDownwards buffer index objects).1 other = buffer other := by
  induction objects generalizing buffer index with
  | nil => rfl
  | cons object rest ih =>
    rw [List.length_cons] at outside
    rw [putDownwards, ih (by omega), atPut_other (by omega)]

theorem putDownwards_stored (buffer : Buffer) {index : Int} {objects : List Word} {offset : Nat}
    {object : Word} (top : index ≤ bufferSize) (bottom : objects.length ≤ index)
    (stored : objects[offset]? = some object) :
    (putDownwards buffer index objects).1 (index - offset) = object := by
  induction objects generalizing buffer index offset with
  | nil => cases stored
  | cons first rest ih =>
    rw [List.length_cons] at bottom
    rw [putDownwards]
    cases offset with
    | zero =>
      obtain rfl : first = object := by simpa using stored
      rw [show index - ((0 : Nat) : Int) = index by omega, putDownwards_kept (by omega)]
      exact atPut_same ⟨by omega, top⟩
    | succ offset =>
      have below := ih (atPut buffer index first) (show index - 1 ≤ bufferSize by omega)
        (by omega) (by simpa using stored)
      rwa [show index - 1 - (offset : Int) = index - ((offset + 1 : Nat) : Int) by omega] at below

/-- A frame copied below `start`: its header, its temporaries and the way into it. -/
structure FrameCopied (launch : LaunchContext) (buffer : Buffer) (start : Int)
    (copied : Buffer × Int) : Prop where
  sp : copied.2 = start - 6 - launch.temporaries.length
  savedBP : copied.1 (copied.2 + 1) = start + 1
  savedPC : copied.1 (copied.2 + 2) = launch.pc
  receiver : copied.1 start = launch.receiver
  code : copied.1 (start - 1) = launch.code
  environment : copied.1 (start - 3) = launch.environment
  temporaries : ∀ offset object, launch.temporaries[offset]? = some object →
    copied.1 (start - 4 - (offset : Nat)) = object
  kept : ∀ index, start < index → copied.1 index = buffer index

theorem LaunchContext.copyTo_spec (launch : LaunchContext) (nilObj : Word) (buffer : Buffer)
    {start : Int} (top : start ≤ bufferSize) (bottom : launch.temporaries.length + 6 ≤ start) :
    FrameCopied launch buffer start (launch.copyTo nilObj buffer start) := by
  have next : ∀ linked, (putDownwards linked (start - 4) launch.temporaries).2 =
      start - 4 - launch.temporaries.length := fun linked => putDownwards_snd _ _ _
  simp only [copyTo, next]
  have header : ∀ {index : Int}, start - 4 < index → ∀ filled : Buffer,
      atPut (atPut filled (start - 4 - launch.temporaries.length) launch.pc)
        (start - 4 - launch.temporaries.length - 1) (start + 1) index = filled index := by
    intro index above filled
    rw [atPut_other (by omega), atPut_other (by omega)]
  refine {
    sp := by omega
    savedBP := ?_
    savedPC := ?_
    receiver := ?_
    code := ?_
    environment := ?_
    temporaries := fun offset object stored => ?_
    kept := fun index above => ?_ }
  all_goals dsimp only
  · rw [show start - 4 - (launch.temporaries.length : Int) - 2 + 1 =
      start - 4 - launch.temporaries.length - 1 by omega]
    exact atPut_same ⟨by omega, by omega⟩
  · rw [show start - 4 - (launch.temporaries.length : Int) - 2 + 2 =
      start - 4 - launch.temporaries.length by omega, atPut_other (by omega)]
    exact atPut_same ⟨by omega, by omega⟩
  · rw [header (by omega), putDownwards_kept (by omega), atPut_other (by omega),
      atPut_other (by omega), atPut_other (by omega)]
    exact atPut_same ⟨by omega, by omega⟩
  · rw [header (by omega), putDownwards_kept (by omega), atPut_other (by omega),
      atPut_other (by omega)]
    exact atPut_same ⟨by omega, by omega⟩
  · rw [header (by omega), putDownwards_kept (by omega)]
    exact atPut_same ⟨by omega, by omega⟩
  · obtain ⟨inside, _⟩ := List.getElem?_eq_some_iff.mp stored
    rw [atPut_other (by omega), atPut_other (by omega)]
    exact putDownwards_stored _ (by omega) (by omega) stored
  · rw [header (by omega), putDownwards_kept (by omega), atPut_other (by omega),
      atPut_other (by omega), atPut_other (by omega), atPut_other (by omega)]

/-- The frame a filled stack starts from, below the arguments of its launch. -/
structure FirstFrame (launch : LaunchContext) (stack : ProcessVMStack) : Prop where
  sp : stack.sp = bufferSize - launch.arguments.length - 8 - launch.temporaries.length
  savedBP : stack.buffer (stack.sp + 1) = bufferSize - launch.arguments.length - 1
  savedPC : stack.buffer (stack.sp + 2) = launch.pc
  receiver : stack.buffer (bufferSize - launch.arguments.length - 2) = launch.receiver
  code : stack.buffer (bufferSize - launch.arguments.length - 3) = launch.code
  environment : stack.buffer (bufferSize - launch.arguments.length - 5) = launch.environment
  outermostBP : stack.buffer (bufferSize - launch.arguments.length - 1) = 0
  outermostPC : stack.buffer (bufferSize - launch.arguments.length) = 0
  temporaries : ∀ offset object, launch.temporaries[offset]? = some object →
    stack.buffer (bufferSize - launch.arguments.length - 6 - (offset : Nat)) = object
  arguments : ∀ offset object, launch.arguments[offset]? = some object →
    stack.buffer (bufferSize - (offset : Nat)) = object

theorem ProcessVMStack.fillFrom_spec (stack : ProcessVMStack) (nilObj : Word)
    (launch : LaunchContext) : FirstFrame launch (stack.fillFrom nilObj launch) := by
  have fits := launch.fits
  have index := putDownwards_snd stack.buffer bufferSize launch.arguments
  simp only [fillFrom, LaunchContext.copyAllTo, index]
  have copied := launch.copyTo_spec nilObj
    (atPut (atPut (putDownwards stack.buffer bufferSize launch.arguments).1
      (bufferSize - launch.arguments.length) 0)
      (bufferSize - launch.arguments.length - 1) 0)
    (show bufferSize - launch.arguments.length - 2 ≤ bufferSize by omega) (by omega)
  generalize launch.copyTo nilObj _ _ = frame at copied ⊢
  exact {
    sp := copied.sp.trans (by omega)
    savedBP := copied.savedBP.trans
      (show (bufferSize - launch.arguments.length - 2 + 1 : Int) =
        bufferSize - launch.arguments.length - 1 by omega)
    savedPC := copied.savedPC
    receiver := copied.receiver
    code := (congrArg frame.1 (by omega)).trans copied.code
    environment := (congrArg frame.1 (by omega)).trans copied.environment
    outermostBP := by
      refine (copied.kept _ (by omega)).trans ?_
      exact atPut_same ⟨by omega, by omega⟩
    outermostPC := by
      refine (copied.kept _ (by omega)).trans ?_
      rw [atPut_other (by omega)]
      exact atPut_same ⟨by omega, by omega⟩
    temporaries := fun offset object stored =>
      (congrArg frame.1 (by omega)).trans (copied.temporaries offset object stored)
    arguments := by
      intro offset object stored
      obtain ⟨inside, _⟩ := List.getElem?_eq_some_iff.mp stored
      refine (copied.kept _ (by omega)).trans ?_
      rw [atPut_other (by omega), atPut_other (by omega)]
      exact putDownwards_stored _ (Int.le_refl _) (by omega) stored }

end Egg.Process
