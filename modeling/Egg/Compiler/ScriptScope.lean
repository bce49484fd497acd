import Mathlib.Data.List.Count

/-! The scopes of scripts once their names are bound, and the positions of their locals. -/
namespace Egg.Compiler

/-- Where a local is kept. -/
inductive Environment
  | stack
  | array
  deriving DecidableEq

/-- What kind of local a block captures. -/
inductive Kind
  | argument
  | temporary
  deriving DecidableEq

/-- A captured environment is that of the method or of a block. -/
inductive Captured
  | method
  | block
  deriving DecidableEq

/-- A scope with its captures; a local that is captured by a block is kept in an array. -/
structure Scope where
  arguments : List Environment
  temporaries : List Environment
  captured : List Kind
  environments : List Captured
  capturesSelf : Bool

/-- A block of the source, inlined or not, with the blocks in it. -/
inductive Script
  | block (inlined : Bool) (index : Nat) (scope : Scope) (children : List Script)

section Model

/-- How far the stack and the environment of a script have grown. -/
structure Sizes where
  stackSize : Nat
  envSize : Nat

namespace Sizes

def growStack (sizes : Sizes) : Sizes :=
  { sizes with stackSize := sizes.stackSize + 1 }

def growEnvironment (sizes : Sizes) : Sizes :=
  { sizes with envSize := sizes.envSize + 1 }

/-- A defined local takes the next position of its environment. -/
def position (sizes : Sizes) : Environment → Sizes
  | .stack => sizes.growStack
  | .array => sizes.growEnvironment

end Sizes

namespace Scope

variable (scope : Scope)

def positionDefinedTemporariesIn (real : Sizes) : Sizes :=
  scope.temporaries.foldl Sizes.position real

def positionDefinedArgumentsIn (real : Sizes) : Sizes :=
  scope.arguments.foldl Sizes.position real

def environmentSizeUpToEnvironments : Nat :=
  (if scope.capturesSelf then 1 else 0) + scope.environments.length

/-- A captured argument is copied into the environment of the block. -/
def positionCaptured (own : Sizes) : Kind → Sizes
  | .argument => own.growEnvironment
  | .temporary => own

/-- For a block that is not inlined, which has no positions yet. -/
def positionCapturedLocals : Sizes :=
  scope.captured.foldl positionCaptured ⟨0, scope.environmentSizeUpToEnvironments⟩

def capturesHome : Bool :=
  scope.environments.head? = some .method

end Scope

/-- The literal of a block. -/
structure BlockInfo where
  id : Nat
  argCount : Nat
  tempCount : Nat
  envCount : Nat
  capturesSelf : Bool
  capturesHome : Bool
  deriving DecidableEq

/-- The block of a scope that was positioned. -/
def Scope.info (scope : Scope) (id : Nat) (sizes : Sizes) : BlockInfo :=
  ⟨id, scope.arguments.length, sizes.stackSize, sizes.envSize, scope.capturesSelf,
    scope.capturesHome⟩

mutual

/-- The locals of an inlined block go to the script it is inlined in; another block is compiled. -/
def Script.positionLocals : Script → (real : Sizes) → Sizes × List BlockInfo
  | .block true _ scope children, real =>
    positionChildren children
      (scope.positionDefinedArgumentsIn (scope.positionDefinedTemporariesIn real))
  | .block false index scope children, real =>
    let (own, blocks) := positionChildren children
      (scope.positionDefinedTemporariesIn scope.positionCapturedLocals)
    (real, scope.info index own :: blocks)

def positionChildren : List Script → (real : Sizes) → Sizes × List BlockInfo
  | [], real => (real, [])
  | child :: children, real =>
    let (real, blocks) := child.positionLocals real
    let (real, more) := positionChildren children real
    (real, blocks ++ more)

end

mutual

def Script.usesHome : Script → Bool
  | .block true _ _ children => anyUsesHome children
  | .block false _ scope _ => scope.capturesHome

def anyUsesHome : List Script → Bool
  | [] => false
  | child :: children => child.usesHome || anyUsesHome children

end

end Model

section Locals

mutual

/-- The locals that a block leaves to the script around it. -/
def Script.locals (e : Environment) : Script → Nat
  | .block true _ scope children =>
    scope.temporaries.count e + scope.arguments.count e + inlinedLocals e children
  | .block false _ _ _ => 0

/-- The locals of the inlined blocks among the children of a script. -/
def inlinedLocals (e : Environment) : List Script → Nat
  | [] => 0
  | child :: children => child.locals e + inlinedLocals e children

end

/-- A block that is compiled, with the blocks in it. -/
structure Closure where
  index : Nat
  scope : Scope
  children : List Script

namespace Closure

variable (closure : Closure)

/-- Its temporaries, and the locals of inlined blocks, on the stack. -/
def stackLocals : Nat :=
  closure.scope.temporaries.count .stack + inlinedLocals .stack closure.children

/-- What it captures, and the locals that are captured from it. -/
def environmentLocals : Nat :=
  closure.scope.environmentSizeUpToEnvironments + closure.scope.captured.count .argument +
    (closure.scope.temporaries.count .array + inlinedLocals .array closure.children)

end Closure

mutual

/-- The blocks that are compiled, an outer one first. -/
def Script.closures : Script → List Closure
  | .block true _ _ children => closuresOf children
  | .block false index scope children => ⟨index, scope, children⟩ :: closuresOf children

def closuresOf : List Script → List Closure
  | [] => []
  | child :: children => child.closures ++ closuresOf children

end

end Locals

section Positions

theorem position_foldl (environments : List Environment) (sizes : Sizes) :
    environments.foldl Sizes.position sizes = ⟨sizes.stackSize + environments.count .stack,
      sizes.envSize + environments.count .array⟩ := by
  induction environments generalizing sizes with
  | nil => rfl
  | cons e environments ih =>
    rw [List.foldl_cons, ih]
    cases e with
    | stack =>
      rw [List.count_cons_self, List.count_cons_of_ne (by decide)]
      show Sizes.mk (sizes.stackSize + 1 + _) _ = _
      rw [Nat.add_right_comm, Nat.add_assoc]
      rfl
    | array =>
      rw [List.count_cons_self, List.count_cons_of_ne (by decide)]
      show Sizes.mk _ (sizes.envSize + 1 + _) = _
      rw [Nat.add_right_comm, Nat.add_assoc]
      rfl

theorem positionCapturedLocals_eq (scope : Scope) : scope.positionCapturedLocals =
    ⟨0, scope.environmentSizeUpToEnvironments + scope.captured.count .argument⟩ := by
  have captured (kinds : List Kind) (sizes : Sizes) :
      kinds.foldl Scope.positionCaptured sizes =
        ⟨sizes.stackSize, sizes.envSize + kinds.count .argument⟩ := by
    induction kinds generalizing sizes with
    | nil => rfl
    | cons kind kinds ih =>
      rw [List.foldl_cons, ih]
      cases kind with
      | argument =>
        rw [List.count_cons_self]
        show Sizes.mk _ (sizes.envSize + 1 + _) = _
        rw [Nat.add_right_comm, Nat.add_assoc]
        rfl
      | temporary =>
        rw [List.count_cons_of_ne (by decide)]
        rfl
  exact captured scope.captured _

/-- The literal of a block by what it captures and by the locals in it. -/
def Closure.info (closure : Closure) : BlockInfo :=
  closure.scope.info closure.index ⟨closure.stackLocals, closure.environmentLocals⟩

mutual

theorem Script.positionLocals_eq : ∀ (script : Script) (real : Sizes),
    script.positionLocals real = (⟨real.stackSize + script.locals .stack,
      real.envSize + script.locals .array⟩, script.closures.map Closure.info)
  | .block true index scope children, real => by
    rw [Script.positionLocals, positionChildren_eq children, Scope.positionDefinedArgumentsIn,
      Scope.positionDefinedTemporariesIn, position_foldl, position_foldl]
    simp only [Script.locals, Script.closures, Nat.add_assoc]
  | .block false index scope children, real => by
    have own := positionChildren_eq children
      (scope.positionDefinedTemporariesIn scope.positionCapturedLocals)
    rw [Scope.positionDefinedTemporariesIn, position_foldl, positionCapturedLocals_eq] at own
    rw [Script.positionLocals, Scope.positionDefinedTemporariesIn, position_foldl,
      positionCapturedLocals_eq, own]
    simp only [Script.locals, Script.closures, List.map_cons, Closure.info, Closure.stackLocals,
      Closure.environmentLocals, Nat.zero_add, Nat.add_zero, Nat.add_assoc]

/-- Every inlined block adds its locals, and every other block is compiled. -/
theorem positionChildren_eq : ∀ (children : List Script) (real : Sizes),
    positionChildren children real = (⟨real.stackSize + inlinedLocals .stack children,
      real.envSize + inlinedLocals .array children⟩, (closuresOf children).map Closure.info)
  | [], real => rfl
  | child :: children, real => by
    rw [positionChildren, Script.positionLocals_eq child]
    simp only [positionChildren_eq children, inlinedLocals, closuresOf, List.map_append,
      Nat.add_assoc]

end

end Positions

end Egg.Compiler
