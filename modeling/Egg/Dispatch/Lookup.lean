import Mathlib.Logic.Function.Basic
import Egg.Data.ComparatorMap

/-! Method dictionaries and the uncached lookup along the behavior chain. -/
namespace Egg.Dispatch

/-- What message dispatch reads of the object memory and never writes. -/
structure Kernel (Object : Type) where
  nilObj : Object
  hashFor : Object → Nat
  behaviorNext : Object → Object
  speciesSuperclass : Object → Object
  speciesInstanceBehavior : Object → Object
  undermessages : Object → Bool
  doesNotUnderstand : Object
  depth : Object → Nat
  descends : ∀ behavior, behaviorNext behavior ≠ nilObj →
    depth (behaviorNext behavior) < depth behavior

variable {Object : Type} [DecidableEq Object]

def Kernel.superBehaviorOf (kernel : Kernel Object) (species : Object) : Object :=
  kernel.speciesInstanceBehavior (kernel.speciesSuperclass species)

/-- A method dictionary is either a flat array or the table of a hashed one. -/
inductive MethodDictionary (Object : Type) where
  | array (slots : List Object)
  | table (slots : List Object)
  deriving DecidableEq

/-- Linear scan of `[selector, method, …]`, stopping at the first nil selector. -/
def scanArray (nilObj symbol : Object) : List Object → Option Object
  | key :: method :: rest =>
    if key = nilObj then none
    else if key = symbol then some method
    else scanArray nilObj symbol rest
  | _ => none

/-- Linear scan of the key and value pairs behind the table's policy slot. -/
def scanTable (symbol : Object) : List Object → Option Object
  | key :: method :: rest =>
    if key = symbol then some method else scanTable symbol rest
  | _ => none

/-- The method that one behavior's own dictionary holds for the symbol. -/
def methodForIn (kernel : Kernel Object) (symbol : Object) :
    MethodDictionary Object → Option Object
  | .array slots => scanArray kernel.nilObj symbol slots
  | .table slots => scanTable symbol (slots.drop 1)

/-- The current method dictionary of every behavior. -/
abbrev Dictionaries (Object : Type) := Object → MethodDictionary Object

/-- Walk from the start behavior up to nil and answer the first method found. -/
def doLookupStartingAt (kernel : Kernel Object) (dictionaries : Dictionaries Object)
    (symbol behavior : Object) : Option Object :=
  match methodForIn kernel symbol (dictionaries behavior) with
  | some method => some method
  | none =>
    if _more : kernel.behaviorNext behavior ≠ kernel.nilObj then
      doLookupStartingAt kernel dictionaries symbol (kernel.behaviorNext behavior)
    else none
  termination_by kernel.depth behavior
  decreasing_by exact kernel.descends behavior _more

/-- A method in the receiver's own dictionary shadows the rest of the chain. -/
theorem doLookupStartingAt_own {kernel : Kernel Object} {dictionaries : Dictionaries Object}
    {symbol behavior method : Object}
    (own : methodForIn kernel symbol (dictionaries behavior) = some method) :
    doLookupStartingAt kernel dictionaries symbol behavior = some method := by
  rw [doLookupStartingAt, own]

end Egg.Dispatch
