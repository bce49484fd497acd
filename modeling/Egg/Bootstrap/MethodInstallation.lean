import Egg.Bootstrap.TonelReader
import Egg.Collection.HashedCollection

/-! Installing the methods of the kernel: method arrays, and the dictionaries made from them. -/
namespace Egg.Bootstrap

open Egg.Collection

variable {Method : Type}

/-- What arrays and dictionaries of methods hold besides nil. Symbols are interned, so that a
symbol is its text. -/
inductive KernelObject (Method : Type) where
  | symbol (text : Text)
  | method (method : Method)
  deriving DecidableEq

abbrev Slot (Method : Type) := Object (KernelObject Method)

def symbol (selector : Text) : Slot Method := .plain (.symbol selector)

/-- A method array, the slots of each selector and its method side by side. -/
abbrev MethodArray (Method : Type) := List (Slot Method × Slot Method)

def capacity : Nat := 1024

def newMethodArray : MethodArray Method := List.replicate (capacity / 2) (.nil, .nil)

variable [DecidableEq Method]

/-- The answer is the message of the error that is thrown, or the changed array. -/
def addMethodToArray_ (selector method : Slot Method) :
    MethodArray Method → Except (List UInt8) (MethodArray Method)
  | [] => throw (ascii "Method array is full")
  | (existing, old) :: rest =>
    if existing = .nil then .ok ((selector, method) :: rest)
    else if existing = selector then .ok ((existing, method) :: rest)
    else ((existing, old) :: ·) <$> addMethodToArray_ selector method rest

section Loading

/-- A class or its metaclass. -/
structure Species where
  className : Text
  isMeta : Bool
  deriving DecidableEq

/-- What becomes of the source of a method before it is installed. -/
inductive Compilation (Method : Type) where
  | compiled (selector : Text) (method : Method)
  | thrown (message : List UInt8)
  | exit

/-- The classes of a module by name, each name once. -/
structure ModuleSpec where
  classes : List (Text × ClassSpec)
  distinct : (classes.map Prod.fst).Nodup

/-- The array of each behavior, and the lines written on the error stream. -/
structure Loading (Method : Type) where
  arrays : Species → MethodArray Method
  cerr : List (List UInt8)

def Loading.initial : Loading Method where
  arrays _ := newMethodArray
  cerr := []

variable (compile : Species → Text → Compilation Method)

/-- No result when the program ends. -/
def compileAndInstallMethod_ (source : Text) (cls : Species) (arrays : Species → MethodArray Method) :
    Option (Except (List UInt8) (Species → MethodArray Method)) :=
  match compile cls source with
  | .exit => none
  | .thrown message => some (throw message)
  | .compiled selector method =>
    some ((addMethodToArray_ (symbol selector) (.plain (.method method)) (arrays cls)).map
      (Function.update arrays cls))

def failedWarning (cls : Species) : List UInt8 :=
  if cls.isMeta then ascii "  Warning: Failed to compile class method"
  else ascii "  Warning: Failed to compile instance method"

def loadMethod (cls : Species) (loading : Loading Method) (method : MethodSpec) :
    Option (Loading Method) := do
  match ← compileAndInstallMethod_ compile method.source cls loading.arrays with
  | .ok arrays => some { loading with arrays := arrays }
  | .error message =>
    some { loading with
      cerr := loading.cerr ++ [failedWarning cls, ascii "    " ++ message] }

def loadMethods (cls : Species) (methods : List MethodSpec) (loading : Loading Method) :
    Option (Loading Method) :=
  methods.foldlM (loadMethod compile cls) loading

/-- The class of every name in the specification was instantiated before. -/
def ModuleSpec.instantiated (spec : ModuleSpec) (className : Text) : Bool :=
  className ∈ spec.classes.map Prod.fst

def loadClass (spec : ModuleSpec) (loading : Loading Method) (entry : Text × ClassSpec) :
    Option (Loading Method) :=
  if spec.instantiated entry.1 then do
    let loading ← loadMethods compile ⟨entry.1, false⟩ entry.2.methods loading
    loadMethods compile ⟨entry.1, true⟩ entry.2.metaclass.methods loading
  else some { loading with
    cerr := loading.cerr ++
      [ascii "  Warning: Class " ++ toUtf8 entry.1 ++ ascii " not found in registry"] }

def loadKernelMethods (spec : ModuleSpec) : Option (Loading Method) :=
  spec.classes.foldlM (loadClass compile spec) .initial

end Loading

section MethodDictionary

/-- The powers that `moduloFor:` looks through. -/
def powers : List Nat := [4, 8, 16, 32, 64, 128, 256, 512, 1024, 2048, 4096]

/-- The loop at the end of `moduloFor:`. -/
def doubled (size last : Nat) : Nat :=
  if size < last ∨ last = 0 then last else doubled size (last * 2)
termination_by size + 1 - last
decreasing_by omega

def moduloFor (size : Nat) : Nat :=
  (powers.find? (size < ·)).getD (doubled size 4096)

def contentOfSize (size : Nat) : HashTable (KernelObject Method) where
  size := moduloFor size * 2
  slots _ := .nil

/-- Symbols are compared by identity and hashed by `basicHash`. -/
def identity (basicHash : Slot Method → Int) : Hashing (KernelObject Method) where
  hash := basicHash
  equals left right := left = right
  refl _ := decide_eq_true rfl
  symm _ _ same := decide_eq_true (of_decide_eq_true same).symm
  trans _ _ _ same equal := decide_eq_true ((of_decide_eq_true same).trans (of_decide_eq_true equal))
  agree _ _ same := congrArg basicHash (of_decide_eq_true same)

abbrev MethodDictionary (Method : Type) := HashedCollection (KernelObject Method)

namespace MethodDictionary

omit [DecidableEq Method] in
def new (count : Nat) : MethodDictionary Method where
  tally := 0
  table := contentOfSize (HashedCollection.sizeFor count)

variable (basicHash : Slot Method → Int)

def grow (dictionary : MethodDictionary Method) : Option (MethodDictionary Method) :=
  dictionary.rebuildOn (identity basicHash) .inlinedDictionary (new (dictionary.tally * 2))

def incrementTally (dictionary : MethodDictionary Method) : Option (MethodDictionary Method) :=
  let counted := { dictionary with tally := dictionary.tally + 1 }
  if counted.table.isCapacityGreaterThan .inlinedDictionary counted.tally then some counted
  else grow basicHash counted

def basicAtPut (dictionary : MethodDictionary Method) (aSymbol aCompiledMethod : Slot Method) :
    Option (MethodDictionary Method) := do
  let (_, answer, table) ←
    dictionary.table.atKeyPut (identity basicHash) .inlinedDictionary aSymbol aCompiledMethod
  let changed := { dictionary with table := table }
  if answer.isNil then incrementTally basicHash changed else some changed

/-- `at:ifAbsent:`; the inner result is missing when the key is absent. -/
def at? (dictionary : MethodDictionary Method) (key : Slot Method) : Option (Option (Slot Method)) :=
  dictionary.table.lookupKey (identity basicHash) .inlinedDictionary key

/-- `at:put:`; whether the method it replaces is nativized is the same to the dictionary. -/
def atPut (dictionary : MethodDictionary Method) (aSymbol aCompiledMethod : Slot Method) :
    Option (MethodDictionary Method) := do
  let _current ← at? basicHash dictionary aSymbol
  basicAtPut basicHash dictionary aSymbol aCompiledMethod

end MethodDictionary

/-- The methods up to the first nil selector. -/
def entriesOf (array : MethodArray Method) : MethodArray Method :=
  array.takeWhile fun entry => entry.1 ≠ .nil

def convertBehaviorMethodDict_ (basicHash : Slot Method → Int) (array : MethodArray Method) :
    Option (MethodDictionary Method) :=
  (entriesOf array).foldlM (fun dictionary entry => dictionary.atPut basicHash entry.1 entry.2)
    (MethodDictionary.new (entriesOf array).length)

end MethodDictionary

section Lookup

/-- `methodFor_in_` on a method array. -/
def methodInArray (symbol : Slot Method) : MethodArray Method → Option (Slot Method)
  | [] => none
  | (key, method) :: rest =>
    if key = .nil then none
    else if key = symbol then some method
    else methodInArray symbol rest

/-- `slotAt_` of a hash table, whose first slot is its policy. -/
def slotAt_ (policy : Slot Method) (table : HashTable (KernelObject Method)) (index : Nat) :
    Slot Method :=
  if index = 1 then policy else table.slots (index - 1)

/-- `methodFor_in_` on a dictionary, which looks at every second slot from the second on. -/
def methodInTable (policy symbol : Slot Method) (table : HashTable (KernelObject Method)) :
    Option (Slot Method) :=
  ((List.range' 2 (table.size / 2) 2).find? fun index =>
      slotAt_ policy table index = symbol).map fun index => slotAt_ policy table (index + 1)

end Lookup

end Egg.Bootstrap
