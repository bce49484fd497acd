import Egg.Classes.CodeSpecs

/-! The two builders of classes: that of the kernel and that of modules loaded later. -/
namespace Egg.Classes

/-- What a class and its metaclass say of their instances, and the slots that the class has. -/
structure Species where
  format : Nat
  metaFormat : Nat
  slots : Nat

namespace Species

def Variable : Nat := 0x2000

def Pointers : Nat := 0x4000

end Species

/-- A format as it is read by `instSize`, `isVariable` and `instancesHavePointers`. -/
def decode (format : Nat) : Shape where
  instSize := format &&& 0x7F
  isIndexed := format &&& Species.Variable == Species.Variable
  isPointers := format &&& Species.Pointers != 0

namespace Bootstrapper

variable (specs : ModuleSpec)

/-- All classes there are come from the definitions, so others are not found. -/
def instSizeOf (className : String) : Option Nat := do
  let spec ← specs.resolveClass className
  match specs.superclass spec with
  | some _ => specs.instSize spec
  | none => some (uint32 spec.instVarNames.length)

/-- The slots with which a class is allocated. -/
def instantiateMetaobjectsOf (spec : ClassSpec) : Option Nat := do
  let classSlots ← instSizeOf specs "Class"
  let _ ← instSizeOf specs "Metaclass"
  let _ ← instSizeOf specs "Behavior"
  some (uint32 (classSlots + spec.classInstVarNames.length))

/-- The formats of a class and of its metaclass. -/
def initializeMetaobjectsOf (spec : ClassSpec) : Option (Nat × Nat) := do
  let classSize ← instSizeOf specs "Class"
  let metaclassInstSize := uint32 (classSize + spec.classInstVarNames.length)
  let metaFormat := metaclassInstSize &&& 0x7F ||| 0x4000
  let instSize ← specs.instSize spec
  let format := instSize &&& 0x7F
  let format := if spec.isVariable then format ||| 0x2000 else format
  let format := if spec.isPointers then format ||| 0x4000 else format
  some (format, metaFormat)

def buildMetaobjectsOf (spec : ClassSpec) : Option Species := do
  let slots ← instantiateMetaobjectsOf specs spec
  let (format, metaFormat) ← initializeMetaobjectsOf specs spec
  some { format, metaFormat, slots }

end Bootstrapper

namespace SourceModuleLoader

/-- `newSubclassOf:`, with what `beSubclassOf:` and `initializeFrom:` take over. -/
def newSubclassOf (superclass : Species) : Species where
  format := superclass.format
  metaFormat := superclass.metaFormat
  slots := superclass.metaFormat &&& 0x7F

def beBytes (species : Species) : Species := { species with format := Species.Variable }

/-- Class-instance variables do not occur here. -/
def createNewClassFrom (spec : ClassSpec) (superclass : Species) : Species :=
  let newClass := newSubclassOf superclass
  let newClass :=
    if spec.instVarNames.isEmpty then newClass
    else
      let oldInstSize := newClass.format &&& 0x7F
      let superInstSize := superclass.format &&& 0x7F
      { newClass with
        format := uint32
          (newClass.format - oldInstSize + superInstSize + spec.instVarNames.length) }
  if spec.isPointers then newClass else beBytes newClass

end SourceModuleLoader

inductive Builder where
  | bootstrapper
  | sourceModuleLoader
  deriving DecidableEq

/-- A class that was built, with the definitions it comes from and what built it. -/
structure Built where
  lineage : List ClassSpec
  builder : Builder
  species : Species

/-- The classes of a runtime by name, the last one first. -/
abbrev ClassTable := List (String × Built)

/-- The kernel's classes, if the loops over superclasses end. -/
def bootstrap (specs : ModuleSpec) : Option ClassTable :=
  specs.mapM fun spec => do
    let lineage ← specs.lineageOf spec
    let species ← Bootstrapper.buildMetaobjectsOf specs spec
    some (spec.name, ⟨lineage, .bootstrapper, species⟩)

/-- Load a class whose superclass is there. -/
def loadClass (classes : ClassTable) (spec : ClassSpec) : Option ClassTable := do
  let superclass ← classes.lookup spec.supername
  let species := SourceModuleLoader.createNewClassFrom spec superclass.species
  some ((spec.name, ⟨spec :: superclass.lineage, .sourceModuleLoader, species⟩) :: classes)

/-- A kernel is bootstrapped, and classes are loaded in any order in which superclasses are
first. -/
inductive Run (kernel : Kernel) : ClassTable → Prop where
  | bootstrap {classes : ClassTable} (built : bootstrap kernel.specs = some classes) :
      Run kernel classes
  | load {classes classes' : ClassTable} {spec : ClassSpec} (run : Run kernel classes)
      (loaded : loadClass classes spec = some classes') : Run kernel classes'

/-- The variables of `Class`, own and inherited. -/
def Kernel.classSize (kernel : Kernel) : Nat :=
  (((kernel.specs.resolveClass "Class").bind kernel.specs.lineageOf).map instVarCount).getD 0

/-- A class has the shape that its definitions describe, and these fit the fields for it. -/
structure Built.Exact (classSize : Nat) (built : Built) : Prop where
  fits : Fits built.lineage classSize
  instances : decode built.species.format = describedShape built.lineage
  metaclass : decode built.species.metaFormat =
    ⟨classSize + classInstVarCount built.lineage, false, true⟩
  slots : built.species.slots = classSize + classInstVarCount built.lineage

/-- What a builder needs to be told, and not to be told, to build the class that is described. -/
def Built.Suits (classSize : Nat) (built : Built) : Prop :=
  match built.builder, built.lineage with
  | _, [] => False
  | .bootstrapper, spec :: inherited =>
    Fits (spec :: inherited) classSize ∧
      (spec.classType = none → effectiveType inherited = none) ∧
      classInstVarCount inherited = 0
  | .sourceModuleLoader, spec :: inherited =>
    Fits (spec :: inherited) classSize ∧
      (spec.classType = some .variable → effectiveType inherited = some .variable) ∧
      (spec.classType = some .bytes → instVarCount (spec :: inherited) = 0) ∧
      spec.classInstVarNames = []

instance (classSize : Nat) (built : Built) : Decidable (built.Suits classSize) :=
  match built with
  | ⟨[], .bootstrapper, _⟩ | ⟨[], .sourceModuleLoader, _⟩ => isFalse id
  | ⟨_ :: _, .bootstrapper, _⟩ => inferInstanceAs (Decidable (_ ∧ _ ∧ _))
  | ⟨_ :: _, .sourceModuleLoader, _⟩ => inferInstanceAs (Decidable (_ ∧ _ ∧ _ ∧ _))

end Egg.Classes
