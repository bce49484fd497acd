import Egg.Classes.Builders
import Mathlib.Data.Nat.Bitwise

/-! When the two builders build what the definitions describe. -/
namespace Egg.Classes

/-! ### Formats -/

theorem decode_eq (format : Nat) :
    decode format = ⟨format % 128, format.testBit 13, format.testBit 14⟩ := by
  have size : format &&& 0x7F = format % 128 := Nat.and_two_pow_sub_one_eq_mod format 7
  have indexed : format &&& 0x2000 = (format.testBit 13).toNat * 0x2000 :=
    Nat.and_two_pow format 13
  have pointers : format &&& 0x4000 = (format.testBit 14).toNat * 0x4000 :=
    Nat.and_two_pow format 14
  simp only [decode, Species.Variable, Species.Pointers, size, indexed, pointers]
  cases format.testBit 13 <;> cases format.testBit 14 <;> rfl

theorem decode_flags {size : Nat} (fits : size < 128) :
    decode size = ⟨size, false, false⟩ ∧ decode (size ||| 0x2000) = ⟨size, true, false⟩ ∧
      decode (size ||| 0x4000) = ⟨size, false, true⟩ ∧
      decode (size ||| 0x2000 ||| 0x4000) = ⟨size, true, true⟩ := by
  revert size
  decide

/-- More variables leave the flags alone as long as they fit. -/
theorem decode_add {format count : Nat} (fits : format % 128 + count < 128) :
    decode (format + count) = { decode format with instSize := format % 128 + count } := by
  have quotient : (format + count) / 2 ^ 7 = format / 2 ^ 7 := by lia
  have flag : ∀ position, 7 ≤ position →
      (format + count).testBit position = format.testBit position := by
    intro position high
    obtain ⟨rest, rfl⟩ := Nat.exists_eq_add_of_le' high
    rw [← Nat.testBit_div_two_pow, ← Nat.testBit_div_two_pow, quotient]
  rw [decode_eq, decode_eq, flag 13 (by lia), flag 14 (by lia)]
  simp only [Shape.mk.injEq, and_true]
  lia

theorem uint32_of_lt {value : Nat} (fits : value < 2 ^ 32) : uint32 value = value :=
  Nat.mod_eq_of_lt fits

theorem decode_uint32 (format : Nat) : decode (uint32 format) = decode format := by
  have size : format % 2 ^ 32 % 128 = format % 128 :=
    Nat.mod_mod_of_dvd format (by decide)
  rw [decode_eq, decode_eq, uint32, size, Nat.testBit_mod_two_pow, Nat.testBit_mod_two_pow]
  simp

/-! ### The bootstrapper -/

theorem effectiveType_cons (spec : ClassSpec) (inherited : List ClassSpec) :
    effectiveType (spec :: inherited) = spec.classType.or (effectiveType inherited) := by
  unfold effectiveType
  rw [List.findSome?_cons]
  cases spec.classType <;> rfl

theorem instVarCount_cons (spec : ClassSpec) (inherited : List ClassSpec) :
    instVarCount (spec :: inherited) = spec.instVarNames.length + instVarCount inherited := by
  simp [instVarCount]

theorem classInstVarCount_cons (spec : ClassSpec) (inherited : List ClassSpec) :
    classInstVarCount (spec :: inherited) =
      spec.classInstVarNames.length + classInstVarCount inherited := by
  simp [classInstVarCount]

/-- The flags that a class's own `#type` puts into the format. -/
theorem decode_own (spec : ClassSpec) (instSize : Nat) :
    decode (
      let format := instSize &&& 0x7F
      let format := if spec.isVariable then format ||| 0x2000 else format
      if spec.isPointers then format ||| 0x4000 else format) =
      ⟨instSize % 128, spec.isVariable, spec.isPointers⟩ := by
  have size : instSize &&& 0x7F = instSize % 128 := Nat.and_two_pow_sub_one_eq_mod instSize 7
  obtain ⟨fixed, bytes, pointers, both⟩ := decode_flags (Nat.mod_lt instSize (by decide))
  simp only [size]
  cases spec.isVariable <;> cases spec.isPointers <;> simp only [if_true, if_false,
    Bool.false_eq_true, fixed, bytes, pointers, both]

namespace Kernel

variable (kernel : Kernel)

/-- The classes that every metaobject is made of are there, with their sizes. -/
theorem instSizeOf {name : String} (present : name ∈ ["Class", "Metaclass", "Behavior"]) :
    ∃ spec lineage, kernel.specs.resolveClass name = some spec ∧
      kernel.specs.lineageOf spec = some lineage ∧
      Bootstrapper.instSizeOf kernel.specs name = some (uint32 (instVarCount lineage)) := by
  obtain ⟨spec, resolved⟩ := Option.isSome_iff_exists.mp (kernel.metaobjects name present)
  have member := ModuleSpec.resolveClass_mem resolved
  obtain ⟨lineage, chained⟩ := kernel.acyclic spec member
  refine ⟨spec, lineage, resolved, chained.lineageOf member, ?_⟩
  simp only [Bootstrapper.instSizeOf, resolved, Option.bind_eq_bind, Option.bind_some]
  cases inherits : kernel.specs.superclass spec with
  | some super => exact chained.instSize member
  | none =>
    have alone := chained.unique (.root inherits)
    rw [alone]
    simp [instVarCount]

theorem instSizeOf_class :
    Bootstrapper.instSizeOf kernel.specs "Class" = some (uint32 kernel.classSize) := by
  obtain ⟨spec, lineage, resolved, chained, size⟩ :=
    kernel.instSizeOf (List.mem_cons_self : "Class" ∈ ["Class", "Metaclass", "Behavior"])
  rw [size]
  simp [classSize, resolved, chained]

/-- The class that the bootstrapper makes of a definition. -/
theorem buildMetaobjectsOf {spec : ClassSpec} (member : spec ∈ kernel.specs) :
    ∃ inherited species, kernel.specs.lineageOf spec = some (spec :: inherited) ∧
      Bootstrapper.buildMetaobjectsOf kernel.specs spec = some species ∧
      decode species.format =
        ⟨uint32 (instVarCount (spec :: inherited)) % 128, spec.isVariable, spec.isPointers⟩ ∧
      decode species.metaFormat =
        ⟨uint32 (kernel.classSize + spec.classInstVarNames.length) % 128, false, true⟩ ∧
      species.slots = uint32 (kernel.classSize + spec.classInstVarNames.length) := by
  obtain ⟨lineage, chained⟩ := kernel.acyclic spec member
  obtain ⟨inherited, rfl⟩ : ∃ inherited, lineage = spec :: inherited := by
    cases chained with
    | root _ => exact ⟨[], rfl⟩
    | child _ _ => exact ⟨_, rfl⟩
  obtain ⟨_, _, _, _, metaclass⟩ := kernel.instSizeOf
    (by simp : "Metaclass" ∈ ["Class", "Metaclass", "Behavior"])
  obtain ⟨_, _, _, _, behavior⟩ := kernel.instSizeOf
    (by simp : "Behavior" ∈ ["Class", "Metaclass", "Behavior"])
  refine ⟨inherited, ⟨
      let format := uint32 (instVarCount (spec :: inherited)) &&& 0x7F
      let format := if spec.isVariable then format ||| 0x2000 else format
      if spec.isPointers then format ||| 0x4000 else format,
    uint32 (kernel.classSize + spec.classInstVarNames.length) &&& 0x7F ||| 0x4000,
    uint32 (kernel.classSize + spec.classInstVarNames.length)⟩, chained.lineageOf member, ?_,
    decode_own spec _, ?_, rfl⟩
  · simp only [Bootstrapper.buildMetaobjectsOf, Bootstrapper.instantiateMetaobjectsOf,
      Bootstrapper.initializeMetaobjectsOf, kernel.instSizeOf_class, metaclass, behavior,
      chained.instSize member, Option.bind_eq_bind, Option.bind_some, ModuleSpec.uint32_add]
  · have size : ∀ value, value &&& 0x7F = value % 128 := fun value =>
      Nat.and_two_pow_sub_one_eq_mod value 7
    simp only [size]
    exact (decode_flags (Nat.mod_lt _ (by decide))).2.2.1

end Kernel

/-- Exactly the definitions that suit the bootstrapper are built as they are described. -/
theorem bootstrapped_exact_iff {classSize : Nat} {spec : ClassSpec} {inherited : List ClassSpec}
    {species : Species}
    (instances : decode species.format =
      ⟨uint32 (instVarCount (spec :: inherited)) % 128, spec.isVariable, spec.isPointers⟩)
    (metaclass : decode species.metaFormat =
      ⟨uint32 (classSize + spec.classInstVarNames.length) % 128, false, true⟩)
    (slots : species.slots = uint32 (classSize + spec.classInstVarNames.length)) :
    Built.Exact classSize ⟨spec :: inherited, .bootstrapper, species⟩ ↔
      Built.Suits classSize ⟨spec :: inherited, .bootstrapper, species⟩ := by
  constructor
  · intro exact_
    have fits := exact_.fits
    refine ⟨fits, ?_, ?_⟩
    · intro untold
      have indexed := congrArg Shape.isIndexed (instances.symm.trans exact_.instances)
      simp only [describedShape, ClassSpec.isVariable, untold, effectiveType_cons,
        Option.isSome_none, Option.none_or] at indexed
      exact Option.isSome_eq_false_iff.mp indexed.symm |> Option.isNone_iff_eq_none.mp
    · have counted := slots.symm.trans exact_.slots
      have bounded := fits.2
      simp only [classInstVarCount_cons] at counted bounded
      rw [uint32_of_lt (by lia)] at counted
      lia
  · rintro ⟨fits, untold, inherits⟩
    have instancesFit := fits.1
    have classFits := fits.2
    simp only [classInstVarCount_cons, inherits, Nat.add_zero] at classFits
    refine ⟨fits, ?_, ?_, ?_⟩
    · have type : effectiveType (spec :: inherited) = spec.classType := by
        rw [effectiveType_cons]
        cases told : spec.classType with
        | none => exact untold told
        | some _ => rfl
      rw [instances, uint32_of_lt (by lia), Nat.mod_eq_of_lt (by lia)]
      simp only [describedShape, type, ClassSpec.isVariable, ClassSpec.isPointers]
    · rw [metaclass, uint32_of_lt (by lia), Nat.mod_eq_of_lt (by lia)]
      simp only [classInstVarCount_cons, inherits, Nat.add_zero]
    · rw [slots, uint32_of_lt (by lia)]
      simp only [classInstVarCount_cons, inherits, Nat.add_zero]

/-! ### The source module loader -/

/-- What the loader makes of a definition, from a superclass that is as described. -/
theorem createNewClassFrom_format {classSize : Nat} {superclass : Built}
    (exact_ : superclass.Exact classSize) (spec : ClassSpec)
    (pointers : spec.isPointers = true)
    (fits : instVarCount (spec :: superclass.lineage) ≤ 0x7F) :
    decode (SourceModuleLoader.createNewClassFrom spec superclass.species).format =
      { describedShape superclass.lineage with
        instSize := instVarCount (spec :: superclass.lineage) } := by
  have described := exact_.instances
  rw [instVarCount_cons] at fits ⊢
  simp only [SourceModuleLoader.createNewClassFrom, if_pos pointers]
  by_cases empty : spec.instVarNames.isEmpty
  · have none : spec.instVarNames.length = 0 := by simpa using empty
    rw [if_pos empty]
    simp only [SourceModuleLoader.newSubclassOf, described, none, Nat.zero_add]
    rfl
  · have size : superclass.species.format % 128 = instVarCount superclass.lineage := by
      have counted := congrArg Shape.instSize described
      rwa [decode_eq] at counted
    have masked : superclass.species.format &&& 0x7F = superclass.species.format % 128 :=
      Nat.and_two_pow_sub_one_eq_mod _ 7
    have total : superclass.species.format - superclass.species.format % 128 +
        superclass.species.format % 128 + spec.instVarNames.length =
        superclass.species.format + spec.instVarNames.length := by
      have := Nat.mod_le superclass.species.format 128
      lia
    rw [if_neg empty]
    simp only [SourceModuleLoader.newSubclassOf, masked]
    rw [total, decode_uint32, decode_add (by lia), described, size, Nat.add_comm]

theorem createNewClassFrom_bytes (spec : ClassSpec) (superclass : Species)
    (bytes : spec.isPointers = false) :
    decode (SourceModuleLoader.createNewClassFrom spec superclass).format =
      ⟨0, true, false⟩ := by
  simp only [SourceModuleLoader.createNewClassFrom, bytes, Bool.false_eq_true, if_false,
    SourceModuleLoader.beBytes]
  decide

theorem createNewClassFrom_class (spec : ClassSpec) (superclass : Species) :
    (SourceModuleLoader.createNewClassFrom spec superclass).metaFormat = superclass.metaFormat ∧
      (SourceModuleLoader.createNewClassFrom spec superclass).slots =
        superclass.metaFormat &&& 0x7F := by
  unfold SourceModuleLoader.createNewClassFrom
  split <;> split <;> exact ⟨rfl, rfl⟩

/-- Exactly the definitions that suit the loader are built as they are described. -/
theorem loaded_exact_iff {classSize : Nat} {superclass : Built}
    (exact_ : superclass.Exact classSize) (spec : ClassSpec) :
    Built.Exact classSize ⟨spec :: superclass.lineage, .sourceModuleLoader,
        SourceModuleLoader.createNewClassFrom spec superclass.species⟩ ↔
      Built.Suits classSize ⟨spec :: superclass.lineage, .sourceModuleLoader,
        SourceModuleLoader.createNewClassFrom spec superclass.species⟩ := by
  obtain ⟨metaFormat, slots⟩ := createNewClassFrom_class spec superclass.species
  have inherited := exact_.metaclass
  have classSize_eq : superclass.species.metaFormat &&& 0x7F =
      classSize + classInstVarCount superclass.lineage := congrArg Shape.instSize inherited
  have total := classInstVarCount_cons spec superclass.lineage
  constructor
  · intro built
    refine ⟨built.fits, ?_, ?_, ?_⟩
    · intro told
      have shape := createNewClassFrom_format exact_ spec
        (by simp [ClassSpec.isPointers, told]) built.fits.1
      have same := shape.symm.trans built.instances
      have indexed := congrArg Shape.isIndexed same
      have pointers := congrArg Shape.isPointers same
      simp only [describedShape, effectiveType_cons, told] at indexed pointers
      cases type : effectiveType superclass.lineage with
      | none => simp [type] at indexed
      | some type' =>
        cases type' with
        | «variable» => rfl
        | bytes => simp [type] at pointers
    · intro told
      have shape := createNewClassFrom_bytes spec superclass.species
        (by simp [ClassSpec.isPointers, told])
      exact (congrArg Shape.instSize (shape.symm.trans built.instances)).symm
    · have counted := slots.symm.trans built.slots
      rw [classSize_eq] at counted
      have none : spec.classInstVarNames.length = 0 := by
        simp only at counted
        lia
      exact List.length_eq_zero_iff.mp none
  · rintro ⟨fits, indexed, bytes, none⟩
    have same : classInstVarCount (spec :: superclass.lineage) =
        classInstVarCount superclass.lineage := by rw [total, none]; exact Nat.zero_add _
    refine ⟨fits, ?_, ?_, ?_⟩
    · by_cases told : spec.classType = some .bytes
      · rw [createNewClassFrom_bytes spec superclass.species (by simp [ClassSpec.isPointers, told])]
        simp [describedShape, effectiveType_cons, told, bytes told]
      · have type : effectiveType (spec :: superclass.lineage) =
            effectiveType superclass.lineage := by
          rw [effectiveType_cons]
          cases other : spec.classType with
          | none => rfl
          | some type' =>
            cases type' with
            | «variable» => rw [indexed other]; rfl
            | bytes => exact (told other).elim
        rw [createNewClassFrom_format exact_ spec (by simp [ClassSpec.isPointers, told]) fits.1]
        simp only [describedShape, type]
    · rw [metaFormat, inherited, same]
    · rw [slots, classSize_eq, same]

/-! ### Runs -/

theorem bootstrap_spec (kernel : Kernel) :
    ∃ classes, bootstrap kernel.specs = some classes ∧
      classes.map Prod.fst = kernel.specs.map ClassSpec.name ∧
      ∀ entry ∈ classes, entry.2.Exact kernel.classSize ↔ entry.2.Suits kernel.classSize := by
  suffices every : ∀ specs, specs ⊆ kernel.specs → ∃ classes : ClassTable,
      (specs.mapM fun spec => do
        let lineage ← kernel.specs.lineageOf spec
        let species ← Bootstrapper.buildMetaobjectsOf kernel.specs spec
        some (spec.name, (⟨lineage, .bootstrapper, species⟩ : Built))) = some classes ∧
      classes.map Prod.fst = specs.map ClassSpec.name ∧
      ∀ entry ∈ classes, entry.2.Exact kernel.classSize ↔ entry.2.Suits kernel.classSize by
    exact every kernel.specs fun _ member => member
  intro specs
  induction specs with
  | nil => exact fun _ => ⟨[], rfl, rfl, by simp⟩
  | cons spec specs inductionHypothesis =>
    intro members
    obtain ⟨classes, mapped, names, exact_⟩ := inductionHypothesis fun _ member =>
      members (List.mem_cons_of_mem _ member)
    obtain ⟨inherited, species, lineage, built, instances, metaclass, slots⟩ :=
      kernel.buildMetaobjectsOf (members List.mem_cons_self)
    refine ⟨(spec.name, ⟨spec :: inherited, .bootstrapper, species⟩) :: classes, ?_, ?_, ?_⟩
    · rw [List.mapM_cons, mapped, lineage]
      simp only [built, Option.bind_eq_bind, Option.bind_some, Option.pure_def]
    · rw [List.map_cons, names, List.map_cons]
    · intro entry member
      rcases List.mem_cons.mp member with rfl | member
      · exact bootstrapped_exact_iff instances metaclass slots
      · exact exact_ entry member

theorem lookup_mem {classes : ClassTable} {name : String} {built : Built}
    (found : classes.lookup name = some built) : (name, built) ∈ classes := by
  induction classes with
  | nil => cases found
  | cons entry classes inductionHypothesis =>
    rw [List.lookup_cons] at found
    split at found
    · rename_i same
      obtain rfl := Option.some.inj found
      rw [eq_of_beq same]
      exact List.mem_cons_self
    · exact List.mem_cons_of_mem _ (inductionHypothesis found)

/-- In any run all classes are as described exactly if all definitions suit their builder. -/
theorem Run.exact_iff {kernel : Kernel} {classes : ClassTable} (run : Run kernel classes) :
    (∀ entry ∈ classes, entry.2.Exact kernel.classSize) ↔
      ∀ entry ∈ classes, entry.2.Suits kernel.classSize := by
  induction run with
  | bootstrap built =>
    obtain ⟨classes, built', _, exact_⟩ := bootstrap_spec kernel
    obtain rfl := Option.some.inj (built.symm.trans built')
    exact forall₂_congr exact_
  | @load classes classes' spec run loaded inductionHypothesis =>
    simp only [loadClass, Option.bind_eq_bind, Option.bind_eq_some_iff, Option.some.injEq]
      at loaded
    obtain ⟨superclass, found, rfl⟩ := loaded
    have member := lookup_mem found
    simp only [List.forall_mem_cons, ← inductionHypothesis]
    constructor
    · rintro ⟨new, old⟩
      exact ⟨(loaded_exact_iff (old _ member) spec).mp new, old⟩
    · rintro ⟨new, old⟩
      exact ⟨(loaded_exact_iff (old _ member) spec).mpr new, old⟩

/-- Definitions are never rejected: a class is built for each of the kernel's, and for each that is
loaded with its superclass there. So all classes of a run are as described, and none is that does
not fit, exactly if all definitions suit their builder. -/
theorem classShapes_iff (kernel : Kernel) :
    (∃ classes, bootstrap kernel.specs = some classes ∧
      classes.map Prod.fst = kernel.specs.map ClassSpec.name) ∧
    (∀ (classes : ClassTable) (spec : ClassSpec), (classes.lookup spec.supername).isSome →
      (loadClass classes spec).isSome) ∧
    ∀ classes, Run kernel classes →
      ((∀ entry ∈ classes, entry.2.Exact kernel.classSize) ↔
        ∀ entry ∈ classes, entry.2.Suits kernel.classSize) := by
  refine ⟨?_, ?_, fun classes run => run.exact_iff⟩
  · obtain ⟨classes, built, names, _⟩ := bootstrap_spec kernel
    exact ⟨classes, built, names⟩
  · intro classes spec present
    obtain ⟨superclass, found⟩ := Option.isSome_iff_exists.mp present
    simp [loadClass, found]

/-- The classes that all others are made of, with their variables. -/
def metaobjectSpecs : ModuleSpec := [
  ⟨"Object", "nil", none, [], []⟩,
  ⟨"Behavior", "Object", none, ["class", "methods", "next"], []⟩,
  ⟨"Species", "Object", none,
    ["superclass", "instanceBehavior", "format", "organization", "instanceVariables"], []⟩,
  ⟨"Class", "Species", none, ["name", "subclasses", "namespaces", "module"], []⟩,
  ⟨"Metaclass", "Species", none, ["class"], []⟩]

def smallKernel : Kernel where
  specs := metaobjectSpecs
  unique := by decide
  acyclic := by
    intro spec member
    have every : ∀ spec ∈ metaobjectSpecs, (metaobjectSpecs.lineageOf spec).isSome := by decide
    obtain ⟨lineage, found⟩ := Option.isSome_iff_exists.mp (every spec member)
    exact ⟨lineage, ModuleSpec.lineage_of_lineageFrom found⟩
  metaobjects := by decide

def point : ClassSpec := ⟨"Point", "Object", none, ["x", "y"], []⟩

def computer : ClassSpec := ⟨"Computer", "Object", none, ["devices"], ["snapshotter"]⟩

theorem classShapes_point :
    ∃ classes, ((bootstrap smallKernel.specs).bind (loadClass · point) = some classes) ∧
      ∀ entry ∈ classes, entry.2.Exact smallKernel.classSize := by
  obtain ⟨kernel, booted⟩ := Option.isSome_iff_exists.mp
    (by decide : (bootstrap smallKernel.specs).isSome)
  obtain ⟨classes, loaded⟩ := Option.isSome_iff_exists.mp
    (by decide : ((bootstrap smallKernel.specs).bind (loadClass · point)).isSome)
  have suits : ((bootstrap smallKernel.specs).bind (loadClass · point)).all (fun classes =>
      decide (∀ entry ∈ classes, entry.2.Suits smallKernel.classSize)) = true := by decide
  rw [loaded] at suits
  refine ⟨classes, loaded, ?_⟩
  rw [booted] at loaded
  exact ((classShapes_iff smallKernel).2.2 classes (.load (.bootstrap booted) loaded)).mpr
    (of_decide_eq_true suits)

/-- The loader makes nothing of class-instance variables: the class has no slot for them. -/
theorem classShapes_computer :
    ∃ kernel classes, bootstrap smallKernel.specs = some kernel ∧
      loadClass kernel computer = some classes ∧ Run smallKernel classes ∧
      ¬ ∀ entry ∈ classes, entry.2.Exact smallKernel.classSize := by
  obtain ⟨kernel, booted⟩ := Option.isSome_iff_exists.mp
    (by decide : (bootstrap smallKernel.specs).isSome)
  obtain ⟨classes, loaded⟩ := Option.isSome_iff_exists.mp
    (by decide : ((bootstrap smallKernel.specs).bind (loadClass · computer)).isSome)
  have short : ((bootstrap smallKernel.specs).bind (loadClass · computer)).all (fun classes =>
      classes.any fun entry => entry.2.species.slots !=
        smallKernel.classSize + classInstVarCount entry.2.lineage) = true := by decide
  rw [loaded] at short
  obtain ⟨entry, member, fewer⟩ := List.any_eq_true.mp (short : List.any classes _ = true)
  rw [booted] at loaded
  refine ⟨kernel, classes, booted, loaded, .load (.bootstrap booted) loaded, fun exact_ => ?_⟩
  exact absurd (exact_ entry member).slots (by simpa using fewer)

end Egg.Classes
