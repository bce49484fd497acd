import Mathlib.Algebra.GroupWithZero.Nat
import Mathlib.Data.List.Nodup
import Mathlib.Data.List.Perm.Subperm
import Mathlib.Tactic.Common

/-! Definitions of classes, and the shape of instances and classes that they describe. -/
namespace Egg.Classes

/-- What `#type` can say of the instances of a class. -/
inductive ClassType where
  | «variable»
  | bytes
  deriving DecidableEq

/-- A class definition as it is read: the text of `#type`, if there is one. -/
structure ClassSpec where
  name : String
  supername : String
  type : Option String
  instVarNames : List String
  classInstVarNames : List String
  deriving DecidableEq

namespace ClassSpec

/-- Other texts are taken as if nothing was said. -/
def classType (spec : ClassSpec) : Option ClassType :=
  match spec.type with
  | some "variable" => some .variable
  | some "bytes" => some .bytes
  | _ => none

def isVariable (spec : ClassSpec) : Bool := spec.classType.isSome

def isPointers (spec : ClassSpec) : Bool := spec.classType != some .bytes

end ClassSpec

/-- The classes of a module by their names. -/
abbrev ModuleSpec := List ClassSpec

def uint32 (value : Nat) : Nat := value % 2 ^ 32

namespace ModuleSpec

variable (specs : ModuleSpec)

def resolveClass (name : String) : Option ClassSpec := specs.find? (·.name == name)

def superclass (spec : ClassSpec) : Option ClassSpec :=
  if spec.supername = "" ∨ spec.supername = "nil" then none
  else specs.resolveClass spec.supername

/-- The loop over the superclasses; it does not end where there is no end of them. -/
def countFrom : Nat → Option ClassSpec → Nat → Option Nat
  | _, none, count => some count
  | 0, some _, _ => none
  | fuel + 1, some super, count =>
    countFrom fuel (specs.superclass super) (uint32 (count + super.instVarNames.length))

def instSize (spec : ClassSpec) : Option Nat :=
  specs.countFrom specs.length (specs.superclass spec) (uint32 spec.instVarNames.length)

/-- A class and its superclasses, up to one without. -/
inductive Lineage : ClassSpec → List ClassSpec → Prop where
  | root {spec : ClassSpec} (ends : specs.superclass spec = none) : Lineage spec [spec]
  | child {spec super : ClassSpec} {chain : List ClassSpec}
      (inherits : specs.superclass spec = some super) (chained : Lineage super chain) :
      Lineage spec (spec :: chain)

def lineageFrom : Nat → ClassSpec → Option (List ClassSpec)
  | 0, _ => none
  | fuel + 1, spec =>
    match specs.superclass spec with
    | none => some [spec]
    | some super => (lineageFrom fuel super).map (spec :: ·)

def lineageOf (spec : ClassSpec) : Option (List ClassSpec) := specs.lineageFrom specs.length spec

end ModuleSpec

/-- How many slots instances have, and whether they have elements and hold pointers. -/
structure Shape where
  instSize : Nat
  isIndexed : Bool
  isPointers : Bool
  deriving DecidableEq

section Described

variable (lineage : List ClassSpec)

/-- Own and inherited instance variables. -/
def instVarCount : Nat := (lineage.map (·.instVarNames.length)).sum

/-- Own and inherited class-instance variables. -/
def classInstVarCount : Nat := (lineage.map (·.classInstVarNames.length)).sum

/-- The own type or the closest that is inherited. -/
def effectiveType : Option ClassType := lineage.findSome? ClassSpec.classType

/-- The shape of instances that a class and its superclasses describe. -/
def describedShape : Shape where
  instSize := instVarCount lineage
  isIndexed := (effectiveType lineage).isSome
  isPointers := effectiveType lineage != some .bytes

/-- The counts of a class, and of its metaclass, fit the field for them in a format. -/
def Fits (classSize : Nat) : Prop :=
  instVarCount lineage ≤ 0x7F ∧ classSize + classInstVarCount lineage ≤ 0x7F

instance (classSize : Nat) : Decidable (Fits lineage classSize) :=
  inferInstanceAs (Decidable (_ ∧ _))

end Described

/-- The definitions of a kernel: no two of one name, and none that inherits from itself. -/
structure Kernel where
  specs : ModuleSpec
  unique : (specs.map ClassSpec.name).Nodup
  acyclic : ∀ spec ∈ specs, ∃ lineage, specs.Lineage spec lineage
  metaobjects : ∀ name ∈ ["Class", "Metaclass", "Behavior"], (specs.resolveClass name).isSome

namespace ModuleSpec

variable {specs : ModuleSpec}

theorem resolveClass_mem {name : String} {spec : ClassSpec}
    (found : specs.resolveClass name = some spec) : spec ∈ specs :=
  List.mem_of_find?_eq_some found

theorem superclass_mem {spec super : ClassSpec} (inherits : specs.superclass spec = some super) :
    super ∈ specs := by
  unfold superclass at inherits
  split at inherits
  · cases inherits
  · exact resolveClass_mem inherits

theorem Lineage.unique {spec : ClassSpec} {first second : List ClassSpec}
    (one : specs.Lineage spec first) (other : specs.Lineage spec second) : first = second := by
  induction one generalizing second with
  | root ends =>
    cases other with
    | root _ => rfl
    | child inherits _ => simp [ends] at inherits
  | child inherits chained inductionHypothesis =>
    cases other with
    | root ends => simp [ends] at inherits
    | child inherits' chained' =>
      obtain rfl := Option.some.inj (inherits.symm.trans inherits')
      rw [inductionHypothesis chained']

/-- Every class of a lineage has one of its own that is not longer. -/
theorem Lineage.of_mem {spec member : ClassSpec} {chain : List ClassSpec}
    (lineage : specs.Lineage spec chain) (present : member ∈ chain) :
    ∃ tail, specs.Lineage member tail ∧ tail.length ≤ chain.length := by
  induction lineage with
  | root ends =>
    obtain rfl := List.mem_singleton.mp present
    exact ⟨_, .root ends, Nat.le_refl _⟩
  | child inherits chained inductionHypothesis =>
    rcases List.mem_cons.mp present with rfl | present
    · exact ⟨_, .child inherits chained, Nat.le_refl _⟩
    · obtain ⟨tail, lineage, shorter⟩ := inductionHypothesis present
      exact ⟨tail, lineage, Nat.le_succ_of_le shorter⟩

/-- No class is its own superclass, however far away. -/
theorem Lineage.nodup {spec : ClassSpec} {chain : List ClassSpec}
    (lineage : specs.Lineage spec chain) : chain.Nodup := by
  induction lineage with
  | root _ => exact List.nodup_singleton _
  | child inherits chained inductionHypothesis =>
    refine List.nodup_cons.mpr ⟨?_, inductionHypothesis⟩
    intro present
    obtain ⟨tail, lineage, shorter⟩ := chained.of_mem present
    rw [lineage.unique (.child inherits chained)] at shorter
    exact Nat.not_succ_le_self _ shorter

theorem Lineage.subset {spec : ClassSpec} {chain : List ClassSpec} (member : spec ∈ specs)
    (lineage : specs.Lineage spec chain) : chain ⊆ specs := by
  induction lineage with
  | root _ =>
    intro found present
    obtain rfl := List.mem_singleton.mp present
    exact member
  | child inherits _ inductionHypothesis =>
    intro found present
    rcases List.mem_cons.mp present with rfl | present
    · exact member
    · exact inductionHypothesis (superclass_mem inherits) present

theorem Lineage.length_le {spec : ClassSpec} {chain : List ClassSpec} (member : spec ∈ specs)
    (lineage : specs.Lineage spec chain) : chain.length ≤ specs.length :=
  (List.subperm_of_subset lineage.nodup (lineage.subset member)).length_le

theorem Lineage.lineageFrom {spec : ClassSpec} {chain : List ClassSpec}
    (lineage : specs.Lineage spec chain) {fuel : Nat} (enough : chain.length ≤ fuel) :
    specs.lineageFrom fuel spec = some chain := by
  induction lineage generalizing fuel with
  | root ends =>
    obtain ⟨fuel, rfl⟩ := Nat.exists_eq_add_of_le' enough
    simp [ModuleSpec.lineageFrom, ends]
  | child inherits chained inductionHypothesis =>
    cases fuel with
    | zero => simp at enough
    | succ fuel =>
      have inherited := inductionHypothesis (Nat.le_of_succ_le_succ enough)
      simp [ModuleSpec.lineageFrom, inherits, inherited]

theorem lineage_of_lineageFrom {fuel : Nat} {spec : ClassSpec} {chain : List ClassSpec}
    (found : specs.lineageFrom fuel spec = some chain) : specs.Lineage spec chain := by
  induction fuel generalizing spec chain with
  | zero => cases found
  | succ fuel inductionHypothesis =>
    rw [ModuleSpec.lineageFrom] at found
    cases inherits : specs.superclass spec with
    | none =>
      simp only [inherits, Option.some.injEq] at found
      exact found ▸ .root inherits
    | some super =>
      simp only [inherits, Option.map_eq_some_iff] at found
      obtain ⟨rest, inherited, rfl⟩ := found
      exact .child inherits (inductionHypothesis inherited)

theorem Lineage.lineageOf {spec : ClassSpec} {chain : List ClassSpec} (member : spec ∈ specs)
    (lineage : specs.Lineage spec chain) : specs.lineageOf spec = some chain :=
  lineage.lineageFrom (lineage.length_le member)

theorem uint32_add (left right : Nat) : uint32 (uint32 left + right) = uint32 (left + right) :=
  Nat.mod_add_mod _ _ _

/-- The loop over the superclasses adds up the variables of the lineage. -/
theorem Lineage.countFrom {spec : ClassSpec} {chain : List ClassSpec}
    (lineage : specs.Lineage spec chain) {fuel : Nat} (enough : chain.length ≤ fuel + 1)
    (count : Nat) :
    specs.countFrom fuel (specs.superclass spec)
      (uint32 (count + spec.instVarNames.length)) = some (uint32 (count + instVarCount chain)) := by
  induction lineage generalizing fuel count with
  | root ends =>
    rw [ends]
    simp [ModuleSpec.countFrom, instVarCount]
  | @child spec super chain inherits chained inductionHypothesis =>
    have longer : chain ≠ [] := by
      cases chained <;> simp
    have positive := List.length_pos_iff.mpr longer
    simp only [List.length_cons] at enough
    obtain ⟨fuel, rfl⟩ : ∃ rest, fuel = rest + 1 := ⟨fuel - 1, by omega⟩
    rw [inherits, ModuleSpec.countFrom, uint32_add,
      inductionHypothesis (by omega) (count + spec.instVarNames.length)]
    simp [instVarCount, Nat.add_assoc]

theorem Lineage.instSize {spec : ClassSpec} {chain : List ClassSpec} (member : spec ∈ specs)
    (lineage : specs.Lineage spec chain) :
    specs.instSize spec = some (uint32 (instVarCount chain)) := by
  have counted := lineage.countFrom (Nat.le_succ_of_le (lineage.length_le member)) 0
  simpa [ModuleSpec.instSize] using counted

end ModuleSpec

end Egg.Classes
