import Egg.Bootstrap.MethodInstallation
import Egg.Collection.Refinement
import Mathlib.Data.List.Dedup

/-! When every method of the kernel is found after it was installed. -/
namespace Egg.Bootstrap

open Egg.Collection Egg.Data Egg.Data.LinearProbing

variable {Method : Type}

/-- A compiled method with its selector. -/
abbrev Definition (Method : Type) := Text × Method

def methodSlot (method : Method) : Slot Method := .plain (.method method)

/-- The last definition given for a selector. -/
def lastDefinition (definitions : List (Definition Method)) (selector : Text) : Option Method :=
  (definitions.reverse.find? fun definition => selector = definition.1).map Prod.snd

def selectors (definitions : List (Definition Method)) : List Text :=
  definitions.map Prod.fst

/-- What a selector stands for in a list without redefinitions. -/
def methodOf (methods : List (Definition Method)) (selector : Text) : Option Method :=
  FiniteMap.lookup (fun left right => left = right) methods selector

/-- A definition replaces the one it redefines, and is added at the end otherwise. -/
def define (definition : Definition Method) : List (Definition Method) → List (Definition Method)
  | [] => [definition]
  | (selector, method) :: rest =>
    if selector = definition.1 then definition :: rest
    else (selector, method) :: define definition rest

/-- An array with some methods and some free places. -/
def arrayOf (methods : List (Definition Method)) (free : Nat) : MethodArray Method :=
  methods.map (fun definition => (symbol definition.1, methodSlot definition.2)) ++
    List.replicate free (.nil, .nil)

theorem symbol_injective {left right : Text} (same : (symbol left : Slot Method) = symbol right) :
    left = right := by
  cases same
  rfl

theorem symbol_ne_nil (selector : Text) : (symbol selector : Slot Method) ≠ .nil := by
  intro same
  cases same

section Defining

variable {definition : Definition Method} {methods : List (Definition Method)}

theorem methodOf_cons (first : Definition Method) (selector : Text) :
    methodOf (first :: methods) selector =
      if selector = first.1 then some first.2 else methodOf methods selector := by
  unfold methodOf FiniteMap.lookup
  rw [List.find?_cons]
  by_cases same : selector = first.1
  · simp only [same, decide_true, if_true, Option.map_some]
  · simp only [same, decide_false, if_false]

theorem mem_of_methodOf {selector : Text} {method : Method}
    (found : methodOf methods selector = some method) : (selector, method) ∈ methods := by
  obtain ⟨entry, first, same⟩ := Option.map_eq_some_iff.mp found
  have holds := List.find?_some first
  have selected : selector = entry.1 := of_decide_eq_true holds
  rw [selected, ← same]
  exact List.mem_of_find?_eq_some first

theorem methodOf_none {selector : Text} (missing : methodOf methods selector = none) :
    selector ∉ selectors methods := by
  intro defined
  obtain ⟨entry, member, same⟩ := List.mem_map.mp defined
  have nowhere := List.find?_eq_none.mp (Option.map_eq_none_iff.mp missing) entry member
  exact nowhere (decide_eq_true same.symm)

theorem methodOf_define (selector : Text) :
    methodOf (define definition methods) selector =
      if selector = definition.1 then some definition.2 else methodOf methods selector := by
  induction methods with
  | nil => exact methodOf_cons definition selector
  | cons first rest ih =>
    unfold define
    split
    · rename_i redefined
      rw [methodOf_cons, methodOf_cons, redefined]
      split <;> rfl
    · rename_i other
      rw [methodOf_cons, methodOf_cons, ih]
      by_cases same : selector = definition.1
      · have apart : selector ≠ first.1 := fun equal => other (equal.symm.trans same)
        rw [if_neg apart, if_pos same, if_pos same]
      · rw [if_neg same, if_neg same]

theorem selectors_define_known (known : definition.1 ∈ selectors methods) :
    selectors (define definition methods) = selectors methods := by
  induction methods with
  | nil => exact absurd known List.not_mem_nil
  | cons first rest ih =>
    unfold define
    split
    · rename_i redefined
      exact congrArg (· :: selectors rest) redefined.symm
    · rename_i other
      have later : definition.1 ∈ selectors rest :=
        (List.mem_cons.mp known).resolve_left fun equal => other equal.symm
      exact congrArg (first.1 :: ·) (ih later)

theorem define_new (new : definition.1 ∉ selectors methods) :
    define definition methods = methods ++ [definition] := by
  induction methods with
  | nil => rfl
  | cons first rest ih =>
    have other : first.1 ≠ definition.1 := fun equal => new (List.mem_cons.mpr (.inl equal.symm))
    have later : definition.1 ∉ selectors rest := fun known => new (List.mem_cons_of_mem _ known)
    rw [define, if_neg other, ih later]
    rfl

theorem lastDefinition_append (definitions : List (Definition Method)) (selector : Text) :
    lastDefinition (definitions ++ [definition]) selector =
      if selector = definition.1 then some definition.2
      else lastDefinition definitions selector := by
  unfold lastDefinition
  rw [List.reverse_append, List.reverse_singleton, List.singleton_append, List.find?_cons]
  by_cases same : selector = definition.1
  · simp only [same, decide_true, if_true, Option.map_some]
  · simp only [same, decide_false, if_false]

theorem lastDefinition_isSome {definitions : List (Definition Method)} {selector : Text}
    (defined : selector ∈ selectors definitions) : lastDefinition definitions selector ≠ none := by
  obtain ⟨definition, member, same⟩ := List.mem_map.mp defined
  rw [lastDefinition, Ne, Option.map_eq_none_iff, List.find?_eq_none]
  intro missing
  exact missing definition (List.mem_reverse.mpr member) (decide_eq_true same.symm)

end Defining

variable [DecidableEq Method]

section Arrays

variable {definition : Definition Method} {methods : List (Definition Method)} {free : Nat}

/-- A definition goes into an array that knows its selector or has room. -/
theorem addMethodToArray_arrayOf (fits : definition.1 ∈ selectors methods ∨ 0 < free) :
    addMethodToArray_ (symbol definition.1) (methodSlot definition.2) (arrayOf methods free) =
      .ok (arrayOf (define definition methods)
        (free + methods.length - (define definition methods).length)) := by
  induction methods with
  | nil =>
    have room := fits.resolve_left List.not_mem_nil
    obtain ⟨free, rfl⟩ := Nat.exists_eq_succ_of_ne_zero room.ne'
    rfl
  | cons first rest ih =>
    rw [arrayOf, List.map_cons, List.cons_append, addMethodToArray_, if_neg (symbol_ne_nil _)]
    by_cases same : first.1 = definition.1
    · rw [if_pos (congrArg symbol same), define, if_pos same, List.length_cons, List.length_cons,
        Nat.add_sub_cancel, same]
      rfl
    · have apart : (symbol first.1 : Slot Method) ≠ symbol definition.1 :=
        fun equal => same (symbol_injective equal)
      have later : definition.1 ∈ selectors rest ∨ 0 < free :=
        fits.imp_left fun known => (List.mem_cons.mp known).resolve_left (Ne.symm same)
      have added := ih later
      rw [arrayOf] at added
      rw [if_neg apart, added, define, if_neg same, List.length_cons, List.length_cons,
        ← Nat.add_assoc, Nat.add_sub_add_right]
      rfl

theorem methodInArray_arrayOf (selector : Text) :
    methodInArray (symbol selector) (arrayOf methods free) =
      (methodOf methods selector).map methodSlot := by
  induction methods with
  | nil => cases free <;> rfl
  | cons first rest ih =>
    rw [arrayOf, List.map_cons, List.cons_append, methodInArray, if_neg (symbol_ne_nil _), methodOf_cons]
    by_cases same : selector = first.1
    · rw [if_pos (congrArg symbol same.symm), if_pos same, Option.map_some]
    · have apart : (symbol first.1 : Slot Method) ≠ symbol selector :=
        fun equal => same (symbol_injective equal).symm
      rw [if_neg apart, if_neg same]
      exact ih

theorem addMethodToArray_length {selector method : Slot Method} {array changed : MethodArray Method}
    (added : addMethodToArray_ selector method array = .ok changed) :
    changed.length = array.length := by
  induction array generalizing changed with
  | nil => cases added
  | cons entry rest ih =>
    unfold addMethodToArray_ at added
    split at added
    · cases added
      rfl
    · split at added
      · cases added
        rfl
      · cases later : addMethodToArray_ selector method rest with
        | error message =>
          rw [later] at added
          cases added
        | ok array =>
          rw [later] at added
          cases added
          exact congrArg (· + 1) (ih later)

theorem mem_of_methodInArray {selector method : Slot Method} {array : MethodArray Method}
    (found : methodInArray selector array = some method) : selector ∈ array.map Prod.fst := by
  induction array with
  | nil => cases found
  | cons entry rest ih =>
    unfold methodInArray at found
    split at found
    · cases found
    · split at found
      · rename_i same
        exact List.mem_cons.mpr (.inl same.symm)
      · exact List.mem_cons_of_mem _ (ih found)

/-- Add a definition to an array that has room for it; it is lost otherwise. -/
def keep (array : MethodArray Method) (definition : Definition Method) : MethodArray Method :=
  match addMethodToArray_ (symbol definition.1) (methodSlot definition.2) array with
  | .ok changed => changed
  | .error _ => array

theorem keep_length (array : MethodArray Method) (definition : Definition Method) :
    (keep array definition).length = array.length := by
  unfold keep
  split
  · rename_i added
    exact addMethodToArray_length added
  · rfl

theorem keep_all_length (definitions : List (Definition Method)) (array : MethodArray Method) :
    (definitions.foldl keep array).length = array.length := by
  induction definitions generalizing array with
  | nil => rfl
  | cons definition rest ih => rw [List.foldl_cons, ih, keep_length]

end Arrays

section Loading

variable (compile : Species → Text → Compilation Method)

/-- What the sources of a species compile to, in the order of the specification. -/
def definitions (cls : Species) (methods : List MethodSpec) : List (Definition Method) :=
  methods.filterMap fun method =>
    match compile cls method.source with
    | .compiled selector method => some (selector, method)
    | .thrown _ | .exit => none

def methodsOf (spec : ClassSpec) (isMeta : Bool) : List MethodSpec :=
  if isMeta then spec.metaclass.methods else spec.methods

variable {compile} {cls : Species} {loading next : Loading Method}

theorem loadMethod_arrays {method : MethodSpec}
    (loaded : loadMethod compile cls loading method = some next) :
    next.arrays = Function.update loading.arrays cls
      ((definitions compile cls [method]).foldl keep (loading.arrays cls)) := by
  unfold loadMethod compileAndInstallMethod_ at loaded
  unfold definitions
  rw [List.filterMap_cons]
  cases compiled : compile cls method.source with
  | exit =>
    rw [compiled] at loaded
    cases loaded
  | thrown message =>
    rw [compiled] at loaded
    cases loaded
    exact (Function.update_eq_self cls loading.arrays).symm
  | compiled selector compiledMethod =>
    rw [compiled] at loaded
    simp only [List.filterMap_nil, List.foldl_cons, List.foldl_nil, keep, methodSlot]
    cases added : addMethodToArray_ (symbol selector) (.plain (.method compiledMethod))
        (loading.arrays cls) with
    | ok changed =>
      simp only [added, Except.map] at loaded
      cases loaded
      rfl
    | error message =>
      simp only [added, Except.map] at loaded
      cases loaded
      exact (Function.update_eq_self cls loading.arrays).symm

theorem loadMethods_arrays {methods : List MethodSpec}
    (loaded : loadMethods compile cls methods loading = some next) :
    next.arrays = Function.update loading.arrays cls
      ((definitions compile cls methods).foldl keep (loading.arrays cls)) := by
  induction methods generalizing loading with
  | nil =>
    cases loaded
    exact (Function.update_eq_self cls _).symm
  | cons method rest ih =>
    rw [loadMethods, List.foldlM_cons] at loaded
    obtain ⟨middle, first, later⟩ := Option.bind_eq_some_iff.mp loaded
    have split : definitions compile cls (method :: rest) =
        definitions compile cls [method] ++ definitions compile cls rest :=
      List.filterMap_append (l := [method])
    rw [ih later, loadMethod_arrays first, Function.update_self, Function.update_idem, split,
      List.foldl_append]

theorem loadClass_arrays {spec : ModuleSpec} {entry : Text × ClassSpec}
    (instantiated : spec.instantiated entry.1 = true)
    (loaded : loadClass compile spec loading entry = some next) :
    (∀ isMeta, next.arrays ⟨entry.1, isMeta⟩ =
      (definitions compile ⟨entry.1, isMeta⟩ (methodsOf entry.2 isMeta)).foldl keep
        (loading.arrays ⟨entry.1, isMeta⟩)) ∧
    ∀ cls : Species, cls.className ≠ entry.1 → next.arrays cls = loading.arrays cls := by
  rw [loadClass, if_pos instantiated] at loaded
  obtain ⟨middle, first, second⟩ := Option.bind_eq_some_iff.mp loaded
  have instanceSide := loadMethods_arrays first
  have classSide := loadMethods_arrays second
  have apart : (⟨entry.1, true⟩ : Species) ≠ ⟨entry.1, false⟩ := by simp
  constructor
  · intro isMeta
    cases isMeta with
    | true => rw [classSide, Function.update_self, instanceSide, Function.update_of_ne apart]; rfl
    | false =>
      rw [classSide, Function.update_of_ne apart.symm, instanceSide, Function.update_self]
      rfl
  · intro cls other
    rw [classSide, Function.update_of_ne fun same => other (congrArg Species.className same),
      instanceSide, Function.update_of_ne fun same => other (congrArg Species.className same)]

theorem loadClasses_arrays {spec : ModuleSpec} {classes : List (Text × ClassSpec)}
    (distinct : (classes.map Prod.fst).Nodup)
    (instantiated : ∀ entry ∈ classes, spec.instantiated entry.1 = true)
    (loaded : classes.foldlM (loadClass compile spec) loading = some next) :
    (∀ entry ∈ classes, ∀ isMeta, next.arrays ⟨entry.1, isMeta⟩ =
      (definitions compile ⟨entry.1, isMeta⟩ (methodsOf entry.2 isMeta)).foldl keep
        (loading.arrays ⟨entry.1, isMeta⟩)) ∧
    ∀ cls : Species, cls.className ∉ classes.map Prod.fst →
      next.arrays cls = loading.arrays cls := by
  induction classes generalizing loading with
  | nil =>
    cases loaded
    exact ⟨fun _ member => absurd member List.not_mem_nil, fun _ _ => rfl⟩
  | cons first rest ih =>
    rw [List.foldlM_cons] at loaded
    obtain ⟨middle, loadedFirst, loadedRest⟩ := Option.bind_eq_some_iff.mp loaded
    obtain ⟨own, others⟩ := loadClass_arrays (instantiated first List.mem_cons_self) loadedFirst
    obtain ⟨absent, distinctRest⟩ := List.nodup_cons.mp distinct
    obtain ⟨ownRest, othersRest⟩ := ih distinctRest
      (fun entry member => instantiated entry (List.mem_cons_of_mem _ member)) loadedRest
    constructor
    · intro entry member isMeta
      rcases List.mem_cons.mp member with rfl | later
      · rw [othersRest _ absent]
        exact own isMeta
      · have apart : entry.1 ≠ first.1 := fun same =>
          absent (same ▸ List.mem_map_of_mem later)
        rw [ownRest entry later isMeta, others ⟨entry.1, isMeta⟩ apart]
    · intro cls outside
      obtain ⟨other, later⟩ := not_or.mp fun inside => outside (List.mem_cons.mpr inside)
      rw [othersRest cls later, others cls other]

/-- Every behavior keeps the definitions that its array had room for. -/
theorem loadKernelMethods_arrays {spec : ModuleSpec}
    (loaded : loadKernelMethods compile spec = some next) {entry : Text × ClassSpec}
    (member : entry ∈ spec.classes) (isMeta : Bool) :
    next.arrays ⟨entry.1, isMeta⟩ =
      (definitions compile ⟨entry.1, isMeta⟩ (methodsOf entry.2 isMeta)).foldl keep
        newMethodArray := by
  have instantiated : ∀ entry ∈ spec.classes, spec.instantiated entry.1 = true :=
    fun entry member => decide_eq_true (List.mem_map_of_mem member)
  exact (loadClasses_arrays spec.distinct instantiated loaded).1 entry member isMeta

theorem foldlM_ends {State Item : Type} {step : State → Item → Option State}
    (goes : ∀ state item, ∃ next, step state item = some next) (items : List Item) (state : State) :
    ∃ last, items.foldlM step state = some last := by
  induction items generalizing state with
  | nil => exact ⟨state, rfl⟩
  | cons item rest ih =>
    obtain ⟨next, stepped⟩ := goes state item
    obtain ⟨last, folded⟩ := ih next
    refine ⟨last, ?_⟩
    rw [List.foldlM_cons, stepped]
    exact folded

/-- Loading comes to an end unless a compilation ends the program. -/
theorem loadKernelMethods_ends (goes : ∀ cls source, compile cls source ≠ .exit)
    (spec : ModuleSpec) : ∃ loading, loadKernelMethods compile spec = some loading := by
  have one : ∀ cls loading method, ∃ next, loadMethod compile cls loading method = some next := by
    intro cls loading method
    unfold loadMethod compileAndInstallMethod_
    cases compiled : compile cls method.source with
    | exit => exact absurd compiled (goes cls _)
    | thrown message => exact ⟨_, rfl⟩
    | compiled selector compiledMethod =>
      cases added : addMethodToArray_ (symbol selector) (.plain (.method compiledMethod))
          (loading.arrays cls) with
      | ok changed =>
        simp only [added, Except.map]
        exact ⟨_, rfl⟩
      | error message =>
        simp only [added, Except.map]
        exact ⟨_, rfl⟩
  refine foldlM_ends (fun loading entry => ?_) _ _
  unfold loadClass
  split
  · obtain ⟨middle, first⟩ := foldlM_ends (one ⟨entry.1, false⟩) entry.2.methods loading
    obtain ⟨last, second⟩ := foldlM_ends (one ⟨entry.1, true⟩) entry.2.metaclass.methods middle
    exact ⟨last, Option.bind_eq_some_iff.mpr ⟨middle, first, second⟩⟩
  · exact ⟨_, rfl⟩

end Loading

section Room

theorem length_le_dedup {names others : List Text} (distinct : names.Nodup)
    (included : names ⊆ others) : names.length ≤ others.dedup.length :=
  (List.subperm_of_subset distinct
    fun _ member => List.mem_dedup.mpr (included member)).length_le

/-- With room for every selector the array holds the last definition of each. -/
theorem keep_all_arrayOf (definitions : List (Definition Method))
    (fits : (selectors definitions).dedup.length ≤ capacity / 2) :
    ∃ methods free, definitions.foldl keep newMethodArray = arrayOf methods free ∧
      methods.length + free = capacity / 2 ∧ (selectors methods).Nodup ∧
      selectors methods ⊆ selectors definitions ∧
      ∀ selector, methodOf methods selector = lastDefinition definitions selector := by
  induction definitions using List.reverseRecOn with
  | nil =>
    exact ⟨[], capacity / 2, rfl, Nat.zero_add _, List.nodup_nil, List.nil_subset _, fun _ => rfl⟩
  | append_singleton definitions definition ih =>
    have grows : selectors definitions ⊆ selectors (definitions ++ [definition]) := by
      rw [selectors, selectors, List.map_append]
      exact List.subset_append_left ..
    have last : definition.1 ∈ selectors (definitions ++ [definition]) :=
      List.mem_map_of_mem (List.mem_append_right _ List.mem_cons_self)
    have fewer : (selectors definitions).dedup.length ≤ capacity / 2 :=
      (length_le_dedup (List.nodup_dedup _)
        fun _ member => grows (List.mem_dedup.mp member)).trans fits
    obtain ⟨methods, free, same, room, distinct, included, found⟩ := ih fewer
    rw [List.foldl_append, same, List.foldl_cons, List.foldl_nil, keep]
    by_cases known : definition.1 ∈ selectors methods
    · have kept := selectors_define_known known
      have length : (define definition methods).length = methods.length := by
        simpa only [selectors, List.length_map] using congrArg List.length kept
      rw [addMethodToArray_arrayOf (.inl known)]
      refine ⟨_, _, rfl, ?_, kept ▸ distinct, fun _ member => grows (included (kept ▸ member)), ?_⟩
      · rw [length, Nat.add_sub_cancel, room]
      · intro selector
        rw [methodOf_define, lastDefinition_append, found]
    · have more := length_le_dedup (List.nodup_cons.mpr ⟨known, distinct⟩)
        (List.cons_subset.mpr ⟨last, List.Subset.trans included grows⟩)
      rw [List.length_cons, selectors, List.length_map] at more
      have vacant : 0 < free := by omega
      rw [addMethodToArray_arrayOf (.inr vacant)]
      have added := define_new known
      refine ⟨_, _, rfl, ?_, ?_, ?_, ?_⟩
      · rw [added, List.length_append, List.length_singleton]
        omega
      · rw [added, selectors, List.map_append, List.nodup_append_comm]
        exact List.nodup_cons.mpr ⟨known, distinct⟩
      · rw [added, selectors, List.map_append]
        exact List.append_subset.mpr ⟨List.Subset.trans included grows, List.cons_subset.mpr
          ⟨last, List.nil_subset _⟩⟩
      · intro selector
        rw [methodOf_define, lastDefinition_append, found]

/-- An array that answers for every selector has room for all of them. -/
theorem fits_of_found {definitions : List (Definition Method)}
    (found : ∀ selector ∈ selectors definitions,
      methodInArray (symbol selector) (definitions.foldl keep newMethodArray) ≠ none) :
    (selectors definitions).dedup.length ≤ capacity / 2 := by
  have length : (definitions.foldl keep newMethodArray).length = capacity / 2 := by
    rw [keep_all_length, newMethodArray, List.length_replicate]
  let slots : List (Slot Method) := (selectors definitions).dedup.map symbol
  have distinct : slots.Nodup := (List.nodup_dedup _).map fun _ _ => symbol_injective
  have included : slots ⊆ (definitions.foldl keep newMethodArray).map Prod.fst := by
    intro slot member
    obtain ⟨selector, defined, rfl⟩ := List.mem_map.mp member
    obtain ⟨method, answer⟩ := Option.ne_none_iff_exists'.mp
      (found selector (List.mem_dedup.mp defined))
    exact mem_of_methodInArray answer
  have bound := (List.subperm_of_subset distinct included).length_le
  rwa [List.length_map, List.length_map, length] at bound

end Room

end Egg.Bootstrap
