import Egg.Bootstrap.InstalledMethods

/-! The dictionaries that method arrays are converted to, and what is found in them. -/
namespace Egg.Bootstrap

open Egg.Collection Egg.Data Egg.Data.LinearProbing

variable {Method : Type} [DecidableEq Method]

section Sizes

theorem doubled_gt (size last : Nat) (positive : 0 < last) : size < doubled size last := by
  induction last using doubled.induct size with
  | case1 last stops =>
    rw [doubled, if_pos stops]
    exact stops.resolve_right positive.ne'
  | case2 last goes ih =>
    rw [doubled, if_neg goes]
    exact ih (Nat.mul_pos positive Nat.two_pos)

/-- The modulo is larger than the size it is for. -/
theorem moduloFor_gt (size : Nat) : size < moduloFor size := by
  unfold moduloFor
  cases found : powers.find? (size < ·) with
  | none =>
    rw [Option.getD_none]
    exact doubled_gt size 4096 (by decide)
  | some power =>
    rw [Option.getD_some]
    have larger := List.find?_some found
    exact of_decide_eq_true larger

/-- A new dictionary has more than a third of its places to spare. -/
theorem moduloFor_sizeFor (count : Nat) :
    count * 4 < moduloFor (HashedCollection.sizeFor count) * 3 := by
  have larger := moduloFor_gt (HashedCollection.sizeFor count)
  have wide : count * 3 / 2 ≤ HashedCollection.sizeFor count := Nat.le_max_right ..
  lia

end Sizes

section Conversion

variable {basicHash : Slot Method → Int} {dictionary : MethodDictionary Method} {count : Nat}
  {cells : Nat → Option (Entry (KernelObject Method))}

/-- The entry of a dictionary for a definition. -/
def entryOf (definition : Definition Method) : Entry (KernelObject Method) :=
  (some (.symbol definition.1), some (.method definition.2))

/-- A dictionary in order that counts its entries. -/
structure Ordered (basicHash : Slot Method → Int) (dictionary : MethodDictionary Method)
    (count : Nat) (cells : Nat → Option (Entry (KernelObject Method))) : Prop where
  valid : dictionary.table.Valid (identity basicHash) .inlinedDictionary count cells
  tally : dictionary.tally = (entries count cells).length

theorem Ordered.new (basicHash : Slot Method → Int) (size : Nat) :
    Ordered basicHash (MethodDictionary.new size)
      (moduloFor (HashedCollection.sizeFor size)) (fun _ => none) where
  valid := {
    represents := { size := rfl, holds := fun _ _ => rfl }
    probed := Probed.empty
    distinct := by simp [entries] }
  tally := by simp [entries, MethodDictionary.new]

theorem Ordered.room (ordered : Ordered basicHash dictionary count cells)
    (spare : dictionary.tally * 4 < count * 3) : (entries count cells).length < count := by
  have tally := ordered.tally
  lia

theorem Ordered.models (ordered : Ordered basicHash dictionary count cells)
    (spare : dictionary.tally * 4 < count * 3) :
    HashedCollection.Models (identity basicHash) .inlinedDictionary dictionary count cells where
  valid := ordered.valid
  tally := ordered.tally
  capacity := (HashedCollection.isCapacityGreaterThan_iff ordered.valid _).mpr spare

/-- `at:put:` with a new selector fills a free bucket, and never grows when there is room. -/
theorem Ordered.atPut (ordered : Ordered basicHash dictionary count cells)
    (spare : (dictionary.tally + 1) * 4 < count * 3) (definition : Definition Method)
    (absent : ∀ other ∈ entries count cells, other.1 ≠ (entryOf definition).1) :
    ∃ next cells', MethodDictionary.atPut basicHash dictionary (symbol definition.1)
        (methodSlot definition.2) = some next ∧
      Ordered basicHash next count cells' ∧
      (entries count cells').Perm (entryOf definition :: entries count cells) := by
  obtain ⟨found, same, search, place⟩ := ordered.valid.indexOfKey (ordered.room (by lia))
    (entryOf definition).1
  have represents := ordered.valid.represents
  have apart : ∀ other ∈ entries count cells,
      ¬ (identity basicHash).equals (.of (entryOf definition).1) (.of other.1) = true := by
    intro other member equal
    exact absent other member (Object.of_inj (of_decide_eq_true equal)).symm
  have vacant : cells found = none := by
    rcases place with ⟨entry, occupied, equal⟩ | ⟨vacant, -⟩
    · exact absurd equal (apart entry (mem_entries.mpr ⟨found, search.inside, occupied⟩))
    · exact vacant
  obtain ⟨valid, perm⟩ := ordered.valid.fill vacant search apart
    (represents.inlinedAtPut (entryOf definition))
  have tally : dictionary.tally + 1 =
      (entries count (Function.update cells found (some (entryOf definition)))).length := by
    rw [perm.length_eq, List.length_cons, ordered.tally]
  have enough := (HashedCollection.isCapacityGreaterThan_iff valid (dictionary.tally + 1)).mpr spare
  refine ⟨{ tally := dictionary.tally + 1, table := _ }, _, ?_, ⟨valid, tally⟩, perm⟩
  have index : dictionary.table.indexOfKey (identity basicHash) .inlinedDictionary
      (symbol definition.1) = some (HashTable.indexAt .inlinedDictionary found) := same
  have free := (represents.isNil search.inside).mpr vacant
  simp only [MethodDictionary.atPut, MethodDictionary.at?, HashTable.lookupKey, index,
    Option.map_some, Option.bind_eq_bind, Option.bind_some, MethodDictionary.basicAtPut,
    HashTable.atKeyPut, HashTable.atKeyPutAt, if_pos free]
  exact (if_pos rfl).trans (if_pos enough)

/-- Putting definitions without redefinitions one after another. -/
theorem Ordered.atPutAll (methods : List (Definition Method))
    (ordered : Ordered basicHash dictionary count cells)
    (spare : (dictionary.tally + methods.length) * 4 < count * 3)
    (distinct : (selectors methods).Nodup)
    (absent : ∀ definition ∈ methods, ∀ other ∈ entries count cells,
      other.1 ≠ (entryOf definition).1) :
    ∃ last cells', (methods.map fun definition => (symbol definition.1,
          methodSlot definition.2)).foldlM
        (fun dictionary entry => MethodDictionary.atPut basicHash dictionary entry.1 entry.2)
        dictionary = some last ∧
      Ordered basicHash last count cells' ∧ last.tally = dictionary.tally + methods.length ∧
      (entries count cells').Perm (methods.map entryOf ++ entries count cells) := by
  induction methods generalizing dictionary cells with
  | nil => exact ⟨dictionary, cells, rfl, ordered, rfl, .refl _⟩
  | cons first rest ih =>
    rw [List.length_cons] at spare
    obtain ⟨new, distinctRest⟩ := List.nodup_cons.mp distinct
    obtain ⟨middle, filled, put, orderedMiddle, perm⟩ := ordered.atPut (by lia) first
      (absent first List.mem_cons_self)
    have tally : middle.tally = dictionary.tally + 1 := by
      rw [orderedMiddle.tally, perm.length_eq, List.length_cons, ordered.tally]
    obtain ⟨last, cells', folded, orderedLast, tallyLast, permLast⟩ := ih orderedMiddle
      (by lia) distinctRest (by
        intro definition member other inside same
        rcases List.mem_cons.mp (perm.mem_iff.mp inside) with rfl | before
        · have names := KernelObject.symbol.inj (Option.some.inj same)
          exact new (names ▸ List.mem_map_of_mem member)
        · exact absent definition (List.mem_cons_of_mem _ member) other before same)
    refine ⟨last, cells', ?_, orderedLast, by rw [tallyLast, tally, List.length_cons]; lia, ?_⟩
    · rw [List.map_cons, List.foldlM_cons, put]
      exact folded
    · exact permLast.trans ((perm.append_left _).trans List.perm_middle)

theorem entriesOf_arrayOf (methods : List (Definition Method)) (free : Nat) :
    entriesOf (arrayOf methods free) = methods.map fun definition =>
      (symbol definition.1, methodSlot definition.2) := by
  unfold entriesOf
  induction methods with
  | nil => cases free <;> rfl
  | cons first rest ih =>
    have longer := @List.takeWhile_cons_of_pos _
      (fun entry : Slot Method × Slot Method => entry.1 ≠ .nil)
      (symbol first.1, methodSlot first.2) (arrayOf rest free)
      (decide_eq_true (symbol_ne_nil first.1))
    exact longer.trans (congrArg ((symbol first.1, methodSlot first.2) :: ·) ih)

/-- Converting an array gives a dictionary with its methods. -/
theorem converts (basicHash : Slot Method → Int) {methods : List (Definition Method)}
    (distinct : (selectors methods).Nodup) (free : Nat) :
    ∃ dictionary count cells,
      convertBehaviorMethodDict_ basicHash (arrayOf methods free) = some dictionary ∧
      HashedCollection.Models (identity basicHash) .inlinedDictionary dictionary count cells ∧
      (entries count cells).Perm (methods.map entryOf) := by
  have spare := moduloFor_sizeFor methods.length
  obtain ⟨dictionary, cells, folded, ordered, tally, perm⟩ := Ordered.atPutAll methods
    (Ordered.new basicHash methods.length) (by rwa [MethodDictionary.new, Nat.zero_add]) distinct
    (by simp [entries])
  rw [MethodDictionary.new, Nat.zero_add] at tally
  refine ⟨dictionary, _, cells, ?_, ordered.models (by rwa [tally]), ?_⟩
  · rw [convertBehaviorMethodDict_, entriesOf_arrayOf, List.length_map]
    exact folded
  · rwa [show entries (moduloFor (HashedCollection.sizeFor methods.length))
      (fun _ => (none : Option (Entry (KernelObject Method)))) = [] by simp [entries],
      List.append_nil] at perm

end Conversion

section Lookup

variable {basicHash : Slot Method → Int} {table : HashTable (KernelObject Method)} {count : Nat}
  {cells : Nat → Option (Entry (KernelObject Method))}

omit [DecidableEq Method] in
theorem slotAt_key (policy : Slot Method) (bucket : Nat) :
    slotAt_ policy table (2 + 2 * bucket) =
      table.slots (HashTable.indexAt .inlinedDictionary bucket) := by
  have index : 2 + 2 * bucket - 1 = HashTable.indexAt .inlinedDictionary bucket := by
    simp only [HashTable.indexAt, HashTable.slotsPerElement]
    lia
  rw [slotAt_, if_neg (by lia), index]

omit [DecidableEq Method] in
theorem slotAt_value (policy : Slot Method) (bucket : Nat) :
    slotAt_ policy table (2 + 2 * bucket + 1) =
      table.slots (HashTable.indexAt .inlinedDictionary bucket + 1) := by
  have index : 2 + 2 * bucket + 1 - 1 = HashTable.indexAt .inlinedDictionary bucket + 1 := by
    simp only [HashTable.indexAt, HashTable.slotsPerElement]
    lia
  rw [slotAt_, if_neg (by lia), index]

omit [DecidableEq Method] in
/-- A bucket whose first slot is a selector has an entry for it. -/
theorem entry_of_slot (represents : table.Represents .inlinedDictionary count cells)
    {bucket : Nat} (inside : bucket < count) {selector : Text}
    (key : table.slots (HashTable.indexAt .inlinedDictionary bucket) = symbol selector) :
    ∃ entry, cells bucket = some entry ∧ entry.1 = some (.symbol selector) := by
  have holds := represents.holds bucket inside
  cases content : cells bucket with
  | none =>
    rw [content] at holds
    exact absurd (key.symm.trans holds) (symbol_ne_nil selector)
  | some entry =>
    rw [content] at holds
    refine ⟨entry, rfl, ?_⟩
    have stored : (Object.of entry.1).orToken = symbol selector := holds.1.symm.trans key
    cases object : entry.1 with
    | none =>
      rw [object] at stored
      cases stored
    | some object' =>
      rw [object] at stored
      cases stored
      rfl

/-- The scan over the table finds the method of a selector that has an entry. -/
theorem methodInTable_present
    (valid : table.Valid (identity basicHash) .inlinedDictionary count cells)
    (policy : Slot Method) {definition : Definition Method}
    (member : entryOf definition ∈ entries count cells) :
    methodInTable policy (symbol definition.1) table = some (methodSlot definition.2) := by
  have half : table.size / 2 = count := by
    rw [valid.represents.size]
    exact Nat.mul_div_cancel count Nat.two_pos
  obtain ⟨bucket, inside, occupied⟩ := mem_entries.mp member
  have content := valid.represents.holds bucket inside
  rw [occupied] at content
  rw [methodInTable, half]
  cases scan : (List.range' 2 count 2).find? fun index =>
      slotAt_ policy table index = symbol definition.1 with
  | none =>
    have nowhere := List.find?_eq_none.mp scan (2 + 2 * bucket)
      (List.mem_range'.mpr ⟨bucket, inside, rfl⟩)
    rw [slotAt_key, content.1] at nowhere
    exact absurd (decide_eq_true rfl) nowhere
  | some index =>
    obtain ⟨other, below, rfl⟩ := List.mem_range'.mp (List.mem_of_find?_eq_some scan)
    have selected := List.find?_some scan
    have key := of_decide_eq_true selected
    rw [slotAt_key] at key
    obtain ⟨entry, occupiedOther, same⟩ := entry_of_slot valid.represents below key
    have bucketSame : other = bucket := valid.position_unique below inside occupiedOther occupied
      (decide_eq_true (congrArg Object.of same))
    rw [Option.map_some, slotAt_value, bucketSame, content.2 rfl]
    rfl

theorem methodInTable_absent
    (valid : table.Valid (identity basicHash) .inlinedDictionary count cells)
    (policy : Slot Method) {selector : Text}
    (absent : ∀ entry ∈ entries count cells, entry.1 ≠ some (.symbol selector)) :
    methodInTable policy (symbol selector) table = none := by
  have half : table.size / 2 = count := by
    rw [valid.represents.size]
    exact Nat.mul_div_cancel count Nat.two_pos
  rw [methodInTable, half, Option.map_eq_none_iff, List.find?_eq_none]
  intro index member found
  obtain ⟨bucket, below, rfl⟩ := List.mem_range'.mp member
  have key := of_decide_eq_true found
  rw [slotAt_key] at key
  obtain ⟨entry, occupied, same⟩ := entry_of_slot valid.represents below key
  exact absent entry (mem_entries.mpr ⟨bucket, below, occupied⟩) same

end Lookup

section Installation

variable {compile : Species → Text → Compilation Method} {loading : Loading Method}

/-- Every selector stands for its last definition, in the array and in the dictionary that the
array is converted to; the dictionary answers the same to the scan and to `at:ifAbsent:`. -/
structure Installed (basicHash : Slot Method → Int) (definitions : List (Definition Method))
    (array : MethodArray Method) : Prop where
  inArray : ∀ selector, methodInArray (symbol selector) array =
    (lastDefinition definitions selector).map methodSlot
  converted : ∃ dictionary, convertBehaviorMethodDict_ basicHash array = some dictionary ∧
    ∀ selector,
      MethodDictionary.at? basicHash dictionary (symbol selector) =
        some ((lastDefinition definitions selector).map methodSlot) ∧
      ∀ policy, methodInTable policy (symbol selector) dictionary.table =
        (lastDefinition definitions selector).map methodSlot

/-- Room for every selector is enough. -/
theorem installed_of_fits (basicHash : Slot Method → Int) {definitions : List (Definition Method)}
    (fits : (selectors definitions).dedup.length ≤ capacity / 2) :
    Installed basicHash definitions (definitions.foldl keep newMethodArray) := by
  obtain ⟨methods, free, same, -, distinct, -, found⟩ := keep_all_arrayOf definitions fits
  obtain ⟨dictionary, count, cells, converted, models, perm⟩ := converts basicHash distinct free
  rw [same]
  refine ⟨fun selector => by rw [methodInArray_arrayOf, found], dictionary, converted, ?_⟩
  intro selector
  rw [← found]
  cases answer : methodOf methods selector with
  | some method =>
    have member : entryOf (selector, method) ∈ methods.map entryOf :=
      List.mem_map_of_mem (mem_of_methodOf answer)
    refine ⟨?_, fun policy => methodInTable_present models.valid policy (perm.mem_iff.mpr member)⟩
    have present := FiniteMap.lookup_present (identity basicHash).equivalence
      (models.distinct perm) member ((identity basicHash).refl (some (.symbol selector)))
    rcases models.lookupKey perm (some (.symbol selector)) with
      ⟨entry, -, result, value⟩ | ⟨-, missing⟩
    · have value' := Option.some.inj (value.symm.trans present)
      refine Eq.trans result (congrArg (fun answer => some (some answer)) ?_)
      exact congrArg Object.of value'
    · exact absurd (missing.symm.trans present) (Option.some_ne_none _).symm
  | none =>
    have absent : ∀ entry ∈ methods.map entryOf, entry.1 ≠ some (.symbol selector) := by
      intro entry member named
      obtain ⟨definition, defined, rfl⟩ := List.mem_map.mp member
      have selected := KernelObject.symbol.inj (Option.some.inj named)
      exact methodOf_none answer (selected ▸ List.mem_map_of_mem defined)
    refine ⟨?_, fun policy => methodInTable_absent models.valid policy
      fun entry member => absent entry (perm.mem_iff.mp member)⟩
    rcases models.lookupKey perm (some (.symbol selector)) with
      ⟨entry, member, -, value⟩ | ⟨result, -⟩
    · have nowhere : FiniteMap.lookup (identity basicHash).same (methods.map entryOf)
          (some (.symbol selector)) = none := FiniteMap.lookup_absent fun other inside equal =>
        absent other inside (Object.of_inj (of_decide_eq_true equal)).symm
      exact absurd (value.symm.trans nowhere) (Option.some_ne_none _)
    · exact result

theorem fits_of_installed {basicHash : Slot Method → Int} {definitions : List (Definition Method)}
    (installed : Installed basicHash definitions (definitions.foldl keep newMethodArray)) :
    (selectors definitions).dedup.length ≤ capacity / 2 := by
  refine fits_of_found fun selector defined missing => ?_
  rw [installed.inArray] at missing
  exact lastDefinition_isSome defined (Option.map_eq_none_iff.mp missing)

/-- All methods of the kernel are found after loading exactly when no behavior gets more
selectors than a method array has room for. -/
theorem loadKernelMethods_installs_iff (basicHash : Slot Method → Int) (spec : ModuleSpec)
    (loaded : loadKernelMethods compile spec = some loading) :
    (∀ entry ∈ spec.classes, ∀ isMeta, Installed basicHash
        (definitions compile ⟨entry.1, isMeta⟩ (methodsOf entry.2 isMeta))
        (loading.arrays ⟨entry.1, isMeta⟩)) ↔
      ∀ entry ∈ spec.classes, ∀ isMeta,
        (selectors (definitions compile ⟨entry.1, isMeta⟩
          (methodsOf entry.2 isMeta))).dedup.length ≤ 512 := by
  constructor
  · intro installed entry member isMeta
    have all := installed entry member isMeta
    rw [loadKernelMethods_arrays loaded member isMeta] at all
    exact fits_of_installed all
  · intro fits entry member isMeta
    rw [loadKernelMethods_arrays loaded member isMeta]
    exact installed_of_fits basicHash (fits entry member isMeta)

end Installation

section Examples

/-- A class `A` with some methods. -/
def classWith (sources : List Text) : ClassSpec where
  name := text "A"
  supername := text "nil"
  instVarNames := []
  methods := sources.map fun source => { source := source, category := [] }
  metaclass := { instVarNames := [], methods := [] }
  isVariable := false
  isPointers := true
  isExtension := false
  classVarNames := []
  comment := []

def specWith (sources : List Text) : ModuleSpec where
  classes := [(text "A", classWith sources)]
  distinct := List.nodup_singleton _

/-- Unary methods: the selector goes up to the first space. -/
def compileUnary (_ : Species) (source : Text) : Compilation Text :=
  .compiled (source.takeWhile (· ≠ ' '.toNat)) source

theorem compileUnary_ends (cls : Species) (source : Text) : compileUnary cls source ≠ .exit := by
  intro same
  cases same

/-- Three methods, the last of which redefines the first. -/
theorem loadKernelMethods_redefined :
    ∃ loading, loadKernelMethods compileUnary
        (specWith [text "a", text "b", text "a ^1"]) = some loading ∧
      ∀ entry ∈ (specWith [text "a", text "b", text "a ^1"]).classes, ∀ isMeta,
        Installed (fun _ => 0)
          (definitions compileUnary ⟨entry.1, isMeta⟩ (methodsOf entry.2 isMeta))
          (loading.arrays ⟨entry.1, isMeta⟩) := by
  obtain ⟨loading, loaded⟩ := loadKernelMethods_ends compileUnary_ends
    (specWith [text "a", text "b", text "a ^1"])
  refine ⟨loading, loaded, (loadKernelMethods_installs_iff (fun _ => 0) _ loaded).mpr ?_⟩
  decide

/-- The selectors `a`, `aa`, `aaa` and so on, each the source of a method that does nothing. -/
def manySelectors (count : Nat) : List Text :=
  (List.range count).map fun index => List.replicate (index + 1) 'a'.toNat

theorem manySelectors_nodup (count : Nat) : (manySelectors count).Nodup := by
  refine List.nodup_range.map fun left right same => ?_
  have lengths := congrArg List.length same
  rw [List.length_replicate, List.length_replicate] at lengths
  exact Nat.succ.inj lengths

theorem selectors_manySelectors (count : Nat) (cls : Species) :
    selectors (definitions compileUnary cls (classWith (manySelectors count)).methods) =
      manySelectors count := by
  have compiled : ∀ sources : List Text, (∀ source ∈ sources, ∀ c ∈ source, c ≠ ' '.toNat) →
      selectors (definitions compileUnary cls (classWith sources).methods) = sources := by
    intro sources letters
    induction sources with
    | nil => rfl
    | cons source rest ih =>
      have whole : source.takeWhile (· ≠ ' '.toNat) = source :=
        List.takeWhile_eq_self_iff.mpr fun c member =>
          decide_eq_true (letters source List.mem_cons_self c member)
      have others := ih fun other member => letters other (List.mem_cons_of_mem _ member)
      exact congrArg₂ List.cons whole others
  refine compiled _ fun source member c inside => ?_
  obtain ⟨index, -, rfl⟩ := List.mem_map.mp member
  rw [List.eq_of_mem_replicate inside]
  decide

/-- With 513 selectors in one class a method is lost, and loading goes on. -/
theorem loadKernelMethods_loses :
    ¬ ∀ loading, loadKernelMethods compileUnary (specWith (manySelectors 513)) = some loading →
      ∀ entry ∈ (specWith (manySelectors 513)).classes, ∀ isMeta,
        Installed (fun _ => 0)
          (definitions compileUnary ⟨entry.1, isMeta⟩ (methodsOf entry.2 isMeta))
          (loading.arrays ⟨entry.1, isMeta⟩) := by
  intro always
  obtain ⟨loading, loaded⟩ := loadKernelMethods_ends compileUnary_ends (specWith (manySelectors 513))
  have installed := always loading loaded _ List.mem_cons_self false
  rw [loadKernelMethods_arrays loaded List.mem_cons_self false] at installed
  have fits := fits_of_installed installed
  have all := selectors_manySelectors 513 ⟨text "A", false⟩
  have length : (manySelectors 513).length = 513 := by
    rw [manySelectors, List.length_map, List.length_range]
  have bound : (manySelectors 513).dedup.length ≤ capacity / 2 := all ▸ fits
  rw [(manySelectors_nodup 513).dedup, length] at bound
  exact absurd bound (by decide)

end Examples

end Egg.Bootstrap
