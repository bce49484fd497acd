import Egg.Collection.Buckets
import Egg.Data.FiniteMap

/-! When the hashed collections are finite sets and finite maps. -/
namespace Egg.Collection

open Egg.Data Egg.Data.LinearProbing

variable {Value : Type} {hashing : Hashing Value} {kind : Kind} {table : HashTable Value}
  {count : Nat} {cells : Nat → Option (Entry Value)}

/-- Equality of keys. -/
def Hashing.same (hashing : Hashing Value) (left right : Element Value) : Bool :=
  hashing.equals (.of left) (.of right)

theorem Hashing.equivalence (hashing : Hashing Value) :
    Equivalence fun left right => hashing.same left right = true where
  refl := hashing.refl
  symm {left right} := hashing.symm left right
  trans {left middle right} := hashing.trans left middle right

/-- What an operation does to a finite set or map. -/
def Kind.apply (hashing : Hashing Value) (kind : Kind) (map : List (Entry Value)) :
    Operation Value → List (Entry Value)
  | .put key value =>
    match kind with
    | .set => FiniteMap.add hashing.same map key none
    | .dictionary | .inlinedDictionary => FiniteMap.put hashing.same map key value
  | .remove key => FiniteMap.remove hashing.same map key

/-- What a collection hands out, and takes, for an entry. -/
def Kind.element (kind : Kind) (entry : Entry Value) : Object Value :=
  match kind with
  | .set => .of entry.1
  | .dictionary => .association (.of entry.1) (.of entry.2)
  | .inlinedDictionary => .of entry.2

section Sizes

theorem sizes_all : (sizes.zipIdx.all fun entry => 2 * entry.2 + 1 ≤ entry.1) = true := by
  decide +kernel

theorem sizesFrom_length (prime : Nat) (primes : List Nat) (index count : Nat) :
    (sizesFrom prime primes index count).length = count := by
  induction count generalizing prime primes index with
  | zero => rfl
  | succ count ih => exact congrArg (· + 1) (ih _ _ _)

theorem sizes_ge (index : Nat) (inside : index < 126) :
    2 * index + 1 ≤ sizes.getD index 0 := by
  have length : sizes.length = 126 := sizesFrom_length _ _ _ _
  have found := List.getElem?_eq_getElem (length ▸ inside)
  have member : (sizes.get ⟨index, length ▸ inside⟩, index) ∈ sizes.zipIdx :=
    List.mem_zipIdx_iff_getElem?.mpr found
  have large := List.all_eq_true.mp sizes_all _ member
  rw [List.getD_eq_getElem?_getD, found, Option.getD_some]
  exact of_decide_eq_true large

/-- A table is at least as large as it was asked to be. -/
theorem primeFor_ge (size : Nat) : size ≤ primeFor size := by
  have low : size ≤ size ||| 1 := Nat.left_le_or
  have odd : (size ||| 1) % 2 = 1 := by
    rw [Nat.or_mod_two_eq_one]
    exact .inr rfl
  simp only [primeFor]
  split
  · have bound := sizes_ge ((size ||| 1) / 2) (by omega)
    omega
  · cases found : goodPrimes.find? ((size ||| 1) < ·) with
    | none => exact low
    | some prime =>
      have larger := List.find?_some found
      simp only [decide_eq_true_eq] at larger
      rw [Option.getD_some]
      omega

end Sizes

namespace HashTable

theorem Valid.new (hashing : Hashing Value) (kind : Kind) (size : Nat) :
    Valid hashing kind (HashTable.new kind size) (primeFor size) (fun _ => none) where
  represents := {
    size := by cases kind <;> simp [HashTable.new, slotsPerElement]
    holds := fun _ _ => rfl }
  probed := Probed.empty
  distinct := by simp [entries]

/-- Whatever fills the free bucket that the search for a key found adds an entry. -/
theorem Valid.fill (valid : Valid hashing kind table count cells) {changed : HashTable Value}
    {entry : Entry Value} {found : Nat} (vacant : cells found = none)
    (search : First count (Wanted hashing cells entry.1) (hashing.home count entry.1) found)
    (absent : ∀ other ∈ entries count cells, ¬ hashing.equals (.of entry.1) (.of other.1) = true)
    (represents : Represents kind changed count (Function.update cells found (some entry))) :
    Valid hashing kind changed count (Function.update cells found (some entry)) ∧
      (entries count (Function.update cells found (some entry))).Perm
        (entry :: entries count cells) := by
  have perm := entries_fill cells search.inside vacant entry
  refine ⟨⟨represents, ?_, ?_⟩, perm⟩
  · exact valid.probed.insert
      (hashing.home_lt count (Nat.zero_lt_of_lt search.inside) entry.1)
      (fun _ => .inl) search
  · refine perm.pairwise_iff (fun {_ _} apart equal => apart (hashing.symm _ _ equal)) |>.mpr ?_
    exact List.pairwise_cons.mpr ⟨absent, valid.distinct⟩

/-- Whatever gives an entry another value keeps the table in order. -/
theorem Valid.replace (valid : Valid hashing kind table count cells) {changed : HashTable Value}
    {entry : Entry Value} {found : Nat} (inside : found < count)
    (occupied : cells found = some entry) (value : Element Value)
    (represents : Represents kind changed count
      (Function.update cells found (some (entry.1, value)))) :
    Valid hashing kind changed count (Function.update cells found (some (entry.1, value))) ∧
      ∃ rest, (entries count cells).Perm (entry :: rest) ∧
        (entries count (Function.update cells found (some (entry.1, value)))).Perm
          ((entry.1, value) :: rest) := by
  have before := entries_clear inside occupied
  have after := entries_replace cells inside (entry.1, value)
  refine ⟨⟨represents, valid.probed.replace inside occupied rfl, ?_⟩, _, before, after⟩
  have distinct := before.pairwise_iff
    (fun {_ _} apart equal => apart (hashing.symm _ _ equal)) |>.mp valid.distinct
  refine after.pairwise_iff (fun {_ _} apart equal => apart (hashing.symm _ _ equal)) |>.mpr ?_
  exact List.pairwise_cons.mpr (List.pairwise_cons.mp distinct)

theorem Represents.atPut (represents : Represents kind table count cells)
    (other : kind ≠ .inlinedDictionary) {bucket : Nat} (entry : Entry Value) :
    Represents kind (table.atPut (indexAt kind bucket) (kind.element entry)) count
      (Function.update cells bucket (some entry)) := by
  refine represents.update rfl (fun index apart _ => Function.update_of_ne apart _ _) ⟨?_, fun
    inlined => absurd inlined other⟩
  cases kind with
  | set | dictionary => exact Function.update_self ..
  | inlinedDictionary => exact absurd rfl other

theorem Represents.inlinedAtPut (represents : Represents .inlinedDictionary table count cells)
    {bucket : Nat} (entry : Entry Value) :
    Represents .inlinedDictionary
      ((table.atPut (indexAt .inlinedDictionary bucket) (.of entry.1)).atPut
        (indexAt .inlinedDictionary bucket + 1) (.of entry.2)) count
      (Function.update cells bucket (some entry)) := by
  refine represents.update rfl (fun index apart second => ?_) ⟨?_, fun _ => ?_⟩
  · simp only [HashTable.atPut, basicAtPut]
    rw [Function.update_of_ne (second rfl), Function.update_of_ne apart]
  · simp only [HashTable.atPut, basicAtPut]
    rw [Function.update_of_ne (by omega), Function.update_self]
    rfl
  · exact Function.update_self ..

/-- `basicAtKey:put:` of a new key adds its entry. -/
theorem Valid.basicAtKeyPut (valid : Valid hashing kind table count cells)
    (room : (entries count cells).length < count) {entry : Entry Value}
    (absent : ∀ other ∈ entries count cells, ¬ hashing.equals (.of entry.1) (.of other.1) = true) :
    ∃ changed cells', table.basicAtKeyPut hashing kind (.of entry.1) (kind.element entry) =
        some changed ∧ Valid hashing kind changed count cells' ∧
      (entries count cells').Perm (entry :: entries count cells) := by
  obtain ⟨found, same, search, place⟩ := valid.indexOfKey room entry.1
  have vacant : cells found = none := by
    rcases place with ⟨other, occupied, equal⟩ | ⟨vacant, -⟩
    · exact absurd equal (absent other (mem_entries.mpr ⟨found, search.inside, occupied⟩))
    · exact vacant
  have represents : ∃ changed,
      table.basicAtKeyPut hashing kind (.of entry.1) (kind.element entry) = some changed ∧
      Represents kind changed count (Function.update cells found (some entry)) := by
    rw [HashTable.basicAtKeyPut, same]
    cases kind with
    | set | dictionary => exact ⟨_, rfl, valid.represents.atPut (by simp) entry⟩
    | inlinedDictionary => exact ⟨_, rfl, valid.represents.inlinedAtPut entry⟩
  obtain ⟨changed, result, represents⟩ := represents
  exact ⟨changed, _, result, valid.fill vacant search absent represents⟩

/-- What a table hands out are its entries. -/
theorem Valid.keysAndElements (valid : Valid hashing kind table count cells) :
    table.keysAndElements kind (entries count cells).length =
      (entries count cells).map fun entry => (.of entry.1, kind.element entry) := by
  have indices : table.elementIndices kind = (List.range count).map (indexAt kind) := by
    have size := valid.represents.size
    cases kind with
    | set | dictionary =>
      simp only [slotsPerElement, Nat.mul_one] at size
      rw [elementIndices, size]
      exact List.map_congr_left fun bucket _ => by simp [indexAt, slotsPerElement]
    | inlinedDictionary =>
      simp only [slotsPerElement] at size
      have half : table.size / 2 = count := by omega
      rw [elementIndices, half]
      exact List.map_congr_left fun bucket _ => by simp [indexAt, slotsPerElement]
  have found : ∀ part : List Nat, (∀ bucket ∈ part, bucket < count) →
      (((part.map (indexAt kind)).filter fun index => !(table.slots index).isNil)).length =
          (part.filterMap cells).length ∧
        ∀ read : Nat → Object Value × Object Value,
          (∀ bucket entry, bucket < count → cells bucket = some entry →
            read (indexAt kind bucket) = (.of entry.1, kind.element entry)) →
          (((part.map (indexAt kind)).filter fun index =>
              !(table.slots index).isNil).map read) =
            (part.filterMap cells).map fun entry => (.of entry.1, kind.element entry) := by
    intro part
    induction part with
    | nil => exact fun _ => ⟨rfl, fun _ _ => rfl⟩
    | cons bucket rest ih =>
      intro inside
      obtain ⟨length, rest'⟩ := ih fun other member => inside other (List.mem_cons_of_mem _ member)
      have here := inside bucket List.mem_cons_self
      cases content : cells bucket with
      | none =>
        have free := (valid.represents.isNil here).mpr content
        rw [List.map_cons, List.filter_cons_of_neg (by simp [free]),
          List.filterMap_cons_none content]
        exact ⟨length, rest'⟩
      | some entry =>
        have taken : (table.slots (indexAt kind bucket)).isNil = false := by
          rw [Bool.eq_false_iff, Ne, valid.represents.isNil here, content]
          exact Option.some_ne_none _
        rw [List.map_cons, List.filter_cons_of_pos (by simp [taken]),
          List.filterMap_cons_some content]
        refine ⟨by rw [List.length_cons, List.length_cons, length], fun read reads => ?_⟩
        rw [List.map_cons, List.map_cons, reads bucket entry here content, rest' read reads]
  obtain ⟨length, found⟩ := found (List.range count) fun _ => List.mem_range.mp
  have holds : ∀ bucket entry, bucket < count → cells bucket = some entry →
      table.slots (indexAt kind bucket) = kind.stored entry ∧
        (kind = .inlinedDictionary →
          table.slots (indexAt kind bucket + 1) = (Object.of entry.2).orToken) := by
    intro bucket entry inside occupied
    have content := valid.represents.holds bucket inside
    rwa [occupied] at content
  simp only [HashTable.keysAndElements, indices]
  cases kind with
  | set =>
    rw [entries, ← length, List.take_length]
    refine found _ fun bucket entry inside occupied => ?_
    rw [(holds bucket entry inside occupied).1, Kind.stored, Object.of_orToken_unlessToken]
    rfl
  | dictionary =>
    rw [entries, ← length, List.take_length]
    refine found _ fun bucket entry inside occupied => ?_
    rw [(holds bucket entry inside occupied).1]
    rfl
  | inlinedDictionary =>
    refine found _ fun bucket entry inside occupied => ?_
    obtain ⟨first, second⟩ := holds bucket entry inside occupied
    rw [first, second rfl, Kind.stored, Object.of_orToken_unlessToken,
      Object.of_orToken_unlessToken]
    rfl

end HashTable

namespace HashedCollection

/-- A collection whose table is valid, with as many entries as it counts and room for more. -/
structure Models (hashing : Hashing Value) (kind : Kind) (collection : HashedCollection Value)
    (count : Nat) (cells : Nat → Option (Entry Value)) : Prop where
  valid : collection.table.Valid hashing kind count cells
  tally : collection.tally = (entries count cells).length
  capacity : collection.table.isCapacityGreaterThan kind collection.tally = true

theorem isCapacityGreaterThan_iff (valid : table.Valid hashing kind count cells) (tally : Nat) :
    table.isCapacityGreaterThan kind tally = true ↔ tally * 4 < count * 3 := by
  have size := valid.represents.size
  cases kind with
  | set | dictionary =>
    simp only [HashTable.slotsPerElement] at size
    simp only [HashTable.isCapacityGreaterThan, decide_eq_true_eq]
    omega
  | inlinedDictionary =>
    simp only [HashTable.slotsPerElement] at size
    simp only [HashTable.isCapacityGreaterThan, decide_eq_true_eq]
    omega

theorem Models.room {collection : HashedCollection Value}
    (models : Models hashing kind collection count cells) :
    (entries count cells).length < count := by
  have capacity := (isCapacityGreaterThan_iff models.valid _).mp models.capacity
  rw [models.tally] at capacity
  omega

theorem Models.distinct {collection : HashedCollection Value}
    (models : Models hashing kind collection count cells) {map : List (Entry Value)}
    (perm : (entries count cells).Perm map) : FiniteMap.Distinct hashing.same map :=
  FiniteMap.Distinct.perm hashing.equivalence models.valid.distinct perm

/-- Rebuilding puts every entry into the larger table. -/
theorem rebuilds (kind : Kind) (todo : List (Entry Value)) (copy : HashedCollection Value)
    (valid : copy.table.Valid hashing kind count cells)
    (tally : copy.tally = (entries count cells).length)
    (room : todo.length + (entries count cells).length < count)
    (distinct : (todo ++ entries count cells).Pairwise fun left right =>
      ¬ hashing.Same left right) :
    ∃ copied cells',
      (todo.map fun entry => (Object.of entry.1, kind.element entry)).foldlM
        (fun (copy : HashedCollection Value) entry => do
          let table ← copy.table.basicAtKeyPut hashing kind entry.1 entry.2
          some { tally := copy.tally + 1, table := table }) copy = some copied ∧
      copied.table.Valid hashing kind count cells' ∧
      copied.tally = (entries count cells').length ∧
      (entries count cells').Perm (todo ++ entries count cells) := by
  induction todo generalizing copy cells with
  | nil => exact ⟨copy, cells, rfl, valid, tally, .refl _⟩
  | cons entry todo ih =>
    rw [List.length_cons] at room
    obtain ⟨apart, others⟩ := List.pairwise_cons.mp distinct
    obtain ⟨changed, filled, result, valid', perm⟩ := valid.basicAtKeyPut (by omega)
      fun other member => apart other (List.mem_append_right _ member)
    have symmetric : ∀ {left right : Entry Value}, ¬ hashing.Same left right →
        ¬ hashing.Same right left := fun apart equal => apart (hashing.symm _ _ equal)
    have order : (todo ++ entries count filled).Perm (entry :: (todo ++ entries count cells)) :=
      (perm.append_left todo).trans List.perm_middle
    obtain ⟨copied, cells', folded, valid'', tally', perm'⟩ := ih
      { tally := copy.tally + 1, table := changed } valid'
      (by rw [perm.length_eq, List.length_cons, tally])
      (by rw [perm.length_eq, List.length_cons]; omega)
      (order.pairwise_iff symmetric |>.mpr distinct)
    refine ⟨copied, cells', ?_, valid'', tally', perm'.trans order⟩
    rw [List.map_cons, List.foldlM_cons, result]
    exact folded

/-- Growing keeps the entries and makes room for them. -/
theorem grows (collection : HashedCollection Value)
    (valid : collection.table.Valid hashing kind count cells)
    (tally : collection.tally = (entries count cells).length)
    (positive : 0 < collection.tally) :
    ∃ grown count' cells', collection.grow hashing kind = some grown ∧
      Models hashing kind grown count' cells' ∧
      (entries count' cells').Perm (entries count cells) := by
  have large := primeFor_ge (sizeFor (collection.tally * 2))
  have wide : collection.tally * 3 ≤ sizeFor (collection.tally * 2) := by
    unfold sizeFor
    omega
  have none : entries (primeFor (sizeFor (collection.tally * 2)))
      (fun _ => (Option.none : Option (Entry Value))) = [] := by
    simp [entries]
  obtain ⟨copied, cells', folded, valid', tally', perm⟩ := rebuilds kind (entries count cells)
    { tally := 0, table := .new kind (sizeFor (collection.tally * 2)) } (.new hashing kind _)
    (by rw [none]; rfl) (by rw [none, List.length_nil, ← tally]; omega)
    (by rw [none, List.append_nil]; exact valid.distinct)
  rw [none, List.append_nil] at perm
  have capacity : copied.table.isCapacityGreaterThan kind collection.tally = true := by
    rw [isCapacityGreaterThan_iff valid']
    omega
  have sameTally : copied.tally = collection.tally := by
    rw [tally', perm.length_eq, tally]
  have rebuilt : collection.grow hashing kind = some
      { tally := collection.tally, table := copied.table } := by
    rw [grow, resizeTo, rebuildOn, tally, valid.keysAndElements, ← tally, folded]
    cases kind with
    | set => exact congrArg some (by rw [← sameTally])
    | dictionary | inlinedDictionary => rfl
  exact ⟨_, _, cells', rebuilt, ⟨valid', by rw [perm.length_eq, tally], capacity⟩, perm⟩

/-- Counting a new entry keeps room, by growing where there is none left. -/
theorem incrementsTally (collection : HashedCollection Value)
    (valid : collection.table.Valid hashing kind count cells)
    (tally : collection.tally + 1 = (entries count cells).length) :
    ∃ counted count' cells', collection.incrementTally hashing kind = some counted ∧
      Models hashing kind counted count' cells' ∧
      (entries count' cells').Perm (entries count cells) := by
  rw [incrementTally]
  by_cases enough : collection.table.isCapacityGreaterThan kind (collection.tally + 1) = true
  · refine ⟨{ collection with tally := collection.tally + 1 }, count, cells, ?_,
      ⟨valid, tally, enough⟩, .refl _⟩
    simp only [enough, if_true]
  · obtain ⟨grown, count', cells', result, models, perm⟩ := grows
      { collection with tally := collection.tally + 1 } valid tally (Nat.succ_pos _)
    refine ⟨grown, count', cells', ?_, models, perm⟩
    simp only [enough]
    exact result

section Steps

variable {collection : HashedCollection Value} {map : List (Entry Value)}

/-- An entry put where its key was missing is counted. -/
theorem Models.counts_absent (models : Models hashing kind collection count cells)
    {changed : HashTable Value} (entry : Entry Value) {found : Nat} (vacant : cells found = none)
    (search : First count (HashTable.Wanted hashing cells entry.1) (hashing.home count entry.1) found)
    (absent : ∀ other ∈ entries count cells, ¬ hashing.equals (.of entry.1) (.of other.1) = true)
    (represents : changed.Represents kind count (Function.update cells found (some entry))) :
    ∃ counted count' cells',
      { collection with table := changed }.counting hashing kind .nil = some counted ∧
      Models hashing kind counted count' cells' ∧
      (entries count' cells').Perm (entry :: entries count cells) := by
  obtain ⟨valid, perm⟩ := models.valid.fill vacant search absent represents
  obtain ⟨counted, count', cells', result, models', perm'⟩ := incrementsTally
    { collection with table := changed } valid
    (by rw [perm.length_eq, List.length_cons, ← models.tally])
  exact ⟨counted, count', cells', result, models', perm'.trans perm⟩

/-- An entry that gets another value is not counted, unless the table answers nil for it. -/
theorem Models.counts_present (models : Models hashing kind collection count cells)
    {changed : HashTable Value} {entry : Entry Value} {found : Nat} (inside : found < count)
    (occupied : cells found = some entry) (value : Element Value)
    (represents : changed.Represents kind count
      (Function.update cells found (some (entry.1, value)))) (answer : Object Value)
    (answered : answer.isNil = false) :
    ∃ cells' rest, { collection with table := changed }.counting hashing kind answer =
        some { collection with table := changed } ∧
      Models hashing kind { collection with table := changed } count cells' ∧
      (entries count cells).Perm (entry :: rest) ∧
      (entries count cells').Perm ((entry.1, value) :: rest) := by
  obtain ⟨valid, rest, before, after⟩ := models.valid.replace inside occupied value represents
  have tally : collection.tally = (entries count
      (Function.update cells found (some (entry.1, value)))).length := by
    rw [models.tally, before.length_eq, after.length_eq]
    rfl
  refine ⟨_, rest, ?_, ⟨valid, tally, ?_⟩, before, after⟩
  · rw [counting, answered]
    rfl
  · have capacity := (isCapacityGreaterThan_iff models.valid _).mp models.capacity
    exact (isCapacityGreaterThan_iff valid _).mpr capacity

theorem Models.add (models : Models hashing .set collection count cells)
    (perm : (entries count cells).Perm map) (key : Element Value) :
    ∃ next count' cells', collection.add hashing (.of key) = some next ∧
      Models hashing .set next count' cells' ∧
      (entries count' cells').Perm (FiniteMap.add hashing.same map key none) := by
  obtain ⟨found, same, search, place⟩ := models.valid.indexOfKey models.room key
  have represents := models.valid.represents
  simp only [HashedCollection.add, HashTable.atKeyPut, same, Option.map_some, Option.bind_eq_bind,
    Option.bind_some, HashTable.atKeyPutAt]
  rcases place with ⟨entry, occupied, equal⟩ | ⟨vacant, absent⟩
  · have taken : (collection.table.slots (HashTable.indexAt .set found)).isNil = false := by
      rw [Bool.eq_false_iff, Ne, represents.isNil search.inside, occupied]
      exact Option.some_ne_none _
    have member := perm.mem_iff.mp (mem_entries.mpr ⟨found, search.inside, occupied⟩)
    refine ⟨collection, count, cells, ?_, models, ?_⟩
    · simp only [taken, counting, Bool.false_eq_true, if_false]
    · rwa [FiniteMap.add_present member equal]
  · rw [if_pos ((represents.isNil search.inside).mpr vacant)]
    obtain ⟨next, count', cells', result, models', perm'⟩ := models.counts_absent
      (key, none) vacant search absent (represents.atPut (by simp) (key, none))
    refine ⟨next, count', cells', result, models', perm'.trans ?_⟩
    rw [FiniteMap.add_absent fun entry member => absent entry (perm.mem_iff.mpr member)]
    exact perm.cons _

theorem Models.atPut (models : Models hashing .dictionary collection count cells)
    (perm : (entries count cells).Perm map) (key value : Element Value) :
    ∃ next count' cells', collection.atPut hashing (.of key) (.of value) = some next ∧
      Models hashing .dictionary next count' cells' ∧
      (entries count' cells').Perm (FiniteMap.put hashing.same map key value) := by
  obtain ⟨found, same, search, place⟩ := models.valid.indexOfKey models.room key
  have represents := models.valid.represents
  simp only [HashedCollection.atPut, HashTable.atKeyPut, same, Option.map_some,
    Option.bind_eq_bind, Option.bind_some, HashTable.atKeyPutAt]
  rcases place with ⟨entry, occupied, equal⟩ | ⟨vacant, absent⟩
  · have content := represents.holds found search.inside
    rw [occupied] at content
    simp only [content.1, Kind.stored, Object.isNil, Object.key, Bool.false_eq_true, if_false]
    obtain ⟨cells', rest, result, models', before, after⟩ := models.counts_present search.inside
      occupied value (represents.atPut (by simp) (entry.1, value))
      (.association (.of entry.1) (.of entry.2)) rfl
    refine ⟨_, count, cells', result, models', after.trans ?_⟩
    exact (FiniteMap.put_present hashing.equivalence (models.distinct perm)
      (perm.symm.trans before) equal).symm
  · rw [if_pos ((represents.isNil search.inside).mpr vacant)]
    obtain ⟨next, count', cells', result, models', perm'⟩ := models.counts_absent
      (key, value) vacant search absent (represents.atPut (by simp) (key, value))
    refine ⟨next, count', cells', result, models', perm'.trans ?_⟩
    rw [FiniteMap.put_absent fun entry member => absent entry (perm.mem_iff.mpr member)]
    exact perm.cons _

/-- Putting in an inlined dictionary; a nil key that is there already would be counted again. -/
theorem Models.inlinedAtPut (models : Models hashing .inlinedDictionary collection count cells)
    (perm : (entries count cells).Perm map) (key value : Element Value)
    (spared : key = none → ∀ entry ∈ entries count cells,
      ¬ hashing.equals (.of key) (.of entry.1) = true) :
    ∃ next count' cells', collection.inlinedAtPut hashing (.of key) (.of value) = some next ∧
      Models hashing .inlinedDictionary next count' cells' ∧
      (entries count' cells').Perm (FiniteMap.put hashing.same map key value) := by
  obtain ⟨found, same, search, place⟩ := models.valid.indexOfKey models.room key
  have represents := models.valid.represents
  simp only [HashedCollection.inlinedAtPut, HashTable.atKeyPut, same, Option.map_some,
    Option.bind_eq_bind, Option.bind_some, HashTable.atKeyPutAt]
  rcases place with ⟨entry, occupied, equal⟩ | ⟨vacant, absent⟩
  · have content := represents.holds found search.inside
    rw [occupied] at content
    have taken : ¬ (collection.table.slots (HashTable.indexAt .inlinedDictionary found)).isNil =
        true := by
      rw [represents.isNil search.inside, occupied]
      exact Option.some_ne_none _
    have answered : (Object.of key).isNil = false := by
      cases key with
      | none =>
        exact absurd equal (spared rfl entry (mem_entries.mpr ⟨found, search.inside, occupied⟩))
      | some object => rfl
    simp only [if_neg taken]
    have changed : ((collection.table.atPut (HashTable.indexAt .inlinedDictionary found + 1)
        (.of value)).Represents .inlinedDictionary count
          (Function.update cells found (some (entry.1, value)))) := by
      refine represents.update rfl (fun index _ second => Function.update_of_ne (second rfl) _ _)
        ⟨?_, fun _ => Function.update_self ..⟩
      simp only [HashTable.atPut, HashTable.basicAtPut]
      rw [Function.update_of_ne (by omega)]
      exact content.1
    obtain ⟨cells', rest, result, models', before, after⟩ := models.counts_present search.inside
      occupied value changed (.of key) answered
    refine ⟨_, count, cells', result, models', after.trans ?_⟩
    exact (FiniteMap.put_present hashing.equivalence (models.distinct perm)
      (perm.symm.trans before) equal).symm
  · rw [if_pos ((represents.isNil search.inside).mpr vacant)]
    obtain ⟨next, count', cells', result, models', perm'⟩ := models.counts_absent
      (key, value) vacant search absent (represents.inlinedAtPut (key, value))
    refine ⟨next, count', cells', result, models', perm'.trans ?_⟩
    rw [FiniteMap.put_absent fun entry member => absent entry (perm.mem_iff.mpr member)]
    exact perm.cons _

/-- The walk that removes a key moves NilToken, whose hash is not that of nil. -/
def movesToken (hashing : Hashing Value) (kind : Kind) (collection : HashedCollection Value)
    (key : Element Value) : Bool :=
  match collection.table.indexOfKey hashing kind (.of key) with
  | some index => !(collection.table.slots index).isNil &&
      collection.table.tokenAhead kind collection.table.size
        (collection.table.following kind index)
  | none => false

theorem Models.remove (models : Models hashing kind collection count cells)
    (perm : (entries count cells).Perm map) (key : Element Value)
    (spared : movesToken hashing kind collection key = false) :
    ∃ next cells', collection.remove hashing kind (.of key) = some next ∧
      Models hashing kind next count cells' ∧
      (entries count cells').Perm (FiniteMap.remove hashing.same map key) := by
  obtain ⟨found, same, search, place⟩ := models.valid.indexOfKey models.room key
  have represents := models.valid.represents
  rcases place with ⟨entry, occupied, equal⟩ | ⟨vacant, absent⟩
  · have taken : ¬ (collection.table.slots (HashTable.indexAt kind found)).isNil = true := by
      rw [represents.isNil search.inside, occupied]
      exact Option.some_ne_none _
    have noToken : collection.table.tokenAhead kind collection.table.size
        (collection.table.following kind (HashTable.indexAt kind found)) = false := by
      simpa [movesToken, same, taken] using spared
    obtain ⟨moved, cells', result, valid, removed⟩ := models.valid.removeKey models.room same
      search.inside occupied noToken
    have tally : collection.tally = (entries count cells').length + 1 := by
      rw [models.tally, removed.length_eq, List.length_cons]
    refine ⟨{ tally := collection.tally - 1, table := moved }, cells', ?_,
      ⟨valid, by simp only [tally, Nat.add_sub_cancel], ?_⟩, ?_⟩
    · simp only [HashedCollection.remove, result, Option.bind_eq_bind, Option.bind_some]
    · have capacity := (isCapacityGreaterThan_iff models.valid _).mp models.capacity
      refine (isCapacityGreaterThan_iff valid _).mpr ?_
      simp only
      omega
    · exact (FiniteMap.remove_present hashing.equivalence (models.distinct perm)
        (perm.symm.trans removed) equal).symm
  · refine ⟨collection, cells, ?_, models, ?_⟩
    · have free := (represents.isNil search.inside).mpr vacant
      simp only [HashedCollection.remove, HashTable.removeKey, same, Option.bind_eq_bind,
        Option.bind_some, free, if_true]
    · rwa [FiniteMap.remove_absent fun entry member => absent entry (perm.mem_iff.mpr member)]

/-- What a lookup answers for a key. -/
theorem Models.lookupKey (models : Models hashing kind collection count cells)
    (perm : (entries count cells).Perm map) (key : Element Value) :
    (∃ entry ∈ map, collection.table.lookupKey hashing kind (.of key) =
        some (some (kind.element entry)) ∧
      FiniteMap.lookup hashing.same map key = some entry.2) ∨
    (collection.table.lookupKey hashing kind (.of key) = some none ∧
      FiniteMap.lookup hashing.same map key = none) := by
  obtain ⟨found, same, search, place⟩ := models.valid.indexOfKey models.room key
  have represents := models.valid.represents
  rw [HashTable.lookupKey, same, Option.map_some]
  rcases place with ⟨entry, occupied, equal⟩ | ⟨vacant, absent⟩
  · have content := represents.holds found search.inside
    rw [occupied] at content
    have member := perm.mem_iff.mp (mem_entries.mpr ⟨found, search.inside, occupied⟩)
    refine .inl ⟨entry, member, congrArg some ?_,
      FiniteMap.lookup_present hashing.equivalence (models.distinct perm) member equal⟩
    unfold HashTable.valueAt
    rw [content.1, kind.stored_isNil, if_neg Bool.false_ne_true]
    cases kind with
    | set => exact congrArg some (Object.of_orToken_unlessToken _)
    | dictionary => rfl
    | inlinedDictionary =>
      simp only [content.2]
      exact congrArg some (Object.of_orToken_unlessToken _)
  · refine .inr ⟨congrArg some ?_,
      FiniteMap.lookup_absent fun entry member => absent entry (perm.mem_iff.mpr member)⟩
    unfold HashTable.valueAt
    rw [if_pos ((represents.isNil search.inside).mpr vacant)]

end Steps

/-- The operation meets no NilToken where nil is expected: removing moves none back, and an
inlined dictionary is not given a nil key it has already. -/
def sparesNil (hashing : Hashing Value) (kind : Kind) (collection : HashedCollection Value) :
    Operation Value → Bool
  | .put key _ => !(kind == .inlinedDictionary && key.isNone &&
      (collection.table.lookupKey hashing kind (.of key)).any Option.isSome)
  | .remove key => !movesToken hashing kind collection key

/-- One lemma for each operation, and from it one for every step. -/
theorem Models.step {collection : HashedCollection Value} {map : List (Entry Value)}
    (models : Models hashing kind collection count cells)
    (perm : (entries count cells).Perm map) {operation : Operation Value}
    (spared : sparesNil hashing kind collection operation = true) :
    ∃ next count' cells', collection.step hashing kind operation = some next ∧
      Models hashing kind next count' cells' ∧
      (entries count' cells').Perm (kind.apply hashing map operation) := by
  cases operation with
  | put key value =>
    cases kind with
    | set => exact models.add perm key
    | dictionary => exact models.atPut perm key value
    | inlinedDictionary =>
      refine models.inlinedAtPut perm key value fun noKey entry member equal => ?_
      rcases models.lookupKey perm key with ⟨_, _, found, _⟩ | ⟨_, nowhere⟩
      · subst noKey
        simp [sparesNil, found] at spared
      · have present := FiniteMap.lookup_present hashing.equivalence (models.distinct perm)
          (perm.mem_iff.mp member) equal
        rw [nowhere] at present
        cases present
  | remove key =>
    have still : movesToken hashing kind collection key = false := by
      simpa [sparesNil] using spared
    obtain ⟨next, cells', result⟩ := models.remove perm key still
    exact ⟨next, count, cells', result⟩

theorem Models.new (hashing : Hashing Value) (kind : Kind) (size : Nat) :
    Models hashing kind (HashedCollection.new kind size) (primeFor (sizeFor size))
      (fun _ => none) := by
  have valid := HashTable.Valid.new hashing kind (sizeFor size)
  have large := primeFor_ge (sizeFor size)
  have wide : 7 ≤ sizeFor size := Nat.le_max_left ..
  refine ⟨valid, by simp [entries, HashedCollection.new], ?_⟩
  refine (isCapacityGreaterThan_iff valid _).mpr ?_
  simp only [HashedCollection.new]
  omega

/-- A run of operations, each allowed where it happens. -/
inductive Run (hashing : Hashing Value) (kind : Kind)
    (allowed : HashedCollection Value → Operation Value → Prop) :
    HashedCollection Value → List (Operation Value) → HashedCollection Value → Prop where
  | nil (collection : HashedCollection Value) : Run hashing kind allowed collection [] collection
  | snoc {first middle last operations operation} :
      Run hashing kind allowed first operations middle → allowed middle operation →
      middle.step hashing kind operation = some last →
      Run hashing kind allowed first (operations ++ [operation]) last

/-- The collection is the finite set or map: it holds its entries, each key once, counts
them, and answers lookups as it does. -/
structure Refines (hashing : Hashing Value) (kind : Kind) (collection : HashedCollection Value)
    (map : List (Entry Value)) : Prop where
  holds : (collection.table.keysAndElements kind collection.tally).Perm
    (map.map fun entry => (.of entry.1, kind.element entry))
  once : FiniteMap.Distinct hashing.same map
  tally : collection.tally = map.length
  lookup : kind ≠ .set → ∀ key, collection.at? hashing kind (.of key) =
    some ((FiniteMap.lookup hashing.same map key).map .of)
  includes : ∀ key, (kind = .inlinedDictionary →
      FiniteMap.lookup hashing.same map key ≠ some none) →
    collection.includes hashing kind (.of key) =
      some (FiniteMap.lookup hashing.same map key).isSome

theorem Models.toRefines {collection : HashedCollection Value} {map : List (Entry Value)}
    (models : Models hashing kind collection count cells)
    (perm : (entries count cells).Perm map) : Refines hashing kind collection map where
  holds := by
    rw [models.tally, models.valid.keysAndElements]
    exact perm.map _
  once := models.distinct perm
  tally := models.tally.trans perm.length_eq
  lookup other key := by
    rw [at?]
    rcases models.lookupKey perm key with ⟨entry, _, found, equal⟩ | ⟨missing, nowhere⟩
    · rw [found, equal]
      cases kind with
      | set => exact absurd rfl other
      | dictionary | inlinedDictionary => rfl
    · rw [missing, nowhere]
      cases kind <;> rfl
  includes key notNil := by
    unfold HashedCollection.includes
    rcases models.lookupKey perm key with ⟨⟨found, value⟩, member, answer, equal⟩ | ⟨answer, equal⟩
    · rw [equal]
      cases kind with
      | set =>
        have counted : collection.tally ≠ 0 := by
          rw [models.tally, perm.length_eq]
          exact Nat.pos_iff_ne_zero.mp (List.length_pos_of_mem member)
        simp only [counted, if_false, answer, Option.map_some, Option.isSome_some]
      | dictionary =>
        rw [answer]
        rfl
      | inlinedDictionary =>
        have given := notNil rfl
        rw [equal] at given
        cases value with
        | none => exact absurd rfl given
        | some object =>
          rw [answer]
          rfl
    · rw [equal]
      cases kind with
      | set =>
        by_cases counted : collection.tally = 0
        · simp only [counted, if_true, Option.isSome_none]
        · simp only [counted, if_false, answer, Option.map_some, Option.isSome_none]
      | dictionary | inlinedDictionary =>
        rw [answer]
        rfl

/-- As long as no operation meets NilToken where nil is expected, a collection refines the
finite set or map, and no operation fails. -/
theorem Run.refines {size : Nat} {collection : HashedCollection Value}
    {operations : List (Operation Value)}
    (run : Run hashing kind (fun collection operation => sparesNil hashing kind collection operation)
      (HashedCollection.new kind size) operations collection) :
    Refines hashing kind collection (operations.foldl (kind.apply hashing) []) ∧
      ∀ operation, sparesNil hashing kind collection operation →
        ∃ next, collection.step hashing kind operation = some next := by
  obtain ⟨count, cells, models, perm⟩ : ∃ count cells,
      Models hashing kind collection count cells ∧
        (entries count cells).Perm (operations.foldl (kind.apply hashing) []) := by
    induction run with
    | nil => exact ⟨_, _, .new hashing kind size, by simp [entries]⟩
    | snoc before spared stepped ih =>
      obtain ⟨count, cells, models, perm⟩ := ih
      obtain ⟨next, count', cells', result, models', perm'⟩ := models.step perm spared
      obtain rfl := Option.some.inj (result.symm.trans stepped)
      exact ⟨count', cells', models', by rwa [List.foldl_append]⟩
  refine ⟨models.toRefines perm, fun operation spared => ?_⟩
  obtain ⟨next, _, _, result, _⟩ := models.step perm spared
  exact ⟨next, result⟩

/-- Follow a list of operations as long as they are allowed. -/
def follow (hashing : Hashing Value) (kind : Kind)
    (allowed : HashedCollection Value → Operation Value → Bool)
    (collection : HashedCollection Value) (operations : List (Operation Value)) :
    Option (HashedCollection Value) :=
  operations.foldlM (fun collection operation =>
    if allowed collection operation then collection.step hashing kind operation else none)
    collection

theorem Run.follow {allowed : HashedCollection Value → Operation Value → Bool}
    {first middle last : HashedCollection Value} {done operations : List (Operation Value)}
    (run : Run hashing kind (fun collection operation => allowed collection operation) first done
      middle)
    (followed : middle.follow hashing kind allowed operations = some last) :
    Run hashing kind (fun collection operation => allowed collection operation) first
      (done ++ operations) last := by
  induction operations generalizing middle done with
  | nil =>
    obtain rfl := Option.some.inj followed
    rwa [List.append_nil]
  | cons operation operations ih =>
    simp only [HashedCollection.follow, List.foldlM_cons, Option.bind_eq_bind,
      Option.bind_eq_some_iff] at followed
    obtain ⟨next, stepped, followed⟩ := followed
    split at stepped
    · rename_i spared
      have longer := ih (run.snoc spared stepped) followed
      rwa [List.append_assoc] at longer
    · cases stepped

section Runs

/-- Numbers hash to themselves, nil to zero and NilToken to five. -/
def numbers : Hashing Nat where
  hash
    | .plain number => number
    | .nilToken => 5
    | _ => 0
  equals left right := left == right
  refl element := beq_self_eq_true _
  symm left right equal := by rwa [beq_iff_eq, eq_comm, ← beq_iff_eq]
  trans left middle right first second := by
    rw [beq_iff_eq] at *
    exact first.trans second
  agree left right equal := by rw [beq_iff_eq.mp equal]

/-- An inlined dictionary grows, and gives up a key whose cluster goes round the end. -/
theorem Run.refines_grown : ∃ collection : HashedCollection Nat, collection.tally = 6 ∧
    collection.table.size = 38 ∧
    Refines numbers .inlinedDictionary collection
      [(some 9, some 1), (some 5, some 1), (none, none), (some 12, some 1), (some 13, some 1),
        (some 20, some 2)] := by
  have computed : ((HashedCollection.new .inlinedDictionary 0 : HashedCollection Nat).follow numbers
      .inlinedDictionary (sparesNil numbers .inlinedDictionary)
      [.put (some 6) (some 1), .put (some 20) (some 1), .put (some 13) (some 1),
        .remove (some 6), .put (some 12) (some 1), .put none none, .put (some 5) (some 1),
        .put (some 20) (some 2), .put (some 9) (some 1)]).map
      (fun collection => (collection.tally, collection.table.size)) = some (6, 38) := by
    decide +kernel
  obtain ⟨collection, followed, same⟩ := Option.map_eq_some_iff.mp computed
  obtain ⟨tally, size⟩ := Prod.mk.inj same
  exact ⟨collection, tally, size, (Run.refines ((Run.nil _).follow followed)).1⟩

/-- Removing the number before nil in a cluster moves NilToken to where its own hash leads, and
the set does not find nil any more. -/
theorem Run.nil_lost : ¬ ∀ (hashing : Hashing Nat) (kind : Kind) (size : Nat)
    (collection : HashedCollection Nat) (operations : List (Operation Nat)),
    Run hashing kind (fun _ _ => True) (HashedCollection.new kind size) operations collection →
      Refines hashing kind collection (operations.foldl (kind.apply hashing) []) := by
  intro claim
  have computed : ((HashedCollection.new .set 0 : HashedCollection Nat).follow numbers .set
      (fun _ _ => true) [.put (some 0) none, .put none none, .remove (some 0)]).map
      (fun collection => collection.includes numbers .set (.of none)) = some (some false) := by
    decide +kernel
  obtain ⟨collection, followed, missed⟩ := Option.map_eq_some_iff.mp computed
  have run := (Run.nil (HashedCollection.new .set 0 : HashedCollection Nat)).follow followed
  have unrestricted : Run numbers .set (fun _ _ => True) (HashedCollection.new .set 0)
      [.put (some 0) none, .put none none, .remove (some 0)] collection := by
    simpa using run
  have answer := (claim _ _ _ _ _ unrestricted).includes none (fun inlined => by cases inlined)
  rw [missed] at answer
  exact absurd answer (by decide +kernel)

end Runs

end HashedCollection

end Egg.Collection
