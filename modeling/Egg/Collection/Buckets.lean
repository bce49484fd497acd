import Egg.Collection.HashedCollection
import Egg.Data.LinearProbing

/-! The slots of a hash table as the cells of a linear probing table. -/
namespace Egg.Collection

open Egg.Data.LinearProbing

variable {Value : Type}

/-- A key and its value; the value is nil in a set. -/
abbrev Entry (Value : Type) := Element Value × Element Value

@[simp] theorem Object.of_orToken_isNil (element : Element Value) :
    (Object.of element).orToken.isNil = false := by
  cases element <;> rfl

@[simp] theorem Object.of_orToken_unlessToken (element : Element Value) :
    (Object.of element).orToken.unlessToken = .of element := by
  cases element <;> rfl

theorem Object.of_inj {left right : Element Value} (same : Object.of left = .of right) :
    left = right := by
  cases left <;> cases right <;> cases same <;> rfl

/-- The object that stands for an entry in the first slot of its bucket. -/
def Kind.stored (kind : Kind) (entry : Entry Value) : Object Value :=
  match kind with
  | .set | .inlinedDictionary => (Object.of entry.1).orToken
  | .dictionary => .association (.of entry.1) (.of entry.2)

theorem Kind.stored_isNil (kind : Kind) (entry : Entry Value) :
    (kind.stored entry).isNil = false := by
  cases kind
  · exact Object.of_orToken_isNil _
  · rfl
  · exact Object.of_orToken_isNil _

theorem Object.isNil_iff {object : Object Value} : object.isNil = true ↔ object = .nil := by
  cases object <;> simp [isNil]

namespace HashTable

/-- The index of the first slot of a bucket. -/
def indexAt (kind : Kind) (bucket : Nat) : Nat := bucket * slotsPerElement kind + 1

/-- What the slots of a bucket hold for a cell. -/
def Holds (kind : Kind) (table : HashTable Value) (bucket : Nat) : Option (Entry Value) → Prop
  | none => table.slots (indexAt kind bucket) = .nil
  | some entry => table.slots (indexAt kind bucket) = kind.stored entry ∧
      (kind = .inlinedDictionary →
        table.slots (indexAt kind bucket + 1) = (Object.of entry.2).orToken)

/-- The slots of a table represent the cells of its buckets. -/
structure Represents (kind : Kind) (table : HashTable Value) (count : Nat)
    (cells : Nat → Option (Entry Value)) : Prop where
  size : table.size = count * slotsPerElement kind
  holds : ∀ bucket, bucket < count → table.Holds kind bucket (cells bucket)

variable {kind : Kind} {table : HashTable Value} {count : Nat}
  {cells : Nat → Option (Entry Value)}

theorem slotsPerElement_cases (kind : Kind) :
    (kind ≠ .inlinedDictionary ∧ slotsPerElement kind = 1) ∨
      (kind = .inlinedDictionary ∧ slotsPerElement kind = 2) := by
  cases kind <;> simp [slotsPerElement]

theorem indexAt_inj {left right : Nat} (same : indexAt kind left = indexAt kind right) :
    left = right := by
  rcases slotsPerElement_cases kind with ⟨-, slots⟩ | ⟨-, slots⟩ <;>
    simp only [indexAt, slots] at same <;> lia

theorem Represents.following (represents : Represents kind table count cells) {bucket : Nat}
    (inside : bucket < count) :
    table.following kind (indexAt kind bucket) = indexAt kind (next count bucket) := by
  have size := represents.size
  rcases slotsPerElement_cases kind with ⟨-, slots⟩ | ⟨-, slots⟩ <;>
    simp only [HashTable.following, indexAt, next, slots] at * <;> split_ifs <;> lia

theorem Represents.isNil (represents : Represents kind table count cells) {bucket : Nat}
    (inside : bucket < count) :
    (table.slots (indexAt kind bucket)).isNil = true ↔ cells bucket = none := by
  have holds := represents.holds bucket inside
  cases content : cells bucket with
  | none =>
    rw [content] at holds
    rw [show table.slots (indexAt kind bucket) = .nil from holds]
    simp [Object.isNil]
  | some entry =>
    rw [content] at holds
    rw [holds.1, kind.stored_isNil]
    simp

/-- An operation on the slots of one bucket changes one cell. -/
theorem Represents.update (represents : Represents kind table count cells)
    {changed : HashTable Value} {bucket : Nat} {content : Option (Entry Value)}
    (size : changed.size = table.size)
    (kept : ∀ index, index ≠ indexAt kind bucket →
      (kind = .inlinedDictionary → index ≠ indexAt kind bucket + 1) →
      changed.slots index = table.slots index)
    (holds : changed.Holds kind bucket content) :
    Represents kind changed count (Function.update cells bucket content) where
  size := size.trans represents.size
  holds other inside := by
    by_cases same : other = bucket
    · subst same
      rwa [Function.update_self]
    · rw [Function.update_of_ne same]
      have before := represents.holds other inside
      have first : changed.slots (indexAt kind other) = table.slots (indexAt kind other) := by
        refine kept _ (fun equal => same (indexAt_inj equal)) fun inlined => ?_
        simp only [inlined, indexAt, slotsPerElement]
        lia
      cases content' : cells other with
      | none =>
        rw [content'] at before
        exact first.trans before
      | some entry =>
        rw [content'] at before
        refine ⟨first.trans before.1, fun inlined => ?_⟩
        rw [← before.2 inlined]
        refine kept _ ?_ fun _ => ?_ <;>
          simp only [inlined, indexAt, slotsPerElement] <;> lia

theorem Represents.clearSlot (represents : Represents kind table count cells) (bucket : Nat) :
    Represents kind (table.clearSlot kind (indexAt kind bucket)) count
      (Function.update cells bucket none) := by
  refine represents.update ?_ ?_ ?_
  · cases kind <;> rfl
  · intro index other second
    cases kind with
    | set | dictionary => exact Function.update_of_ne other _ _
    | inlinedDictionary =>
      simp only [HashTable.clearSlot, basicAtPut]
      rw [Function.update_of_ne (second rfl), Function.update_of_ne other]
  · cases kind with
    | set | dictionary => exact Function.update_self ..
    | inlinedDictionary =>
      simp only [Holds, HashTable.clearSlot, basicAtPut]
      rw [Function.update_of_ne (by lia), Function.update_self]

theorem moveSlot_kept {source target bucket : Nat} (notSource : bucket ≠ source)
    (notTarget : bucket ≠ target) :
    (table.moveSlot kind (indexAt kind source) (indexAt kind target)).slots
      (indexAt kind bucket) = table.slots (indexAt kind bucket) := by
  have source' : indexAt kind bucket ≠ indexAt kind source := fun same =>
    notSource (indexAt_inj same)
  have target' : indexAt kind bucket ≠ indexAt kind target := fun same =>
    notTarget (indexAt_inj same)
  cases kind with
  | set | dictionary =>
    simp only [HashTable.moveSlot, basicAtPut]
    rw [Function.update_of_ne target', Function.update_of_ne source']
  | inlinedDictionary =>
    simp only [HashTable.moveSlot, basicAtPut]
    rw [Function.update_of_ne, Function.update_of_ne target', Function.update_of_ne,
      Function.update_of_ne source']
    all_goals
      simp only [indexAt, slotsPerElement]
      lia

theorem Represents.moveSlot (represents : Represents kind table count cells)
    {source : Nat} (target : Nat) {entry : Entry Value} (sourceInside : source < count)
    (occupied : cells source = some entry) :
    Represents kind (table.moveSlot kind (indexAt kind source) (indexAt kind target)) count
      (Function.update (Function.update cells source none) target (some entry)) := by
  have content := represents.holds source sourceInside
  rw [occupied] at content
  obtain ⟨first, second⟩ := content
  refine (represents.clearSlot source).update ?_ ?_ ?_
  · cases kind <;> rfl
  · intro index other next
    cases kind with
    | set | dictionary => exact Function.update_of_ne other _ _
    | inlinedDictionary =>
      simp only [HashTable.moveSlot, HashTable.clearSlot, basicAtPut]
      rw [Function.update_of_ne (next rfl), Function.update_of_ne other]
  · cases kind with
    | set | dictionary =>
      refine ⟨?_, fun inlined => by cases inlined⟩
      simp only [HashTable.moveSlot, basicAtPut, Function.update_self]
      exact first
    | inlinedDictionary =>
      refine ⟨?_, fun _ => ?_⟩
      · simp only [HashTable.moveSlot, basicAtPut]
        rw [Function.update_of_ne (by lia), Function.update_self]
        exact first
      · simp only [HashTable.moveSlot, basicAtPut, Function.update_self]
        exact second rfl

/-- `findFirst:startingAt:` finds the first bucket there is. -/
theorem Represents.findFirst (represents : Represents kind table count cells)
    (holds : Object Value → Bool) {first : Nat} (firstInside : first < count)
    (fuel : Nat) {current : Nat} (inside : current < count)
    (enough : remaining count first current ≤ fuel) {witness : Nat}
    (witnessInside : witness < count)
    (witnessed : holds (table.slots (indexAt kind witness)) = true)
    (near : gap count current witness < remaining count first current) :
    ∃ found, table.findFirst kind (indexAt kind first) holds fuel (indexAt kind current) =
        some (indexAt kind found) ∧
      First count (fun bucket => holds (table.slots (indexAt kind bucket)) = true) current
        found := by
  induction fuel generalizing current with
  | zero => lia
  | succ fuel ih =>
    rw [HashTable.findFirst]
    split
    · rename_i here
      refine ⟨current, rfl, inside, here, fun position _ between other => ?_⟩
      unfold Between at between
      lia
    · rename_i missing
      have other : current ≠ witness := by
        rintro rfl
        exact missing witnessed
      have nearer := gap_next inside witnessInside other
      rw [represents.following inside]
      by_cases last : next count current = first
      · have := remaining_last last
        lia
      · rw [if_neg (fun same => last (indexAt_inj same))]
        have fewer := remaining_next inside firstInside last
        obtain ⟨found, same, search⟩ := ih (next_lt inside) (by lia) (by lia)
        exact ⟨found, same, search.step missing⟩

end HashTable

section Hashing

variable (hashing : Hashing Value)

/-- The bucket where the search for a key begins. -/
def Hashing.home (count : Nat) (key : Element Value) : Nat :=
  (hashing.hash (.of key) % (count : Int)).toNat

theorem Hashing.home_lt (count : Nat) (positive : 0 < count) (key : Element Value) :
    hashing.home count key < count := by
  have low := Int.emod_nonneg (hashing.hash (.of key)) (b := (count : Int)) (by lia)
  have high := Int.emod_lt_of_pos (hashing.hash (.of key)) (b := (count : Int)) (by lia)
  unfold Hashing.home
  lia

/-- The keys of two entries are equal. -/
def Hashing.Same (left right : Entry Value) : Prop :=
  hashing.equals (.of left.1) (.of right.1) = true

namespace HashTable

variable {hashing} {kind : Kind} {table : HashTable Value} {count : Nat}
  {cells : Nat → Option (Entry Value)}

theorem Represents.indexOfHash (represents : Represents kind table count cells)
    (key : Element Value) :
    table.indexOfHash kind (hashing.hash (.of key)) = indexAt kind (hashing.home count key) := by
  have size := represents.size
  cases kind with
  | set | dictionary =>
    simp only [slotsPerElement, Nat.mul_one] at size
    simp only [HashTable.indexOfHash, indexAt, slotsPerElement, Nat.mul_one, Hashing.home, size]
  | inlinedDictionary =>
    simp only [slotsPerElement] at size
    have half : table.size / 2 = count := by lia
    simp only [HashTable.indexOfHash, indexAt, slotsPerElement, Hashing.home, half]

/-- What `indexOfKey:` looks for: a free cell, or an entry with an equal key. -/
def Wanted (hashing : Hashing Value) (cells : Nat → Option (Entry Value)) (key : Element Value)
    (bucket : Nat) : Prop :=
  cells bucket = none ∨
    ∃ entry, cells bucket = some entry ∧ hashing.equals (.of key) (.of entry.1) = true

theorem Represents.wanted (represents : Represents kind table count cells) {bucket : Nat}
    (inside : bucket < count) (key : Element Value) :
    ((table.slots (indexAt kind bucket)).isNil ||
        equates hashing kind (.of key) (table.slots (indexAt kind bucket)).unlessToken) = true ↔
      Wanted hashing cells key bucket := by
  have holds := represents.holds bucket inside
  rw [Bool.or_eq_true, represents.isNil inside]
  cases content : cells bucket with
  | none => simp [Wanted, content]
  | some entry =>
    rw [content] at holds
    have equal : equates hashing kind (.of key)
        (table.slots (indexAt kind bucket)).unlessToken =
          hashing.equals (.of key) (.of entry.1) := by
      rw [holds.1]
      cases kind with
      | set | inlinedDictionary =>
        simp only [equates, Kind.stored, Object.of_orToken_unlessToken]
      | dictionary => rfl
    rw [equal]
    simp [Wanted, content]

/-- `indexOfKey:` answers the first bucket that is free or has the key. -/
theorem Represents.indexOfKey (represents : Represents kind table count cells)
    (hashing : Hashing Value) (key : Element Value) {witness : Nat} (witnessInside : witness < count)
    (witnessed : Wanted hashing cells key witness) :
    ∃ found, table.indexOfKey hashing kind (.of key) = some (indexAt kind found) ∧
      First count (Wanted hashing cells key) (hashing.home count key) found := by
  have inside := hashing.home_lt count (by lia) key
  have enough : remaining count (hashing.home count key) (hashing.home count key) ≤ table.size := by
    have size := represents.size
    have low : 1 ≤ slotsPerElement kind := by cases kind <;> decide
    have bound := Nat.le_mul_of_pos_right count low
    simp only [remaining, if_pos]
    lia
  have near : gap count (hashing.home count key) witness <
      remaining count (hashing.home count key) (hashing.home count key) := by
    simp only [remaining, if_pos]
    exact gap_lt inside witnessInside
  obtain ⟨found, same, search⟩ := represents.findFirst
    (fun object => object.isNil || equates hashing kind (.of key) object.unlessToken)
    inside table.size inside enough witnessInside ((represents.wanted witnessInside key).mpr witnessed) near
  refine ⟨found, ?_, search.inside, (represents.wanted search.inside key).mp search.here,
    fun position bound between other want => search.before position bound between other
      ((represents.wanted bound key).mpr want)⟩
  rw [HashTable.indexOfKey]
  simp only [represents.indexOfHash]
  exact same

/-- A table whose buckets are a linear probing table, each key once. -/
structure Valid (hashing : Hashing Value) (kind : Kind) (table : HashTable Value) (count : Nat)
    (cells : Nat → Option (Entry Value)) : Prop where
  represents : Represents kind table count cells
  probed : Probed count (fun entry => hashing.home count entry.1) cells
  distinct : (entries count cells).Pairwise fun left right => ¬ hashing.Same left right

theorem Valid.position_unique (valid : Valid hashing kind table count cells)
    {first second : Nat} {left right : Entry Value} (firstInside : first < count)
    (secondInside : second < count) (foundFirst : cells first = some left)
    (foundSecond : cells second = some right) (same : hashing.Same left right) :
    first = second :=
  Egg.Data.LinearProbing.position_unique (fun {_ _} => hashing.symm _ _) valid.distinct firstInside
    secondInside foundFirst foundSecond same

theorem Represents.keyFor (represents : Represents kind table count cells) {bucket : Nat}
    (inside : bucket < count) {entry : Entry Value} (occupied : cells bucket = some entry)
    (noToken : (table.slots (indexAt kind bucket)).isNilToken = false) :
    keyFor kind (table.slots (indexAt kind bucket)) = .of entry.1 := by
  have holds := represents.holds bucket inside
  rw [occupied] at holds
  rw [holds.1] at noToken ⊢
  obtain ⟨key, value⟩ := entry
  cases kind with
  | set | inlinedDictionary =>
    cases key with
    | none => cases noToken
    | some object => rfl
  | dictionary => rfl

/-- Moving back ends at the next free bucket, with the same entries. -/
theorem Represents.moveBack (represents : Represents kind table count cells)
    (distinct : (entries count cells).Pairwise fun left right => ¬ hashing.Same left right)
    {first hole current stop : Nat}
    (shifting : Shifting count (fun entry => hashing.home count entry.1) cells hole current stop)
    (noToken : ∀ bucket, bucket < count → Between current bucket stop →
      (table.slots (indexAt kind bucket)).isNilToken = false)
    (onTheWay : Between first current stop) (fuel : Nat) (enough : gap count current stop < fuel) :
    ∃ moved cells', table.moveBack hashing kind (indexAt kind first) fuel (indexAt kind current) =
        some moved ∧ Represents kind moved count cells' ∧
      Probed count (fun entry => hashing.home count entry.1) cells' ∧
      (entries count cells').Perm (entries count cells) := by
  induction fuel generalizing table cells hole current with
  | zero => lia
  | succ fuel ih =>
    have inside := shifting.currentInside
    rw [HashTable.moveBack]
    by_cases reached : current = stop
    · subst reached
      rw [if_pos ((represents.isNil inside).mpr shifting.stopEmpty)]
      exact ⟨table, cells, rfl, represents, shifting.done, .refl _⟩
    · have between : Between current current stop := by
        unfold Between
        lia
      have occupied := shifting.ahead current inside between reached
      obtain ⟨entry, occupied⟩ := Option.ne_none_iff_exists'.mp occupied
      have vacant : ¬ (table.slots (indexAt kind current)).isNil = true := by
        rw [represents.isNil inside, occupied]
        exact Option.some_ne_none _
      rw [if_neg vacant, represents.keyFor inside occupied (noToken current inside between)]
      obtain ⟨found, same, search⟩ := represents.indexOfKey hashing entry.1 inside
        (.inr ⟨entry, occupied, hashing.refl _⟩)
      simp only [same, Option.bind_eq_bind, Option.bind_some]
      have last : next count current ≠ first := by
        have bound := shifting.stopInside
        unfold next
        unfold Between at onTheWay
        split_ifs <;> lia
      have further : Between first (next count current) stop := by
        have bound := shifting.stopInside
        unfold next
        unfold Between at *
        split_ifs <;> lia
      have nearer := gap_next inside shifting.stopInside reached
      have later : ∀ bucket, bucket < count → Between (next count current) bucket stop →
          Between current bucket stop ∧ bucket ≠ current := by
        intro bucket below after
        have bound := shifting.stopInside
        unfold next at after
        unfold Between at *
        split_ifs at after <;> lia
      rcases shifting.found occupied (hashing.refl entry.1) (fun position other below present want =>
        Egg.Data.LinearProbing.position_unique (fun {_ _} => hashing.symm _ _) distinct below inside
          present occupied (hashing.symm _ _ want)) search with ⟨rfl, through⟩ | ⟨rfl, whole⟩
      · rw [if_pos ((represents.isNil search.inside).mpr shifting.holeEmpty)]
        have moved := represents.moveSlot found inside occupied
        have perm := entries_move inside search.inside occupied shifting.holeEmpty
        rw [moved.following inside, if_neg fun equal => last (indexAt_inj equal)]
        have free : ∀ bucket, bucket < count → Between (next count current) bucket stop →
            ((table.moveSlot kind (indexAt kind current) (indexAt kind found)).slots
              (indexAt kind bucket)).isNilToken = false := by
          intro bucket below after
          obtain ⟨still, other⟩ := later bucket below after
          have apart : bucket ≠ found := by
            rintro rfl
            exact shifting.ahead bucket below still shifting.apart shifting.holeEmpty
          rw [moveSlot_kept other apart]
          exact noToken bucket below still
        obtain ⟨final, cells', result, represented, probed, same⟩ := ih moved
          (perm.pairwise_iff (fun {_ _} apart equal => apart (hashing.symm _ _ equal)) |>.mpr
            distinct)
          (shifting.move reached occupied through) free further (by lia)
        exact ⟨final, cells', result, represented, probed, same.trans perm⟩
      · rw [if_neg vacant, represents.following inside,
          if_neg fun equal => last (indexAt_inj equal)]
        exact ih represents distinct (shifting.keep reached occupied whole)
          (fun bucket below after => noToken bucket below (later bucket below after).1) further
          (by lia)

/-- The search for a key ends at its entry, or at a free bucket when no entry has it. -/
theorem Valid.indexOfKey (valid : Valid hashing kind table count cells)
    (room : (entries count cells).length < count) (key : Element Value) :
    ∃ found, table.indexOfKey hashing kind (.of key) = some (indexAt kind found) ∧
      First count (Wanted hashing cells key) (hashing.home count key) found ∧
      ((∃ entry, cells found = some entry ∧ hashing.equals (.of key) (.of entry.1) = true) ∨
        (cells found = none ∧
          ∀ entry ∈ entries count cells, ¬ hashing.equals (.of key) (.of entry.1) = true)) := by
  obtain ⟨witness, inside, vacant⟩ := exists_empty room
  obtain ⟨found, same, search⟩ := valid.represents.indexOfKey hashing key inside
    (.inl vacant)
  refine ⟨found, same, search, ?_⟩
  have starts : ∀ entry : Entry Value, hashing.equals (.of key) (.of entry.1) = true →
      hashing.home count entry.1 = hashing.home count key := by
    intro entry equal
    rw [Hashing.home, Hashing.home, hashing.agree _ _ equal]
  rcases valid.probed.lookup starts search with present | ⟨absent, nowhere⟩
  · exact .inl present
  · refine .inr ⟨absent, fun entry member => ?_⟩
    obtain ⟨position, below, occupied⟩ := mem_entries.mp member
    exact nowhere position entry below occupied

/-- `tokenAhead` of the buckets from one on: one of them holds NilToken, before a free one. -/
def tokenAhead (kind : Kind) (table : HashTable Value) : Nat → Nat → Bool
  | 0, _ => false
  | fuel + 1, index =>
    if (table.slots index).isNil then false
    else (table.slots index).isNilToken ||
      tokenAhead kind table fuel (table.following kind index)

theorem Represents.noToken (represents : Represents kind table count cells) (fuel : Nat)
    {current stop : Nat} (inside : current < count)
    (first : First count (fun bucket => cells bucket = none) current stop)
    (enough : gap count current stop < fuel)
    (none : table.tokenAhead kind fuel (indexAt kind current) = false) :
    ∀ bucket, bucket < count → Between current bucket stop →
      (table.slots (indexAt kind bucket)).isNilToken = false := by
  have stopNil : ∀ bucket, bucket < count → cells bucket = Option.none →
      (table.slots (indexAt kind bucket)).isNilToken = false := by
    intro bucket below vacant
    rw [Object.isNil_iff.mp ((represents.isNil below).mpr vacant)]
    rfl
  induction fuel generalizing current with
  | zero => lia
  | succ fuel ih =>
    intro bucket below between
    have bound := first.inside
    by_cases reached : current = stop
    · have same : bucket = stop := by
        unfold Between at between
        lia
      exact same ▸ stopNil stop bound first.here
    · have taken : ¬ cells current = Option.none :=
        first.before current inside (by unfold Between; lia) reached
      rw [tokenAhead, if_neg (by rwa [represents.isNil inside]), Bool.or_eq_false_iff,
        represents.following inside] at none
      by_cases here : bucket = current
      · exact here ▸ none.1
      · have nearer := gap_next inside bound reached
        refine ih (next_lt inside) ⟨bound, first.here, fun position under after other => ?_⟩
          (by lia) none.2 bucket below ?_
        · refine first.before position under ?_ other
          unfold Between next at *
          split_ifs at * <;> lia
        · unfold Between next at *
          split_ifs at * <;> lia

theorem Represents.clearSlot_kept {bucket cleared : Nat} (other : bucket ≠ cleared) :
    (table.clearSlot kind (indexAt kind cleared)).slots (indexAt kind bucket) =
      table.slots (indexAt kind bucket) := by
  have apart : indexAt kind bucket ≠ indexAt kind cleared := fun same => other (indexAt_inj same)
  cases kind with
  | set | dictionary => exact Function.update_of_ne apart _ _
  | inlinedDictionary =>
    simp only [HashTable.clearSlot, basicAtPut]
    rw [Function.update_of_ne, Function.update_of_ne apart]
    simp only [indexAt, slotsPerElement]
    lia

/-- `removeKey:ifAbsent:` takes out the entry of its key, if the walk that moves entries back
does not meet NilToken. -/
theorem Valid.removeKey (valid : Valid hashing kind table count cells)
    (room : (entries count cells).length < count) {key : Element Value} {found : Nat}
    {entry : Entry Value} (same : table.indexOfKey hashing kind (.of key) = some (indexAt kind found))
    (inside : found < count) (occupied : cells found = some entry)
    (noToken : table.tokenAhead kind table.size (table.following kind (indexAt kind found)) = false) :
    ∃ moved cells', table.removeKey hashing kind (.of key) = some (some moved) ∧
      Valid hashing kind moved count cells' ∧
      (entries count cells).Perm (entry :: entries count cells') := by
  obtain ⟨represents, probed, distinct⟩ := valid
  obtain ⟨witness, witnessInside, vacant⟩ := exists_empty room
  have taken : ¬ (table.slots (indexAt kind found)).isNil = true := by
    rw [represents.isNil inside, occupied]
    exact Option.some_ne_none _
  obtain ⟨stop, first⟩ := exists_first (fun bucket => cells bucket = none)
    (next_lt inside) witnessInside vacant
  have apart : found ≠ stop := by
    rintro rfl
    rw [first.here] at occupied
    cases occupied
  have cleared := represents.clearSlot found
  have removed := entries_clear inside occupied
  have shifting := Shifting.start probed inside apart first
  have size : count ≤ table.size := by
    rw [represents.size]
    exact Nat.le_mul_of_pos_right count (by cases kind <;> decide)
  have near := gap_lt (next_lt inside) first.inside
  have free := represents.noToken table.size (next_lt inside) first (by lia)
    (by rwa [← represents.following inside])
  have between : Between (next count found) (next count found) stop := by
    unfold Between
    lia
  obtain ⟨moved, cells', result, represented, probed', perm⟩ := cleared.moveBack
    ((List.pairwise_cons.mp (removed.pairwise_iff
      (fun {_ _} apart equal => apart (hashing.symm _ _ equal)) |>.mp distinct)).2)
    shifting (fun bucket below after => by
      by_cases here : bucket = found
      · rw [here, Object.isNil_iff.mp ((cleared.isNil inside).mpr (Function.update_self ..))]
        rfl
      · rw [Represents.clearSlot_kept here]
        exact free bucket below after)
    between table.size (by lia)
  refine ⟨moved, cells', ?_, ⟨represented, probed', ?_⟩, removed.trans (perm.symm.cons _)⟩
  · rw [HashTable.removeKey, same]
    simp only [Option.bind_eq_bind, Option.bind_some, if_neg taken, cleared.following inside,
      result]
  · refine perm.pairwise_iff (fun {_ _} apart equal => apart (hashing.symm _ _ equal)) |>.mpr ?_
    exact (List.pairwise_cons.mp (removed.pairwise_iff
      (fun {_ _} apart equal => apart (hashing.symm _ _ equal)) |>.mp distinct)).2

end HashTable

end Hashing

end Egg.Collection
