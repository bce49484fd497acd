import Egg.Unicode.Codec
import Mathlib.Data.List.Nodup
import Mathlib.Logic.Function.Basic

/-! The provider of symbols of a running system: its cache, the scan of the symbol table and the
symbols it has made. -/
namespace Egg.Symbols

open Egg.Unicode

/-- The characters of a name. -/
abbrev Name := List UInt32

def isLatin1 (name : Name) : Bool :=
  name.all (· ≤ 0xFF)

def toBytes (name : Name) : List UInt8 :=
  name.map UInt32.toUInt8

/-- The bytes that characters take in memory, the lowest first. -/
def wideBytes (name : Name) : List UInt8 :=
  name.flatMap fun (cp : UInt32) =>
    [cp.toUInt8, (cp >>> 8).toUInt8, (cp >>> 16).toUInt8, (cp >>> 24).toUInt8]

/-- Characters past the last code are left out. -/
def toUtf8 (name : Name) : List UInt8 :=
  name.flatMap fun cp => if cp < 0x110000 then UTF8.encodeOn cp.toNat else []

/-- What is compared with the symbols of the table. -/
def lookupBytes (name : Name) : List UInt8 :=
  if isLatin1 name then toBytes name else wideBytes name

/-- The symbols by their bytes; an object is known by its place, wherever it is moved. -/
structure Table where
  symbols : List (List UInt8)
  distinct : symbols.Nodup

namespace Table

/-- The first symbol with the same bytes. -/
def find (self : Table) (bytes : List UInt8) : Option Nat :=
  self.symbols.idxOf? bytes

/-- The symbol with the bytes of a string, a new one where there is none. -/
def intern (self : Table) (bytes : List UInt8) : Nat × Table :=
  match found : self.find bytes with
  | some symbol => (symbol, self)
  | none =>
    have absent : bytes ∉ self.symbols := List.idxOf?_eq_none_iff.mp found
    (self.symbols.length, ⟨self.symbols.concat bytes, self.distinct.concat absent⟩)

end Table

/-- The table, and the symbols that names had before. -/
structure Provider where
  table : Table
  cache : Name → Option Nat

namespace Provider

def remember (self : Provider) (name : Name) (symbol : Nat) : Provider :=
  { self with cache := Function.update self.cache name (some symbol) }

def existingSymbolFor_ (self : Provider) (name : Name) : Option Nat × Provider :=
  match self.cache name with
  | some symbol => (some symbol, self)
  | none =>
    match self.table.find (lookupBytes name) with
    | some symbol => (some symbol, self.remember name symbol)
    | none => (none, self)

def symbolFor_ (self : Provider) (name : Name) : Option Nat × Provider :=
  match self.existingSymbolFor_ name with
  | (some existing, self) => (some existing, self)
  | (none, self) =>
    let (result, table) := self.table.intern (toUtf8 name)
    (some result, { self with table }.remember name result)

end Provider

inductive Request where
  | symbolFor_ (name : Name)
  | existingSymbolFor_ (name : Name)
deriving DecidableEq

def Request.name : Request → Name
  | symbolFor_ name => name
  | existingSymbolFor_ name => name

namespace Provider

def answer (self : Provider) : Request → Option Nat × Provider
  | .symbolFor_ name => self.symbolFor_ name
  | .existingSymbolFor_ name => self.existingSymbolFor_ name

/-- Requests one after the other, with their answers. -/
def log (self : Provider) : List Request → List (Request × Option Nat)
  | [] => []
  | request :: requests =>
    (request, (self.answer request).1) :: (self.answer request).2.log requests

/-- The bytes of the symbol that is answered for a name the first time. -/
def encoding (self : Provider) (request : Request) : Option (List UInt8) :=
  if lookupBytes request.name ∈ self.table.symbols then some (lookupBytes request.name)
  else
    match request with
    | .symbolFor_ name => some (toUtf8 name)
    | .existingSymbolFor_ _ => none

/-- A name that is not in the cache is not encoded as a symbol in the cache is. -/
def Separates (self : Provider) (request : Request) : Prop :=
  self.cache request.name = none → ∀ other symbol bytes, self.cache other = some symbol →
    self.table.symbols[symbol]? = some bytes → self.encoding request ≠ some bytes

/-- So does every request of a run. -/
def SeparatesAll (self : Provider) : List Request → Prop
  | [] => True
  | request :: requests =>
    self.Separates request ∧ (self.answer request).2.SeparatesAll requests

end Provider

/-- Symbols answered are the same exactly for equal names, and a name that had a symbol has it in
every later answer. -/
structure Unique (log : List (Request × Option Nat)) : Prop where
  identical : ∀ first ∈ log, ∀ second ∈ log, ∀ symbol other, first.2 = some symbol →
    second.2 = some other → (first.1.name = second.1.name ↔ symbol = other)
  found : log.Pairwise fun first second =>
    first.1.name = second.1.name → first.2.isSome → second.2 = first.2

section Steps

theorem Table.find_some {self : Table} {bytes : List UInt8} {symbol : Nat}
    (found : self.find bytes = some symbol) : self.symbols[symbol]? = some bytes := by
  obtain ⟨inside, same, -⟩ := List.idxOf?_eq_some_iff.mp found
  rw [List.getElem?_eq_getElem inside, same]

theorem Table.find_none {self : Table} {bytes : List UInt8} :
    self.find bytes = none ↔ bytes ∉ self.symbols :=
  List.idxOf?_eq_none_iff

/-- The symbol has the bytes, and all symbols keep their places. -/
theorem Table.intern_spec (self : Table) (bytes : List UInt8) :
    (self.intern bytes).2.symbols[(self.intern bytes).1]? = some bytes ∧
      self.symbols <+: (self.intern bytes).2.symbols := by
  rw [intern]
  split
  · next symbol found => exact ⟨find_some found, List.prefix_rfl⟩
  · constructor
    · change (self.symbols.concat bytes)[self.symbols.length]? = some bytes
      rw [List.concat_eq_append, List.getElem?_append_right (Nat.le_refl _), Nat.sub_self]
      rfl
    · change self.symbols <+: self.symbols.concat bytes
      rw [List.concat_eq_append]
      exact List.prefix_append _ _

theorem Provider.answer_of_existing {self after : Provider} {request : Request} {symbol : Nat}
    (existing : self.existingSymbolFor_ request.name = (some symbol, after)) :
    self.answer request = (some symbol, after) := by
  cases request with
  | existingSymbolFor_ name => exact existing
  | symbolFor_ name =>
    have same : self.existingSymbolFor_ name = (some symbol, after) := existing
    rw [answer, symbolFor_, same]

/-- What a request does: a cached symbol is answered again, else one with the encoding, or none
where there is no encoding. -/
theorem Provider.answer_cases (self : Provider) (request : Request) :
    (∃ symbol, self.cache request.name = some symbol ∧
      self.answer request = (some symbol, self)) ∨
    (self.cache request.name = none ∧ self.encoding request = none ∧
      self.answer request = (none, self)) ∨
    (∃ bytes symbol table, self.cache request.name = none ∧
      self.encoding request = some bytes ∧ table.symbols[symbol]? = some bytes ∧
      self.table.symbols <+: table.symbols ∧
      self.answer request = (some symbol, { self with table }.remember request.name symbol)) := by
  cases cached : self.cache request.name with
  | some symbol =>
    have existing : self.existingSymbolFor_ request.name = (some symbol, self) := by
      rw [existingSymbolFor_, cached]
    exact .inl ⟨symbol, rfl, answer_of_existing existing⟩
  | none =>
    right
    cases found : self.table.find (lookupBytes request.name) with
    | some symbol =>
      have existing : self.existingSymbolFor_ request.name =
          (some symbol, self.remember request.name symbol) := by
        rw [existingSymbolFor_, cached, found]
      have held := Table.find_some found
      have encoded : self.encoding request = some (lookupBytes request.name) := by
        apply if_pos
        exact List.mem_of_getElem? held
      exact .inr ⟨_, symbol, self.table, rfl, encoded, held, List.prefix_rfl,
        answer_of_existing existing⟩
    | none =>
      have existing : self.existingSymbolFor_ request.name = (none, self) := by
        rw [existingSymbolFor_, cached, found]
      have absent := Table.find_none.mp found
      cases request with
      | existingSymbolFor_ name => exact .inl ⟨rfl, if_neg absent, existing⟩
      | symbolFor_ name =>
        obtain ⟨held, kept⟩ := self.table.intern_spec (toUtf8 name)
        right
        refine ⟨toUtf8 name, _, _, rfl, if_neg absent, held, kept, ?_⟩
        have same : self.existingSymbolFor_ name = (none, self) := existing
        rw [answer, symbolFor_, same]
        rfl

end Steps

section Runs

/-- Cached symbols are in the table, and names do not share them. -/
structure Provider.Held (provider : Provider) : Prop where
  inside : ∀ name symbol, provider.cache name = some symbol → ∃ bytes,
    provider.table.symbols[symbol]? = some bytes
  injective : ∀ name other symbol, provider.cache name = some symbol →
    provider.cache other = some symbol → name = other

/-- Answers agree with the cache on which names share a symbol. -/
def Compatible (cache : Name → Option Nat) (log : List (Request × Option Nat)) : Prop :=
  ∀ entry ∈ log, ∀ name symbol other, entry.2 = some symbol → cache name = some other →
    (entry.1.name = name ↔ symbol = other)

variable {self : Provider}

/-- A cached symbol is the answer from then on. -/
theorem Provider.log_cached {name : Name} {symbol : Nat} (requests : List Request)
    (cached : self.cache name = some symbol) :
    ∀ entry ∈ self.log requests, entry.1.name = name → entry.2 = some symbol := by
  induction requests generalizing self with
  | nil => exact fun _ member => absurd member List.not_mem_nil
  | cons request requests ih =>
    have kept : (self.answer request).2.cache name = some symbol := by
      obtain ⟨_, _, answered⟩ | ⟨_, _, answered⟩ | ⟨_, _, _, missing, _, _, _, answered⟩ :=
        self.answer_cases request
      · rw [answered]
        exact cached
      · rw [answered]
        exact cached
      · rw [answered, remember]
        dsimp only
        rw [Function.update_of_ne _, cached]
        rintro rfl
        rw [missing] at cached
        exact absurd cached (by simp)
    intro entry member same
    obtain rfl | later := List.mem_cons.mp member
    · obtain ⟨_, known, answered⟩ | ⟨missing, _⟩ | ⟨_, _, _, missing, _⟩ := self.answer_cases request
      · rw [answered, ← known, same, cached]
      · rw [same, cached] at missing
        exact absurd missing (by simp)
      · rw [same, cached] at missing
        exact absurd missing (by simp)
    · exact ih kept entry later same

section Entries

variable {request : Request} {symbol : Nat} {log : List (Request × Option Nat)}
  {cache : Name → Option Nat}

theorem unique_cons_none : Unique ((request, none) :: log) ↔ Unique log := by
  constructor
  · intro unique
    refine ⟨fun first member second other => ?_, (List.pairwise_cons.mp unique.found).2⟩
    exact unique.identical first (List.mem_cons_of_mem _ member) second
      (List.mem_cons_of_mem _ other)
  · intro unique
    constructor
    · intro first member second other answer answer' some some'
      obtain rfl | later := List.mem_cons.mp member
      · exact absurd some (by simp)
      obtain rfl | later' := List.mem_cons.mp other
      · exact absurd some' (by simp)
      · exact unique.identical first later second later' answer answer' some some'
    · refine List.pairwise_cons.mpr ⟨fun _ _ _ none => ?_, unique.found⟩
      exact absurd none (by simp)

/-- Where the name is always answered so from then on, only the symbols of others matter. -/
theorem unique_cons_some
    (again : ∀ entry ∈ log, entry.1.name = request.name → entry.2 = some symbol) :
    Unique ((request, some symbol) :: log) ↔ Unique log ∧
      ∀ entry ∈ log, ∀ other, entry.2 = some other →
        (entry.1.name = request.name ↔ other = symbol) := by
  constructor
  · intro unique
    refine ⟨⟨fun first member second other => ?_, (List.pairwise_cons.mp unique.found).2⟩, ?_⟩
    · exact unique.identical first (List.mem_cons_of_mem _ member) second
        (List.mem_cons_of_mem _ other)
    · intro entry member other answered
      exact unique.identical entry (List.mem_cons_of_mem _ member) _ List.mem_cons_self other
        symbol answered rfl
  · rintro ⟨unique, apart⟩
    constructor
    · intro first member second other answer answer' some some'
      obtain rfl | later := List.mem_cons.mp member
      · obtain rfl := Option.some.inj some
        obtain rfl | later' := List.mem_cons.mp other
        · exact iff_of_true rfl (Option.some.inj some')
        · rw [eq_comm, apart second later' answer' some', eq_comm]
      obtain rfl | later' := List.mem_cons.mp other
      · obtain rfl := Option.some.inj some'
        exact apart first later answer some
      · exact unique.identical first later second later' answer answer' some some'
    · refine List.pairwise_cons.mpr ⟨fun entry member same _ => ?_, unique.found⟩
      exact again entry member same.symm

theorem compatible_cons_none : Compatible cache ((request, none) :: log) ↔ Compatible cache log := by
  constructor
  · intro compatible entry member
    exact compatible entry (List.mem_cons_of_mem _ member)
  · intro compatible entry member name answer other some
    obtain rfl | later := List.mem_cons.mp member
    · exact absurd some (by simp)
    · exact compatible entry later name answer other some

theorem compatible_cons_some : Compatible cache ((request, some symbol) :: log) ↔
    (∀ name other, cache name = some other → (request.name = name ↔ symbol = other)) ∧
      Compatible cache log := by
  constructor
  · intro compatible
    refine ⟨fun name other => ?_, fun entry member => ?_⟩
    · exact compatible _ List.mem_cons_self name symbol other rfl
    · exact compatible entry (List.mem_cons_of_mem _ member)
  · rintro ⟨head, compatible⟩ entry member name answer other some
    obtain rfl | later := List.mem_cons.mp member
    · obtain rfl := Option.some.inj some
      exact head name other
    · exact compatible entry later name answer other some

theorem compatible_update {name : Name} (missing : cache name = none) :
    Compatible (Function.update cache name (some symbol)) log ↔
      (∀ entry ∈ log, ∀ other, entry.2 = some other → (entry.1.name = name ↔ other = symbol)) ∧
        Compatible cache log := by
  constructor
  · intro compatible
    constructor
    · intro entry member other answered
      exact compatible entry member name other symbol answered (Function.update_self _ _ _)
    · intro entry member name' answer other answered cached
      have different : name' ≠ name := by
        rintro rfl
        rw [missing] at cached
        exact absurd cached (by simp)
      apply compatible entry member name' answer other answered
      rw [Function.update_of_ne different, cached]
  · rintro ⟨own, compatible⟩ entry member name' answer other answered cached
    by_cases same : name' = name
    · subst same
      rw [Function.update_self] at cached
      obtain rfl := Option.some.inj cached
      exact own entry member answer answered
    · rw [Function.update_of_ne same] at cached
      exact compatible entry member name' answer other answered cached

end Entries

section Extension

theorem getElem?_of_isPrefix {first second : List (List UInt8)} {index : Nat} {bytes : List UInt8}
    (kept : first <+: second) (found : first[index]? = some bytes) :
    second[index]? = some bytes := by
  obtain ⟨rest, rfl⟩ := kept
  obtain ⟨inside, _⟩ := List.getElem?_eq_some_iff.mp found
  rw [List.getElem?_append_left inside, found]

variable {request : Request} {bytes : List UInt8} {symbol : Nat} {table : Table}
  (held : self.Held) (missing : self.cache request.name = none)
  (encoded : self.encoding request = some bytes) (made : table.symbols[symbol]? = some bytes)
  (kept : self.table.symbols <+: table.symbols)

include missing in
theorem name_ne_of_cached {name : Name} {other : Nat} (cached : self.cache name = some other) :
    request.name ≠ name := by
  rintro rfl
  rw [missing] at cached
  exact absurd cached (by simp)

include held missing encoded made kept

/-- A symbol is not shared exactly where its encoding is that of no cached one. -/
theorem separates_iff : self.Separates request ↔
    ∀ name other, self.cache name = some other → (request.name = name ↔ symbol = other) := by
  constructor
  · intro separates name other cached
    refine iff_of_false (name_ne_of_cached missing cached) ?_
    rintro rfl
    obtain ⟨bytes', found⟩ := held.inside name symbol cached
    have same := getElem?_of_isPrefix kept found
    rw [made] at same
    obtain rfl := Option.some.inj same
    exact separates missing name symbol bytes cached found encoded
  · intro apart _ name other bytes' cached found same
    rw [encoded] at same
    obtain rfl := Option.some.inj same
    have inside := getElem?_of_isPrefix kept found
    obtain ⟨less, _⟩ := List.getElem?_eq_some_iff.mp made
    have equal : symbol = other :=
      (List.getElem?_inj less table.distinct).mp (made.trans inside.symm)
    exact name_ne_of_cached missing cached ((apart name other cached).mpr equal)

theorem held_remember (separates : self.Separates request) :
    (Provider.remember { self with table } request.name symbol).Held := by
  have apart := (separates_iff held missing encoded made kept).mp separates
  have updated : (Provider.remember { self with table } request.name symbol).cache =
      Function.update self.cache request.name (some symbol) := rfl
  constructor
  · intro name other cached
    rw [updated] at cached
    by_cases same : name = request.name
    · rw [same, Function.update_self] at cached
      obtain rfl := Option.some.inj cached
      exact ⟨bytes, made⟩
    · rw [Function.update_of_ne same] at cached
      obtain ⟨bytes', found⟩ := held.inside name other cached
      exact ⟨bytes', getElem?_of_isPrefix kept found⟩
  · intro name name' other cached cached'
    rw [updated] at cached cached'
    by_cases same : name = request.name
    · rw [same, Function.update_self] at cached
      obtain rfl := Option.some.inj cached
      by_cases same' : name' = request.name
      · rw [same, same']
      · rw [Function.update_of_ne same'] at cached'
        rw [same, (apart name' symbol cached').mpr rfl]
    · rw [Function.update_of_ne same] at cached
      by_cases same' : name' = request.name
      · rw [same', Function.update_self] at cached'
        obtain rfl := Option.some.inj cached'
        rw [same', (apart name symbol cached).mpr rfl]
      · rw [Function.update_of_ne same'] at cached'
        exact held.injective name name' other cached cached'

end Extension

/-- From any state, the answers are unique among themselves and with the cache exactly where every
request is separate. -/
theorem unique_iff_separates (held : self.Held) (requests : List Request) :
    Unique (self.log requests) ∧ Compatible self.cache (self.log requests) ↔
      self.SeparatesAll requests := by
  induction requests generalizing self with
  | nil =>
    refine iff_of_true ⟨⟨?_, List.Pairwise.nil⟩, ?_⟩ trivial
    · exact fun _ member => absurd member List.not_mem_nil
    · exact fun _ member => absurd member List.not_mem_nil
  | cons request requests ih =>
    rw [Provider.log, Provider.SeparatesAll]
    obtain ⟨symbol, cached, answered⟩ | ⟨missing, unencoded, answered⟩ |
      ⟨bytes, symbol, table, missing, encoded, made, kept, answered⟩ := self.answer_cases request
    · have separates : self.Separates request := fun missing => by
        rw [missing] at cached
        exact absurd cached (by simp)
      have again := Provider.log_cached requests cached
      rw [answered, unique_cons_some again, compatible_cons_some, ← ih held]
      constructor
      · rintro ⟨⟨unique, _⟩, _, compatible⟩
        exact ⟨separates, unique, compatible⟩
      · rintro ⟨_, unique, compatible⟩
        refine ⟨⟨unique, fun entry member other answer => ?_⟩, fun name other known => ?_,
          compatible⟩
        · exact compatible entry member request.name other symbol answer cached
        · constructor
          · rintro rfl
            exact Option.some.inj (cached.symm.trans known)
          · rintro rfl
            exact held.injective _ _ symbol cached known
    · have separates : self.Separates request := fun _ _ _ _ _ _ same => by
        rw [unencoded] at same
        exact absurd same (by simp)
      rw [answered, unique_cons_none, compatible_cons_none, ← ih held]
      exact (and_iff_right separates).symm
    · have updated : (Provider.remember { self with table } request.name symbol).cache =
          Function.update self.cache request.name (some symbol) := rfl
      have apart := separates_iff held missing encoded made kept
      have again := Provider.log_cached requests
        (congrFun updated request.name |>.trans (Function.update_self _ _ _))
      rw [answered, unique_cons_some again, compatible_cons_some, ← apart]
      constructor
      · rintro ⟨⟨unique, own⟩, separates, compatible⟩
        refine ⟨separates, (ih (held_remember held missing encoded made kept separates)).mp ⟨unique, ?_⟩⟩
        rw [updated]
        exact (compatible_update missing).mpr ⟨own, compatible⟩
      · rintro ⟨separates, rest⟩
        obtain ⟨unique, compatible⟩ :=
          (ih (held_remember held missing encoded made kept separates)).mpr rest
        rw [updated] at compatible
        obtain ⟨own, compatible⟩ := (compatible_update missing).mp compatible
        exact ⟨⟨unique, own⟩, separates, compatible⟩

end Runs

/-- A provider that has answered nothing yet. -/
def Provider.initial (table : Table) : Provider :=
  ⟨table, fun _ => none⟩

end Egg.Symbols
