import Mathlib.Data.List.Nodup
import Egg.Dispatch.Redefinition

/-! Runs of lookups and flushes, with the global cache as the map it is meant to be. -/
namespace Egg.Dispatch

open Egg.Data

variable {Object : Type} [DecidableEq Object] {Site : Type} [DecidableEq Site]

/-- A use of the global cache, or a change of the method dictionaries. -/
inductive CacheUse (Object : Type) where
  | lookup (symbol behavior : Object)
  | flush (symbol : Object)
  | flushIn (symbol klass : Object)
  | redefine (dictionaries : Dictionaries Object)

namespace Runtime

variable {kernel : Kernel Object}

def use (runtime : Runtime kernel Site) : CacheUse Object → Runtime kernel Site
  | .lookup symbol behavior => (runtime.lookupStartingAt symbol behavior).1
  | .flush symbol => runtime.flushDispatchCache symbol
  | .flushIn symbol klass => runtime.flushDispatchCacheIn symbol klass
  | .redefine dictionaries => { runtime with dictionaries }

def cachedPairs (runtime : Runtime kernel Site) : List (Object × Object) :=
  runtime.globalCache.entries.map Prod.fst

/-- The pairs that a use leaves inserted and not flushed since. -/
def keptAfter (runtime : Runtime kernel Site) (kept : List (Object × Object)) :
    CacheUse Object → List (Object × Object)
  | .lookup symbol behavior =>
    match runtime.globalCache.find (symbol, behavior) with
    | some _ => kept
    | none =>
      match doLookupStartingAt kernel runtime.dictionaries symbol behavior with
      | some _ => kept ++ [(symbol, behavior)]
      | none => kept
  | .flush symbol => kept.filter fun pair => pair.1 ≠ symbol
  | .flushIn symbol klass =>
    kept.filter fun pair => pair ≠ (symbol, kernel.speciesInstanceBehavior klass)
  | .redefine _ => kept

/-- What a use promises: a pair that was kept is answered from the cache, and a flush leaves no
entry that it covers. -/
def Promises (runtime : Runtime kernel Site) (kept : List (Object × Object)) :
    CacheUse Object → Prop
  | .lookup symbol behavior => (symbol, behavior) ∈ kept →
    runtime.globalCache.find (symbol, behavior) ≠ none
  | .flush symbol => ∀ pair ∈ (runtime.use (.flush symbol)).cachedPairs, pair.1 ≠ symbol
  | .flushIn symbol klass => (symbol, kernel.speciesInstanceBehavior klass) ∉
    (runtime.use (.flushIn symbol klass)).cachedPairs
  | .redefine _ => True

/-- The cache is a finite map in a run. -/
def Mapped (runtime : Runtime kernel Site) (kept : List (Object × Object)) :
    List (CacheUse Object) → Prop
  | [] => runtime.cachedPairs.Nodup
  | use :: uses => runtime.cachedPairs.Nodup ∧ runtime.Promises kept use ∧
    (runtime.use use).Mapped (runtime.keptAfter kept use) uses

end Runtime

/-! ### Runs that use no pair twice -/

section Unrepeated

variable (kernel : Kernel Object)

def redefined (dictionaries : Dictionaries Object) :
    CacheUse Object → Dictionaries Object
  | .redefine changed => changed
  | _ => dictionaries

/-- The pairs that lookups found. -/
def foundAfter (dictionaries : Dictionaries Object) (found : List (Object × Object)) :
    CacheUse Object → List (Object × Object)
  | .lookup symbol behavior =>
    if doLookupStartingAt kernel dictionaries symbol behavior = none then found
    else found ++ [(symbol, behavior)]
  | _ => found

/-- A use is not about a pair that was found. -/
def Apart (found : List (Object × Object)) : CacheUse Object → Prop
  | .lookup symbol behavior => (symbol, behavior) ∉ found
  | .flush symbol => ∀ pair ∈ found, pair.1 ≠ symbol
  | .flushIn symbol klass => (symbol, kernel.speciesInstanceBehavior klass) ∉ found
  | .redefine _ => True

/-- No pair that a lookup found is looked up again, or covered by a flush. -/
def Unrepeated (dictionaries : Dictionaries Object) (found : List (Object × Object)) :
    List (CacheUse Object) → Prop
  | [] => True
  | use :: uses => Apart kernel found use ∧
    Unrepeated (redefined dictionaries use) (foundAfter kernel dictionaries found use) uses

end Unrepeated

namespace Runtime

variable {kernel : Kernel Object} {runtime : Runtime kernel Site} {use : CacheUse Object}

omit [DecidableEq Object] [DecidableEq Site] in
theorem find_none (runtime : Runtime kernel Site) (pair : Object × Object) :
    runtime.globalCache.find pair = none :=
  ComparatorMap.find_eq_none_of_total kernel.pairComesBefore_total _ _

/-- Every lookup that finds a method adds an entry, and no entry is ever removed. -/
theorem cachedPairs_use : (runtime.use use).cachedPairs =
    foundAfter kernel runtime.dictionaries runtime.cachedPairs use := by
  cases use with
  | lookup symbol behavior =>
    simp only [Runtime.use, lookupStartingAt, find_none, foundAfter]
    cases looked : doLookupStartingAt kernel runtime.dictionaries symbol behavior with
    | none => rfl
    | some method => simp [cachedPairs, ComparatorMap.insert, find_none]
  | flush symbol =>
    simp only [Runtime.use]
    rw [flushDispatchCache_eq_self]
    rfl
  | flushIn symbol klass =>
    simp only [Runtime.use]
    rw [flushDispatchCacheIn_eq_self]
    rfl
  | redefine dictionaries => rfl

theorem dictionaries_use : (runtime.use use).dictionaries =
    redefined runtime.dictionaries use := by
  cases use with
  | lookup symbol behavior => exact (lookupStartingAt_fst runtime symbol behavior).2
  | flush symbol =>
    simp only [Runtime.use]
    rw [flushDispatchCache_eq_self]
    rfl
  | flushIn symbol klass =>
    simp only [Runtime.use]
    rw [flushDispatchCacheIn_eq_self]
    rfl
  | redefine dictionaries => rfl

/-- While everything that was inserted is kept, a use keeps its promise exactly when it is about
none of it. -/
theorem promises_iff : runtime.Promises runtime.cachedPairs use ↔
    Apart kernel runtime.cachedPairs use := by
  cases use with
  | lookup symbol behavior =>
    simp only [Promises, Apart, find_none]
    simp
  | flush symbol =>
    simp only [Promises, Apart, cachedPairs_use]
    rfl
  | flushIn symbol klass =>
    simp only [Promises, Apart, cachedPairs_use]
    rfl
  | redefine dictionaries => exact Iff.rfl

theorem keptAfter_eq (apart : Apart kernel runtime.cachedPairs use) :
    runtime.keptAfter runtime.cachedPairs use = (runtime.use use).cachedPairs := by
  rw [cachedPairs_use]
  cases use with
  | lookup symbol behavior =>
    simp only [keptAfter, find_none, foundAfter]
    cases looked : doLookupStartingAt kernel runtime.dictionaries symbol behavior with
    | none => rfl
    | some method => simp
  | flush symbol =>
    apply List.filter_eq_self.mpr
    intro pair member
    simpa using apart pair member
  | flushIn symbol klass =>
    apply List.filter_eq_self.mpr
    intro pair member
    have different : pair ≠ (symbol, kernel.speciesInstanceBehavior klass) :=
      fun same => apart (same ▸ member)
    simpa using different
  | redefine dictionaries => rfl

theorem nodup_use (nodup : runtime.cachedPairs.Nodup) (apart : Apart kernel runtime.cachedPairs use) :
    (runtime.use use).cachedPairs.Nodup := by
  rw [cachedPairs_use]
  cases use with
  | lookup symbol behavior =>
    simp only [foundAfter]
    split_ifs with missing
    · exact nodup
    · refine List.nodup_append.mpr ⟨nodup, List.nodup_singleton _, ?_⟩
      intro pair member other single same
      rw [List.mem_singleton.mp single] at same
      exact apart (same ▸ member)
  | flush symbol => exact nodup
  | flushIn symbol klass => exact nodup
  | redefine dictionaries => exact nodup

theorem mapped_iff_unrepeated {uses : List (CacheUse Object)} (nodup : runtime.cachedPairs.Nodup) :
    runtime.Mapped runtime.cachedPairs uses ↔
      Unrepeated kernel runtime.dictionaries runtime.cachedPairs uses := by
  induction uses generalizing runtime with
  | nil => exact ⟨fun _ => trivial, fun _ => nodup⟩
  | cons use uses ih =>
    rw [Mapped, Unrepeated, promises_iff]
    constructor
    · rintro ⟨-, apart, rest⟩
      rw [keptAfter_eq apart, ih (nodup_use nodup apart), cachedPairs_use, dictionaries_use] at rest
      exact ⟨apart, rest⟩
    · rintro ⟨apart, rest⟩
      refine ⟨nodup, apart, ?_⟩
      rw [keptAfter_eq apart, ih (nodup_use nodup apart), cachedPairs_use, dictionaries_use]
      exact rest

end Runtime

/-- From an empty cache on, the cache is a finite map in exactly the runs that use no pair twice. -/
theorem globalCache_map_iff (kernel : Kernel Object) (dictionaries : Dictionaries Object)
    (messages : Site → SAbstractMessage Object) (uses : List (CacheUse Object)) :
    Runtime.Mapped (⟨dictionaries, messages, .empty, .empty⟩ : Runtime kernel Site) [] uses ↔
      Unrepeated kernel dictionaries [] uses :=
  Runtime.mapped_iff_unrepeated List.nodup_nil

/-- Three symbols and behaviors; the behavior 1 has the method 2 for the symbol 1. -/
def tinyKernel : Kernel Nat where
  nilObj := 0
  hashFor := id
  behaviorNext := fun _ => 0
  speciesSuperclass := fun _ => 0
  speciesInstanceBehavior := fun _ => 1
  undermessages := fun _ => false
  doesNotUnderstand := 0
  depth := fun _ => 0
  descends := fun _ some_next => absurd rfl some_next

/-- A pair that is looked up twice is searched twice, and has two entries. -/
theorem twice_looked_up :
    ¬ Runtime.Mapped (⟨fun _ => .array [1, 2], fun _ : Unit => ⟨1, false, []⟩, .empty, .empty⟩ :
      Runtime tinyKernel Unit) [] [.lookup 1 1, .lookup 1 1] := by
  rintro ⟨-, -, -, kept, -⟩
  exact kept (by decide +kernel) (Runtime.find_none _ _)

end Egg.Dispatch
