import Egg.Dispatch.Runtime

/-! Histories of sends and of method redefinitions followed by a flush. -/
namespace Egg.Dispatch

open Egg.Data

variable {Object : Type} [DecidableEq Object] {Site : Type} [DecidableEq Site]

namespace Runtime

variable {kernel : Kernel Object}

omit [DecidableEq Object] in
/-- No registered send site is ever found, so no inline cache is ever cleared. -/
theorem flushInlineCaches_eq_self (runtime : Runtime kernel Site) (symbol : Object) :
    runtime.flushInlineCaches symbol = runtime := by
  simp [flushInlineCaches, ComparatorMap.find_eq_none_of_total kernel.comesBefore_total]

theorem flushDispatchCache_eq_self (runtime : Runtime kernel Site) (symbol : Object) :
    runtime.flushDispatchCache symbol = runtime := by
  have kept : ∀ (keys : List (Object × Object))
      (map : ComparatorMap kernel.pairComesBefore Object), keys.foldl (·.erase ·) map = map := by
    intro keys map
    induction keys with
    | nil => rfl
    | cons key rest ih =>
      rw [List.foldl_cons, ComparatorMap.erase_eq_self_of_total kernel.pairComesBefore_total, ih]
  simp [flushDispatchCache, flushInlineCaches_eq_self, kept]

omit [DecidableEq Object] in
theorem flushDispatchCacheIn_eq_self (runtime : Runtime kernel Site) (symbol klass : Object) :
    runtime.flushDispatchCacheIn symbol klass = runtime := by
  simp [flushDispatchCacheIn, flushInlineCaches_eq_self,
    ComparatorMap.find_eq_none_of_total kernel.pairComesBefore_total]

omit [DecidableEq Site] in
/-- The global cache never hits, so the cached lookup answers the uncached one. -/
theorem lookupStartingAt_snd (runtime : Runtime kernel Site) (symbol behavior : Object) :
    (runtime.lookupStartingAt symbol behavior).2 =
      doLookupStartingAt kernel runtime.dictionaries symbol behavior := by
  simp only [lookupStartingAt,
    ComparatorMap.find_eq_none_of_total kernel.pairComesBefore_total]
  split <;> simp_all

omit [DecidableEq Site] in
theorem lookupStartingAt_fst (runtime : Runtime kernel Site) (symbol behavior : Object) :
    (runtime.lookupStartingAt symbol behavior).1.messages = runtime.messages ∧
      (runtime.lookupStartingAt symbol behavior).1.dictionaries = runtime.dictionaries := by
  unfold lookupStartingAt
  split
  · exact ⟨rfl, rfl⟩
  · split <;> exact ⟨rfl, rfl⟩

end Runtime

/-- The send sites of the linearized code before any of them has run. -/
structure Program (Object Site : Type) where
  selector : Site → Object
  receiverIsSuper : Site → Bool

/-- A freshly started runtime: every cache and registry is empty. -/
def Program.start (program : Program Object Site) (kernel : Kernel Object)
    (dictionaries : Dictionaries Object) : Runtime kernel Site where
  dictionaries := dictionaries
  messages := fun site => ⟨program.selector site, program.receiverIsSuper site, []⟩
  inlineCaches := .empty
  globalCache := .empty

/-- One step of a history: a send, a `perform:`, or a redefinition with its flush. -/
inductive Event (Object Site : Type) where
  | send (site : Site) (behaviorOfR classBinding : Object)
  | perform (symbol behavior : Object)
  | redefine (behavior : Object) (dictionary : MethodDictionary Object) (selector : Object)
  | redefineIn (behavior : Object) (dictionary : MethodDictionary Object)
      (selector klass : Object)

def Runtime.setDictionary {kernel : Kernel Object} (runtime : Runtime kernel Site)
    (behavior : Object) (dictionary : MethodDictionary Object) : Runtime kernel Site :=
  { runtime with dictionaries := Function.update runtime.dictionaries behavior dictionary }

def Runtime.step {kernel : Kernel Object} (runtime : Runtime kernel Site) :
    Event Object Site → Runtime kernel Site
  | .send site behaviorOfR classBinding =>
    (runtime.visitOpDispatchMessage site behaviorOfR classBinding).1
  | .perform symbol behavior => (runtime.evaluatePerform symbol behavior).1
  | .redefine behavior dictionary selector =>
    (runtime.setDictionary behavior dictionary).flushDispatchCache selector
  | .redefineIn behavior dictionary selector klass =>
    (runtime.setDictionary behavior dictionary).flushDispatchCacheIn selector klass

def Runtime.run {kernel : Kernel Object} (runtime : Runtime kernel Site)
    (events : List (Event Object Site)) : Runtime kernel Site :=
  events.foldl Runtime.step runtime

/-- What a send does when the current dictionaries alone decide. -/
def uncachedOutcome (kernel : Kernel Object) (dictionaries : Dictionaries Object)
    (message : SAbstractMessage Object) (behaviorOfR classBinding : Object) : Outcome Object :=
  if kernel.undermessages message.selector then .undermessage
  else
    match doLookupStartingAt kernel dictionaries message.selector
        (message.startBehavior kernel behaviorOfR classBinding) with
    | some method => .invoke method
    | none => .messageNotUnderstood
        (doLookupStartingAt kernel dictionaries kernel.doesNotUnderstand behaviorOfR)

/-- A send agrees with the current dictionaries. -/
def Runtime.Faithful {kernel : Kernel Object} (runtime : Runtime kernel Site) :
    Event Object Site → Prop
  | .send site behaviorOfR classBinding =>
    (runtime.visitOpDispatchMessage site behaviorOfR classBinding).2 =
      uncachedOutcome kernel runtime.dictionaries (runtime.messages site) behaviorOfR classBinding
  | .perform symbol behavior =>
    (runtime.evaluatePerform symbol behavior).2 =
      doLookupStartingAt kernel runtime.dictionaries symbol behavior
  | _ => True

/-- Every send of the history runs what the dictionaries of its moment say. -/
def RedefinitionVisible {kernel : Kernel Object} (runtime : Runtime kernel Site)
    (events : List (Event Object Site)) : Prop :=
  ∀ before event after, events = before ++ event :: after → (runtime.run before).Faithful event

/-- The method dictionaries after a history, caches left aside. -/
def Event.dictionaries (dictionaries : Dictionaries Object) :
    Event Object Site → Dictionaries Object
  | .redefine behavior dictionary _ => Function.update dictionaries behavior dictionary
  | .redefineIn behavior dictionary _ _ => Function.update dictionaries behavior dictionary
  | _ => dictionaries

def dictionariesAfter (dictionaries : Dictionaries Object) (events : List (Event Object Site)) :
    Dictionaries Object :=
  events.foldl Event.dictionaries dictionaries

namespace Program

variable (program : Program Object Site) (kernel : Kernel Object)

/-- Where lookup starts for a send through the site. -/
def startBehavior (site : Site) (behaviorOfR classBinding : Object) : Object :=
  if program.receiverIsSuper site then kernel.superBehaviorOf classBinding else behaviorOfR

/-- What one event lets the site learn about the behavior. -/
def resolution (site : Site) (behavior : Object) (dictionaries : Dictionaries Object) :
    Event Object Site → Option Object
  | .send sender behaviorOfR classBinding =>
    if sender = site ∧ kernel.undermessages (program.selector site) = false ∧
        program.startBehavior kernel site behaviorOfR classBinding = behavior then
      doLookupStartingAt kernel dictionaries (program.selector site) behavior
    else none
  | _ => none

/-- The method of the first send through the site that found one for the behavior. -/
def firstResolution (site : Site) (behavior : Object) :
    Dictionaries Object → List (Event Object Site) → Option Object
  | _, [] => none
  | dictionaries, event :: rest =>
    (program.resolution kernel site behavior dictionaries event).or
      (firstResolution site behavior (event.dictionaries dictionaries) rest)

/-- Whenever a site sends to a behavior again, the dictionaries still answer what
the site's first successful send to that behavior found. -/
def ResolutionsStable (dictionaries : Dictionaries Object) (events : List (Event Object Site)) :
    Prop :=
  ∀ before site behaviorOfR classBinding after,
    events = before ++ .send site behaviorOfR classBinding :: after →
    ∀ method,
      program.firstResolution kernel site
        (program.startBehavior kernel site behaviorOfR classBinding) dictionaries before =
        some method →
      doLookupStartingAt kernel (dictionariesAfter dictionaries before) (program.selector site)
        (program.startBehavior kernel site behaviorOfR classBinding) = some method

/-- A site's own send resolves the behavior where its lookup starts. -/
theorem resolution_own {site : Site}
    (ordinary : kernel.undermessages (program.selector site) = false)
    (behavior behaviorOfR classBinding : Object) (dictionaries : Dictionaries Object) :
    program.resolution kernel site behavior dictionaries (.send site behaviorOfR classBinding) =
      if program.startBehavior kernel site behaviorOfR classBinding = behavior then
        doLookupStartingAt kernel dictionaries (program.selector site) behavior
      else none := by
  simp [resolution, ordinary]

theorem firstResolution_undermessage {site : Site}
    (listed : kernel.undermessages (program.selector site) = true) (behavior : Object)
    (events : List (Event Object Site)) (dictionaries : Dictionaries Object) :
    program.firstResolution kernel site behavior dictionaries events = none := by
  induction events generalizing dictionaries with
  | nil => rfl
  | cons event rest ih =>
    rw [firstResolution, ih, Option.or_none]
    cases event <;> simp [resolution, listed]

theorem firstResolution_append (site : Site) (behavior : Object) (event : Event Object Site)
    (events : List (Event Object Site)) (dictionaries : Dictionaries Object) :
    program.firstResolution kernel site behavior dictionaries (events ++ [event]) =
      (program.firstResolution kernel site behavior dictionaries events).or
        (program.resolution kernel site behavior (dictionariesAfter dictionaries events) event) := by
  induction events generalizing dictionaries with
  | nil => simp [firstResolution, dictionariesAfter]
  | cons first rest ih =>
    simp only [List.cons_append, firstResolution, ih, Option.or_assoc]
    rfl

end Program

end Egg.Dispatch
