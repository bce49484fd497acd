import Egg.Dispatch.Lookup

/-! Send sites, the global method cache and the registry of inline caches. -/
namespace Egg.Dispatch

open Egg.Data

variable {Object : Type} [DecidableEq Object]

/-- One word of a send site's inline cache: a behavior or method, or an undermessage. -/
inductive CacheItem (Object : Type) where
  | ref (object : Object)
  | undermessage
  deriving DecidableEq

/-- A send site with its inline cache. -/
structure SAbstractMessage (Object : Type) where
  selector : Object
  receiverIsSuper : Bool
  cache : List (CacheItem Object)

namespace SAbstractMessage

def cacheWhen (message : SAbstractMessage Object) (method type : Object) :
    SAbstractMessage Object :=
  { message with cache := message.cache ++ [.ref type, .ref method] }

def cacheUndermessage (message : SAbstractMessage Object) : SAbstractMessage Object :=
  { message with cache := message.cache ++ [.undermessage] }

/-- A cache of exactly one word holds an undermessage. -/
def cachedUndermessage (message : SAbstractMessage Object) : Bool :=
  message.cache.length == 1

def flushCache (message : SAbstractMessage Object) : SAbstractMessage Object :=
  { message with cache := [] }

def scanCache (behavior : Object) : List (CacheItem Object) → Option Object
  | .ref cached :: .ref method :: rest =>
    if cached = behavior then some method else scanCache behavior rest
  | _ => none

def methodFor (message : SAbstractMessage Object) (behavior : Object) : Option Object :=
  scanCache behavior message.cache

/-- Sends to super start at the superclass of the executing code's class. -/
def startBehavior (message : SAbstractMessage Object) (kernel : Kernel Object)
    (behaviorOfR classBinding : Object) : Object :=
  if message.receiverIsSuper then kernel.superBehaviorOf classBinding else behaviorOfR

end SAbstractMessage

/-- The order in which GC references are kept: by hash, not strictly. -/
def Kernel.comesBefore (kernel : Kernel Object) (left right : Object) : Bool :=
  kernel.hashFor left ≤ kernel.hashFor right

/-- The same order on pairs, lexicographically. -/
def Kernel.pairComesBefore (kernel : Kernel Object) (left right : Object × Object) : Bool :=
  kernel.hashFor left.1 < kernel.hashFor right.1 ||
    (kernel.hashFor left.1 == kernel.hashFor right.1 &&
      kernel.hashFor left.2 ≤ kernel.hashFor right.2)

omit [DecidableEq Object] in
theorem Kernel.comesBefore_total (kernel : Kernel Object) (left right : Object) :
    (kernel.comesBefore left right || kernel.comesBefore right left) = true := by
  simp only [comesBefore, Bool.or_eq_true, decide_eq_true_eq]
  omega

omit [DecidableEq Object] in
theorem Kernel.pairComesBefore_total (kernel : Kernel Object) (left right : Object × Object) :
    (kernel.pairComesBefore left right || kernel.pairComesBefore right left) = true := by
  simp only [pairComesBefore, Bool.or_eq_true, Bool.and_eq_true, decide_eq_true_eq, beq_iff_eq]
  omega

/-- The runtime's dispatch state, over the send sites of the linearized code. -/
structure Runtime (kernel : Kernel Object) (Site : Type) where
  dictionaries : Dictionaries Object
  messages : Site → SAbstractMessage Object
  inlineCaches : ComparatorMap kernel.comesBefore (List Site)
  globalCache : ComparatorMap kernel.pairComesBefore Object

namespace Runtime

variable {kernel : Kernel Object} {Site : Type} [DecidableEq Site]

/-- Lookup through the global cache, which is filled by a successful search. -/
def lookupStartingAt (runtime : Runtime kernel Site) (symbol behavior : Object) :
    Runtime kernel Site × Option Object :=
  match runtime.globalCache.find (symbol, behavior) with
  | some method => (runtime, some method)
  | none =>
    match doLookupStartingAt kernel runtime.dictionaries symbol behavior with
    | none => (runtime, none)
    | some method =>
      ({ runtime with globalCache := runtime.globalCache.insert (symbol, behavior) method },
        some method)

/-- Record a send site under its selector in the registry of inline caches. -/
def registerCacheFor (runtime : Runtime kernel Site) (site : Site) (symbol : Object) :
    Runtime kernel Site :=
  { runtime with
    inlineCaches := match runtime.inlineCaches.find symbol with
      | none => runtime.inlineCaches.insert symbol [site]
      | some _ => runtime.inlineCaches.modify symbol fun sites => sites ++ [site] }

def registerCacheWith (runtime : Runtime kernel Site) (site : Site) : Runtime kernel Site :=
  if (runtime.messages site).cache.isEmpty then
    runtime.registerCacheFor site (runtime.messages site).selector
  else runtime

/-- Replace what one send site holds. -/
def updateMessage (runtime : Runtime kernel Site) (site : Site)
    (change : SAbstractMessage Object → SAbstractMessage Object) : Runtime kernel Site :=
  { runtime with
    messages := Function.update runtime.messages site (change (runtime.messages site)) }

def lookupStartingAtSendSite (runtime : Runtime kernel Site) (symbol behavior : Object)
    (site : Site) : Runtime kernel Site × Option Object :=
  match runtime.lookupStartingAt symbol behavior with
  | (found, none) => (found, none)
  | (found, some method) =>
    ((found.registerCacheWith site).updateMessage site (·.cacheWhen method behavior),
      some method)

/-- Clear every send site that the registry holds for the symbol. -/
def flushInlineCaches (runtime : Runtime kernel Site) (symbol : Object) : Runtime kernel Site :=
  match runtime.inlineCaches.find symbol with
  | none => runtime
  | some sites => sites.foldl (fun current site => current.updateMessage site (·.flushCache)) runtime

/-- Flush a selector: its registered send sites and all its global entries. -/
def flushDispatchCache (runtime : Runtime kernel Site) (symbol : Object) : Runtime kernel Site :=
  let flushed := runtime.flushInlineCaches symbol
  let cached := flushed.globalCache.entries.filterMap fun entry =>
    if entry.1.1 = symbol then some entry.1 else none
  { flushed with globalCache := cached.foldl (·.erase ·) flushed.globalCache }

/-- Flush a selector in one class: its send sites and the one global entry. -/
def flushDispatchCacheIn (runtime : Runtime kernel Site) (symbol klass : Object) :
    Runtime kernel Site :=
  let behavior := kernel.speciesInstanceBehavior klass
  let flushed := runtime.flushInlineCaches symbol
  match flushed.globalCache.find (symbol, behavior) with
  | none => flushed
  | some _ => { flushed with globalCache := flushed.globalCache.erase (symbol, behavior) }

end Runtime

/-- What a dispatched send runs. -/
inductive Outcome (Object : Type) where
  | undermessage
  | invoke (method : Object)
  | messageNotUnderstood (handler : Option Object)
  deriving DecidableEq

namespace Runtime

variable {kernel : Kernel Object} {Site : Type} [DecidableEq Site]

/-- The handler of a message that lookup did not find. -/
def messageNotUnderstood (runtime : Runtime kernel Site) (behaviorOfR : Object) :
    Runtime kernel Site × Outcome Object :=
  let looked := runtime.lookupStartingAt kernel.doesNotUnderstand behaviorOfR
  (looked.1, .messageNotUnderstood looked.2)

/-- Execute the dispatch operation of a send site. -/
def visitOpDispatchMessage (runtime : Runtime kernel Site) (site : Site)
    (behaviorOfR classBinding : Object) : Runtime kernel Site × Outcome Object :=
  let message := runtime.messages site
  if message.cachedUndermessage then (runtime, .undermessage)
  else
    let behavior := message.startBehavior kernel behaviorOfR classBinding
    match message.methodFor behavior with
    | some method => (runtime, .invoke method)
    | none =>
      if kernel.undermessages message.selector then
        (runtime.updateMessage site (·.cacheUndermessage), .undermessage)
      else
        match runtime.lookupStartingAtSendSite message.selector behavior site with
        | (found, some method) => (found, .invoke method)
        | (found, none) => found.messageNotUnderstood behaviorOfR

/-- `perform:` looks the selector up without a send site. -/
def evaluatePerform (runtime : Runtime kernel Site) (symbol behavior : Object) :
    Runtime kernel Site × Option Object :=
  runtime.lookupStartingAt symbol behavior

end Runtime

end Egg.Dispatch
