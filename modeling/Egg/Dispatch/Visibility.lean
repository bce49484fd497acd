import Mathlib.Data.List.Induction
import Egg.Dispatch.Redefinition

/-! When a redefinition reaches the send sites that already ran. -/
namespace Egg.Dispatch

open Egg.Data

variable {Object : Type} [DecidableEq Object] {Site : Type} [DecidableEq Site]

/-- The cache words of a list of behaviors with their methods. -/
def pairWords (pairs : List (Object × Object)) : List (CacheItem Object) :=
  pairs.flatMap fun pair => [.ref pair.1, .ref pair.2]

omit [DecidableEq Object] in
@[simp] theorem pairWords_cons (pair : Object × Object) (rest : List (Object × Object)) :
    pairWords (pair :: rest) = .ref pair.1 :: .ref pair.2 :: pairWords rest := rfl

omit [DecidableEq Object] in
theorem pairWords_append (pairs : List (Object × Object)) (type method : Object) :
    pairWords pairs ++ [.ref type, .ref method] = pairWords (pairs ++ [(type, method)]) := by
  simp [pairWords]

omit [DecidableEq Object] in
/-- Behaviors and methods come in pairs, so such a cache never has one word. -/
theorem pairWords_length (pairs : List (Object × Object)) :
    (pairWords pairs).length = 2 * pairs.length := by
  induction pairs with
  | nil => rfl
  | cons pair rest ih => simp only [pairWords_cons, List.length_cons, ih]; omega

theorem scanCache_append (behavior type method : Object) (pairs : List (Object × Object)) :
    SAbstractMessage.scanCache behavior (pairWords (pairs ++ [(type, method)])) =
      (SAbstractMessage.scanCache behavior (pairWords pairs)).or
        (if type = behavior then some method else none) := by
  induction pairs with
  | nil => by_cases same : type = behavior <;> simp [pairWords, SAbstractMessage.scanCache, same]
  | cons pair rest ih =>
    simp only [List.cons_append, pairWords_cons, SAbstractMessage.scanCache]
    split
    · rfl
    · exact ih

/-- The caches of a running image, as the history alone determines them. -/
structure Mirrors (program : Program Object Site) (kernel : Kernel Object)
    (dictionaries : Dictionaries Object) (events : List (Event Object Site))
    (runtime : Runtime kernel Site) : Prop where
  current : runtime.dictionaries = dictionariesAfter dictionaries events
  selector : ∀ site, (runtime.messages site).selector = program.selector site
  receiverIsSuper : ∀ site,
    (runtime.messages site).receiverIsSuper = program.receiverIsSuper site
  undermessage : ∀ site, kernel.undermessages (program.selector site) = true →
    (runtime.messages site).cache = [] ∨ (runtime.messages site).cache = [.undermessage]
  resolved : ∀ site, kernel.undermessages (program.selector site) = false →
    ∃ pairs, (runtime.messages site).cache = pairWords pairs ∧
      ∀ behavior, SAbstractMessage.scanCache behavior (pairWords pairs) =
        program.firstResolution kernel site behavior dictionaries events

namespace Mirrors

variable {program : Program Object Site} {kernel : Kernel Object}
  {dictionaries : Dictionaries Object} {events : List (Event Object Site)}
  {runtime : Runtime kernel Site}

theorem start : Mirrors program kernel dictionaries [] (program.start kernel dictionaries) where
  current := rfl
  selector _ := rfl
  receiverIsSuper _ := rfl
  undermessage _ _ := Or.inl rfl
  resolved _ _ := ⟨[], rfl, fun _ => rfl⟩

theorem startBehavior (mirrors : Mirrors program kernel dictionaries events runtime)
    (site : Site) (behaviorOfR classBinding : Object) :
    (runtime.messages site).startBehavior kernel behaviorOfR classBinding =
      program.startBehavior kernel site behaviorOfR classBinding := by
  simp [SAbstractMessage.startBehavior, Program.startBehavior, mirrors.receiverIsSuper]

/-- A site whose selector is looked up has no undermessage and answers what it first found. -/
theorem methodFor (mirrors : Mirrors program kernel dictionaries events runtime) {site : Site}
    (ordinary : kernel.undermessages (program.selector site) = false) (behavior : Object) :
    (runtime.messages site).cachedUndermessage = false ∧
      (runtime.messages site).methodFor behavior =
        program.firstResolution kernel site behavior dictionaries events := by
  obtain ⟨pairs, shape, known⟩ := mirrors.resolved site ordinary
  constructor
  · have even := pairWords_length pairs
    simp only [SAbstractMessage.cachedUndermessage, shape, beq_eq_false_iff_ne]
    omega
  · rw [SAbstractMessage.methodFor, shape, known]

/-- An event outside every send site keeps the mirror. -/
theorem of_quiet (mirrors : Mirrors program kernel dictionaries events runtime)
    {event : Event Object Site} {after : Runtime kernel Site}
    (moved : after.dictionaries = event.dictionaries runtime.dictionaries)
    (kept : after.messages = runtime.messages)
    (quiet : ∀ site behavior,
      program.resolution kernel site behavior runtime.dictionaries event = none) :
    Mirrors program kernel dictionaries (events ++ [event]) after where
  current := by simp [moved, mirrors.current, dictionariesAfter]
  selector site := by rw [kept, mirrors.selector]
  receiverIsSuper site := by rw [kept, mirrors.receiverIsSuper]
  undermessage site listed := by rw [kept]; exact mirrors.undermessage site listed
  resolved site ordinary := by
    obtain ⟨pairs, shape, known⟩ := mirrors.resolved site ordinary
    refine ⟨pairs, by rw [kept, shape], fun behavior => ?_⟩
    rw [Program.firstResolution_append, ← mirrors.current, quiet, known, Option.or_none]

/-- A send rewrites the cache of its own site only. -/
theorem of_send (mirrors : Mirrors program kernel dictionaries events runtime)
    {site : Site} {behaviorOfR classBinding : Object} {after : Runtime kernel Site}
    {cache : List (CacheItem Object)}
    (moved : after.dictionaries = runtime.dictionaries)
    (written : after.messages =
      Function.update runtime.messages site { runtime.messages site with cache := cache })
    (undermessage : kernel.undermessages (program.selector site) = true →
      cache = [] ∨ cache = [.undermessage])
    (resolved : kernel.undermessages (program.selector site) = false →
      ∃ pairs, cache = pairWords pairs ∧
        ∀ behavior, SAbstractMessage.scanCache behavior (pairWords pairs) =
          (program.firstResolution kernel site behavior dictionaries events).or
            (program.resolution kernel site behavior runtime.dictionaries
              (.send site behaviorOfR classBinding))) :
    Mirrors program kernel dictionaries (events ++ [.send site behaviorOfR classBinding]) after where
  current := by simp [moved, mirrors.current, dictionariesAfter, Event.dictionaries]
  selector other := by
    rw [written, Function.update_apply]
    split
    · next same => rw [same]; exact mirrors.selector site
    · exact mirrors.selector other
  receiverIsSuper other := by
    rw [written, Function.update_apply]
    split
    · next same => rw [same]; exact mirrors.receiverIsSuper site
    · exact mirrors.receiverIsSuper other
  undermessage other listed := by
    rw [written, Function.update_apply]
    split
    · next same => subst same; exact undermessage listed
    · exact mirrors.undermessage other listed
  resolved other ordinary := by
    simp only [Program.firstResolution_append, ← mirrors.current]
    rw [written, Function.update_apply]
    split
    · next same => subst same; exact resolved ordinary
    · next different =>
      obtain ⟨pairs, shape, known⟩ := mirrors.resolved other ordinary
      refine ⟨pairs, shape, fun behavior => ?_⟩
      simp [Program.resolution, Ne.symm different, known]

end Mirrors

namespace Runtime

variable {kernel : Kernel Object} {runtime : Runtime kernel Site} {site : Site}
variable (behaviorOfR classBinding : Object)

/-- A send whose site already knows the behavior runs the cached method. -/
theorem visitOpDispatchMessage_cached {method : Object}
    (ordinary : (runtime.messages site).cachedUndermessage = false)
    (cached : (runtime.messages site).methodFor
      ((runtime.messages site).startBehavior kernel behaviorOfR classBinding) = some method) :
    runtime.visitOpDispatchMessage site behaviorOfR classBinding = (runtime, .invoke method) := by
  simp [visitOpDispatchMessage, ordinary, cached]

section Uncached

variable (ordinary : (runtime.messages site).cachedUndermessage = false)
variable (uncached : (runtime.messages site).methodFor
  ((runtime.messages site).startBehavior kernel behaviorOfR classBinding) = none)
variable (looked : kernel.undermessages (runtime.messages site).selector = false)
include ordinary uncached looked

theorem visitOpDispatchMessage_found {method : Object}
    (found : doLookupStartingAt kernel runtime.dictionaries (runtime.messages site).selector
      ((runtime.messages site).startBehavior kernel behaviorOfR classBinding) = some method) :
    let after := runtime.visitOpDispatchMessage site behaviorOfR classBinding
    after.2 = .invoke method ∧ after.1.dictionaries = runtime.dictionaries ∧
      after.1.messages = Function.update runtime.messages site
        ((runtime.messages site).cacheWhen method
          ((runtime.messages site).startBehavior kernel behaviorOfR classBinding)) := by
  have answered := lookupStartingAt_snd runtime (runtime.messages site).selector
    ((runtime.messages site).startBehavior kernel behaviorOfR classBinding)
  have kept := lookupStartingAt_fst runtime (runtime.messages site).selector
    ((runtime.messages site).startBehavior kernel behaviorOfR classBinding)
  rw [found] at answered
  simp only [visitOpDispatchMessage, ordinary, uncached, looked, lookupStartingAtSendSite]
  generalize runtime.lookupStartingAt (runtime.messages site).selector
    ((runtime.messages site).startBehavior kernel behaviorOfR classBinding) = after at answered kept
  obtain ⟨next, _ | _⟩ := after
  · cases answered
  · cases answered
    have registered : (next.registerCacheWith site).messages = next.messages ∧
        (next.registerCacheWith site).dictionaries = next.dictionaries := by
      unfold registerCacheWith
      split <;> exact ⟨rfl, rfl⟩
    dsimp only at kept
    simp [updateMessage, registered, kept.1, kept.2]

theorem visitOpDispatchMessage_missing
    (missing : doLookupStartingAt kernel runtime.dictionaries (runtime.messages site).selector
      ((runtime.messages site).startBehavior kernel behaviorOfR classBinding) = none) :
    let after := runtime.visitOpDispatchMessage site behaviorOfR classBinding
    after.2 = .messageNotUnderstood
        (doLookupStartingAt kernel runtime.dictionaries kernel.doesNotUnderstand behaviorOfR) ∧
      after.1.dictionaries = runtime.dictionaries ∧ after.1.messages = runtime.messages := by
  have answered := lookupStartingAt_snd runtime (runtime.messages site).selector
    ((runtime.messages site).startBehavior kernel behaviorOfR classBinding)
  have kept := lookupStartingAt_fst runtime (runtime.messages site).selector
    ((runtime.messages site).startBehavior kernel behaviorOfR classBinding)
  rw [missing] at answered
  simp only [visitOpDispatchMessage, ordinary, uncached, looked, lookupStartingAtSendSite]
  generalize runtime.lookupStartingAt (runtime.messages site).selector
    ((runtime.messages site).startBehavior kernel behaviorOfR classBinding) = after at answered kept
  obtain ⟨next, _ | _⟩ := after
  · have handler := lookupStartingAt_fst next kernel.doesNotUnderstand behaviorOfR
    dsimp only at kept
    simp [messageNotUnderstood, lookupStartingAt_snd, handler, kept.1, kept.2]
  · cases answered

end Uncached

/-- An undermessage's site runs it whatever the dictionaries hold. -/
theorem visitOpDispatchMessage_undermessage
    (listed : kernel.undermessages (runtime.messages site).selector = true)
    (cache : (runtime.messages site).cache = [] ∨ (runtime.messages site).cache = [.undermessage]) :
    let after := runtime.visitOpDispatchMessage site behaviorOfR classBinding
    after.2 = .undermessage ∧ after.1.dictionaries = runtime.dictionaries ∧
      after.1.messages = Function.update runtime.messages site
        { runtime.messages site with cache := [.undermessage] } := by
  rcases cache with fresh | filled
  · simp [visitOpDispatchMessage, SAbstractMessage.cachedUndermessage,
      SAbstractMessage.methodFor, SAbstractMessage.scanCache, fresh, listed, updateMessage,
      SAbstractMessage.cacheUndermessage]
  · have same : { runtime.messages site with cache := [.undermessage] } =
        runtime.messages site := by rw [← filled]
    simp [visitOpDispatchMessage, SAbstractMessage.cachedUndermessage, same, filled]

end Runtime

namespace Mirrors

variable {program : Program Object Site} {kernel : Kernel Object}
  {dictionaries : Dictionaries Object} {events : List (Event Object Site)}
  {runtime : Runtime kernel Site}

/-- What the send of a looked-up selector runs, from the history alone. -/
theorem outcome (mirrors : Mirrors program kernel dictionaries events runtime) {site : Site}
    (ordinary : kernel.undermessages (program.selector site) = false)
    (behaviorOfR classBinding : Object) :
    (runtime.visitOpDispatchMessage site behaviorOfR classBinding).2 =
      match program.firstResolution kernel site
          (program.startBehavior kernel site behaviorOfR classBinding) dictionaries events with
      | some method => .invoke method
      | none => uncachedOutcome kernel runtime.dictionaries (runtime.messages site)
          behaviorOfR classBinding := by
  obtain ⟨notUndermessage, known⟩ := mirrors.methodFor ordinary
    (program.startBehavior kernel site behaviorOfR classBinding)
  rw [← mirrors.startBehavior] at known ⊢
  have looked : kernel.undermessages (runtime.messages site).selector = false := by
    rw [mirrors.selector, ordinary]
  cases cached : program.firstResolution kernel site
      ((runtime.messages site).startBehavior kernel behaviorOfR classBinding) dictionaries events with
  | some method =>
    rw [cached] at known
    rw [Runtime.visitOpDispatchMessage_cached _ _ notUndermessage known]
  | none =>
    rw [cached] at known
    simp only [uncachedOutcome, looked]
    cases found : doLookupStartingAt kernel runtime.dictionaries (runtime.messages site).selector
        ((runtime.messages site).startBehavior kernel behaviorOfR classBinding) with
    | some method =>
      exact (Runtime.visitOpDispatchMessage_found _ _ notUndermessage known looked found).1
    | none =>
      exact (Runtime.visitOpDispatchMessage_missing _ _ notUndermessage known looked found).1

/-- A send keeps the mirror: its site remembers a method found for a new behavior. -/
theorem send (mirrors : Mirrors program kernel dictionaries events runtime) (site : Site)
    (behaviorOfR classBinding : Object) :
    Mirrors program kernel dictionaries (events ++ [.send site behaviorOfR classBinding])
      (runtime.visitOpDispatchMessage site behaviorOfR classBinding).1 := by
  cases listed : kernel.undermessages (program.selector site) with
  | true =>
    obtain ⟨_, moved, written⟩ := Runtime.visitOpDispatchMessage_undermessage
      behaviorOfR classBinding
      (by rw [mirrors.selector, listed]) (mirrors.undermessage site listed)
    refine mirrors.of_send moved written (fun _ => Or.inr rfl) fun ordinary => ?_
    rw [listed] at ordinary
    cases ordinary
  | false =>
    obtain ⟨pairs, shape, known⟩ := mirrors.resolved site listed
    obtain ⟨notUndermessage, answer⟩ := mirrors.methodFor listed
      (program.startBehavior kernel site behaviorOfR classBinding)
    have looked : kernel.undermessages (runtime.messages site).selector = false := by
      rw [mirrors.selector, listed]
    cases cached : program.firstResolution kernel site
        (program.startBehavior kernel site behaviorOfR classBinding) dictionaries events with
    | some method =>
      rw [cached, ← mirrors.startBehavior] at answer
      rw [Runtime.visitOpDispatchMessage_cached _ _ notUndermessage answer]
      refine mirrors.of_send rfl (Function.update_eq_self _ _).symm (by simp [listed])
        fun _ => ⟨pairs, shape, fun behavior => ?_⟩
      rw [known, Program.resolution_own _ _ listed]
      split
      · next same => rw [← same, cached]; rfl
      · rw [Option.or_none]
    | none =>
      rw [cached, ← mirrors.startBehavior] at answer
      cases found : doLookupStartingAt kernel runtime.dictionaries (runtime.messages site).selector
          ((runtime.messages site).startBehavior kernel behaviorOfR classBinding) with
      | some method =>
        obtain ⟨_, moved, written⟩ :=
          Runtime.visitOpDispatchMessage_found _ _ notUndermessage answer looked found
        refine mirrors.of_send moved written (by simp [listed])
          fun _ => ⟨_, by rw [shape, pairWords_append], fun behavior => ?_⟩
        rw [scanCache_append, known, Program.resolution_own _ _ listed]
        rw [mirrors.selector, mirrors.startBehavior] at found
        rw [mirrors.startBehavior]
        congr 1
        split
        · next same => rw [← same, found]
        · rfl
      | none =>
        obtain ⟨_, moved, written⟩ :=
          Runtime.visitOpDispatchMessage_missing _ _ notUndermessage answer looked found
        refine mirrors.of_send moved (written.trans (Function.update_eq_self _ _).symm)
          (by simp [listed]) fun _ => ⟨pairs, shape, fun behavior => ?_⟩
        rw [known, Program.resolution_own _ _ listed]
        rw [mirrors.selector, mirrors.startBehavior] at found
        split
        · next same => rw [← same, found, Option.or_none]
        · rw [Option.or_none]

/-- One event keeps the mirror. -/
theorem step (mirrors : Mirrors program kernel dictionaries events runtime)
    (event : Event Object Site) :
    Mirrors program kernel dictionaries (events ++ [event]) (runtime.step event) := by
  cases event with
  | send site behaviorOfR classBinding => exact mirrors.send site behaviorOfR classBinding
  | perform symbol behavior =>
    have kept := Runtime.lookupStartingAt_fst runtime symbol behavior
    exact mirrors.of_quiet kept.2 kept.1 fun _ _ => rfl
  | redefine behavior dictionary selector =>
    rw [Runtime.step, Runtime.flushDispatchCache_eq_self]
    exact mirrors.of_quiet rfl rfl fun _ _ => rfl
  | redefineIn behavior dictionary selector klass =>
    rw [Runtime.step, Runtime.flushDispatchCacheIn_eq_self]
    exact mirrors.of_quiet rfl rfl fun _ _ => rfl

/-- Every state of every history from a fresh start is mirrored. -/
theorem run (program : Program Object Site) (kernel : Kernel Object)
    (dictionaries : Dictionaries Object) (events : List (Event Object Site)) :
    Mirrors program kernel dictionaries events
      ((program.start kernel dictionaries).run events) := by
  induction events using List.reverseRecOn with
  | nil => exact start
  | append_singleton events event ih =>
    rw [Runtime.run, List.foldl_concat]
    exact ih.step event

/-- A mirrored send is faithful exactly when its site's first resolution still holds. -/
theorem faithful_send_iff (mirrors : Mirrors program kernel dictionaries events runtime)
    (site : Site) (behaviorOfR classBinding : Object) :
    runtime.Faithful (.send site behaviorOfR classBinding) ↔
      ∀ method,
        program.firstResolution kernel site
          (program.startBehavior kernel site behaviorOfR classBinding) dictionaries events =
          some method →
        doLookupStartingAt kernel (dictionariesAfter dictionaries events) (program.selector site)
          (program.startBehavior kernel site behaviorOfR classBinding) = some method := by
  rw [← mirrors.current]
  cases listed : kernel.undermessages (program.selector site) with
  | true =>
    have silent := Program.firstResolution_undermessage program kernel listed
      (program.startBehavior kernel site behaviorOfR classBinding) events dictionaries
    have outcome := (Runtime.visitOpDispatchMessage_undermessage behaviorOfR classBinding
      (by rw [mirrors.selector, listed]) (mirrors.undermessage site listed)).1
    simp [Runtime.Faithful, outcome, uncachedOutcome, mirrors.selector, listed, silent]
  | false =>
    rw [Runtime.Faithful, mirrors.outcome listed]
    cases cached : program.firstResolution kernel site
        (program.startBehavior kernel site behaviorOfR classBinding) dictionaries events with
    | none => simp
    | some method =>
      simp only [uncachedOutcome, mirrors.selector, listed, mirrors.startBehavior]
      cases doLookupStartingAt kernel runtime.dictionaries (program.selector site)
          (program.startBehavior kernel site behaviorOfR classBinding) with
      | none => simp
      | some other => simp [eq_comm]

end Mirrors

/-- Redefinitions are visible throughout a history exactly when no site ever sends
again to a behavior whose lookup has changed since that site first resolved it. -/
theorem redefinitionVisible_iff (program : Program Object Site) (kernel : Kernel Object)
    (dictionaries : Dictionaries Object) (events : List (Event Object Site)) :
    RedefinitionVisible (program.start kernel dictionaries) events ↔
      program.ResolutionsStable kernel dictionaries events := by
  constructor
  · intro visible before site behaviorOfR classBinding after split
    exact ((Mirrors.run program kernel dictionaries before).faithful_send_iff site
      behaviorOfR classBinding).mp (visible before _ after split)
  · intro stable before event after split
    cases event with
    | send site behaviorOfR classBinding =>
      exact ((Mirrors.run program kernel dictionaries before).faithful_send_iff site
        behaviorOfR classBinding).mpr (stable before site behaviorOfR classBinding after split)
    | perform symbol behavior => exact Runtime.lookupStartingAt_snd _ symbol behavior
    | redefine => trivial
    | redefineIn => trivial

section Stale

/-- One behavior `1` under nil, whose dictionary holds the selector `2`. -/
def oneBehavior : Kernel Nat where
  nilObj := 0
  hashFor := id
  behaviorNext _ := 0
  speciesSuperclass := id
  speciesInstanceBehavior := id
  undermessages _ := false
  doesNotUnderstand := 9
  depth := id
  descends _ more := absurd rfl more

def oneSite : Program Nat Unit := ⟨fun _ => 2, fun _ => false⟩

/-- The selector is sent, its method `3` is replaced by `4` and flushed, and it is sent again. -/
def redefinedBetweenSends : List (Event Nat Unit) :=
  [.send () 1 1, .redefine 1 (.array [2, 4]) 2, .send () 1 1]

/-- The second send still runs the method that was replaced and flushed. -/
theorem redefinition_not_visible :
    ¬ RedefinitionVisible (oneSite.start oneBehavior fun _ => .array [2, 3])
      redefinedBetweenSends := by
  intro visible
  have second := visible [.send () 1 1, .redefine 1 (.array [2, 4]) 2] (.send () 1 1) [] rfl
  have original : doLookupStartingAt oneBehavior (fun _ => .array [2, 3]) 2 1 = some 3 :=
    doLookupStartingAt_own rfl
  have ordinary : oneBehavior.undermessages 2 = false := rfl
  have stale := ((Mirrors.run oneSite oneBehavior _ _).faithful_send_iff () 1 1).mp second 3 (by
    simpa [Program.firstResolution, Program.resolution, Program.startBehavior, oneSite, ordinary]
      using original)
  have current : doLookupStartingAt oneBehavior (dictionariesAfter (fun _ => .array [2, 3])
      [.send () 1 1, .redefine 1 (.array [2, 4]) (2 : Nat)]) 2 1 = some 4 :=
    doLookupStartingAt_own rfl
  cases current.symm.trans stale

end Stale

end Egg.Dispatch
