import Egg.Optimizing.AllDominators
import Mathlib.Data.Fintype.Basic
import Mathlib.Order.WellFounded

/-! The loops that are found from the sets of the dominators. -/
namespace Egg.Optimizing.ControlFlow

open Egg.Data Egg.Data.FlowGraph

section Model

variable {Block : Type} [DecidableEq Block]

/-- The loop of `withPredecessorsUntil:`. -/
def predecessorsUntil (predecessors : Block → List Block) (block : Block) :
    (fuel : Nat) → (result incoming : List Block) → Option (List Block)
  | 0, _, _ => none
  | fuel + 1, result, incoming =>
    let result := result ++ incoming
    let incoming := (incoming.flatMap predecessors).filter
      fun pred => ¬ (pred = block ∨ pred ∈ result)
    if incoming.isEmpty then some result
    else predecessorsUntil predecessors block fuel result incoming

def withPredecessorsUntil (predecessors : Block → List Block) (self block : Block) (fuel : Nat) :
    Option (List Block) :=
  predecessorsUntil predecessors block fuel [] [self]

variable [Fintype Block] (graph : ControlFlow Block)

/-- The tails by the heads; a head keeps the last tail that is put. -/
def allLoopHeads (fuel : Nat) : Option (Block → Option Block) := do
  let doms ← graph.allDominators fuel
  (withSuccessorsPostOrder graph.last graph.first).foldlM (fun loops block =>
    (successors graph.last block).foldlM (fun loops succ => do
      let known ← doms block
      if succ ∈ known then some (Function.update loops succ (some block)) else some loops)
      loops) fun _ => none

/-- The heads are blocks of the graph. -/
def allLoops (fuel : Nat) : Option (Block → Option (List Block)) := do
  let heads ← graph.allLoopHeads fuel
  (withSuccessorsPostOrder graph.last graph.first).foldlM (fun result head =>
    match heads head with
    | none => some result
    | some tail => do
      let blocks ← withPredecessorsUntil graph.predecessors tail head fuel
      some (Function.update result head (some blocks))) fun _ => none

end Model

section Backwards

variable {Block : Type} [DecidableEq Block] {predecessors : Block → List Block}
  {head tail : Block} {result incoming : List Block}

/-- What is gathered leads to the tail without the head, and the wave holds what is missing. -/
structure Gathered (predecessors : Block → List Block) (head tail : Block)
    (result incoming : List Block) : Prop where
  sound : ∀ x ∈ result ++ incoming,
    Relation.ReflTransGen (fun a b => a ∈ predecessors b ∧ a ≠ head) x tail
  fresh : ∀ x ∈ incoming, x ∉ result
  start : tail ∈ result ++ incoming
  closed : ∀ b ∈ result, ∀ a ∈ predecessors b, a ≠ head → a ∈ result ++ incoming

theorem Gathered.next (gathered : Gathered predecessors head tail result incoming) :
    Gathered predecessors head tail (result ++ incoming) ((incoming.flatMap predecessors).filter
      fun pred => ¬ (pred = head ∨ pred ∈ result ++ incoming)) := by
  have wave (x : Block) : x ∈ (incoming.flatMap predecessors).filter
      (fun pred => ¬ (pred = head ∨ pred ∈ result ++ incoming)) ↔
        (∃ b ∈ incoming, x ∈ predecessors b) ∧ x ≠ head ∧ x ∉ result ++ incoming := by
    rw [List.mem_filter, List.mem_flatMap, decide_eq_true_iff, not_or]
  refine ⟨fun x member => ?_, fun x member => ((wave x).mp member).2.2,
    List.mem_append_left _ gathered.start, fun b member a before apart => ?_⟩
  · rcases List.mem_append.mp member with old | new
    · exact gathered.sound x old
    · obtain ⟨⟨b, within, before⟩, apart, -⟩ := (wave x).mp new
      exact .head ⟨before, apart⟩ (gathered.sound b (List.mem_append_right _ within))
  · rcases List.mem_append.mp member with old | now
    · exact List.mem_append_left _ (gathered.closed b old a before apart)
    · by_cases known : a ∈ result ++ incoming
      · exact List.mem_append_left _ known
      · exact List.mem_append_right _ ((wave a).mpr ⟨⟨b, now, before⟩, apart, known⟩)

variable [Fintype Block]

theorem predecessorsUntil_spec (gathered : Gathered predecessors head tail result incoming)
    (more : incoming ≠ []) : ∃ blocks,
      Converges (fun fuel => predecessorsUntil predecessors head fuel result incoming) blocks ∧
        ∀ x, x ∈ blocks ↔
          Relation.ReflTransGen (fun a b => a ∈ predecessors b ∧ a ≠ head) x tail := by
  induction left : unseen result using Nat.strongRecOn generalizing result incoming with
  | _ n ih =>
    have next := gathered.next
    by_cases done : ((incoming.flatMap predecessors).filter
        fun pred => ¬ (pred = head ∨ pred ∈ result ++ incoming)) = []
    · rw [done] at next
      refine ⟨result ++ incoming, ⟨1, fun fuel enough => ?_⟩, fun x => ⟨gathered.sound x, fun walk => ?_⟩⟩
      · obtain ⟨rest, rfl⟩ := Nat.exists_eq_add_of_le' enough
        simp only [predecessorsUntil, done, List.isEmpty_nil, if_true]
      · induction walk using Relation.ReflTransGen.head_induction_on with
        | refl => exact gathered.start
        | head step _ member =>
          have found := next.closed _ member _ step.1 step.2
          rwa [List.append_nil] at found
    · have fewer : unseen (result ++ incoming) < n := by
        obtain ⟨x, member⟩ := List.exists_mem_of_ne_nil _ more
        have less := unseen_cons_lt (gathered.fresh x member)
        have below : unseen (result ++ incoming) ≤ unseen (x :: result) :=
          unseen_le fun y inside => by
            rcases List.mem_cons.mp inside with rfl | inside
            · exact List.mem_append_right _ member
            · exact List.mem_append_left _ inside
        omega
      obtain ⟨blocks, ⟨bound, ran⟩, members⟩ := ih _ fewer next done rfl
      refine ⟨blocks, ⟨bound + 1, fun fuel enough => ?_⟩, members⟩
      obtain ⟨less, rfl⟩ := Nat.exists_eq_add_of_le' (Nat.one_le_of_lt enough)
      have going := mt List.isEmpty_iff.mp done
      simp only [predecessorsUntil, if_neg going]
      exact ran less (Nat.le_of_succ_le_succ enough)

/-- The blocks that lead to the tail without the head, and the tail itself. -/
theorem withPredecessorsUntil_spec (predecessors : Block → List Block) (tail head : Block) :
    ∃ blocks, Converges (fun fuel => withPredecessorsUntil predecessors tail head fuel) blocks ∧
      ∀ x, x ∈ blocks ↔
        Relation.ReflTransGen (fun a b => a ∈ predecessors b ∧ a ≠ head) x tail := by
  apply predecessorsUntil_spec _ (List.cons_ne_nil tail [])
  refine ⟨fun x member => ?_, fun x _ => List.not_mem_nil, List.mem_singleton_self tail,
    fun b member => absurd member List.not_mem_nil⟩
  rw [List.mem_singleton.mp member]

end Backwards

section Heads

variable {Block : Type} [DecidableEq Block] [Fintype Block] {graph : ControlFlow Block}

/-- The last block of a list that jumps to the head and has it among its dominators. -/
def lastTail (graph : ControlFlow Block) (sets : Block → Finset Block) (head : Block)
    (blocks : List Block) : Option Block :=
  blocks.foldl (fun found block =>
    if Edge graph.last block head ∧ head ∈ sets block then some block else found) none

omit [Fintype Block] in
theorem lastTail_concat (sets : Block → Finset Block) (head : Block) (blocks : List Block)
    (block : Block) : lastTail graph sets head (blocks ++ [block]) =
      if Edge graph.last block head ∧ head ∈ sets block then some block
      else lastTail graph sets head blocks := by
  rw [lastTail, List.foldl_append]
  rfl

omit [Fintype Block] in
theorem lastTail_some {sets : Block → Finset Block} {head tail : Block} {blocks : List Block}
    (found : lastTail graph sets head blocks = some tail) :
    tail ∈ blocks ∧ Edge graph.last tail head ∧ head ∈ sets tail := by
  induction blocks using List.reverseRecOn with
  | nil => cases found
  | append_singleton blocks block ih =>
    rw [lastTail_concat] at found
    split at found
    · rename_i here
      cases found
      exact ⟨List.mem_append_right _ List.mem_cons_self, here⟩
    · exact ⟨List.mem_append_left _ (ih found).1, (ih found).2⟩

omit [Fintype Block] in
theorem exists_lastTail {sets : Block → Finset Block} {head block : Block} {blocks : List Block}
    (member : block ∈ blocks) (edge : Edge graph.last block head) (within : head ∈ sets block) :
    ∃ tail, lastTail graph sets head blocks = some tail := by
  induction blocks using List.reverseRecOn with
  | nil => cases member
  | append_singleton blocks other ih =>
    rw [lastTail_concat]
    split
    · exact ⟨other, rfl⟩
    · rename_i apart
      rcases List.mem_append.mp member with member | member
      · exact ih member
      · rw [List.mem_singleton.mp member] at edge within
        exact absurd ⟨edge, within⟩ apart

theorem allLoopHeads_spec {doms : Block → Option (Finset Block)} {sets : Block → Finset Block}
    (ended : Converges (fun fuel => graph.allDominators fuel) doms) (holds : graph.Holds doms sets) :
    Converges (fun fuel => graph.allLoopHeads fuel) fun head =>
      lastTail graph sets head (withSuccessorsPostOrder graph.last graph.first) := by
  have inner (block : Block) (reached : graph.Reached block) (targets : List Block) :
      ∀ loops : Block → Option Block, ∃ loops', targets.foldlM (fun loops succ => do
        let known ← doms block
        if succ ∈ known then some (Function.update loops succ (some block)) else some loops) loops =
          some loops' ∧ ∀ head, loops' head =
            if head ∈ targets ∧ head ∈ sets block then some block else loops head := by
    simp only [holds block reached, Option.bind_eq_bind, Option.bind_some]
    induction targets with
    | nil => exact fun loops => ⟨loops, rfl, fun head => by simp⟩
    | cons succ targets ih =>
      intro loops
      rw [List.foldlM_cons]
      by_cases within : succ ∈ sets block
      · obtain ⟨loops', ran, found⟩ := ih (Function.update loops succ (some block))
        refine ⟨loops', ?_, fun head => ?_⟩
        · rw [if_pos within]
          exact ran
        · rw [found]
          by_cases same : head = succ
          · subst same
            simp [within]
          · simp [same]
      · obtain ⟨loops', ran, found⟩ := ih loops
        refine ⟨loops', ?_, fun head => ?_⟩
        · rw [if_neg within]
          exact ran
        · rw [found]
          by_cases same : head = succ
          · subst same
            simp [within]
          · simp [same]
  have outer (blocks : List Block) (inside : ∀ b ∈ blocks, graph.Reached b) :
      blocks.foldlM (fun loops block =>
        (successors graph.last block).foldlM (fun loops succ => do
          let known ← doms block
          if succ ∈ known then some (Function.update loops succ (some block)) else some loops)
          loops) (fun _ => none) = some fun head => lastTail graph sets head blocks := by
    induction blocks using List.reverseRecOn with
    | nil => rfl
    | append_singleton blocks block ih =>
      obtain ⟨loops', ran, found⟩ := inner block
        (inside block (List.mem_append_right _ List.mem_cons_self)) (successors graph.last block)
        fun head => lastTail graph sets head blocks
      rw [List.foldlM_append, ih fun b member => inside b (List.mem_append_left _ member)]
      simp only [Option.bind_eq_bind, Option.bind_some, List.foldlM_cons, List.foldlM_nil]
      have same : loops' = fun head => lastTail graph sets head (blocks ++ [block]) := by
        funext head
        rw [found, lastTail_concat]
        rfl
      rw [← same]
      exact congrArg (fun found => found.bind some) ran
  obtain ⟨bound, ended⟩ := ended
  refine ⟨bound, fun fuel enough => ?_⟩
  simp only [allLoopHeads, ended fuel enough, Option.bind_eq_bind, Option.bind_some]
  exact outer _ fun b member => (mem_postOrder graph.last graph.first).mp member

/-- The heads that were passed have the blocks that lead to their tails. -/
structure Looped (graph : ControlFlow Block) (heads : Block → Option Block) (passed : List Block)
    (result : Block → Option (List Block)) : Prop where
  known : ∀ head ∈ passed, ∀ tail, heads head = some tail → ∃ blocks, result head = some blocks
  sound : ∀ head blocks, result head = some blocks → ∃ tail, heads head = some tail ∧
    ∀ x, x ∈ blocks ↔
      Relation.ReflTransGen (fun a b => a ∈ graph.predecessors b ∧ a ≠ head) x tail

omit [Fintype Block] in
theorem Looped.put {heads : Block → Option Block} {passed blocks : List Block}
    {result : Block → Option (List Block)} (looped : Looped graph heads passed result)
    {head tail : Block} (found : heads head = some tail)
    (members : ∀ x, x ∈ blocks ↔
      Relation.ReflTransGen (fun a b => a ∈ graph.predecessors b ∧ a ≠ head) x tail) :
    Looped graph heads (passed ++ [head]) (Function.update result head (some blocks)) where
  known other member tail' here := by
    rw [Function.update_apply]
    split
    · exact ⟨blocks, rfl⟩
    · rename_i apart
      rcases List.mem_append.mp member with member | member
      · exact looped.known other member tail' here
      · exact absurd (List.mem_singleton.mp member) apart
  sound other blocks' here := by
    rw [Function.update_apply] at here
    split at here
    · rename_i same
      cases here
      subst same
      exact ⟨tail, found, members⟩
    · exact looped.sound other blocks' here

/-- Each head gets the blocks that lead to its last tail. -/
theorem allLoops_spec {heads : Block → Option Block}
    (ended : Converges (fun fuel => graph.allLoopHeads fuel) heads) :
    ∃ loops, Converges (fun fuel => graph.allLoops fuel) loops ∧
      Looped graph heads (withSuccessorsPostOrder graph.last graph.first) loops := by
  have each (passed : List Block) (head : Block) (rest : List Block)
      (result : Block → Option (List Block))
      (_ : withSuccessorsPostOrder graph.last graph.first = passed ++ head :: rest)
      (looped : Looped graph heads passed result) :
      ∃ next, Converges (fun fuel => match heads head with
        | none => some result
        | some tail => do
          let blocks ← withPredecessorsUntil graph.predecessors tail head fuel
          some (Function.update result head (some blocks))) next ∧
        Looped graph heads (passed ++ [head]) next := by
    cases found : heads head with
    | none =>
      refine ⟨result, .pure result, fun other member tail here => ?_, looped.sound⟩
      rcases List.mem_append.mp member with member | member
      · exact looped.known other member tail here
      · rw [List.mem_singleton.mp member, found] at here
        cases here
    | some tail =>
      obtain ⟨blocks, ⟨bound, ran⟩, members⟩ :=
        withPredecessorsUntil_spec graph.predecessors tail head
      refine ⟨_, ⟨bound, fun fuel enough => ?_⟩, looped.put found members⟩
      simp only [ran fuel enough, Option.bind_eq_bind, Option.bind_some]
  have starts : Looped graph heads [] fun _ => none :=
    ⟨fun head member => absurd member List.not_mem_nil,
      fun head blocks here => absurd here.symm (Option.some_ne_none blocks)⟩
  obtain ⟨loops, ran, looped⟩ := Converges.foldlM each starts
  exact ⟨loops, ended.bind ran, looped⟩

end Heads

section Exactness

variable {Block : Type} (graph : ControlFlow Block)

/-- A jump that keeps clear of a block. -/
def Apart (h a b : Block) : Prop :=
  Edge graph.last a b ∧ a ≠ h ∧ b ≠ h

/-- The head, and what leads to the tails without it. -/
def NaturalLoop (h x : Block) : Prop :=
  x = h ∨ (graph.Reached x ∧ ∃ p, graph.Reached p ∧ Edge graph.last p h ∧
    Dominates (Edge graph.last) graph.first h p ∧ Relation.ReflTransGen (graph.Apart h) x p)

/-- Each cycle goes through the first block. -/
def CyclesAtFirst : Prop :=
  ∀ b, graph.Reached b → ¬ Relation.TransGen (graph.Apart graph.first) b b

variable {graph} {h a b : Block}

theorem Reached.walk (reached : graph.Reached a)
    (walk : Relation.ReflTransGen (graph.Apart h) a b) : graph.Reached b := by
  induction walk with
  | refl => exact reached
  | tail _ next ih => exact Reachable.step ih next.1

variable [DecidableEq Block] [Fintype Block] {sets : Block → Finset Block}

/-- The sets of the blocks on a cycle never get the first block, when that is not on it. -/
theorem first_not_mem
    (least : ∀ bound, graph.Bounds bound → ∀ b, graph.Reached b → sets b ⊆ bound b)
    (reached : graph.Reached b) (cycle : Relation.TransGen (graph.Apart graph.first) b b) :
    graph.first ∉ sets b := by
  classical
  intro member
  have bounds : graph.Bounds fun b => Finset.univ.filter fun d =>
      ¬ (d = graph.first ∧ Relation.TransGen (graph.Apart graph.first) b b) := by
    intro b reached d shared
    rw [Finset.mem_filter]
    refine ⟨Finset.mem_univ d, ?_⟩
    rintro ⟨rfl, cycle⟩
    obtain ⟨p, walk, step⟩ := Relation.TransGen.tail'_iff.mp cycle
    rcases shared with same | ⟨-, all⟩
    · exact step.2.2 same.symm
    · have before := all p (Reached.walk reached walk) step.1
      exact (Finset.mem_filter.mp before).2 ⟨rfl, .head' step walk⟩
  exact (Finset.mem_filter.mp (least _ bounds b reached member)).2 ⟨rfl, cycle⟩

omit [DecidableEq Block] in
/-- Off the first block the order of the jumps is well founded. -/
theorem CyclesAtFirst.wellFounded (cycles : graph.CyclesAtFirst) :
    WellFounded fun a b => graph.Reached a ∧ Relation.TransGen (graph.Apart graph.first) a b := by
  have : IsTrans Block fun a b =>
      graph.Reached a ∧ Relation.TransGen (graph.Apart graph.first) a b :=
    ⟨fun a b c one other => ⟨one.1, one.2.trans other.2⟩⟩
  have : Std.Irrefl fun a b =>
      graph.Reached a ∧ Relation.TransGen (graph.Apart graph.first) a b :=
    ⟨fun a step => cycles a step.1 step.2⟩
  exact Finite.wellFounded_of_trans_of_irrefl _

/-- Without such cycles the sets are those of the dominators. -/
theorem mem_sets_iff (cycles : graph.CyclesAtFirst)
    (entry : (∃ p, graph.Reached p ∧ Edge graph.last p graph.first) →
      Edge graph.last graph.first graph.first)
    (fixed : ∀ b, graph.Reached b → ∀ d, d ∈ sets b ↔ graph.Shared sets b d)
    (least : ∀ bound, graph.Bounds bound → ∀ b, graph.Reached b → sets b ⊆ bound b) {d : Block}
    (reached : graph.Reached b) :
    d ∈ sets b ↔ Dominates (Edge graph.last) graph.first d b := by
  classical
  constructor
  · intro member
    have bounds : graph.Bounds fun b => Finset.univ.filter fun d =>
        Dominates (Edge graph.last) graph.first d b := by
      intro b reached d shared
      rw [Finset.mem_filter]
      refine ⟨Finset.mem_univ d, ?_⟩
      rcases shared with rfl | ⟨some, all⟩
      · exact .refl d
      · have above (p : Block) (reached : graph.Reached p) (edge : Edge graph.last p b) :
            Dominates (Edge graph.last) graph.first d p :=
          (Finset.mem_filter.mp (all p reached edge)).2
        by_cases same : b = graph.first
        · subst same
          exact above _ reachable_first (entry some)
        · exact dominates_of_edges same above
    exact (Finset.mem_filter.mp (least _ bounds b reached member)).2
  · intro dominates
    induction b using cycles.wellFounded.induction with
    | _ b ih =>
      refine (fixed b reached d).mpr ?_
      by_cases same : d = b
      · exact .inl same
      · have apart : b ≠ graph.first := fun eq => by
          subst eq
          exact same (eq_first_of_dominates dominates)
        refine .inr ⟨?_, fun p reaches edge => ?_⟩
        · obtain ⟨nodes, path⟩ := id reached
          cases path with
          | here => exact absurd rfl apart
          | step path edge => exact ⟨_, ⟨_, path⟩, edge⟩
        · have above := dominates.of_edge same edge
          by_cases root : p = graph.first
          · subst root
            rw [eq_first_of_dominates above]
            exact (fixed _ reaches _).mpr (.inl rfl)
          · exact ih p ⟨reaches, .single ⟨edge, root, apart⟩⟩ reaches above

omit [Fintype Block] in
/-- Only the first block can be a head then. -/
theorem CyclesAtFirst.head_eq (cycles : graph.CyclesAtFirst) {p : Block} (reached : graph.Reached p)
    (edge : Edge graph.last p h) (dominates : Dominates (Edge graph.last) graph.first h p) :
    h = graph.first := by
  by_contra apart
  obtain ⟨nodes, path⟩ := id reached
  have member := dominates nodes path
  have reaches : graph.Reached h := path.reachable_of_mem member
  have walk := path.after_last member
  -- from the first block on the walk would be a path without the head
  have clear (x : Block) (rest : Relation.ReflTransGen
      (fun a b => Edge graph.last a b ∧ b ≠ h) x p) : x ≠ graph.first := by
    rintro rfl
    obtain ⟨nodes', path', outside⟩ := FlowGraph.Path.here.extend (mt List.mem_singleton.mp apart) rest
    exact outside (dominates nodes' path')
  have around (x : Block) (rest : Relation.ReflTransGen
      (fun a b => Edge graph.last a b ∧ b ≠ h) x p) :
      Relation.ReflTransGen (graph.Apart graph.first) x p := by
    induction rest using Relation.ReflTransGen.head_induction_on with
    | refl => exact .refl
    | head step rest ih => exact .head ⟨step.1, clear _ (.head step rest), clear _ rest⟩ ih
  exact cycles h reaches (.tail' (around h walk) ⟨edge, clear p .refl, apart⟩)

omit [DecidableEq Block] [Fintype Block] in
/-- What leads to the first block is its natural loop. -/
theorem naturalLoop_first {x : Block} :
    Relation.ReflTransGen (fun a b => a ∈ graph.predecessors b ∧ a ≠ graph.first) x graph.first ↔
      graph.NaturalLoop graph.first x := by
  constructor
  · intro walk
    induction walk using Relation.ReflTransGen.head_induction_on with
    | refl => exact .inl rfl
    | @head a c step _ ih =>
      obtain ⟨before, apart⟩ := step
      rcases ih with rfl | ⟨reached, p, reaches, edge, dominates, walk⟩
      · obtain ⟨reached, edge⟩ := (graph.agrees a graph.first reachable_first).mp before
        exact .inr ⟨reached, a, reached, edge, dominates_first a, .refl⟩
      · obtain ⟨reached', edge'⟩ := (graph.agrees a c reached).mp before
        by_cases same : c = graph.first
        · subst same
          exact .inr ⟨reached', a, reached', edge', dominates_first a, .refl⟩
        · exact .inr ⟨reached', p, reaches, edge, dominates, .head ⟨edge', apart, same⟩ walk⟩
  · rintro (rfl | ⟨reached, p, -, edge, -, walk⟩)
    · exact .refl
    · have follow : graph.Reached p ∧ Relation.ReflTransGen
          (fun a b => a ∈ graph.predecessors b ∧ a ≠ graph.first) x p := by
        clear edge
        induction walk with
        | refl => exact ⟨reached, .refl⟩
        | tail _ next ih =>
          have further := Reachable.step ih.1 next.1
          exact ⟨further, ih.2.tail ⟨(graph.agrees _ _ further).mpr ⟨ih.1, next.1⟩, next.2.1⟩⟩
      by_cases same : p = graph.first
      · exact same ▸ follow.2
      · exact follow.2.tail ⟨(graph.agrees p _ reachable_first).mpr ⟨follow.1, edge⟩, same⟩

/-- The sets and the loops are exact if and only if all cycles go through the first block, and
that jumps to itself when there is any jump to it. -/
theorem allLoops_exact_iff (graph : ControlFlow Block) :
    (∃ doms loops, Converges (fun fuel => graph.allDominators fuel) doms ∧
      Converges (fun fuel => graph.allLoops fuel) loops ∧
      (∀ b, graph.Reached b → ∃ found, doms b = some found ∧
        ∀ d, d ∈ found ↔ Dominates (Edge graph.last) graph.first d b) ∧
      ∀ h, (∃ p, graph.Reached p ∧ Edge graph.last p h ∧
        Dominates (Edge graph.last) graph.first h p) →
          ∃ blocks, loops h = some blocks ∧ ∀ x, x ∈ blocks ↔ graph.NaturalLoop h x) ↔
      graph.CyclesAtFirst ∧ ((∃ p, graph.Reached p ∧ Edge graph.last p graph.first) →
        Edge graph.last graph.first graph.first) := by
  obtain ⟨doms, sets, ended, holds, fixed, least⟩ := graph.allDominators_spec
  have heads := allLoopHeads_spec ended holds
  obtain ⟨loops, ran, looped⟩ := allLoops_spec heads
  constructor
  · rintro ⟨doms', loops', ended', ran', exact, complete⟩
    obtain rfl := ended.unique ended'
    obtain rfl := ran.unique ran'
    refine ⟨fun b reached cycle => ?_, fun ⟨p, reached, edge⟩ => ?_⟩
    · obtain ⟨found, here, members⟩ := exact b reached
      cases (holds b reached).symm.trans here
      exact first_not_mem least reached cycle ((members graph.first).mpr (dominates_first b))
    · by_contra single
      obtain ⟨blocks, found, members⟩ := complete graph.first ⟨p, reached, edge, dominates_first p⟩
      obtain ⟨tail, here, gathered⟩ := looped.sound graph.first blocks found
      have walk := (gathered graph.first).mp ((members graph.first).mpr (.inl rfl))
      rcases Relation.ReflTransGen.cases_head walk with same | ⟨c, step, -⟩
      · exact single (same ▸ (lastTail_some here).2.1)
      · exact step.2 rfl
  · rintro ⟨cycles, entry⟩
    have exact {b d : Block} (reached : graph.Reached b) :=
      @mem_sets_iff _ graph b _ _ sets cycles entry fixed least d reached
    refine ⟨doms, loops, ended, ran,
      fun b reached => ⟨sets b, holds b reached, fun d => exact reached⟩, ?_⟩
    rintro h ⟨p, reached, edge, dominates⟩
    obtain rfl := cycles.head_eq reached edge dominates
    have self := entry ⟨p, reached, edge⟩
    have within : graph.first ∈ sets graph.first := (exact reachable_first).mpr (.refl _)
    have last : lastTail graph sets graph.first
        (withSuccessorsPostOrder graph.last graph.first) = some graph.first := by
      obtain ⟨new, seen', found, -⟩ := withSuccessorsPostOrder_traversal graph.last graph.first
      rw [found, lastTail_concat, if_pos ⟨self, within⟩]
    obtain ⟨blocks, found⟩ := looped.known graph.first
      ((mem_postOrder graph.last graph.first).mpr reachable_first) _ last
    obtain ⟨tail, here, gathered⟩ := looped.sound graph.first blocks found
    cases last.symm.trans here
    exact ⟨blocks, found, fun x => (gathered x).trans naturalLoop_first⟩

/-- A block that jumps to itself loses the first block. -/
theorem loop_loses_first : ¬ ∃ doms loops,
    Converges (fun fuel => (ofJumps (fun _ : Bool => .jump true) false).allDominators fuel) doms ∧
    Converges (fun fuel => (ofJumps (fun _ : Bool => .jump true) false).allLoops fuel) loops ∧
    (∀ b, (ofJumps (fun _ : Bool => .jump true) false).Reached b → ∃ found, doms b = some found ∧
      ∀ d, d ∈ found ↔ Dominates (Edge fun _ : Bool => .jump true) false d b) ∧
    ∀ h, (∃ p, (ofJumps (fun _ : Bool => .jump true) false).Reached p ∧
        Edge (fun _ : Bool => .jump true) p h ∧
        Dominates (Edge fun _ : Bool => .jump true) false h p) →
      ∃ blocks, loops h = some blocks ∧
        ∀ x, x ∈ blocks ↔ (ofJumps (fun _ : Bool => .jump true) false).NaturalLoop h x := by
  rintro ⟨doms, loops, ended, -, exact, -⟩
  obtain ⟨doms', sets, ended', holds, -, least⟩ :=
    (ofJumps (fun _ : Bool => .jump true) false).allDominators_spec
  obtain rfl := ended.unique ended'
  have reached : (ofJumps (fun _ : Bool => .jump true) false).Reached true :=
    reachable_first.step (show Edge (fun _ : Bool => .jump true) false true by decide)
  obtain ⟨found, here, members⟩ := exact true reached
  cases (holds true reached).symm.trans here
  refine first_not_mem least reached (.single ⟨?_, Bool.noConfusion, Bool.noConfusion⟩)
    ((members false).mpr (dominates_first true))
  exact (show Edge (fun _ : Bool => .jump true) true true by decide)

end Exactness

end Egg.Optimizing.ControlFlow
