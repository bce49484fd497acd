import Egg.Optimizing.ImmediateDominators
import Mathlib.Data.List.Dedup
import Mathlib.Order.Bounds.Basic

/-! Dominance frontiers and their iteration. -/
namespace Egg.Optimizing

open Egg.Data Egg.Data.FlowGraph

section Model

variable {Block : Type} [DecidableEq Block]

/-- The walk of a runner up to the dominator of the block. -/
def walkUp (idoms : Block → Option Block) (block stop : Block) :
    (fuel : Nat) → (runner : Block) → (result : Block → Option (List Block)) →
      Option (Block → Option (List Block))
  | 0, _, _ => none
  | fuel + 1, runner, result =>
    if runner = stop then some result
    else do
      let frontiers ← result runner
      let result := if block ∈ frontiers then result
        else Function.update result runner (some (frontiers ++ [block]))
      let next ← idoms runner
      walkUp idoms block stop fuel next result

/-- The runners of a block with several predecessors. -/
def runnersOf (predecessors : Block → List Block) (idoms : Block → Option Block) (fuel : Nat)
    (result : Block → Option (List Block)) (block : Block) : Option (Block → Option (List Block)) :=
  if 1 < (predecessors block).length then
    (predecessors block).foldlM (fun result predecessor => do
      let stop ← idoms block
      walkUp idoms block stop fuel predecessor result) result
  else some result

def dominanceFrontiersUsing [Fintype Block] (last : Block → Last Block) (self : Block)
    (predecessors : Block → List Block) (idoms : Block → Option Block) (fuel : Nat) :
    Option (Block → Option (List Block)) :=
  let blocks := withSuccessorsPostOrder last self
  let result : Block → Option (List Block) :=
    blocks.foldl (fun result block => Function.update result block (some [])) fun _ => none
  blocks.foldlM (runnersOf predecessors idoms fuel) result

def gather (frontiers : Block → Option (List Block)) (blocks : List Block) :
    Option (List Block) :=
  blocks.foldlM (fun collection block => do
    let things ← frontiers block
    some (collection ++ things)) []

/-- The loop of `iteratedDominanceFrontiersOf:using:`. -/
def addFrontiers (frontiers : Block → Option (List Block)) :
    (fuel : Nat) → (result : List Block) → Option (List Block)
  | 0, _ => none
  | fuel + 1, result => do
    let more ← gather frontiers result
    let extended := more.foldl (fun result block => result.insert block) result
    if result.length ≠ extended.length then addFrontiers frontiers fuel extended
    else some extended

/-- The set is a list without duplicates. -/
def iteratedDominanceFrontiersOfUsing (blocks : List Block)
    (frontiers : Block → Option (List Block)) (fuel : Nat) : Option (List Block) := do
  let gathered ← gather frontiers blocks
  addFrontiers frontiers fuel gathered.dedup

end Model

section Walk

variable {Block : Type} {edge : Block → Block → Prop} {first : Block}

/-- The dictionary has a list for each block, with those in the relation. -/
def Lists (edge : Block → Block → Prop) (first : Block) (frontiers : Block → Option (List Block))
    (relation : Block → Block → Prop) : Prop :=
  ∀ b, Reachable edge first b → ∃ found, frontiers b = some found ∧ ∀ y, y ∈ found ↔ relation b y

theorem Lists.congr {frontiers : Block → Option (List Block)}
    {relation relation' : Block → Block → Prop} (lists : Lists edge first frontiers relation)
    (same : ∀ b y, Reachable edge first b → (relation b y ↔ relation' b y)) :
    Lists edge first frontiers relation' := by
  intro b reachable
  obtain ⟨found, here, members⟩ := lists b reachable
  exact ⟨found, here, fun y => (members y).trans (same b y reachable)⟩

variable [DecidableEq Block]

/-- Adding a block to one frontier, unless it is there. -/
theorem Lists.add {frontiers : Block → Option (List Block)} {relation : Block → Block → Prop}
    (lists : Lists edge first frontiers relation) {runner block : Block} {found : List Block}
    (here : frontiers runner = some found) :
    Lists edge first (if block ∈ found then frontiers
      else Function.update frontiers runner (some (found ++ [block])))
        fun b y => relation b y ∨ (b = runner ∧ y = block) := by
  intro b reachable
  obtain ⟨listed, there, members⟩ := lists b reachable
  by_cases same : b = runner
  · subst same
    cases here.symm.trans there
    by_cases member : block ∈ found
    · rw [if_pos member]
      refine ⟨found, here, fun y => (members y).trans ?_⟩
      exact ⟨.inl, fun either => either.elim id fun eq => (members y).mp (eq.2 ▸ member)⟩
    · rw [if_neg member, Function.update_self]
      refine ⟨_, rfl, fun y => ?_⟩
      rw [List.mem_append, List.mem_singleton, members]
      exact or_congr_right ⟨fun eq => ⟨rfl, eq⟩, fun both => both.2⟩
  · refine ⟨listed, ?_, fun y => (members y).trans (or_iff_left fun eq => same eq.1).symm⟩
    split
    · exact there
    · rw [Function.update_apply, if_neg same, there]

variable {idoms : Block → Option Block}
  (immediate : ∀ b, Reachable edge first b → b ≠ first →
    ∃ d, idoms b = some d ∧ ImmediatelyDominates edge first d b)

include immediate

/-- A runner adds the block to its dominators up to where it stops. -/
theorem walkUp_lists {block stop p : Block} {frontiers : Block → Option (List Block)}
    {relation : Block → Block → Prop} (reachable : Reachable edge first p)
    (above : Dominates edge first stop p) (lists : Lists edge first frontiers relation) :
    ∃ frontiers', Converges (fun fuel => walkUp idoms block stop fuel p frontiers) frontiers' ∧
      Lists edge first frontiers' fun b y => relation b y ∨
        (y = block ∧ Dominates edge first b p ∧ ¬ Dominates edge first b stop) := by
  obtain ⟨nodes, path⟩ := reachable
  induction size : nodes.length using Nat.strongRecOn generalizing p nodes frontiers relation with
  | _ n ih =>
    by_cases same : p = stop
    · subst same
      refine ⟨frontiers, ⟨1, fun fuel enough => ?_⟩, lists.congr fun b y _ => ?_⟩
      · obtain ⟨rest, rfl⟩ := Nat.exists_eq_add_of_le' enough
        simp only [walkUp, if_true]
      · exact (or_iff_left fun both => both.2.2 both.2.1).symm
    · have apart : p ≠ first := fun eq => by
        subst eq
        exact same (eq_first_of_dominates above).symm
      obtain ⟨d, next, immediately⟩ := immediate p ⟨nodes, path⟩ apart
      obtain ⟨before, path', shorter⟩ := immediately.shorter path
      obtain ⟨found, here, -⟩ := lists p ⟨nodes, path⟩
      have above' : Dominates edge first stop d := immediately.2 stop ⟨above, Ne.symm same⟩
      have added := @Lists.add _ _ _ _ frontiers relation lists p block found here
      obtain ⟨frontiers', ⟨bound, ran⟩, lists'⟩ :=
        ih before.length (size ▸ shorter) above' added before path' rfl
      refine ⟨frontiers', ⟨bound + 1, fun fuel enough => ?_⟩, lists'.congr fun b y _ => ?_⟩
      · obtain ⟨less, rfl⟩ := Nat.exists_eq_add_of_le' (Nat.one_le_of_lt enough)
        simp only [walkUp, if_neg same, here, next]
        exact ran less (Nat.le_of_succ_le_succ enough)
      · have strict := @ImmediatelyDominates.dominates_iff _ _ _ p b d ⟨nodes, path⟩ immediately
        have notAbove : ¬ Dominates edge first p stop := fun under =>
          same (Dominates.antisymm ⟨nodes, path⟩ above under).symm
        rw [strict]
        constructor
        · rintro ((before | ⟨rfl, rfl⟩) | ⟨rfl, dominates, outside⟩)
          · exact .inl before
          · exact .inr ⟨rfl, .refl b, notAbove⟩
          · exact .inr ⟨rfl, dominates.1, outside⟩
        · rintro (before | ⟨rfl, dominates, outside⟩)
          · exact .inl (.inl before)
          · by_cases self : b = p
            · exact .inl (.inr ⟨self, rfl⟩)
            · exact .inr ⟨rfl, ⟨dominates, self⟩, outside⟩

end Walk

section Frontiers

variable {Block : Type} [DecidableEq Block] [Fintype Block] {last : Block → Last Block}
  {self : Block} {predecessors : Block → List Block} {idoms : Block → Option Block}

/-- What the walks need to know of the graph. -/
structure Dominated (last : Block → Last Block) (start : Block) (predecessors : Block → List Block)
    (idoms : Block → Option Block) : Prop where
  entry : ∀ b, Reachable (Edge last) start b → ¬ Edge last b start
  incoming : ∀ a b, Reachable (Edge last) start b →
    (a ∈ predecessors b ↔ Reachable (Edge last) start a ∧ Edge last a b)
  immediate : ∀ b, Reachable (Edge last) start b → b ≠ start →
    ∃ d, idoms b = some d ∧ ImmediatelyDominates (Edge last) start d b

variable (dominated : Dominated last self predecessors idoms) {block : Block}
  {frontiers : Block → Option (List Block)} {relation : Block → Block → Prop}

include dominated

omit [Fintype Block] in
/-- The runners of all predecessors add the block to the frontiers that it is in. -/
theorem Dominated.runners {stop : Block} (reachable : Reachable (Edge last) self block)
    (found : idoms block = some stop)
    (immediately : ImmediatelyDominates (Edge last) self stop block)
    (lists : Lists (Edge last) self frontiers relation) :
    ∃ frontiers', Converges (fun fuel => (predecessors block).foldlM (fun result predecessor => do
        let stop ← idoms block
        walkUp idoms block stop fuel predecessor result) frontiers) frontiers' ∧
      Lists (Edge last) self frontiers' fun b y => relation b y ∨
        (y = block ∧ InFrontier (Edge last) self b y) := by
  have each (passed : List Block) (p : Block) (rest : List Block)
      (state : Block → Option (List Block)) (split : predecessors block = passed ++ p :: rest)
      (holds : Lists (Edge last) self state fun b y => relation b y ∨ (y = block ∧
        ∃ p ∈ passed, Dominates (Edge last) self b p ∧ ¬ Dominates (Edge last) self b stop)) :
      ∃ next, Converges (fun fuel => do
        let stop ← idoms block
        walkUp idoms block stop fuel p state) next ∧
          Lists (Edge last) self next fun b y => relation b y ∨ (y = block ∧ ∃ q ∈ passed ++ [p],
            Dominates (Edge last) self b q ∧ ¬ Dominates (Edge last) self b stop) := by
    have member : p ∈ predecessors block := by
      rw [split]
      exact List.mem_append_right _ List.mem_cons_self
    obtain ⟨reached, edge⟩ := (dominated.incoming p block reachable).mp member
    have above := immediately.1.1.of_edge immediately.1.2 edge
    obtain ⟨next, ran, lists⟩ := walkUp_lists dominated.immediate reached above holds
    refine ⟨next, ?_, lists.congr fun b y _ => ?_⟩
    · simp only [found]
      exact ran
    · rw [or_assoc, ← and_or_left]
      refine or_congr_right (and_congr_right fun _ => ?_)
      simp only [List.mem_append, List.mem_singleton, or_and_right, exists_or, exists_eq_left]
  obtain ⟨frontiers', ran, lists'⟩ :=
    Converges.foldlM each (lists.congr fun b y _ => by simp)
  refine ⟨frontiers', ran, lists'.congr fun b y _ => ?_⟩
  refine or_congr_right (and_congr_right fun same => ?_)
  subst same
  have strict := @ImmediatelyDominates.dominates_iff _ _ _ y b stop reachable immediately
  rw [strict]
  constructor
  · rintro ⟨p, member, dominates, outside⟩
    obtain ⟨reached, edge⟩ := (dominated.incoming p y reachable).mp member
    exact ⟨p, reached, edge, dominates, outside⟩
  · rintro ⟨p, reached, edge, dominates, outside⟩
    exact ⟨p, (dominated.incoming p y reachable).mpr ⟨reached, edge⟩, dominates, outside⟩

omit [Fintype Block] in
theorem Dominated.runnersOf (reachable : Reachable (Edge last) self block)
    (lists : Lists (Edge last) self frontiers relation) :
    ∃ frontiers', Converges (fun fuel => runnersOf predecessors idoms fuel frontiers block)
        frontiers' ∧
      Lists (Edge last) self frontiers' fun b y => relation b y ∨
        (y = block ∧ InFrontier (Edge last) self b y) := by
  have apart {p : Block} (member : p ∈ predecessors block) : block ≠ self := fun same => by
    obtain ⟨reached, edge⟩ := (dominated.incoming p block reachable).mp member
    exact dominated.entry p reached (same ▸ edge)
  by_cases several : 1 < (predecessors block).length
  · obtain ⟨p, member⟩ := List.exists_mem_of_length_pos (Nat.lt_trans Nat.one_pos several)
    obtain ⟨stop, found, immediately⟩ := dominated.immediate block reachable (apart member)
    obtain ⟨next, ran, lists⟩ := dominated.runners reachable found immediately lists
    refine ⟨next, ?_, lists⟩
    simp only [Optimizing.runnersOf, if_pos several]
    exact ran
  · refine ⟨frontiers, ?_, lists.congr fun b y _ => (or_iff_left ?_).symm⟩
    · simp only [Optimizing.runnersOf, if_neg several]
      exact .pure frontiers
    · rintro ⟨rfl, inside⟩
      obtain ⟨p, reached, edge, -⟩ := id inside
      have member := (dominated.incoming p y reachable).mpr ⟨reached, edge⟩
      have single : predecessors y = [p] := by
        obtain ⟨q, only⟩ := List.length_eq_one_iff.mp
          (Nat.le_antisymm (Nat.le_of_not_lt several) (List.length_pos_of_mem member))
        rw [only] at member ⊢
        rw [List.mem_singleton.mp member]
      refine @not_inFrontier_of_single _ _ _ b y p reachable (apart member)
        (fun a reached next => ?_) inside
      have member' := (dominated.incoming a y reachable).mpr ⟨reached, next⟩
      rw [single] at member'
      exact List.mem_singleton.mp member'

/-- The frontiers are exact. -/
theorem Dominated.frontiers_exact : ∃ frontiers,
    Converges (fun fuel => dominanceFrontiersUsing last self predecessors idoms fuel) frontiers ∧
      Lists (Edge last) self frontiers (InFrontier (Edge last) self) := by
  have started : Lists (Edge last) self ((withSuccessorsPostOrder last self).foldl
      (fun result block => Function.update result block (some [])) fun _ => none)
      fun b y => y ∈ ([] : List Block) ∧ InFrontier (Edge last) self b y := by
    intro b reachable
    refine ⟨[], ?_, fun y => by simp⟩
    rw [foldl_update fun _ => some [], if_pos ((mem_postOrder last self).mpr reachable)]
  have each (passed : List Block) (block : Block) (rest : List Block)
      (state : Block → Option (List Block))
      (split : withSuccessorsPostOrder last self = passed ++ block :: rest)
      (holds : Lists (Edge last) self state
        fun b y => y ∈ passed ∧ InFrontier (Edge last) self b y) :
      ∃ next,
        Converges (fun fuel => Optimizing.runnersOf predecessors idoms fuel state block) next ∧
        Lists (Edge last) self next
          fun b y => y ∈ passed ++ [block] ∧ InFrontier (Edge last) self b y := by
    have member : block ∈ withSuccessorsPostOrder last self := by
      rw [split]
      exact List.mem_append_right _ List.mem_cons_self
    obtain ⟨next, ran, lists⟩ := dominated.runnersOf ((mem_postOrder last self).mp member) holds
    refine ⟨next, ran, lists.congr fun b y _ => ?_⟩
    rw [List.mem_append, List.mem_singleton, or_and_right]
  obtain ⟨frontiers, ran, lists⟩ := Converges.foldlM each started
  refine ⟨frontiers, ran, lists.congr fun b y _ => and_iff_right_of_imp ?_⟩
  rintro ⟨p, reached, edge, -⟩
  exact (mem_postOrder last self).mpr (reached.step edge)

end Frontiers

section Iteration

variable {Block : Type} {edge : Block → Block → Prop} {first : Block}
  {frontiers : Block → Option (List Block)} {relation : Block → Block → Prop}

theorem gather_spec (lists : Lists edge first frontiers relation) {blocks : List Block}
    (reachable : ∀ b ∈ blocks, Reachable edge first b) :
    ∃ collection, gather frontiers blocks = some collection ∧
      ∀ y, y ∈ collection ↔ ∃ b ∈ blocks, relation b y := by
  have gathered : ∀ collection : List Block, ∃ collection',
      blocks.foldlM (fun collection block => do
        let things ← frontiers block
        some (collection ++ things)) collection = some collection' ∧
        ∀ y, y ∈ collection' ↔ y ∈ collection ∨ ∃ b ∈ blocks, relation b y := by
    induction blocks with
    | nil => exact fun collection => ⟨collection, rfl, fun y => by simp⟩
    | cons block blocks ih =>
      intro collection
      obtain ⟨found, here, members⟩ := lists block (reachable block List.mem_cons_self)
      obtain ⟨collection', ran, members'⟩ :=
        ih (fun b member => reachable b (List.mem_cons_of_mem _ member)) (collection ++ found)
      refine ⟨collection', ?_, fun y => ?_⟩
      · rw [List.foldlM_cons, here]
        exact ran
      · rw [members', List.mem_append, members, or_assoc, List.exists_mem_cons_iff]
  obtain ⟨collection, ran, members⟩ := gathered []
  exact ⟨collection, ran, fun y => (members y).trans (or_iff_right List.not_mem_nil)⟩

/-- The set has the frontiers of the blocks and of its own members. -/
def Closed (relation : Block → Block → Prop) (blocks : List Block) (set : Set Block) : Prop :=
  ∀ b y, b ∈ blocks ∨ b ∈ set → relation b y → y ∈ set

variable [DecidableEq Block]

theorem nodup_insertAll (more : List Block) {result : List Block} (nodup : result.Nodup) :
    (more.foldl (fun result block => result.insert block) result).Nodup := by
  induction more generalizing result with
  | nil => exact nodup
  | cons block more ih => exact ih nodup.insert

theorem mem_insertAll {more result : List Block} {y : Block} :
    y ∈ more.foldl (fun result block => result.insert block) result ↔ y ∈ result ∨ y ∈ more := by
  induction more generalizing result with
  | nil => simp
  | cons block more ih =>
    rw [List.foldl_cons, ih, List.mem_insert_iff, List.mem_cons]
    tauto

variable [Fintype Block]

/-- The sets grow until the frontiers of the members are in them. -/
theorem addFrontiers_spec (lists : Lists edge first frontiers relation)
    (reaches : ∀ b y, relation b y → Reachable edge first y) {blocks result : List Block}
    (nodup : result.Nodup) (inside : ∀ y ∈ result, Reachable edge first y)
    (starts : ∀ b ∈ blocks, ∀ y, relation b y → y ∈ result)
    (least : ∀ set, Closed relation blocks set → ∀ y ∈ result, y ∈ set) :
    ∃ answer, Converges (fun fuel => addFrontiers frontiers fuel result) answer ∧
      IsLeast {set | Closed relation blocks set} {y | y ∈ answer} := by
  induction room : Fintype.card Block - result.length using Nat.strongRecOn generalizing result with
  | _ n ih =>
    obtain ⟨more, gathered, members⟩ := gather_spec lists inside
    have nodup' := nodup_insertAll more nodup
    have grows : result ⊆ more.foldl (fun result block => result.insert block) result :=
      fun y member => mem_insertAll.mpr (.inl member)
    have fewer := (List.subperm_of_subset nodup grows).length_le
    have bounded := nodup'.length_le_card
    have least' (set : Set Block) (closed : Closed relation blocks set) (y : Block)
        (member : y ∈ more.foldl (fun result block => result.insert block) result) : y ∈ set := by
      rcases mem_insertAll.mp member with old | new
      · exact least set closed y old
      · obtain ⟨b, within, related⟩ := (members y).mp new
        exact closed b y (.inr (least set closed b within)) related
    by_cases same : result.length =
        (more.foldl (fun result block => result.insert block) result).length
    · refine ⟨_, ⟨1, fun fuel enough => ?_⟩, ?_,
        fun set closed y member => least' set closed y member⟩
      · obtain ⟨rest, rfl⟩ := Nat.exists_eq_add_of_le' enough
        simp only [addFrontiers, gathered, Option.bind_eq_bind, Option.bind_some, ne_eq,
          not_true_eq_false, if_false, same]
      · -- no member is new, so that the frontiers of all are there
        have all := (List.subperm_of_subset nodup grows).perm_of_length_le (Nat.le_of_eq same.symm)
        rintro b y (start | within) related
        · exact mem_insertAll.mpr (.inl (starts b start y related))
        · exact mem_insertAll.mpr (.inr ((members y).mpr ⟨b, all.mem_iff.mpr within, related⟩))
    · obtain ⟨answer, ⟨bound, ran⟩, exact⟩ := ih _ (by omega) nodup'
        (fun y member => (mem_insertAll.mp member).elim (inside y) fun new => by
          obtain ⟨b, -, related⟩ := (members y).mp new
          exact reaches b y related)
        (fun b member y related => mem_insertAll.mpr (.inl (starts b member y related))) least' rfl
      refine ⟨answer, ⟨bound + 1, fun fuel enough => ?_⟩, exact⟩
      obtain ⟨less, rfl⟩ := Nat.exists_eq_add_of_le' (Nat.one_le_of_lt enough)
      simp only [addFrontiers, gathered, Option.bind_eq_bind, Option.bind_some, ne_eq, if_pos same]
      exact ran less (Nat.le_of_succ_le_succ enough)

/-- The iteration answers the least set that is closed under frontiers. -/
theorem iteratedDominanceFrontiers_least (lists : Lists edge first frontiers relation)
    (reaches : ∀ b y, relation b y → Reachable edge first y) {blocks : List Block}
    (reachable : ∀ b ∈ blocks, Reachable edge first b) :
    ∃ answer,
      Converges (fun fuel => iteratedDominanceFrontiersOfUsing blocks frontiers fuel) answer ∧
      IsLeast {set | Closed relation blocks set} {y | y ∈ answer} := by
  obtain ⟨collection, gathered, members⟩ := gather_spec lists reachable
  have related (y : Block) (member : y ∈ collection.dedup) : ∃ b ∈ blocks, relation b y :=
    (members y).mp (List.mem_dedup.mp member)
  obtain ⟨answer, ⟨bound, ran⟩, least⟩ := @addFrontiers_spec Block edge first frontiers relation _ _
    lists reaches blocks collection.dedup (List.nodup_dedup collection)
    (fun y member => by
      obtain ⟨b, -, inside⟩ := related y member
      exact reaches b y inside)
    (fun b member y inside => List.mem_dedup.mpr ((members y).mpr ⟨b, member, inside⟩))
    (fun set closed y member => by
      obtain ⟨b, within, inside⟩ := related y member
      exact closed b y (.inl within) inside)
  refine ⟨answer, ⟨bound, fun fuel enough => ?_⟩, least⟩
  simp only [iteratedDominanceFrontiersOfUsing, gathered, Option.bind_eq_bind, Option.bind_some]
  exact ran fuel enough

end Iteration

section Exactness

variable {Block : Type} [DecidableEq Block] [Fintype Block]

/-- The immediate dominators, the frontiers and their iteration are those of the paths, when no
jump goes to the first block. -/
theorem dominance_exact (last : Block → Last Block) (self : Block)
    (predecessors : Block → List Block)
    (entry : ∀ b, Reachable (Edge last) self b → ¬ Edge last b self) :
    ∃ idoms frontiers,
      Converges (fun fuel => (dominatorTree last self predecessors fuel).bind fun tree =>
        tree.allImmediateDominators fuel) idoms ∧
      (∀ b, Reachable (Edge last) self b → b ≠ self →
        ∃ d, idoms b = some d ∧ ImmediatelyDominates (Edge last) self d b ∧
          ∀ c, ImmediatelyDominates (Edge last) self c b → c = d) ∧
      Converges (fun fuel => dominanceFrontiersUsing last self
        (updatePredecessors last self predecessors) idoms fuel) frontiers ∧
      (∀ b, Reachable (Edge last) self b → ∃ found, frontiers b = some found ∧
        ∀ y, y ∈ found ↔ InFrontier (Edge last) self b y) ∧
      ∀ blocks : List Block, (∀ b ∈ blocks, Reachable (Edge last) self b) → ∃ answer,
        Converges (fun fuel => iteratedDominanceFrontiersOfUsing blocks frontiers fuel) answer ∧
          IsLeast {set | Closed (InFrontier (Edge last) self) blocks set} {y | y ∈ answer} := by
  obtain ⟨idoms, ran, some, immediate⟩ := immediateDominators_exact predecessors entry
  have dominated : Dominated last self (updatePredecessors last self predecessors) idoms := by
    refine ⟨entry, fun a b reachable => mem_updatePredecessors predecessors reachable,
      fun b reachable apart => ?_⟩
    obtain ⟨d, found⟩ := some b reachable apart
    exact ⟨d, found, (immediate b d found).2.2⟩
  obtain ⟨frontiers, ran', lists⟩ := dominated.frontiers_exact
  refine ⟨idoms, frontiers, ran, fun b reachable apart => ?_, ran', lists,
    fun blocks reachable => ?_⟩
  · obtain ⟨d, found, immediately⟩ := dominated.immediate b reachable apart
    exact ⟨d, found, immediately, fun c other => other.unique reachable immediately⟩
  · apply iteratedDominanceFrontiers_least lists _ reachable
    rintro b y ⟨p, reached, edge, -⟩
    exact reached.step edge

/-- A block that jumps to itself is in its own frontier. -/
theorem dominance_exact_loop :
    ∃ (idoms : Bool → Option Bool) (frontiers : Bool → Option (List Bool)),
    Converges (fun fuel => (dominatorTree (fun _ => .jump true) false (fun _ => []) fuel).bind
      fun tree => tree.allImmediateDominators fuel) idoms ∧
    Converges (fun fuel => dominanceFrontiersUsing (fun _ => .jump true) false
      (updatePredecessors (fun _ => .jump true) false fun _ => []) idoms fuel) frontiers ∧
    ∃ found, frontiers true = some found ∧ true ∈ found := by
  obtain ⟨idoms, frontiers, ran, -, ran', lists, -⟩ :=
    dominance_exact (fun _ : Bool => .jump true) false (fun _ => [])
      fun b _ => by cases b <;> decide
  have reachable : Reachable (Edge fun _ : Bool => .jump true) false true :=
    reachable_first.step (show Edge (fun _ : Bool => .jump true) false true by decide)
  obtain ⟨found, here, members⟩ := lists true reachable
  exact ⟨idoms, frontiers, ran, ran', found, here,
    (members true).mpr ⟨true, reachable, by decide, .refl true, fun strict => strict.2 rfl⟩⟩

end Exactness

end Egg.Optimizing
