import Egg.Data.Fuel
import Egg.Data.ParentChain
import Egg.Optimizing.BasicBlock
import Mathlib.Algebra.BigOperators.Group.Finset.Basic
import Mathlib.Algebra.Order.BigOperators.Group.Finset

/-! The dominator tree of basic blocks; indices count from zero. -/
namespace Egg.Optimizing

open Egg.Data Egg.Data.FlowGraph

section Model

/-- The loop of `intersect`. -/
def intersectFrom (idoms : Nat → Option Nat) :
    (fuel : Nat) → (finger1 finger2 : Nat) → Option Nat
  | 0, _, _ => none
  | fuel + 1, finger1, finger2 =>
    if finger1 = finger2 then some finger1
    else if finger2 < finger1 then do
      let finger1 ← idoms finger1
      intersectFrom idoms fuel finger1 finger2
    else do
      let finger2 ← idoms finger2
      intersectFrom idoms fuel finger1 finger2

/-- `intersect`; each step lowers a finger. -/
def intersect (idoms : Nat → Option Nat) (index1 index2 : Nat) : Option Nat :=
  intersectFrom idoms (index1 + index2 + 1) index1 index2

/-- The dominator of a block by those of its predecessors, of which one is there. -/
def intersection (incoming : List Nat) (idoms : Nat → Option Nat) : Option Nat :=
  let processed := incoming.filter fun i => (idoms i).isSome
  match processed with
  | [] => none
  | initial :: _ =>
    processed.foldlM (fun actual candidate => intersect idoms actual candidate) initial

/-- A pass over so many blocks from the index on, with what changed. -/
def improve (incoming : Nat → List Nat) : (count index : Nat) → (idoms : Nat → Option Nat) →
    (changed : Bool) → Option ((Nat → Option Nat) × Bool)
  | 0, _, idoms, changed => some (idoms, changed)
  | count + 1, index, idoms, changed => do
    let found ← intersection (incoming index) idoms
    if idoms index = some found then improve incoming count (index + 1) idoms changed
    else improve incoming count (index + 1) (Function.update idoms index (some found)) true

/-- The passes until nothing changes. -/
def improveAll (incoming : Nat → List Nat) (size : Nat) :
    (fuel : Nat) → (idoms : Nat → Option Nat) → Option (Nat → Option Nat)
  | 0, _ => none
  | fuel + 1, idoms => do
    let (idoms, changed) ← improve incoming (size - 1) 1 idoms false
    if changed then improveAll incoming size fuel idoms else some idoms

end Model

section Passes

variable {incoming : Nat → List Nat} {size : Nat} {idoms idoms' result : Nat → Option Nat}

theorem improveAll_again (ran : improve incoming (size - 1) 1 idoms false = some (idoms', true))
    (rest : Converges (fun fuel => improveAll incoming size fuel idoms') result) :
    Converges (fun fuel => improveAll incoming size fuel idoms) result := by
  obtain ⟨bound, rest⟩ := rest
  refine ⟨bound + 1, fun fuel enough => ?_⟩
  obtain ⟨less, rfl⟩ := Nat.exists_eq_add_of_le' (Nat.one_le_of_lt enough)
  simp only [improveAll, ran]
  exact rest less (Nat.le_of_succ_le_succ enough)

theorem improveAll_last (ran : improve incoming (size - 1) 1 idoms false = some (idoms', false)) :
    Converges (fun fuel => improveAll incoming size fuel idoms) idoms' := by
  refine ⟨1, fun fuel enough => ?_⟩
  obtain ⟨rest, rfl⟩ := Nat.exists_eq_add_of_le' enough
  simp only [improveAll, ran]
  rfl

end Passes

section Intersection

variable {idoms : Nat → Option Nat} (descending : Descending idoms)

include descending

theorem intersectFrom_spec {fuel finger1 finger2 p q : Nat} (enough : finger1 + finger2 < fuel)
    (found : idoms finger1 = some p) (found' : idoms finger2 = some q) :
    ∃ c, intersectFrom idoms fuel finger1 finger2 = some c ∧
      ∀ x, Chain idoms x c ↔ Chain idoms x finger1 ∧ Chain idoms x finger2 := by
  induction fuel generalizing finger1 finger2 p q with
  | zero => omega
  | succ fuel ih =>
    rw [intersectFrom]
    split_ifs with same less
    · subst same
      exact ⟨finger1, rfl, fun x => and_self_iff.symm⟩
    · have lower := descending.less finger1 p (by omega) found
      obtain ⟨r, next⟩ := descending.defined _ _ found
      obtain ⟨c, met, common⟩ := ih (show p + finger2 < fuel by omega) next found'
      refine ⟨c, by rw [found]; exact met, fun x => ?_⟩
      rw [common]
      refine ⟨fun ⟨one, other⟩ => ⟨.up found one, other⟩, fun ⟨one, other⟩ => ⟨?_, other⟩⟩
      have below := other.le descending
      exact one.of_parent (by omega) found
    · have lower := descending.less finger2 q (by omega) found'
      obtain ⟨r, next⟩ := descending.defined _ _ found'
      obtain ⟨c, met, common⟩ := ih (show finger1 + q < fuel by omega) found next
      refine ⟨c, by rw [found']; exact met, fun x => ?_⟩
      rw [common]
      refine ⟨fun ⟨one, other⟩ => ⟨one, .up found' other⟩, fun ⟨one, other⟩ => ⟨one, ?_⟩⟩
      have below := one.le descending
      exact other.of_parent (by omega) found'

/-- The chain of the intersection is what the chains of the processed ones share. -/
theorem intersection_spec {incoming : List Nat} {p q : Nat} (member : p ∈ incoming)
    (found : idoms p = some q) : ∃ c, intersection incoming idoms = some c ∧
      ∀ x, Chain idoms x c ↔ ∀ i ∈ incoming, idoms i ≠ none → Chain idoms x i := by
  have processed (i : Nat) : i ∈ incoming.filter (fun i => (idoms i).isSome) ↔
      i ∈ incoming ∧ idoms i ≠ none := by
    rw [List.mem_filter, Option.isSome_iff_ne_none]
  have folded (more : List Nat) (defined : ∀ i ∈ more, ∃ r, idoms i = some r) (actual r : Nat)
      (found : idoms actual = some r) :
      ∃ c, more.foldlM (fun actual candidate => intersect idoms actual candidate) actual = some c ∧
        ∀ x, Chain idoms x c ↔ Chain idoms x actual ∧ ∀ i ∈ more, Chain idoms x i := by
    induction more generalizing actual r with
    | nil => exact ⟨actual, rfl, fun x => by simp⟩
    | cons candidate more ih =>
      obtain ⟨r', found'⟩ := defined candidate List.mem_cons_self
      obtain ⟨c, met, common⟩ := intersectFrom_spec descending (Nat.lt_succ_self _) found found'
      obtain ⟨r₂, found₂⟩ := ((common c).mp .here).1.defined descending found
      obtain ⟨c', met', common'⟩ :=
        ih (fun i member => defined i (List.mem_cons_of_mem _ member)) c r₂ found₂
      refine ⟨c', ?_, fun x => ?_⟩
      · rw [List.foldlM_cons, intersect, met]
        exact met'
      · rw [common', common, List.forall_mem_cons, and_assoc]
  have within := (processed p).mpr ⟨member, by rw [found]; exact Option.some_ne_none q⟩
  unfold intersection
  cases nonempty : incoming.filter (fun i => (idoms i).isSome) with
  | nil =>
    rw [nonempty] at within
    cases within
  | cons initial rest =>
    rw [nonempty] at processed
    have defined (i : Nat) (member : i ∈ initial :: rest) : ∃ r, idoms i = some r :=
      Option.ne_none_iff_exists'.mp ((processed i).mp member).2
    obtain ⟨r, first⟩ := defined initial List.mem_cons_self
    obtain ⟨c, met, common⟩ := folded (initial :: rest) defined initial r first
    refine ⟨c, met, fun x => ?_⟩
    rw [common]
    constructor
    · rintro ⟨-, all⟩ i member some
      exact all i ((processed i).mpr ⟨member, some⟩)
    · intro all
      have each (i : Nat) (member : i ∈ initial :: rest) : Chain idoms x i :=
        all i ((processed i).mp member).1 ((processed i).mp member).2
      exact ⟨each initial List.mem_cons_self, each⟩

end Intersection

/-- The graph of the indices: all others have a predecessor below them, and the first one none. -/
structure Numbered (incoming : Nat → List Nat) (size : Nat) : Prop where
  positive : 0 < size
  start : incoming 0 = []
  forward : ∀ j, 0 < j → j < size → ∃ p ∈ incoming j, p < j
  inside : ∀ j, ∀ p ∈ incoming j, p < size ∧ j < size

/-- The parent is not below a strict dominator, and leads to the node over higher ones. -/
structure Placed (incoming : Nat → List Nat) (m j : Nat) : Prop where
  least : ∀ d, Dominates (fun p j => p ∈ incoming j) 0 d j → d ≠ j → d ≤ m
  walk : Relation.ReflTransGen (fun a b => a ∈ incoming b ∧ m < b) m j

/-- All parents that are known are placed so. -/
structure Sound (incoming : Nat → List Nat) (idoms : Nat → Option Nat) : Prop extends
    Descending idoms where
  placed : ∀ j m, j ≠ 0 → idoms j = some m → Placed incoming m j

section Sound

variable {incoming : Nat → List Nat} {idoms : Nat → Option Nat} (sound : Sound incoming idoms)

include sound

/-- The dominators are on the chain. -/
theorem Sound.chain_of_dominates {d j m : Nat} (found : idoms j = some m)
    (dominates : Dominates (fun p j => p ∈ incoming j) 0 d j) : Chain idoms d j := by
  induction j using Nat.strongRecOn generalizing m with
  | _ j ih =>
    by_cases same : d = j
    · exact same ▸ .here
    · have root : j ≠ 0 := fun zero => by
        subst zero
        exact same (eq_first_of_dominates dominates)
      have placed := sound.placed j m root found
      obtain ⟨q, next⟩ := sound.defined j m found
      rcases Nat.lt_or_eq_of_le (placed.least d dominates same) with less | rfl
      · refine .up found (ih m (sound.less j m root found) next fun nodes path => ?_)
        -- a path around the dominator would go on to the node
        by_contra apart
        obtain ⟨nodes', path', apart'⟩ := path.extend apart
          (Relation.ReflTransGen.mono (fun a b step => ⟨step.1, by omega⟩) _ _ placed.walk)
        exact apart' (dominates nodes' path')
      · exact .up found .here

/-- A chain is a walk over higher nodes. -/
theorem Sound.walk_of_chain {c i : Nat} (chain : Chain idoms c i) :
    Relation.ReflTransGen (fun a b => a ∈ incoming b ∧ c < b) c i := by
  induction chain with
  | here => exact .refl
  | @up i p found chain ih =>
    by_cases root : i = 0
    · subst root
      cases found.symm.trans sound.root
      exact ih
    · have above := chain.le sound.toDescending
      exact ih.trans (Relation.ReflTransGen.mono (fun a b step => ⟨step.1, by omega⟩) _ _
        (sound.placed i p root found).walk)

/-- What is found for a node is placed. -/
theorem Sound.intersection {j p q : Nat} (positive : 0 < j) (member : p ∈ incoming j)
    (below : p < j) (found : idoms p = some q) :
    ∃ c, intersection (incoming j) idoms = some c ∧ c < j ∧
      Sound incoming (Function.update idoms j (some c)) ∧
      ∀ x, Chain idoms x c ↔ ∀ i ∈ incoming j, idoms i ≠ none → Chain idoms x i := by
  obtain ⟨c, met, common⟩ := intersection_spec sound.toDescending member found
  have onto : Chain idoms c p := (common c).mp .here p member (found ▸ Option.some_ne_none q)
  have lower := onto.le sound.toDescending
  obtain ⟨r, next⟩ := onto.defined sound.toDescending found
  refine ⟨c, met, by omega, ⟨sound.toDescending.update (by omega) next, ?_⟩, common⟩
  intro i m nonzero found'
  rw [Function.update_apply] at found'
  split at found'
  · rename_i same
    cases found'
    subst same
    refine ⟨fun d dominates apart => ?_, ?_⟩
    · have shared : Chain idoms d c := (common d).mpr fun k within some => by
        obtain ⟨q, known⟩ := Option.ne_none_iff_exists'.mp some
        exact sound.chain_of_dominates known (dominates.of_edge apart within)
      exact shared.le sound.toDescending
    · exact (sound.walk_of_chain onto).tail ⟨member, by omega⟩
  · exact sound.placed i m nonzero found'

end Sound

theorem improve_succ {incoming : Nat → List Nat} {count index c : Nat} {idoms : Nat → Option Nat}
    {changed : Bool} (found : intersection (incoming index) idoms = some c) :
    improve incoming (count + 1) index idoms changed =
      improve incoming count (index + 1) (Function.update idoms index (some c))
        (changed || decide (idoms index ≠ some c)) := by
  rw [improve, found]
  by_cases same : idoms index = some c
  · have kept : Function.update idoms index (some c) = idoms := by
      rw [← same, Function.update_eq_self]
    simp [same, kept]
  · simp [same]

/-- A chain below a node does not notice a change of its parent. -/
theorem chain_update_iff {idoms : Nat → Option Nat} {j v x : Nat} {c : Option Nat}
    (descending : Descending idoms) (descending' : Descending (Function.update idoms j c))
    (below : v < j) : Chain (Function.update idoms j c) x v ↔ Chain idoms x v := by
  have same (u : Nat) (less : u ≤ v) : Function.update idoms j c u = idoms u := by
    rw [Function.update_apply, if_neg (by omega)]
  exact ⟨fun chain => chain.congr descending' same,
    fun chain => chain.congr descending fun u less => (same u less).symm⟩

/-- What holds between the passes: the parents are on the chains of the predecessors below, and
nothing higher is on those of all predecessors. -/
structure Settled (incoming : Nat → List Nat) (size : Nat) (idoms : Nat → Option Nat) : Prop extends
    Sound incoming idoms where
  known : ∀ i < size, ∃ q, idoms i = some q
  below : ∀ j m, 0 < j → j < size → idoms j = some m → ∀ p ∈ incoming j, p < j → Chain idoms m p
  low : ∀ j m, 0 < j → j < size → idoms j = some m →
    ∀ c, (∀ p ∈ incoming j, Chain idoms c p) → c ≤ m

section FirstPass

variable {incoming : Nat → List Nat} {size : Nat} (numbered : Numbered incoming size)

/-- The same for the nodes below an index, in the first pass. -/
structure Begun (incoming : Nat → List Nat) (index : Nat) (idoms : Nat → Option Nat) : Prop extends
    Sound incoming idoms where
  known : ∀ i, (∃ q, idoms i = some q) ↔ i < index
  below : ∀ j m, 0 < j → idoms j = some m → ∀ p ∈ incoming j, p < j → Chain idoms m p
  low : ∀ j m, 0 < j → idoms j = some m →
    ∀ c, (∀ p ∈ incoming j, p < j → Chain idoms c p) → c ≤ m

/-- All parents are settled after the first pass. -/
theorem Begun.settled {idoms : Nat → Option Nat}
    (begun : Begun incoming size idoms) : Settled incoming size idoms where
  toSound := begun.toSound
  known i inside := (begun.known i).mpr inside
  below j m positive _ found := begun.below j m positive found
  low j m positive _ found c all := begun.low j m positive found c fun p member _ => all p member

include numbered

theorem Begun.step {index : Nat} {idoms : Nat → Option Nat} (begun : Begun incoming index idoms)
    (positive : 0 < index) (inside : index < size) : ∃ c,
      intersection (incoming index) idoms = some c ∧
        Begun incoming (index + 1) (Function.update idoms index (some c)) := by
  obtain ⟨p, member, before⟩ := numbered.forward index positive inside
  obtain ⟨q, found⟩ := (begun.known p).mpr before
  obtain ⟨c, met, less, sound, common⟩ :=
    begun.toSound.intersection positive member before found
  have local' {v x : Nat} (below : v < index) :=
    @chain_update_iff idoms index v x (some c) begun.toDescending sound.toDescending below
  refine ⟨c, met, sound, fun i => ?_, fun j m positive' found' k within less' => ?_,
    fun j m positive' found' x all => ?_⟩
  · rw [Function.update_apply]
    by_cases same : i = index
    · rw [if_pos same]
      exact ⟨fun _ => by omega, fun _ => ⟨c, rfl⟩⟩
    · rw [if_neg same, begun.known]
      omega
  · rw [Function.update_apply] at found'
    split at found'
    · rename_i same
      cases found'
      subst same
      refine (local' less').mpr ((common c).mp .here k within ?_)
      obtain ⟨r, known⟩ := (begun.known k).mpr less'
      rw [known]
      exact Option.some_ne_none r
    · have known := (begun.known j).mp ⟨m, found'⟩
      exact (local' (by omega)).mpr (begun.below j m positive' found' k within less')
  · rw [Function.update_apply] at found'
    split at found'
    · rename_i same
      cases found'
      subst same
      refine Chain.le begun.toDescending ((common x).mpr fun k within some => ?_)
      have before := (begun.known k).mp (Option.ne_none_iff_exists'.mp some)
      exact (local' before).mp (all k within before)
    · have known := (begun.known j).mp ⟨m, found'⟩
      exact begun.low j m positive' found' x fun k within less' =>
        (local' (by omega)).mp (all k within less')

theorem Begun.run {count index : Nat} {idoms : Nat → Option Nat} {changed : Bool}
    (begun : Begun incoming index idoms) (positive : 0 < index) (total : index + count = size) :
    ∃ idoms' changed', improve incoming count index idoms changed = some (idoms', changed') ∧
      Begun incoming size idoms' ∧ (changed' = false → changed = false ∧ count = 0) := by
  induction count generalizing index idoms changed with
  | zero =>
    obtain rfl : index = size := total
    exact ⟨idoms, changed, rfl, begun, fun stays => ⟨stays, rfl⟩⟩
  | succ count ih =>
    obtain ⟨c, met, begun'⟩ := begun.step numbered positive (by omega)
    have fresh : idoms index = none := Option.not_isSome_iff_eq_none.mp fun known =>
      Nat.lt_irrefl index ((begun.known index).mp (Option.isSome_iff_exists.mp known))
    obtain ⟨idoms', changed', ran, begun₂, stays⟩ :=
      @ih (index + 1) _ (changed || decide (idoms index ≠ some c)) begun' (Nat.succ_pos index)
        (by omega)
    refine ⟨idoms', changed', (improve_succ met).trans ran, begun₂, fun still => ?_⟩
    have unmoved := (Bool.or_eq_false_iff.mp (stays still).1).2
    rw [fresh] at unmoved
    exact absurd (of_decide_eq_false unmoved) (not_not.mpr (Option.some_ne_none c).symm)

end FirstPass

section LaterPasses

variable {incoming : Nat → List Nat} {size : Nat} {before : Nat → Option Nat}

/-- The sum of the parents, which the passes lower. -/
def total (size : Nat) (idoms : Nat → Option Nat) : Nat :=
  ∑ i ∈ Finset.range size, (idoms i).getD 0

theorem total_update {idoms : Nat → Option Nat} {j m c : Nat} (inside : j < size)
    (found : idoms j = some m) :
    total size (Function.update idoms j (some c)) + m = total size idoms + c := by
  have member := Finset.mem_range.mpr inside
  have others : ∑ i ∈ (Finset.range size).erase j, (Function.update idoms j (some c) i).getD 0 =
      ∑ i ∈ (Finset.range size).erase j, (idoms i).getD 0 := by
    apply Finset.sum_congr rfl
    intro i apart
    rw [Function.update_apply, if_neg (Finset.ne_of_mem_erase apart)]
  have one := Finset.add_sum_erase _ (fun i => (Function.update idoms j (some c) i).getD 0) member
  have other := Finset.add_sum_erase _ (fun i => (idoms i).getD 0) member
  simp only [Function.update_self, Option.getD_some, found] at one other
  unfold total
  omega

/-- A pass over settled parents that has come to an index. The chains got shorter, yet keep what
was on them from the chains before. -/
structure Between (incoming : Nat → List Nat) (size : Nat) (before : Nat → Option Nat) (index : Nat)
    (idoms : Nat → Option Nat) : Prop extends Sound incoming idoms where
  known : ∀ i < size, ∃ q, idoms i = some q
  same : ∀ i, index ≤ i → idoms i = before i
  shrinks : ∀ x v, Chain idoms x v → Chain before x v
  keeps : ∀ v < index, ∀ m x, Chain before m v → Chain idoms x v → x ≤ m → Chain idoms x m
  below : ∀ j m, 0 < j → j < index → idoms j = some m → ∀ p ∈ incoming j, p < j → Chain idoms m p
  low : ∀ j m, 0 < j → j < index → idoms j = some m →
    ∀ c, (∀ p ∈ incoming j, Chain idoms c p) → c ≤ m

theorem Settled.between (settled : Settled incoming size before) :
    Between incoming size before 1 before where
  toSound := settled.toSound
  known := settled.known
  same _ _ := rfl
  shrinks _ _ chain := chain
  keeps v zero m x chain _ less := by
    obtain rfl : v = 0 := by omega
    have none := chain.le settled.toDescending
    obtain rfl : m = 0 := by omega
    obtain rfl : x = 0 := by omega
    exact .here
  below j m positive less := by omega
  low j m positive less := by omega

theorem Between.settled {idoms : Nat → Option Nat}
    (between : Between incoming size before size idoms) : Settled incoming size idoms where
  toSound := between.toSound
  known := between.known
  below := between.below
  low := between.low

theorem Between.step (numbered : Numbered incoming size) (settled : Settled incoming size before)
    {index : Nat} {idoms : Nat → Option Nat} (between : Between incoming size before index idoms)
    (positive : 0 < index) (inside : index < size) : ∃ c m,
      intersection (incoming index) idoms = some c ∧ idoms index = some m ∧ c ≤ m ∧
        Between incoming size before (index + 1) (Function.update idoms index (some c)) := by
  obtain ⟨p, member, less⟩ := numbered.forward index positive inside
  obtain ⟨q, found⟩ := between.known p (Nat.lt_trans less inside)
  obtain ⟨c, met, lower, sound, common⟩ :=
    between.toSound.intersection positive member less found
  obtain ⟨m, old⟩ := between.known index inside
  have settledAt : before index = some m := (between.same index (Nat.le_refl _)) ▸ old
  have shared (x : Nat) : Chain idoms x c ↔ ∀ i ∈ incoming index, Chain idoms x i := by
    rw [common]
    refine forall₂_congr fun i within => ?_
    obtain ⟨r, some⟩ := between.known i (numbered.inside index i within).1
    exact imp_iff_right (some ▸ Option.some_ne_none r)
  -- the new parent is on the chain of the old one
  have above : c ≤ m := settled.low index m positive inside settledAt c fun i within =>
    between.shrinks c i ((shared c).mp .here i within)
  have over' : Chain before m p := settled.below index m positive inside settledAt p member less
  have moved : Chain idoms c m :=
    between.keeps p less m c over' ((shared c).mp .here p member) above
  have onto {x v : Nat} (chain : Chain (Function.update idoms index (some c)) x v) :
      Chain idoms x v := chain.of_update old moved
  have local' {v x : Nat} (below : v < index) :=
    @chain_update_iff idoms index v x (some c) between.toDescending sound.toDescending below
  refine ⟨c, m, met, old, above, sound, fun i inside' => ?_, fun i later => ?_,
    fun x v chain => between.shrinks x v (onto chain), fun v early m' x chain chain' less' => ?_,
    fun j m' positive' early found' k within less' => ?_,
    fun j m' positive' early found' x all => ?_⟩
  · rw [Function.update_apply]
    split
    · exact ⟨c, rfl⟩
    · exact between.known i inside'
  · rw [Function.update_apply, if_neg (by omega)]
    exact between.same i (by omega)
  · rcases Nat.lt_or_eq_of_le (Nat.le_of_lt_succ early) with earlier | rfl
    · have height := chain.le settled.toDescending
      exact (local' (by omega)).mpr
        (between.keeps v earlier m' x chain ((local' earlier).mp chain') less')
    · by_cases self : m' = v
      · exact self ▸ chain'
      · have height := chain.le settled.toDescending
        have up := chain.of_parent self settledAt
        have apart : x ≠ v := by omega
        have up' := chain'.of_parent apart (Function.update_self v (some c) idoms)
        have reached : Chain idoms x p :=
          ((local' lower).mp up').trans ((shared c).mp .here p member)
        exact (local' (by omega)).mpr
          (between.keeps p less m' x (up.trans over') reached less')
  · rw [Function.update_apply] at found'
    split at found'
    · rename_i here
      cases found'
      subst here
      exact (local' less').mpr ((shared c).mp .here k within)
    · exact (local' (by omega)).mpr
        (between.below j m' positive' (by omega) found' k within less')
  · rw [Function.update_apply] at found'
    split at found'
    · rename_i here
      cases found'
      subst here
      exact Chain.le between.toDescending ((shared x).mpr fun k within => onto (all k within))
    · exact between.low j m' positive' (by omega) found' x fun k within => onto (all k within)

/-- A pass lowers the sum when it changes anything; else all is as it was found. -/
theorem Between.run (numbered : Numbered incoming size) (settled : Settled incoming size before)
    {count index : Nat} {idoms : Nat → Option Nat} (changed : Bool)
    (between : Between incoming size before index idoms) (positive : 0 < index)
    (sum : index + count = size) : ∃ idoms' changed',
      improve incoming count index idoms changed = some (idoms', changed') ∧
        Between incoming size before size idoms' ∧ total size idoms' ≤ total size idoms ∧
        (changed' = true → changed = true ∨ total size idoms' < total size idoms) ∧
        (changed' = false → changed = false ∧ idoms' = idoms ∧
          ∀ i, index ≤ i → i < size → intersection (incoming i) idoms = idoms i) := by
  induction count generalizing index idoms changed with
  | zero =>
    obtain rfl : index = size := sum
    exact ⟨idoms, changed, rfl, between, Nat.le_refl _, .inl, fun stays => ⟨stays, rfl, by omega⟩⟩
  | succ count ih =>
    obtain ⟨c, m, met, old, above, between'⟩ := between.step numbered settled positive (by omega)
    have lowered := @total_update size idoms index m c (by omega) old
    obtain ⟨idoms', changed', ran, ends, less, lower, stays⟩ :=
      ih (changed || decide (idoms index ≠ some c)) between' (Nat.succ_pos index) (by omega)
    refine ⟨idoms', changed', (improve_succ met).trans ran, ends, by omega, fun more => ?_,
      fun still => ?_⟩
    · rcases lower more with flag | fewer
      · rcases (Bool.or_eq_true _ _).mp flag with flag | moved
        · exact .inl flag
        · have apart : m ≠ c := fun same => of_decide_eq_true moved (same ▸ old)
          exact .inr (by omega)
      · exact .inr (by omega)
    · obtain ⟨flags, rfl, rest⟩ := stays still
      obtain ⟨flag, unmoved⟩ := (Bool.or_eq_false_iff).mp flags
      have kept : idoms index = some c := not_not.mp (of_decide_eq_false unmoved)
      have whole : Function.update idoms index (some c) = idoms := by
        rw [← kept, Function.update_eq_self]
      refine ⟨flag, whole, fun i later inside => ?_⟩
      rcases Nat.lt_or_eq_of_le later with later | rfl
      · have same := rest i later inside
        rwa [whole] at same
      · rw [met, kept]

/-- The passes end, and the last one finds all parents as they are. -/
theorem improveAll_settled (numbered : Numbered incoming size)
    (settled : Settled incoming size before) : ∃ idoms,
      Converges (fun fuel => improveAll incoming size fuel before) idoms ∧
        Settled incoming size idoms ∧
        ∀ i, 0 < i → i < size → intersection (incoming i) idoms = idoms i := by
  induction sum : total size before using Nat.strongRecOn generalizing before with
  | _ n ih =>
    have positive := numbered.positive
    obtain ⟨idoms, changed, ran, ends, -, lower, stays⟩ :=
      settled.between.run numbered settled false Nat.one_pos (show 1 + (size - 1) = size by omega)
    cases changed with
    | true =>
      have fewer := (lower rfl).resolve_left Bool.false_ne_true
      obtain ⟨idoms', ended, settled', fixed⟩ := ih _ (sum ▸ fewer) ends.settled rfl
      exact ⟨idoms', improveAll_again ran ended, settled', fixed⟩
    | false =>
      obtain ⟨-, same, found⟩ := stays rfl
      exact ⟨idoms, improveAll_last ran, ends.settled,
        fun i positive inside => same ▸ found i positive inside⟩

end LaterPasses

section Exactness

variable {incoming : Nat → List Nat} {size : Nat} {idoms : Nat → Option Nat}

/-- When no parent changes, the chains are made of the dominators. -/
theorem chain_iff_dominates (numbered : Numbered incoming size)
    (settled : Settled incoming size idoms)
    (fixed : ∀ i, 0 < i → i < size → intersection (incoming i) idoms = idoms i) {d j : Nat}
    (inside : j < size) :
    Chain idoms d j ↔ Dominates (fun p j => p ∈ incoming j) 0 d j := by
  constructor
  · apply @dominates_of_equations Nat (fun p j => p ∈ incoming j) 0 j d fun j d => Chain idoms d j
    · intro d chain
      exact Nat.le_zero.mp (chain.le settled.toDescending)
    · intro a b _ edge d chain
      have within := (numbered.inside b a edge).2
      have positive : 0 < b := Nat.pos_of_ne_zero fun zero => by
        rw [zero, numbered.start] at edge
        exact List.not_mem_nil edge
      obtain ⟨m, found⟩ := settled.known b within
      obtain ⟨q, known⟩ := settled.known a (numbered.inside b a edge).1
      obtain ⟨c, met, common⟩ := intersection_spec settled.toDescending edge known
      obtain rfl : c = m := Option.some.inj (met.symm.trans ((fixed b positive within).trans found))
      by_cases same : d = b
      · exact .inl same
      · have up := chain.of_parent same found
        exact .inr ((common d).mp up a edge (known ▸ Option.some_ne_none q))
  · intro dominates
    obtain ⟨m, found⟩ := settled.known j inside
    exact settled.toSound.chain_of_dominates found dominates

/-- The first parents: only the first node has one. -/
theorem begun_start : Begun incoming 1 fun i => if i = 0 then some 0 else none where
  root := rfl
  less i p nonzero found := by
    rw [if_neg nonzero] at found
    cases found
  defined i p found := by
    split at found
    · cases found
      exact ⟨0, rfl⟩
    · cases found
  placed j m nonzero found := by
    rw [if_neg nonzero] at found
    cases found
  known i := by
    by_cases zero : i = 0
    · exact ⟨fun _ => by omega, fun _ => ⟨0, if_pos zero⟩⟩
    · rw [if_neg zero]
      exact ⟨fun ⟨q, found⟩ => absurd found.symm (Option.some_ne_none q), fun below => by omega⟩
  below j m positive found := by
    rw [if_neg (Nat.ne_of_gt positive)] at found
    cases found
  low j m positive found := by
    rw [if_neg (Nat.ne_of_gt positive)] at found
    cases found

/-- The iteration ends with the dominators on the chains. -/
theorem improveAll_exact (numbered : Numbered incoming size) : ∃ idoms,
    Converges (fun fuel => improveAll incoming size fuel fun i => if i = 0 then some 0 else none)
      idoms ∧ Settled incoming size idoms ∧ ∀ d j, j < size →
        (Chain idoms d j ↔ Dominates (fun p j => p ∈ incoming j) 0 d j) := by
  have positive := numbered.positive
  obtain ⟨idoms, changed, ran, begun, stays⟩ :=
    @Begun.run incoming size numbered (size - 1) 1 _ false begun_start Nat.one_pos (by omega)
  cases changed with
  | true =>
    obtain ⟨idoms', ended, settled, fixed⟩ := improveAll_settled numbered begun.settled
    exact ⟨idoms', improveAll_again ran ended, settled,
      fun d j inside => chain_iff_dominates numbered settled fixed inside⟩
  | false =>
    have single := (stays rfl).2
    exact ⟨idoms, improveAll_last ran, begun.settled, fun d j inside =>
      chain_iff_dominates numbered begun.settled (fun i _ _ => by omega) inside⟩

end Exactness

end Egg.Optimizing
