import Mathlib.Data.List.Nodup
import Mathlib.Data.Nat.Basic

/-! The sweep over the large spaces at the end of a collection. -/
namespace Egg.Collector

variable {σ : Type}

/-- The large spaces at the end of a collection, the first `largeSize` of them there since its
beginning. -/
structure LargeSpaces (σ : Type) where
  large : List σ
  largeSize : Nat
  registered : List σ
  distinct : large.Nodup
  initial : largeSize ≤ large.length

structure Sweep (σ : Type) where
  used : Nat
  large : List σ
  registered : List σ
  freed : List σ
  deriving DecidableEq

namespace Sweep

def put (sweep : Sweep σ) (index : Nat) (s : σ) : Option (Sweep σ) :=
  if index < sweep.large.length then some { sweep with large := sweep.large.set index s } else none

/-- A turn of the first loop. -/
def check [DecidableEq σ] (seen : σ → Bool) (sweep : Sweep σ) (i : Nat) : Option (Sweep σ) := do
  let s ← sweep.large[i - 1]?
  if seen s then
    let sweep := { sweep with used := sweep.used + 1 }
    -- the entry after the one that is next to be filled
    sweep.put sweep.used s
  else
    some { sweep with freed := sweep.freed ++ [s], registered := sweep.registered.filter (· ≠ s) }

/-- A turn of the second loop. -/
def keep (sweep : Sweep σ) (i : Nat) : Option (Sweep σ) := do
  let s ← sweep.large[i - 1]?
  let sweep := { sweep with used := sweep.used + 1 }
  sweep.put (sweep.used - 1) s

end Sweep

/-- The sweep, without a result where it leaves the list; the entries from `used` on are nulled and
then cut off. -/
def sweepLargeSpaces [DecidableEq σ] (seen : σ → Bool) (spaces : LargeSpaces σ) : Option (Sweep σ) := do
  let checked ← (List.range' 1 spaces.largeSize).foldlM (Sweep.check seen)
    ⟨0, spaces.large, spaces.registered, []⟩
  let kept ← (List.range' (spaces.largeSize + 1)
    (spaces.large.length - spaces.largeSize)).foldlM Sweep.keep checked
  some { kept with large := kept.large.take kept.used }

/-- What the sweep is for. -/
structure Swept [DecidableEq σ] (seen : σ → Bool) (spaces : LargeSpaces σ) (sweep : Sweep σ) : Prop where
  kept : sweep.large = (spaces.large.take spaces.largeSize).filter seen ++
    spaces.large.drop spaces.largeSize
  freed : sweep.freed = (spaces.large.take spaces.largeSize).filter fun s => !seen s
  registered : sweep.registered = spaces.registered.filter fun s => s ∉ sweep.freed

namespace Sweep

variable {seen : σ → Bool} {sweep swept : Sweep σ} {s : σ} {i index count : Nat}

theorem put_eq_some : sweep.put index s = some swept ↔
    index < sweep.large.length ∧ swept = { sweep with large := sweep.large.set index s } := by
  unfold put
  split_ifs with inside
  · simp [inside, eq_comm]
  · simp [inside]

theorem keep_eq_some : sweep.keep i = some swept ↔
    ∃ s, sweep.large[i - 1]? = some s ∧ sweep.used < sweep.large.length ∧
      swept = { sweep with used := sweep.used + 1, large := sweep.large.set sweep.used s } := by
  unfold keep
  rw [Option.bind_eq_bind, Option.bind_eq_some_iff]
  simp [put_eq_some]

/-- The second loop closes the gap behind the entries that are kept. -/
theorem keep_run (kept gap rest : List σ) (sweep : Sweep σ) (used : sweep.used = kept.length)
    (large : sweep.large = kept ++ gap ++ rest) :
    ∃ swept, (List.range' (kept.length + gap.length + 1) rest.length).foldlM keep sweep =
        some swept ∧ swept.large.take swept.used = kept ++ rest ∧ swept.freed = sweep.freed ∧
      swept.registered = sweep.registered := by
  induction rest generalizing kept gap sweep with
  | nil =>
    refine ⟨sweep, rfl, ?_, rfl, rfl⟩
    rw [large, used]
    simp
  | cons s rest ih =>
    obtain ⟨moved, same, filled⟩ : ∃ moved, moved.length = gap.length ∧
        (kept ++ gap ++ s :: rest).set kept.length s = kept ++ [s] ++ moved ++ rest := by
      cases gap with
      | nil => exact ⟨[], rfl, by simp⟩
      | cons first gap => exact ⟨gap ++ [s], by simp, by simp⟩
    let next : Sweep σ := { sweep with used := sweep.used + 1, large := sweep.large.set sweep.used s }
    have step : sweep.keep (kept.length + gap.length + 1) = some next := by
      apply keep_eq_some.mpr
      refine ⟨s, ?_, ?_, rfl⟩
      · rw [large, Nat.add_sub_cancel, ← List.length_append]
        simp
      · rw [large, used, List.length_append, List.length_append, List.length_cons]
        lia
    obtain ⟨swept, run, taken, freed, registered⟩ := ih (kept ++ [s]) moved next
      (by simp [next, used]) (by simp only [next, large, used, filled])
    refine ⟨swept, ?_, by simpa using taken, freed, registered⟩
    have onward : (kept ++ [s]).length + moved.length + 1 = kept.length + gap.length + 1 + 1 := by
      simp [same]
      lia
    rw [List.length_cons, List.range'_succ, List.foldlM_cons, step, ← onward]
    exact run

/-- Where there is no gap the second loop leaves the list as it is. -/
theorem keep_step_still (above : i = sweep.used + 1) (inside : sweep.used < sweep.large.length) :
    sweep.keep i = some { sweep with used := sweep.used + 1 } := by
  apply keep_eq_some.mpr
  refine ⟨sweep.large[sweep.used], ?_, inside, ?_⟩
  · rw [above, Nat.add_sub_cancel]
    exact List.getElem?_eq_getElem inside
  · rw [List.set_getElem_self]

theorem keep_run_still (inside : sweep.used + count ≤ sweep.large.length) :
    (List.range' (sweep.used + 1) count).foldlM keep sweep =
      some { sweep with used := sweep.used + count } := by
  induction count generalizing sweep with
  | zero => rfl
  | succ count ih =>
    rw [List.range'_succ, List.foldlM_cons, keep_step_still rfl (by lia)]
    have rest := @ih { sweep with used := sweep.used + 1 } (by simp only; lia)
    rw [show sweep.used + (count + 1) = sweep.used + 1 + count by lia]
    exact rest

/-- Once an entry was kept the first one of the list is never written again. -/
theorem keep_head (kept : sweep.keep i = some swept) (positive : 0 < sweep.used) :
    0 < swept.used ∧ swept.large[0]? = sweep.large[0]? := by
  obtain ⟨s, -, -, rfl⟩ := keep_eq_some.mp kept
  refine ⟨Nat.succ_pos _, ?_⟩
  exact List.getElem?_set_ne (by lia)

theorem keep_run_head {indices : List Nat} (kept : indices.foldlM keep sweep = some swept)
    (positive : 0 < sweep.used) : 0 < swept.used ∧ swept.large[0]? = sweep.large[0]? := by
  induction indices generalizing sweep with
  | nil =>
    cases kept
    exact ⟨positive, rfl⟩
  | cons i indices ih =>
    rw [List.foldlM_cons, Option.bind_eq_bind, Option.bind_eq_some_iff] at kept
    obtain ⟨next, step, run⟩ := kept
    obtain ⟨above, same⟩ := keep_head step positive
    obtain ⟨last, head⟩ := ih run above
    exact ⟨last, head.trans same⟩

section FirstLoop

variable [DecidableEq σ]

theorem check_eq_some : sweep.check seen i = some swept ↔
    ∃ s, sweep.large[i - 1]? = some s ∧
      (seen s = true ∧ sweep.used + 1 < sweep.large.length ∧
          swept = { sweep with used := sweep.used + 1,
                               large := sweep.large.set (sweep.used + 1) s } ∨
        seen s = false ∧
          swept = { sweep with freed := sweep.freed ++ [s],
                               registered := sweep.registered.filter (· ≠ s) }) := by
  unfold check
  rw [Option.bind_eq_bind, Option.bind_eq_some_iff]
  apply exists_congr
  intro s
  apply and_congr_right
  intro _
  cases marked : seen s with
  | true => simp [put_eq_some]
  | false => simp [eq_comm]

/-- Spaces that were not seen are freed, and the list is not written. -/
theorem check_run_unseen (checked before after : List σ) (sweep : Sweep σ)
    (large : sweep.large = checked ++ before ++ after) (unseen : ∀ s ∈ before, seen s = false) :
    (List.range' (checked.length + 1) before.length).foldlM (check seen) sweep =
      some { sweep with freed := sweep.freed ++ before,
                        registered := sweep.registered.filter fun s => s ∉ before } := by
  induction before generalizing checked sweep with
  | nil => simp
  | cons s before ih =>
    let next : Sweep σ := { sweep with freed := sweep.freed ++ [s],
                                       registered := sweep.registered.filter (· ≠ s) }
    have step : sweep.check seen (checked.length + 1) = some next := by
      apply check_eq_some.mpr
      refine ⟨s, ?_, Or.inr ⟨unseen s (by simp), rfl⟩⟩
      rw [large, Nat.add_sub_cancel]
      simp
    have run := ih (checked ++ [s]) next (by simp [next, large])
      fun other member => unseen other (by simp [member])
    rw [List.length_cons, List.range'_succ, List.foldlM_cons, step]
    rw [List.length_append, List.length_singleton] at run
    refine Eq.trans run ?_
    simp only [next, List.filter_filter, List.append_assoc, List.singleton_append]
    congr 3
    funext other
    by_cases same : other = s <;> simp [same]

theorem check_head (checked : sweep.check seen i = some swept) :
    sweep.used ≤ swept.used ∧ swept.large[0]? = sweep.large[0]? := by
  obtain ⟨s, -, ⟨-, -, rfl⟩ | ⟨-, rfl⟩⟩ := check_eq_some.mp checked
  · exact ⟨Nat.le_succ _, List.getElem?_set_ne (by lia)⟩
  · exact ⟨le_rfl, rfl⟩

theorem check_run_head {indices : List Nat} (checked : indices.foldlM (check seen) sweep = some swept) :
    sweep.used ≤ swept.used ∧ swept.large[0]? = sweep.large[0]? := by
  induction indices generalizing sweep with
  | nil =>
    cases checked
    exact ⟨le_rfl, rfl⟩
  | cons i indices ih =>
    rw [List.foldlM_cons, Option.bind_eq_bind, Option.bind_eq_some_iff] at checked
    obtain ⟨next, step, run⟩ := checked
    obtain ⟨above, same⟩ := check_head step
    obtain ⟨last, head⟩ := ih run
    exact ⟨Nat.le_trans above last, head.trans same⟩

theorem check_run_length {indices : List Nat}
    (checked : indices.foldlM (check seen) sweep = some swept) :
    swept.large.length = sweep.large.length := by
  induction indices generalizing sweep with
  | nil =>
    cases checked
    rfl
  | cons i indices ih =>
    rw [List.foldlM_cons, Option.bind_eq_bind, Option.bind_eq_some_iff] at checked
    obtain ⟨next, step, run⟩ := checked
    rw [ih run]
    obtain ⟨s, -, ⟨-, -, rfl⟩ | ⟨-, rfl⟩⟩ := check_eq_some.mp step
    · exact List.length_set
    · rfl

/-- The first `count + 1` entries are one space. -/
def Flooded (s : σ) (count : Nat) (sweep : Sweep σ) : Prop :=
  sweep.used = count ∧ ∀ j ≤ count, sweep.large[j]? = some s

/-- The entry written is the next one to be read. -/
theorem check_flooded (marked : seen s = true) (flooded : sweep.Flooded s count)
    (checked : sweep.check seen (count + 1) = some swept) : swept.Flooded s (count + 1) := by
  obtain ⟨used, entries⟩ := flooded
  obtain ⟨first, read, ⟨-, inside, rfl⟩ | ⟨unseen, rfl⟩⟩ := check_eq_some.mp checked
  · rw [Nat.add_sub_cancel, entries count le_rfl] at read
    cases read
    refine ⟨by simp [used], ?_⟩
    intro j bound
    by_cases last : j = count + 1
    · subst last
      rw [used] at inside ⊢
      exact List.getElem?_set_self inside
    · simp only [used]
      rw [List.getElem?_set_ne (by lia)]
      exact entries j (by lia)
  · rw [Nat.add_sub_cancel, entries count le_rfl] at read
    cases read
    rw [marked] at unseen
    cases unseen

theorem check_run_flooded (marked : seen s = true) (flooded : sweep.Flooded s i)
    (checked : (List.range' (i + 1) count).foldlM (check seen) sweep = some swept) :
    swept.Flooded s (i + count) := by
  induction count generalizing i sweep with
  | zero =>
    cases checked
    exact flooded
  | succ count ih =>
    rw [List.range'_succ, List.foldlM_cons, Option.bind_eq_bind, Option.bind_eq_some_iff] at checked
    obtain ⟨next, step, run⟩ := checked
    rw [show i + (count + 1) = i + 1 + count by lia]
    exact ih (check_flooded marked flooded step) run

end FirstLoop

end Sweep

section Exactness

variable {seen : σ → Bool} {spaces : LargeSpaces σ} {sweep : Sweep σ}

theorem LargeSpaces.length_take (spaces : LargeSpaces σ) :
    (spaces.large.take spaces.largeSize).length = spaces.largeSize := by
  rw [List.length_take]
  exact Nat.min_eq_left spaces.initial

variable [DecidableEq σ]

theorem sweep_unseen (unseen : ∀ s ∈ spaces.large.take spaces.largeSize, seen s = false) :
    ∃ sweep, sweepLargeSpaces seen spaces = some sweep ∧ Swept seen spaces sweep := by
  have whole := List.take_append_drop spaces.largeSize spaces.large
  have first := Sweep.check_run_unseen [] (spaces.large.take spaces.largeSize)
    (spaces.large.drop spaces.largeSize) ⟨0, spaces.large, spaces.registered, []⟩ whole.symm unseen
  obtain ⟨last, second, taken, freed, registered⟩ := Sweep.keep_run []
    (spaces.large.take spaces.largeSize) (spaces.large.drop spaces.largeSize)
    ⟨0, spaces.large, spaces.registered.filter fun s => s ∉ spaces.large.take spaces.largeSize,
      spaces.large.take spaces.largeSize⟩ rfl whole.symm
  rw [spaces.length_take] at first second
  rw [List.length_nil, Nat.zero_add] at first second
  rw [List.length_drop] at second
  refine ⟨{ last with large := last.large.take last.used }, ?_, ?_, ?_, ?_⟩
  · unfold sweepLargeSpaces
    rw [first]
    simp only [Option.bind_eq_bind, Option.bind_some, List.nil_append]
    rw [second]
    rfl
  · have none : (spaces.large.take spaces.largeSize).filter seen = [] := by
      apply List.filter_eq_nil_iff.mpr
      intro s member
      simp [unseen s member]
    rw [none, taken]
  · rw [freed]
    symm
    apply List.filter_eq_self.mpr
    intro s member
    simp [unseen s member]
  · rw [registered, freed]

theorem Swept.distinct (swept : Swept seen spaces sweep) : sweep.large.Nodup := by
  rw [swept.kept]
  refine List.Nodup.sublist ?_ spaces.distinct
  conv_rhs => rw [← List.take_append_drop spaces.largeSize spaces.large]
  exact List.filter_sublist.append_right _

/-- The loops of a sweep that ends. -/
theorem sweep_eq_some : sweepLargeSpaces seen spaces = some sweep ↔ ∃ checked kept,
    (List.range' 1 spaces.largeSize).foldlM (Sweep.check seen)
      ⟨0, spaces.large, spaces.registered, []⟩ = some checked ∧
    (List.range' (spaces.largeSize + 1) (spaces.large.length - spaces.largeSize)).foldlM
      Sweep.keep checked = some kept ∧
    sweep = { kept with large := kept.large.take kept.used } := by
  unfold sweepLargeSpaces
  simp only [Option.bind_eq_bind, Option.bind_eq_some_iff, Option.some.injEq]
  constructor
  · rintro ⟨checked, first, kept, second, same⟩
    exact ⟨checked, kept, first, second, same.symm⟩
  · rintro ⟨checked, kept, first, second, same⟩
    exact ⟨checked, first, kept, second, same.symm⟩

/-- A first space that was seen is there twice after the sweep. -/
theorem sweep_flooded {s : σ} (head : spaces.large[0]? = some s) (marked : seen s = true)
    (run : sweepLargeSpaces seen spaces = some sweep) :
    sweep.large[0]? = some s ∧ sweep.large[spaces.largeSize]? = some s := by
  obtain ⟨checked, kept, first, second, rfl⟩ := sweep_eq_some.mp run
  have start : Sweep.Flooded s 0 ⟨0, spaces.large, spaces.registered, []⟩ := by
    refine ⟨rfl, ?_⟩
    intro j zero
    rw [Nat.le_zero.mp zero]
    exact head
  obtain ⟨used, entries⟩ := Sweep.check_run_flooded marked start first
  rw [Nat.zero_add] at used entries
  have length : checked.large.length = spaces.large.length := Sweep.check_run_length first
  have inside : spaces.largeSize < checked.large.length := by
    have last := entries spaces.largeSize le_rfl
    exact (List.getElem?_eq_some_iff.mp last).1
  rw [← used] at second
  rw [Sweep.keep_run_still (by lia)] at second
  cases second
  have all : checked.large.take (checked.used + (spaces.large.length - checked.used)) =
      checked.large := List.take_of_length_le (by lia)
  simp only [all]
  exact ⟨entries 0 (Nat.zero_le _), entries spaces.largeSize le_rfl⟩

/-- A first space that was not seen stays in the list when another one was. -/
theorem sweep_stale {s : σ} {before after : List σ}
    (parts : spaces.large.take spaces.largeSize = before ++ s :: after)
    (unseen : ∀ other ∈ before, seen other = false) (marked : seen s = true)
    (run : sweepLargeSpaces seen spaces = some sweep) :
    sweep.large[0]? = spaces.large[0]? := by
  obtain ⟨checked, kept, first, second, rfl⟩ := sweep_eq_some.mp run
  have count : spaces.largeSize = before.length + (after.length + 1) := by
    rw [← spaces.length_take, parts, List.length_append, List.length_cons]
  have whole : spaces.large = [] ++ before ++ (s :: after ++ spaces.large.drop spaces.largeSize) := by
    rw [List.nil_append, ← List.append_assoc, ← parts, List.take_append_drop]
  have passed := Sweep.check_run_unseen [] before _ ⟨0, spaces.large, spaces.registered, []⟩ whole unseen
  rw [List.length_nil, Nat.zero_add] at passed
  rw [count, ← List.range'_append_1, List.foldlM_append, passed, List.range'_succ] at first
  simp only [List.foldlM_cons, Option.bind_eq_bind, Option.bind_some, Option.bind_eq_some_iff] at first
  obtain ⟨next, step, rest⟩ := first
  obtain ⟨grown, unwritten⟩ := Sweep.check_head step
  obtain ⟨other, read, ⟨-, -, written⟩ | ⟨missed, -⟩⟩ := Sweep.check_eq_some.mp step
  · obtain ⟨above, kept_head⟩ := Sweep.check_run_head rest
    have started : next.used = 1 := by rw [written]
    obtain ⟨positive, same⟩ := Sweep.keep_run_head second (by lia)
    rw [List.getElem?_take_of_lt positive, same, kept_head, unwritten]
  · have place : spaces.large[before.length]? = some s := by
      rw [whole]
      simp
    rw [Nat.add_sub_cancel_left, place] at read
    cases read
    rw [marked] at missed
    cases missed

/-- The sweep keeps exactly what it is for exactly when none of the spaces that there were before
the collection was seen. -/
theorem sweepLargeSpaces_iff (seen : σ → Bool) (spaces : LargeSpaces σ) :
    (∃ sweep, sweepLargeSpaces seen spaces = some sweep ∧ Swept seen spaces sweep) ↔
      ∀ s ∈ spaces.large.take spaces.largeSize, seen s = false := by
  constructor
  · rintro ⟨sweep, run, swept⟩
    suffices absent : (spaces.large.take spaces.largeSize).find? seen = none by
      simpa using List.find?_eq_none.mp absent
    cases found : (spaces.large.take spaces.largeSize).find? seen with
    | none => rfl
    | some s =>
      exfalso
      obtain ⟨marked, before, after, parts, missed⟩ := List.find?_eq_some_iff_append.mp found
      have unseen (other : σ) (member : other ∈ before) : seen other = false := by
        simpa using missed other member
      have whole : spaces.large = before ++ s :: after ++ spaces.large.drop spaces.largeSize := by
        rw [← parts, List.take_append_drop]
      cases before with
      | nil =>
        have positive : 0 < spaces.largeSize := by
          rw [← spaces.length_take, parts]
          exact Nat.succ_pos _
        have head : spaces.large[0]? = some s := by
          rw [whole]
          rfl
        obtain ⟨first, again⟩ := sweep_flooded head marked run
        obtain ⟨bound, here⟩ := List.getElem?_eq_some_iff.mp first
        obtain ⟨bound', there⟩ := List.getElem?_eq_some_iff.mp again
        have twice := (swept.distinct.getElem_inj_iff).mp (here.trans there.symm)
        lia
      | cons first before =>
        have stale := sweep_stale parts unseen marked run
        have gone : (first :: before).filter seen = [] := by
          apply List.filter_eq_nil_iff.mpr
          intro other member
          simp [unseen other member]
        have head : spaces.large[0]? = some first := by
          rw [whole]
          rfl
        rw [swept.kept, parts, head, List.filter_append, gone, List.nil_append,
          List.filter_cons_of_pos marked] at stale
        have same : s = first := Option.some.inj stale
        have both := unseen first List.mem_cons_self
        rw [← same, marked] at both
        cases both
  · intro unseen
    exact sweep_unseen unseen

/-- One space that was seen, and nothing behind it: the list is left. -/
example : sweepLargeSpaces (fun _ => true)
    (⟨[0], 1, [0], by decide, by decide⟩ : LargeSpaces Nat) = none := by
  decide

/-- A space that is dead is still in the list after the sweep, and the live one is not. -/
theorem sweep_keeps_the_dead :
    ∃ sweep, sweepLargeSpaces (fun s => s == 1)
        (⟨[0, 1, 2], 2, [0, 1, 2], by decide, by decide⟩ : LargeSpaces Nat) = some sweep ∧
      sweep.large = [0, 2] ∧
      ¬ Swept (fun s => s == 1) ⟨[0, 1, 2], 2, [0, 1, 2], by decide, by decide⟩ sweep := by
  refine ⟨⟨2, [0, 2], [1, 2], [0]⟩, by decide, rfl, ?_⟩
  intro swept
  exact absurd swept.kept (by decide)

end Exactness

end Egg.Collector
