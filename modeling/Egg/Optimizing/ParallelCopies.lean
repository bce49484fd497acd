import Egg.Optimizing.LivenessAnalysis
import Egg.Data.Fuel

/-! The copies, pushes and pops that carry the operands of phis into their registers. -/
namespace Egg.Optimizing

open Egg.Data

section Model

variable {Block Value Register Word : Type}

/-- The inserted instructions, with the registers that are assigned to them. -/
inductive Move (Register Word : Type)
  | copy (dest source : Register)
  | load (dest : Register) (constant : Word)
  | push (source : Register)
  | pop (dest : Register)
  deriving DecidableEq

/-- A phi and its operand for the predecessor at hand. -/
structure Incoming (Value : Type) where
  phi : Value
  operand : Value

/-- The registers of values, and the constants of those that load one. -/
structure BraunAssigner (Value Register Word : Type) where
  assignments : Value → Register
  constant : Value → Option Word

/-- The phis left, the instructions before the jump and whether a pass has inserted any. -/
structure Schedule (Value Register Word : Type) where
  phis : List (Incoming Value)
  code : List (Move Register Word)
  changed : Bool

namespace BraunAssigner

variable (assigner : BraunAssigner Value Register Word)

def source (incoming : Incoming Value) : Register := assigner.assignments incoming.operand

def dest (incoming : Incoming Value) : Register := assigner.assignments incoming.phi

/-- `newCopy` of a load is another load of its constant. -/
def insertCopy (incoming : Incoming Value) : Move Register Word :=
  match assigner.constant incoming.operand with
  | some constant => .load (assigner.dest incoming) constant
  | none => .copy (assigner.dest incoming) (assigner.source incoming)

variable [DecidableEq Register]

/-- A pass over the phis, from the last one to the first. -/
def pass : (i : Nat) → Schedule Value Register Word → Schedule Value Register Word
  | 0, schedule => schedule
  | i + 1, schedule =>
    match schedule.phis[i]? with
    | none => pass i schedule
    | some phi =>
      if assigner.dest phi ∈ schedule.phis.map assigner.source then pass i schedule
      else pass i
        { phis := schedule.phis.eraseIdx i
          code := schedule.code ++ [assigner.insertCopy phi]
          changed := true }

def scheduleCopyingOf (fuel : Nat) (phis : List (Incoming Value))
    (code : List (Move Register Word)) : Option (Schedule Value Register Word) :=
  loop (fun schedule => schedule.phis.isEmpty || !schedule.changed)
    (fun _ schedule => some
      (assigner.pass schedule.phis.length { schedule with changed := false })) fuel ⟨phis, code, true⟩

/-- Save the operand of a phi where no copy can be inserted, until no phi is left. -/
def copyOrSave : Nat → (phis saved : List (Incoming Value)) → List (Move Register Word) →
    Option (List (Incoming Value) × List (Move Register Word))
  | 0, _, _, _ => none
  | fuel + 1, phis, saved, code =>
    (assigner.scheduleCopyingOf fuel phis code).bind fun schedule =>
      match schedule.phis with
      | [] => some (saved, schedule.code)
      | free :: rest =>
        copyOrSave fuel rest (saved ++ [free]) (schedule.code ++ [.push (assigner.source free)])

/-- The instructions for these phis, the copies to the same register left out. -/
def parallelCopies (fuel : Nat) (incoming : List (Incoming Value)) :
    Option (List (Move Register Word)) :=
  (assigner.copyOrSave fuel
      (incoming.filter fun phi => assigner.source phi ≠ assigner.dest phi) [] []).map
    fun (saved, code) => code ++ saved.reverse.map fun var => .pop (assigner.dest var)

variable [DecidableEq Block]

def insertParallelCopies (fuel : Nat) (pred : Block) (phis : List (OPhi Block Value)) :
    Option (Except Failure (List (Move Register Word))) :=
  match phis.mapM fun phi => (phi.atOperand pred).map (Incoming.mk phi.value) with
  | .error failure => some (.error failure)
  | .ok incoming => (assigner.parallelCopies fuel incoming).map .ok

end BraunAssigner

end Model

section Machine

/-- The registers and the stack of a process. -/
structure StackMachine (Register Word : Type) where
  registers : Register → Word
  stack : List Word

variable {Register Word : Type} [DecidableEq Register]

/-- Nothing can be popped from an empty stack. -/
def StackMachine.step (machine : StackMachine Register Word) :
    Move Register Word → Option (StackMachine Register Word)
  | .copy dest source => some
    { machine with registers := Function.update machine.registers dest (machine.registers source) }
  | .load dest constant => some
    { machine with registers := Function.update machine.registers dest constant }
  | .push source => some { machine with stack := machine.registers source :: machine.stack }
  | .pop dest =>
    match machine.stack with
    | [] => none
    | top :: stack => some ⟨Function.update machine.registers dest top, stack⟩

def StackMachine.run (machine : StackMachine Register Word) (code : List (Move Register Word)) :
    Option (StackMachine Register Word) :=
  code.foldlM StackMachine.step machine

theorem StackMachine.run_append {start middle : StackMachine Register Word} {code rest}
    (ran : start.run code = some middle) : start.run (code ++ rest) = middle.run rest := by
  rw [run, List.foldlM_append, ← run, ran]
  rfl

theorem StackMachine.run_snoc {start middle last : StackMachine Register Word} {code} {move}
    (ran : start.run code = some middle) (moves : middle.step move = some last) :
    start.run (code ++ [move]) = some last := by
  rw [run_append ran, run, List.foldlM_cons, moves]
  rfl

end Machine

section Invariant

variable {Value Register Word : Type} [DecidableEq Register]
  (assigner : BraunAssigner Value Register Word)

namespace BraunAssigner

/-- The word that a phi takes from its operand. -/
def carried (start : StackMachine Register Word) (phi : Incoming Value) : Word :=
  start.registers (assigner.source phi)

/-- The loads among the operands have been done. -/
def Loaded (incoming : List (Incoming Value)) (start : StackMachine Register Word) : Prop :=
  ∀ phi ∈ incoming, ∀ constant, assigner.constant phi.operand = some constant →
    assigner.carried start phi = constant

/-- The code has finished some phis, saved others and left the sources of the rest alone. -/
structure Carries (incoming phis saved finished : List (Incoming Value))
    (code : List (Move Register Word)) (start machine : StackMachine Register Word) : Prop where
  parts : incoming.Perm (phis ++ saved ++ finished)
  ran : start.run code = some machine
  stacked : machine.stack = saved.reverse.map (assigner.carried start) ++ start.stack
  intact : ∀ phi ∈ phis, machine.registers (assigner.source phi) = assigner.carried start phi
  done : ∀ phi ∈ finished, machine.registers (assigner.dest phi) = assigner.carried start phi
  frame : ∀ register, register ∉ incoming.map assigner.dest →
    machine.registers register = start.registers register

/-- The code does its work from any state. -/
def Sound (incoming phis saved : List (Incoming Value)) (code : List (Move Register Word)) : Prop :=
  ∀ start, assigner.Loaded incoming start →
    ∃ finished machine, assigner.Carries incoming phis saved finished code start machine

variable {assigner} {incoming phis saved : List (Incoming Value)} {code : List (Move Register Word)}

theorem step_insertCopy {start machine : StackMachine Register Word} {phi : Incoming Value}
    (intact : machine.registers (assigner.source phi) = assigner.carried start phi)
    (loaded : ∀ constant, assigner.constant phi.operand = some constant →
      assigner.carried start phi = constant) :
    machine.step (assigner.insertCopy phi) = some { machine with
      registers := Function.update machine.registers (assigner.dest phi)
        (assigner.carried start phi) } := by
  rw [insertCopy]
  cases constant : assigner.constant phi.operand with
  | none => simp only [StackMachine.step, intact]
  | some word => simp only [StackMachine.step, loaded word constant]

/-- A copy is sound where its register is no source of the phis that are left. -/
theorem Sound.copy (sound : assigner.Sound incoming phis saved code)
    (distinct : (incoming.map assigner.dest).Nodup) {i : Nat} {phi : Incoming Value}
    (place : phis[i]? = some phi) (free : assigner.dest phi ∉ phis.map assigner.source) :
    assigner.Sound incoming (phis.eraseIdx i) saved (code ++ [assigner.insertCopy phi]) := by
  intro start loaded
  obtain ⟨finished, machine, carries⟩ := sound start loaded
  have among : phi ∈ phis := List.mem_of_getElem? place
  have split : phis.Perm (phi :: phis.eraseIdx i) := by
    obtain ⟨inside, rfl⟩ := List.getElem?_eq_some_iff.mp place
    exact (List.getElem_cons_eraseIdx_perm inside).symm
  have parts : incoming.Perm (phis.eraseIdx i ++ saved ++ phi :: finished) := by
    refine carries.parts.trans ?_
    refine ((split.append_right saved).append_right finished).trans ?_
    exact List.perm_middle.symm
  have others : assigner.dest phi ∉ finished.map assigner.dest := by
    have nodup := ((parts.trans List.perm_append_comm).map assigner.dest).nodup distinct
    rw [List.cons_append, List.map_cons, List.nodup_cons, List.map_append] at nodup
    exact fun member => nodup.1 (List.mem_append_left _ member)
  have member : phi ∈ incoming := carries.parts.mem_iff.mpr (by simp [among])
  refine ⟨phi :: finished, _, parts,
    StackMachine.run_snoc carries.ran (step_insertCopy (carries.intact phi among) (loaded phi member)),
    carries.stacked, fun left within => ?_, fun earlier within => ?_, fun register outside => ?_⟩
  · have still : left ∈ phis := List.mem_of_mem_eraseIdx within
    have apart : assigner.source left ≠ assigner.dest phi :=
      fun same => free (same ▸ List.mem_map_of_mem still)
    exact (Function.update_of_ne apart ..).trans (carries.intact left still)
  · obtain rfl | within := List.mem_cons.mp within
    · exact Function.update_self ..
    · have apart : assigner.dest earlier ≠ assigner.dest phi :=
        fun same => others (same ▸ List.mem_map_of_mem within)
      exact (Function.update_of_ne apart ..).trans (carries.done earlier within)
  · have apart : register ≠ assigner.dest phi :=
      fun same => outside (same ▸ List.mem_map_of_mem member)
    exact (Function.update_of_ne apart ..).trans (carries.frame register outside)

/-- Saving an operand takes its phi from those that are left. -/
theorem Sound.push {free : Incoming Value} {rest : List (Incoming Value)}
    (sound : assigner.Sound incoming (free :: rest) saved code) :
    assigner.Sound incoming rest (saved ++ [free]) (code ++ [.push (assigner.source free)]) := by
  intro start loaded
  obtain ⟨finished, machine, carries⟩ := sound start loaded
  refine ⟨finished, _, carries.parts.trans ?_, StackMachine.run_snoc carries.ran rfl, ?_, ?_,
    carries.done, carries.frame⟩
  · rw [← List.append_assoc rest]
    refine List.Perm.append_right finished ?_
    rw [List.cons_append]
    exact (List.perm_append_singleton free (rest ++ saved)).symm
  · simp only [List.reverse_append, List.reverse_singleton, List.nil_append,
      List.map_cons, List.cons_append]
    rw [carries.stacked, carries.intact free List.mem_cons_self]
  · exact fun phi within => carries.intact phi (List.mem_cons_of_mem _ within)

theorem Sound.pass (i : Nat) : ∀ {schedule : Schedule Value Register Word},
    assigner.Sound incoming schedule.phis saved schedule.code →
    (incoming.map assigner.dest).Nodup →
    assigner.Sound incoming (assigner.pass i schedule).phis saved (assigner.pass i schedule).code := by
  induction i with
  | zero => exact fun sound _ => sound
  | succ i ih =>
    intro schedule sound distinct
    rw [BraunAssigner.pass]
    cases place : schedule.phis[i]? with
    | none => exact ih sound distinct
    | some phi =>
      dsimp only
      split_ifs with taken
      · exact ih sound distinct
      · apply ih _ distinct
        exact sound.copy distinct place taken

/-- A pass that changes something leaves fewer phis. -/
theorem pass_phis (i : Nat) : ∀ schedule : Schedule Value Register Word,
    (assigner.pass i schedule).phis.length < schedule.phis.length ∨
      (assigner.pass i schedule).phis.length = schedule.phis.length ∧
        (assigner.pass i schedule).changed = schedule.changed := by
  induction i with
  | zero => exact fun schedule => .inr ⟨rfl, rfl⟩
  | succ i ih =>
    intro schedule
    rw [BraunAssigner.pass]
    cases place : schedule.phis[i]? with
    | none => exact ih schedule
    | some phi =>
      obtain ⟨inside, -⟩ := List.getElem?_eq_some_iff.mp place
      dsimp only
      split_ifs with taken
      · exact ih schedule
      · left
        have fewer := ih { phis := schedule.phis.eraseIdx i
                           code := schedule.code ++ [assigner.insertCopy phi], changed := true }
        simp only [List.length_eraseIdx_of_lt inside] at fewer
        lia

theorem scheduleCopyingOf_ends (distinct : (incoming.map assigner.dest).Nodup)
    (sound : assigner.Sound incoming phis saved code) :
    ∃ schedule, Converges (fun fuel => assigner.scheduleCopyingOf fuel phis code) schedule ∧
      assigner.Sound incoming schedule.phis saved schedule.code ∧
      schedule.phis.length ≤ phis.length := by
  have step : ∀ schedule : Schedule Value Register Word,
      (assigner.Sound incoming schedule.phis saved schedule.code ∧
        schedule.phis.length ≤ phis.length) →
      (schedule.phis.isEmpty || !schedule.changed) = false → ∃ next, Converges (fun _ => some
        (assigner.pass schedule.phis.length { schedule with changed := false })) next ∧
        (assigner.Sound incoming next.phis saved next.code ∧ next.phis.length ≤ phis.length) ∧
        2 * next.phis.length + next.changed.toNat <
          2 * schedule.phis.length + schedule.changed.toNat := by
    rintro schedule ⟨holds, fewer⟩ going
    have passed := assigner.pass_phis schedule.phis.length { schedule with changed := false }
    have changed : schedule.changed = true := by
      simp only [Bool.or_eq_false_iff, Bool.not_eq_false'] at going
      exact going.2
    refine ⟨_, .pure _, ⟨Sound.pass _ holds distinct, ?_⟩, ?_⟩
    · obtain less | ⟨same, -⟩ := passed
      · exact less.le.trans fewer
      · exact same.le.trans fewer
    · obtain less | ⟨same, unchanged⟩ := passed
      · have bit := Bool.toNat_le
          (assigner.pass schedule.phis.length { schedule with changed := false }).changed
        simp only [changed, Bool.toNat_true] at *
        lia
      · simp only [same, unchanged, changed, Bool.toNat_false, Bool.toNat_true]
        lia
  obtain ⟨schedule, runs, holds, -⟩ := @Converges.loop_of_measure _ _ _ _ _ _
    (fun schedule : Schedule Value Register Word =>
      2 * schedule.phis.length + schedule.changed.toNat) _ step ⟨phis, code, true⟩ ⟨sound, le_rfl⟩
  exact ⟨schedule, runs, holds⟩

theorem copyOrSave_ends (distinct : (incoming.map assigner.dest).Nodup)
    (sound : assigner.Sound incoming phis saved code) :
    ∃ saved' code', Converges (fun fuel => assigner.copyOrSave fuel phis saved code)
      (saved', code') ∧ assigner.Sound incoming [] saved' code' := by
  induction size : phis.length using Nat.strong_induction_on generalizing phis saved code with
  | _ size ih =>
    subst size
    obtain ⟨schedule, runs, holds, fewer⟩ := scheduleCopyingOf_ends distinct sound
    cases left : schedule.phis with
    | nil =>
      refine ⟨saved, schedule.code, Converges.succ_iff.mp (runs.bind ?_), left ▸ holds⟩
      simp only [left]
      exact .pure _
    | cons free rest =>
      rw [left] at holds fewer
      obtain ⟨saved', code', goes, ends⟩ := ih rest.length fewer holds.push rfl
      refine ⟨saved', code', Converges.succ_iff.mp (runs.bind ?_), ends⟩
      simp only [left]
      exact goes

/-- Pops in the order of the stack give each register its word. -/
theorem run_pops (words : Incoming Value → Word) : ∀ (pending : List (Incoming Value))
    (machine : StackMachine Register Word) {stack : List Word},
    machine.stack = pending.map words ++ stack → (pending.map assigner.dest).Nodup →
    ∃ last, machine.run (pending.map fun var => .pop (assigner.dest var)) = some last ∧
      last.stack = stack ∧
      (∀ phi ∈ pending, last.registers (assigner.dest phi) = words phi) ∧
      ∀ register, register ∉ pending.map assigner.dest →
        last.registers register = machine.registers register := by
  intro pending
  induction pending with
  | nil => exact fun machine _ stacked _ => ⟨machine, rfl, stacked, nofun, fun _ _ => rfl⟩
  | cons var pending ih =>
    intro machine stack stacked distinct
    rw [List.map_cons, List.nodup_cons] at distinct
    obtain ⟨last, ran, emptied, holds, kept⟩ := ih
      ⟨Function.update machine.registers (assigner.dest var) (words var),
        pending.map words ++ stack⟩ rfl distinct.2
    refine ⟨last, ?_, emptied, fun phi member => ?_, fun register outside => ?_⟩
    · rw [List.map_cons, StackMachine.run, List.foldlM_cons, StackMachine.step, stacked]
      exact ran
    · obtain rfl | member := List.mem_cons.mp member
      · exact (kept _ distinct.1).trans (Function.update_self ..)
      · exact holds phi member
    · rw [List.map_cons, List.mem_cons, not_or] at outside
      exact (kept register outside.2).trans (Function.update_of_ne outside.1 ..)

theorem parallelCopies_ends (distinct : (incoming.map assigner.dest).Nodup) :
    ∃ code, Converges (fun fuel => assigner.parallelCopies fuel incoming) code ∧
      ∀ start, assigner.Loaded incoming start → ∃ last, StackMachine.run start code = some last ∧
        last.stack = start.stack ∧
        ∀ phi ∈ incoming, last.registers (assigner.dest phi) = assigner.carried start phi := by
  let moved := incoming.filter fun phi => assigner.source phi ≠ assigner.dest phi
  have sub : moved.Sublist incoming := List.filter_sublist
  have distinct' : (moved.map assigner.dest).Nodup := distinct.sublist (sub.map _)
  have starts : assigner.Sound moved moved [] [] := fun start _ =>
    ⟨[], start, by simp, rfl, rfl, fun _ _ => rfl, nofun, fun _ _ => rfl⟩
  obtain ⟨saved, code, runs, sound⟩ := copyOrSave_ends distinct' starts
  refine ⟨_, runs.map _, fun start loaded => ?_⟩
  obtain ⟨finished, machine, carries⟩ := sound start
    fun phi member => loaded phi (sub.mem member)
  have parts : moved.Perm (saved ++ finished) := carries.parts
  have pending : (saved.reverse.map assigner.dest).Nodup := by
    have nodup := (parts.map assigner.dest).nodup distinct'
    rw [List.map_append] at nodup
    rw [List.map_reverse, List.nodup_reverse]
    exact nodup.of_append_left
  obtain ⟨last, ran, emptied, holds, kept⟩ := run_pops (assigner.carried start) saved.reverse
    machine carries.stacked pending
  refine ⟨last, (StackMachine.run_append carries.ran).trans ran, emptied, fun phi member => ?_⟩
  have saved_dest : ∀ register, register ∈ saved.reverse.map assigner.dest →
      register ∈ saved.map assigner.dest := by
    intro register within
    rwa [List.map_reverse, List.mem_reverse] at within
  by_cases moves : phi ∈ moved
  · obtain within | within := List.mem_append.mp (parts.mem_iff.mp moves)
    · exact holds phi (List.mem_reverse.mpr within)
    · have nodup := (parts.map assigner.dest).nodup distinct'
      rw [List.map_append] at nodup
      have outside : assigner.dest phi ∉ saved.reverse.map assigner.dest := fun inside =>
        List.disjoint_of_nodup_append nodup (saved_dest _ inside) (List.mem_map_of_mem within)
      exact (kept _ outside).trans (carries.done phi within)
  · -- A copy to the same register was left out; no other phi has it.
    have same : assigner.source phi = assigner.dest phi := by
      by_contra other
      exact moves (List.mem_filter.mpr ⟨member, by simpa using other⟩)
    have outside : assigner.dest phi ∉ moved.map assigner.dest := by
      intro inside
      obtain ⟨other, within, shared⟩ := List.mem_map.mp inside
      have equal := List.inj_on_of_nodup_map distinct (sub.mem within) member shared
      exact moves (equal ▸ within)
    have unsaved : assigner.dest phi ∉ saved.reverse.map assigner.dest := by
      intro inside
      obtain ⟨other, within, shared⟩ := List.mem_map.mp (saved_dest _ inside)
      exact outside (shared ▸ List.mem_map_of_mem
        (parts.mem_iff.mpr (List.mem_append_left _ within)))
    rw [kept _ unsaved, carries.frame _ outside, carried, same]

end BraunAssigner

end Invariant

section Blocks

variable {Block Value Register Word : Type} [DecidableEq Block] [DecidableEq Register]
  (assigner : BraunAssigner Value Register Word)

omit [DecidableEq Register] in
/-- The phis with their operands, once none of these is missing. -/
theorem mapM_incoming (pred : Block) : ∀ phis : List (OPhi Block Value),
    (∀ phi ∈ phis, ∃ value, phi.atOperand pred = .ok value) → ∃ incoming,
      (phis.mapM fun phi => (phi.atOperand pred).map (Incoming.mk phi.value)) = .ok incoming ∧
      incoming.map Incoming.phi = phis.map OPhi.value ∧
      (∀ phi ∈ phis, ∀ value, phi.atOperand pred = .ok value → ⟨phi.value, value⟩ ∈ incoming) ∧
      ∀ entry ∈ incoming, ∃ phi ∈ phis, phi.atOperand pred = .ok entry.operand := by
  intro phis
  induction phis with
  | nil => exact fun _ => ⟨[], rfl, rfl, nofun, nofun⟩
  | cons phi phis ih =>
    intro operands
    obtain ⟨value, found⟩ := operands phi List.mem_cons_self
    obtain ⟨incoming, mapped, values, present, among⟩ :=
      ih fun other member => operands other (List.mem_cons_of_mem _ member)
    refine ⟨⟨phi.value, value⟩ :: incoming, ?_, ?_, ?_, ?_⟩
    · rw [List.mapM_cons, found, mapped]
      rfl
    · simp only [List.map_cons, values]
    · intro other member value' found'
      obtain rfl | member := List.mem_cons.mp member
      · rw [found, Except.ok.injEq] at found'
        rw [found']
        exact List.mem_cons_self
      · exact List.mem_cons_of_mem _ (present other member value' found')
    · intro entry member
      obtain rfl | member := List.mem_cons.mp member
      · exact ⟨phi, List.mem_cons_self, found⟩
      · obtain ⟨other, within, found'⟩ := among entry member
        exact ⟨other, List.mem_cons_of_mem _ within, found'⟩

/-- The sequence for a block ends, leaves each phi with the word of its operand and gives back all
that it pushes. -/
theorem BraunAssigner.insertParallelCopies_carries (pred : Block) (phis : List (OPhi Block Value))
    (operands : ∀ phi ∈ phis, ∃ value, phi.atOperand pred = .ok value)
    (distinct : (phis.map fun phi => assigner.assignments phi.value).Nodup) :
    ∃ code, Converges (fun fuel => assigner.insertParallelCopies fuel pred phis) (.ok code) ∧
      ∀ start : StackMachine Register Word,
        (∀ phi ∈ phis, ∀ value constant, phi.atOperand pred = .ok value →
          assigner.constant value = some constant →
          start.registers (assigner.assignments value) = constant) →
        ∃ last, start.run code = some last ∧ last.stack = start.stack ∧
          ∀ phi ∈ phis, ∀ value, phi.atOperand pred = .ok value →
            last.registers (assigner.assignments phi.value) =
              start.registers (assigner.assignments value) := by
  obtain ⟨incoming, mapped, values, present, among⟩ := mapM_incoming pred phis operands
  have distinct' : (incoming.map assigner.dest).Nodup := by
    have same : incoming.map assigner.dest = phis.map fun phi => assigner.assignments phi.value := by
      have registers := congrArg (List.map assigner.assignments) values
      rwa [List.map_map, List.map_map] at registers
    rwa [same]
  obtain ⟨code, runs, carries⟩ := parallelCopies_ends distinct'
  refine ⟨code, ?_, fun start loaded => ?_⟩
  · simp only [insertParallelCopies, mapped]
    exact runs.map _
  · have loads : assigner.Loaded incoming start := by
      intro entry member constant loads
      obtain ⟨phi, within, found⟩ := among entry member
      exact loaded phi within _ constant found loads
    obtain ⟨last, ran, balanced, holds⟩ := carries start loads
    exact ⟨last, ran, balanced, fun phi member value found =>
      holds ⟨phi.value, value⟩ (present phi member value found)⟩

/-- Two phis that swap their registers, and one that takes a constant. -/
def swapping : List (OPhi Unit Nat) :=
  [⟨0, [1], [()]⟩, ⟨1, [0], [()]⟩, ⟨2, [3], [()]⟩]

/-- Each value has a register of its own; the last one loads a constant. -/
def swappingAssigner : BraunAssigner Nat Nat Nat :=
  ⟨id, fun value => if value = 3 then some 13 else none⟩

theorem swapping_carries : ∃ code, Converges
      (fun fuel => swappingAssigner.insertParallelCopies fuel () swapping) (.ok code) ∧
    ∃ last, StackMachine.run ⟨fun register => register + 10, [7]⟩ code = some last ∧
      last.stack = [7] ∧ last.registers 0 = 11 ∧ last.registers 1 = 10 ∧
      last.registers 2 = 13 := by
  have operands : ∀ phi ∈ swapping, ∃ value, phi.atOperand () = .ok value := by
    simp [swapping, OPhi.atOperand]
  obtain ⟨code, runs, carries⟩ :=
    swappingAssigner.insertParallelCopies_carries () swapping operands (by decide)
  obtain ⟨last, ran, balanced, holds⟩ := carries ⟨fun register => register + 10, [7]⟩
    (by simp [swapping, swappingAssigner, OPhi.atOperand])
  refine ⟨code, runs, last, ran, balanced, ?_, ?_, ?_⟩
  · exact holds ⟨0, [1], [()]⟩ (by simp [swapping]) 1 rfl
  · exact holds ⟨1, [0], [()]⟩ (by simp [swapping]) 0 rfl
  · exact holds ⟨2, [3], [()]⟩ (by simp [swapping]) 3 rfl

end Blocks

end Egg.Optimizing
