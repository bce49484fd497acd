import Egg.Compiler.ScriptScope
import Egg.Data.BitFields

/-! Formats of methods and blocks, as the compiler packs them and as the runtime reads them. -/
namespace Egg.Compiler

open BitFields

/-- A method after its names are bound. -/
structure SMethodNode where
  scope : Scope
  children : List Script
  /-- What the compiler has counted, and whether it has noticed no send. -/
  blockCount : Nat
  leaf : Bool
  /-- The counter gives every compiled block an index of its own. -/
  distinct : ((closuresOf children).map Closure.index).Nodup

structure SCompiledMethod where
  literals : List BlockInfo
  format : BitVec 32

section Model

namespace SCompiledMethod

def getBits (shift : Nat) (mask : BitVec 32) (cm : SCompiledMethod) : BitVec 32 :=
  (cm.format >>> shift) &&& mask

def setBits (shift : Nat) (mask value : BitVec 32) (cm : SCompiledMethod) : SCompiledMethod :=
  { cm with format := (cm.format &&& ~~~(mask <<< shift)) ||| ((value &&& mask) <<< shift) }

def setFlag (flag : BitVec 32) (value : Bool) (cm : SCompiledMethod) : SCompiledMethod :=
  { cm with format := if value then cm.format ||| flag else cm.format &&& ~~~flag }

def setArgumentCount (count : Nat) : SCompiledMethod → SCompiledMethod :=
  setBits 0 0x3F (.ofNat 32 count)

def setBlockCount (count : Nat) : SCompiledMethod → SCompiledMethod :=
  setBits 6 0x7F (.ofNat 32 count)

def setTempCount (count : Nat) : SCompiledMethod → SCompiledMethod :=
  setBits 13 0xFF (.ofNat 32 count)

def setEnvironmentCount (count : Nat) : SCompiledMethod → SCompiledMethod :=
  setBits 25 0x3F (.ofNat 32 count)

def setCapturesSelf : (value : Bool) → SCompiledMethod → SCompiledMethod :=
  setFlag (1 <<< 21)

def setHasEnvironment : (value : Bool) → SCompiledMethod → SCompiledMethod :=
  setFlag (1 <<< 22)

def setHasFrame : (value : Bool) → SCompiledMethod → SCompiledMethod :=
  setFlag (1 <<< 23)

def blockCount (cm : SCompiledMethod) : Nat :=
  (cm.getBits 6 0x7F).toNat

end SCompiledMethod

/-- Literals of blocks are the same when their ids are. -/
def addUnique (lits : List BlockInfo) (lv : BlockInfo) : List BlockInfo :=
  if lits.any (·.id = lv.id) then lits else lits ++ [lv]

namespace SMethodNode

variable (method : SMethodNode)

def positionLocals : Sizes × List BlockInfo :=
  positionChildren method.children (method.scope.positionDefinedTemporariesIn ⟨0, 0⟩)

/-- The blocks among the literals. -/
def literals : List BlockInfo :=
  method.positionLocals.2.foldl addUnique []

def needsEnvironment : Bool :=
  0 < method.positionLocals.1.envSize || anyUsesHome method.children

def needsFrame : Bool :=
  0 < method.positionLocals.1.stackSize || 16 < method.scope.arguments.length || !method.leaf ||
    0 < method.blockCount

def buildMethod : SCompiledMethod :=
  SCompiledMethod.mk method.literals 0
    |>.setBlockCount method.blockCount
    |>.setTempCount method.positionLocals.1.stackSize
    |>.setArgumentCount method.scope.arguments.length
    |>.setEnvironmentCount method.positionLocals.1.envSize
    |>.setCapturesSelf method.scope.capturesSelf
    |>.setHasEnvironment method.needsEnvironment
    |>.setHasFrame method.needsFrame

end SMethodNode

/-- The format of a block in the image. -/
def transferBlock (info : BlockInfo) : BitVec 32 :=
  (.ofNat 32 info.argCount &&& 0x3F#32) ||| ((.ofNat 32 info.tempCount &&& 0xFF#32) <<< 6) |||
    ((.ofNat 32 info.id &&& 0xFF#32) <<< 14) |||
    (if info.capturesSelf then 0x400000#32 else 0#32) |||
    (if info.capturesHome then 0x800000#32 else 0#32) |||
    ((.ofNat 32 info.envCount &&& 0x7F#32) <<< 24)

/-- A format is kept as a SmallInteger. -/
def flags (format : BitVec 32) : BitVec 64 :=
  format.setWidth 64

def methodArgumentCount (flags : BitVec 64) : Nat :=
  (flags &&& 0x3F).toNat

def methodTempCount (flags : BitVec 64) : Nat :=
  ((flags &&& 0x1FE000) >>> 13).toNat

def methodEnvironmentSize (flags : BitVec 64) : Nat :=
  ((flags >>> 25) &&& 0x3F).toNat

def blockArgumentCount (flags : BitVec 64) : Nat :=
  (flags &&& 0x3F).toNat

def blockTempCount (flags : BitVec 64) : Nat :=
  ((flags &&& 0x3FC0) >>> 6).toNat

def blockEnvironmentCount (flags : BitVec 64) : Nat :=
  ((flags >>> 24) &&& 0x7F).toNat

end Model

section Conditions

/-- The format of the method gives back what was counted. -/
structure SMethodNode.Recorded (method : SMethodNode) : Prop where
  arguments : methodArgumentCount (flags method.buildMethod.format) = method.scope.arguments.length
  blocks : method.buildMethod.blockCount = method.blockCount
  temps : methodTempCount (flags method.buildMethod.format) = method.positionLocals.1.stackSize
  environment : methodEnvironmentSize (flags method.buildMethod.format) =
    method.positionLocals.1.envSize

structure BlockInfo.Recorded (info : BlockInfo) : Prop where
  arguments : blockArgumentCount (flags (transferBlock info)) = info.argCount
  temps : blockTempCount (flags (transferBlock info)) = info.tempCount
  environment : blockEnvironmentCount (flags (transferBlock info)) = info.envCount

/-- What the method has fits the fields of its format. -/
structure SMethodNode.Fits (method : SMethodNode) : Prop where
  arguments : method.scope.arguments.length < 64
  blocks : method.blockCount < 128
  temps : method.scope.temporaries.count .stack + inlinedLocals .stack method.children < 256
  environment : method.scope.temporaries.count .array + inlinedLocals .array method.children < 64

structure Closure.Fits (closure : Closure) : Prop where
  arguments : closure.scope.arguments.length < 64
  temps : closure.stackLocals < 256
  environment : closure.environmentLocals < 128

end Conditions

section Literals

theorem foldl_addUnique (infos lits : List BlockInfo)
    (distinct : ((lits ++ infos).map BlockInfo.id).Nodup) :
    infos.foldl addUnique lits = lits ++ infos := by
  induction infos generalizing lits with
  | nil => exact (List.append_nil lits).symm
  | cons info infos ih =>
    have fresh : ¬ lits.any (·.id = info.id) = true := by
      intro found
      obtain ⟨other, member, same⟩ := List.any_eq_true.mp found
      rw [List.map_append, List.nodup_append] at distinct
      exact distinct.2.2 _ (List.mem_map_of_mem member) _
        (List.mem_map_of_mem List.mem_cons_self) (of_decide_eq_true same)
    rw [List.foldl_cons, addUnique, if_neg fresh]
    rw [List.append_cons] at distinct
    exact (ih _ distinct).trans (List.append_cons lits info infos).symm

variable (method : SMethodNode)

theorem literals_eq : method.literals = (closuresOf method.children).map Closure.info := by
  rw [SMethodNode.literals, SMethodNode.positionLocals, positionChildren_eq]
  apply foldl_addUnique
  rw [List.nil_append, List.map_map]
  exact method.distinct

/-- The sizes of the method by its locals and by those of its inlined blocks. -/
theorem positionLocals_sizes : method.positionLocals.1 =
    ⟨method.scope.temporaries.count .stack + inlinedLocals .stack method.children,
      method.scope.temporaries.count .array + inlinedLocals .array method.children⟩ := by
  rw [SMethodNode.positionLocals, positionChildren_eq, Scope.positionDefinedTemporariesIn,
    position_foldl]
  simp only [Nat.zero_add]

end Literals

section Fields

variable {shift : Nat} {mask value : BitVec 32} {cm : SCompiledMethod}

theorem getBits_setBits (inside : Inside shift mask) :
    (cm.setBits shift mask value).getBits shift mask = value &&& mask :=
  read_put inside cm.format value

theorem getBits_setBits_of_apart {shift' : Nat} {mask' : BitVec 32}
    (inside' : Inside shift' mask') (apart : (mask <<< shift) &&& (mask' <<< shift') = 0) :
    (cm.setBits shift mask value).getBits shift' mask' = cm.getBits shift' mask' :=
  read_put_of_apart inside' apart cm.format value

theorem getBits_setFlag {flag : BitVec 32} (inside : Inside shift mask)
    (apart : flag &&& (mask <<< shift) = 0) (set : Bool) :
    (cm.setFlag flag set).getBits shift mask = cm.getBits shift mask := by
  cases set with
  | false => exact read_clear_of_apart inside apart cm.format
  | true => exact read_or_of_apart inside apart cm.format

/-- The flags of a method leave a field of counts alone. -/
theorem getBits_flags (inside : Inside shift mask)
    (apart : (0xE00000 : BitVec 32) &&& (mask <<< shift) = 0) (self environment frame : Bool) :
    (((cm.setCapturesSelf self).setHasEnvironment environment).setHasFrame frame).getBits shift
      mask = cm.getBits shift mask := by
  have bit (flag : BitVec 32) (part : flag &&& 0xE00000 = flag) : flag &&& (mask <<< shift) = 0 := by
    rw [← part, BitVec.and_assoc, apart]
    exact BitVec.and_zero
  rw [SCompiledMethod.setHasFrame, getBits_setFlag inside (bit _ (by decide)),
    SCompiledMethod.setHasEnvironment, getBits_setFlag inside (bit _ (by decide)),
    SCompiledMethod.setCapturesSelf, getBits_setFlag inside (bit _ (by decide))]

variable (method : SMethodNode)

theorem argumentCount_field :
    method.buildMethod.getBits 0 0x3F = .ofNat 32 method.scope.arguments.length &&& 0x3F := by
  rw [SMethodNode.buildMethod, getBits_flags (by decide) (by decide),
    SCompiledMethod.setEnvironmentCount, getBits_setBits_of_apart (by decide) (by decide),
    SCompiledMethod.setArgumentCount, getBits_setBits (by decide)]

theorem blockCount_field :
    method.buildMethod.getBits 6 0x7F = .ofNat 32 method.blockCount &&& 0x7F := by
  rw [SMethodNode.buildMethod, getBits_flags (by decide) (by decide),
    SCompiledMethod.setEnvironmentCount, getBits_setBits_of_apart (by decide) (by decide),
    SCompiledMethod.setArgumentCount, getBits_setBits_of_apart (by decide) (by decide),
    SCompiledMethod.setTempCount, getBits_setBits_of_apart (by decide) (by decide),
    SCompiledMethod.setBlockCount, getBits_setBits (by decide)]

theorem tempCount_field : method.buildMethod.getBits 13 0xFF =
    .ofNat 32 method.positionLocals.1.stackSize &&& 0xFF := by
  rw [SMethodNode.buildMethod, getBits_flags (by decide) (by decide),
    SCompiledMethod.setEnvironmentCount, getBits_setBits_of_apart (by decide) (by decide),
    SCompiledMethod.setArgumentCount, getBits_setBits_of_apart (by decide) (by decide),
    SCompiledMethod.setTempCount, getBits_setBits (by decide)]

theorem environmentCount_field : method.buildMethod.getBits 25 0x3F =
    .ofNat 32 method.positionLocals.1.envSize &&& 0x3F := by
  rw [SMethodNode.buildMethod, getBits_flags (by decide) (by decide),
    SCompiledMethod.setEnvironmentCount, getBits_setBits (by decide)]

end Fields

section Readings

variable (method : SMethodNode) (info : BlockInfo)

/-- The runtime reads a field from a wider word as the compiler does. -/
theorem flags_read (format : BitVec 32) (shift : Nat) (mask : BitVec 32) :
    ((flags format >>> shift) &&& mask.setWidth 64).toNat = ((format >>> shift) &&& mask).toNat :=
  toNat_setWidth_read (by decide) format shift mask

theorem methodArgumentCount_eq :
    methodArgumentCount (flags method.buildMethod.format) =
      method.scope.arguments.length % 64 := by
  have read := flags_read method.buildMethod.format 0 0x3F
  have field := congrArg BitVec.toNat (argumentCount_field method)
  exact read.trans (field.trans (toNat_ofNat_and (k := 6) (by decide) _))

theorem methodTempCount_eq : methodTempCount (flags method.buildMethod.format) =
    method.positionLocals.1.stackSize % 256 := by
  have read := flags_read method.buildMethod.format 13 0xFF
  have field := congrArg BitVec.toNat (tempCount_field method)
  have whole := congrArg BitVec.toNat (@read_eq 64 13 0xFF (by decide)
    (flags method.buildMethod.format))
  exact whole.symm.trans (read.trans (field.trans (toNat_ofNat_and (k := 8) (by decide) _)))

theorem methodEnvironmentSize_eq : methodEnvironmentSize (flags method.buildMethod.format) =
    method.positionLocals.1.envSize % 64 := by
  have read := flags_read method.buildMethod.format 25 0x3F
  have field := congrArg BitVec.toNat (environmentCount_field method)
  exact read.trans (field.trans (toNat_ofNat_and (k := 6) (by decide) _))

theorem blockCount_eq : method.buildMethod.blockCount = method.blockCount % 128 :=
  (congrArg BitVec.toNat (blockCount_field method)).trans (toNat_ofNat_and (k := 7) (by decide) _)

/-- A flag of a block is apart from the fields of counts. -/
theorem flag_apart {flag field : BitVec 32} (apart : flag &&& field = 0) (set : Bool) :
    (if set then flag else 0#32) &&& field = 0 := by
  cases set with
  | false => exact BitVec.zero_and
  | true => exact apart

theorem blockArgumentCount_eq :
    blockArgumentCount (flags (transferBlock info)) = info.argCount % 64 := by
  have field : (transferBlock info >>> 0) &&& 0x3F#32 =
      .ofNat 32 info.argCount &&& 0x3F#32 := by
    rw [transferBlock, read_or_of_apart (by decide) (masked_apart (by decide) _),
      read_or_of_apart (by decide) (flag_apart (by decide) _),
      read_or_of_apart (by decide) (flag_apart (by decide) _),
      read_or_of_apart (by decide) (masked_apart (by decide) _),
      read_or_of_apart (by decide) (masked_apart (by decide) _)]
    rw [BitVec.ushiftRight_zero, BitVec.and_assoc, BitVec.and_self]
  have read := flags_read (transferBlock info) 0 0x3F
  exact read.trans ((congrArg BitVec.toNat field).trans (toNat_ofNat_and (k := 6) (by decide) _))

theorem blockTempCount_eq :
    blockTempCount (flags (transferBlock info)) = info.tempCount % 256 := by
  have first : (BitVec.ofNat 32 info.argCount &&& 0x3F#32) &&& (0xFF#32 <<< 6) = 0 := by
    rw [BitVec.and_assoc, show 0x3F#32 &&& (0xFF#32 <<< 6) = 0#32 by decide]
    exact BitVec.and_zero
  have field : (transferBlock info >>> 6) &&& 0xFF#32 =
      .ofNat 32 info.tempCount &&& 0xFF#32 := by
    rw [transferBlock, read_or_of_apart (by decide) (masked_apart (by decide) _),
      read_or_of_apart (by decide) (flag_apart (by decide) _),
      read_or_of_apart (by decide) (flag_apart (by decide) _),
      read_or_of_apart (by decide) (masked_apart (by decide) _),
      BitVec.or_comm, read_or_of_apart (by decide) first]
    exact read_own (by decide) _
  have read := flags_read (transferBlock info) 6 0xFF
  have whole := congrArg BitVec.toNat (@read_eq 64 6 0xFF (by decide)
    (flags (transferBlock info)))
  exact whole.symm.trans (read.trans
    ((congrArg BitVec.toNat field).trans (toNat_ofNat_and (k := 8) (by decide) _)))

theorem blockEnvironmentCount_eq :
    blockEnvironmentCount (flags (transferBlock info)) = info.envCount % 128 := by
  have first : (BitVec.ofNat 32 info.argCount &&& 0x3F#32) &&& (0x7F#32 <<< 24) = 0 := by
    rw [BitVec.and_assoc, show 0x3F#32 &&& (0x7F#32 <<< 24) = 0#32 by decide]
    exact BitVec.and_zero
  have field : (transferBlock info >>> 24) &&& 0x7F#32 =
      .ofNat 32 info.envCount &&& 0x7F#32 := by
    rw [transferBlock, BitVec.or_comm, read_or_of_apart (by decide) ?_]
    · exact read_own (by decide) _
    · rw [BitVec.and_or_distrib_right, BitVec.and_or_distrib_right, BitVec.and_or_distrib_right,
        BitVec.and_or_distrib_right, first, flag_apart (by decide), flag_apart (by decide),
        masked_apart (by decide), masked_apart (by decide)]
      rfl
  have read := flags_read (transferBlock info) 24 0x7F
  exact read.trans ((congrArg BitVec.toNat field).trans (toNat_ofNat_and (k := 7) (by decide) _))

end Readings

section Exactness

variable (method : SMethodNode)

theorem mod_eq_iff {n m : Nat} (positive : 0 < m) : n % m = n ↔ n < m :=
  ⟨fun same => same ▸ Nat.mod_lt n positive, Nat.mod_eq_of_lt⟩

theorem recorded_iff : method.Recorded ↔ method.Fits := by
  have arguments := methodArgumentCount_eq method
  have blocks := blockCount_eq method
  have temps := methodTempCount_eq method
  have environment := methodEnvironmentSize_eq method
  have sizes := positionLocals_sizes method
  constructor
  · intro recorded
    refine ⟨?_, ?_, ?_, ?_⟩
    · exact (mod_eq_iff (by decide)).mp (arguments.symm.trans recorded.arguments)
    · exact (mod_eq_iff (by decide)).mp (blocks.symm.trans recorded.blocks)
    · have small := (mod_eq_iff (by decide)).mp (temps.symm.trans recorded.temps)
      rwa [sizes] at small
    · have small := (mod_eq_iff (by decide)).mp (environment.symm.trans recorded.environment)
      rwa [sizes] at small
  · intro fits
    refine ⟨?_, ?_, ?_, ?_⟩
    · exact arguments.trans (Nat.mod_eq_of_lt fits.arguments)
    · exact blocks.trans (Nat.mod_eq_of_lt fits.blocks)
    · rw [temps, sizes]
      exact Nat.mod_eq_of_lt fits.temps
    · rw [environment, sizes]
      exact Nat.mod_eq_of_lt fits.environment

theorem info_recorded_iff (closure : Closure) : closure.info.Recorded ↔ closure.Fits := by
  have arguments := blockArgumentCount_eq closure.info
  have temps := blockTempCount_eq closure.info
  have environment := blockEnvironmentCount_eq closure.info
  constructor
  · intro recorded
    refine ⟨?_, ?_, ?_⟩
    · exact (mod_eq_iff (by decide)).mp (arguments.symm.trans recorded.arguments)
    · exact (mod_eq_iff (by decide)).mp (temps.symm.trans recorded.temps)
    · exact (mod_eq_iff (by decide)).mp (environment.symm.trans recorded.environment)
  · intro fits
    refine ⟨?_, ?_, ?_⟩
    · exact arguments.trans (Nat.mod_eq_of_lt fits.arguments)
    · exact temps.trans (Nat.mod_eq_of_lt fits.temps)
    · exact environment.trans (Nat.mod_eq_of_lt fits.environment)

/-- The runtime reads the counts of a method and of its blocks from their formats if and only if
the locals of the method and of every compiled block fit; nothing is refused. -/
theorem formats_exact_iff (method : SMethodNode) :
    (method.Recorded ∧ ∀ info ∈ method.buildMethod.literals, info.Recorded) ↔
      method.Fits ∧ ∀ closure ∈ closuresOf method.children, closure.Fits := by
  have blocks : method.buildMethod.literals =
      (closuresOf method.children).map Closure.info := literals_eq method
  rw [recorded_iff, blocks, List.forall_mem_map]
  exact and_congr_right fun _ => forall₂_congr fun closure _ => info_recorded_iff closure

/-- A method with temporaries and nothing else. -/
def temporariesOnly (n : Nat) : SMethodNode :=
  ⟨⟨[], List.replicate n .stack, [], [], false⟩, [], 0, true, List.nodup_nil⟩

theorem temporariesOnly_stackSize (n : Nat) :
    (temporariesOnly n).positionLocals.1.stackSize = n := by
  have locals : (List.replicate n Environment.stack).count .stack = n := List.count_replicate_self
  rw [positionLocals_sizes]
  exact locals

/-- The frame is made for no temporary at all. -/
theorem temporaries_truncated : (temporariesOnly 256).positionLocals.1.stackSize = 256 ∧
    methodTempCount (flags (temporariesOnly 256).buildMethod.format) = 0 := by
  refine ⟨temporariesOnly_stackSize 256, ?_⟩
  rw [methodTempCount_eq, temporariesOnly_stackSize]

end Exactness

end Egg.Compiler
