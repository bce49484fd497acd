import Egg.Treecode.Decoder

/-! Which trees the treecodes carry, and that decoding reads those back. -/
namespace Egg.Treecode

open Egg.Data Egg.Data.Reader

/-- A 64-bit signed integer. -/
def InWord (value : Int) : Prop :=
  -2 ^ 63 ≤ value ∧ value < 2 ^ 63

/-- An integer that takes one byte. -/
def IsShort (value : Int) : Prop :=
  -127 ≤ value ∧ value ≤ 127

theorem IsShort.inWord {value : Int} (short : IsShort value) : InWord value := by
  obtain ⟨lower, upper⟩ := short
  exact ⟨by lia, by lia⟩

/-- A list whose elements are bytes. -/
def AreBytes (values : List Int) : Prop :=
  InWord values.length ∧ ∀ value ∈ values, 0 ≤ value ∧ value < 256

def SBinding.Fits (literals : Literals) : SBinding → Prop
  | .argument index environment => InWord index ∧ InWord environment
  | .temporary index environment => InWord index ∧ InWord environment
  | .dynamic symbol => InWord (literals.indexOf symbol)
  | .nestedDynamic symbol => InWord (literals.indexOf symbol)
  | _ => True

namespace SExpression

variable (literals : Literals) (holds : Int → Prop)

mutual

/-- Every field of a tree fits what is written of it; block indices satisfy a condition. -/
def Fits : SExpression → Prop
  | .literal index value => InWord index ∧ (index = 0 → InWord value.intVal)
  | .identifier binding => binding.Fits literals
  | .message receiver selector arguments _ =>
    InWord (literals.indexOf selector) ∧ Fits receiver ∧ InWord arguments.length ∧
      AllFit arguments
  | .cascade receiver messages => Fits receiver ∧ InWord messages.length ∧ MessagesFit messages
  | .assignment assignees expression =>
    InWord assignees.length ∧
      (∀ assignee ∈ assignees, ∀ binding, assignee = some binding → binding.Fits literals) ∧
      Fits expression
  | .return _ expression => Fits expression
  | .inlinedBlock inlinedArgs statements =>
    AreBytes inlinedArgs ∧ InWord statements.length ∧ AllFit statements
  | .block index _ capturedVariables statements =>
    holds index ∧ AreBytes capturedVariables ∧ InWord statements.length ∧ AllFit statements

def AllFit : List SExpression → Prop
  | [] => True
  | expression :: expressions => Fits expression ∧ AllFit expressions

def MessagesFit : List SCascadeMessage → Prop
  | [] => True
  | .mk selector arguments :: messages =>
    InWord (literals.indexOf selector) ∧ InWord arguments.length ∧ AllFit arguments ∧
      MessagesFit messages

end

end SExpression

def SMethod.Fits (literals : Literals) (holds : Int → Prop) (method : SMethod) : Prop :=
  (∀ symbol, method.pragma = some (some symbol) → InWord (literals.indexOf symbol)) ∧
    InWord method.statements.length ∧ SExpression.AllFit literals holds method.statements

section Integers

theorem toNat_ofInt (value : Int) : ((UInt8.ofInt value).toNat : Int) = value % 256 := by
  simp only [UInt8.ofInt, UInt8.toNat_ofNat']
  lia

/-- The bytes from the highest one are read back as the digits of a number. -/
theorem foldl_digits (value : Int) (n a : Nat) :
    ((((List.range n).reverse.map fun place : Nat => UInt8.ofInt (value / 256 ^ place)).foldl
      (fun (value : Nat) byte => value * 256 + byte.toNat) a : Nat) : Int) =
        a * 256 ^ n + value % 256 ^ n := by
  induction n generalizing a with
  | zero => simp
  | succ n ih =>
    have digit : ((UInt8.ofInt (value / 256 ^ n)).toNat : Int) = value / 256 ^ n % 256 :=
      toNat_ofInt _
    have split : value % (256 ^ n * 256) =
        value % 256 ^ n + 256 ^ n * (value / 256 ^ n % 256) := by
      have inner : value / 256 ^ n / 256 = value / (256 ^ n * 256) :=
        Int.ediv_ediv_of_nonneg (Int.le_of_lt (Int.pow_pos (by decide)))
      rw [Int.emod_def, Int.emod_def value (256 ^ n), Int.emod_def (value / 256 ^ n), inner,
        Int.mul_sub, Int.mul_assoc]
      lia
    rw [List.range_succ, List.reverse_append, List.reverse_singleton, List.singleton_append,
      List.map_cons, List.foldl_cons, ih, Int.natCast_add, Int.natCast_mul, digit, Int.pow_succ,
      split]
    rw [Int.add_mul, Int.mul_assoc, Int.mul_comm (256 : Nat), Int.mul_comm (value / 256 ^ n % 256),
      Int.add_assoc]
    exact congrArg _ (Int.add_comm ..)

theorem bigInteger_spec {value : Int} (inWord : InWord value) :
    bigInteger ([7, 6, 5, 4, 3, 2, 1, 0].map fun (place : Nat) =>
      UInt8.ofInt (value / 256 ^ place)) = value := by
  obtain ⟨lower, upper⟩ := inWord
  have digits := foldl_digits value 8 0
  rw [show (List.range 8).reverse = [7, 6, 5, 4, 3, 2, 1, 0] from rfl, Int.natCast_zero,
    Int.zero_mul, Int.zero_add] at digits
  simp only [bigInteger]
  split
  · lia
  · lia

theorem reads_nextInteger {value : Int} (inWord : InWord value) :
    Reads nextInteger (nextIntegerPut value) value := by
  unfold nextIntegerPut
  split
  · have digits := (reads_bytes ([7, 6, 5, 4, 3, 2, 1, 0].map fun (place : Nat) =>
      UInt8.ofInt (value / 256 ^ place))).map bigInteger
    rw [bigInteger_spec inWord] at digits
    exact (reads_byte 0x80).bind digits
  · next small =>
    have byte := toNat_ofInt (if 0 ≤ value then value else value + 0x100)
    generalize UInt8.ofInt (if 0 ≤ value then value else value + 0x100) = first at byte
    have other : first ≠ 128 := by
      rintro rfl
      simp only [UInt8.reduceToNat] at byte
      split at byte <;> lia
    have back : (if first ≤ 127 then (first.toNat : Int) else first.toNat - 256) = value := by
      simp only [UInt8.le_iff_toNat_le, UInt8.reduceToNat]
      split at byte <;> split <;> lia
    refine (reads_byte first).bind ?_
    rw [if_neg other, back]
    exact reads_pure value

end Integers

section Fields

variable {literals : Literals}

/-- The index of a literal in the frame is where the literal is. -/
theorem literalAt_of_indexOf {literal : LiteralValue} (kept : literals.indexOf literal ≠ 0) :
    literals.literalAt (literals.indexOf literal) = some literal := by
  unfold Literals.indexOf at kept ⊢
  cases found : literals.findIdx? (· == literal) with
  | none =>
    rw [found] at kept
    exact absurd rfl kept
  | some index =>
    obtain ⟨inside, same, _⟩ := List.findIdx?_eq_some_iff_getElem.mp found
    have position : ((index + 1 : Nat) : Int) - 1 = index := by lia
    simp only [Literals.literalAt, position, Int.toNat_natCast, List.getElem?_eq_getElem inside,
      beq_iff_eq.mp same]
    rw [if_pos (by lia)]

theorem indexOf_of_mem {literal : LiteralValue} (member : literal ∈ literals) :
    literals.indexOf literal ≠ 0 := by
  unfold Literals.indexOf
  cases found : literals.findIdx? (· == literal) with
  | none =>
    have absent := List.findIdx?_eq_none_iff.mp found literal member
    simp at absent
  | some index => exact Nat.succ_ne_zero index

theorem reads_nextSymbol {name : String} (member : LiteralValue.symbol name ∈ literals)
    (fits : InWord (literals.indexOf (.symbol name))) :
    Reads (nextSymbol literals) (nextSymbolPut literals name) (.symbol name) := by
  have symbol : Reads (literalAt literals (literals.indexOf (.symbol name))) [] (.symbol name) :=
    reads_ofOption (literalAt_of_indexOf (indexOf_of_mem member))
  have read : Reads (nextSymbol literals) (nextSymbolPut literals name ++ []) (.symbol name) :=
    (reads_nextInteger fits).bind symbol
  rwa [List.append_nil] at read

theorem reads_nextCount {count : Nat} (fits : InWord count) :
    Reads nextCount (nextIntegerPut count) count := by
  have checked : Reads (if (count : Int) < 0 then Reader.fail else pure (count : Int).toNat) []
      count := by
    rw [if_neg (by lia), Int.toNat_natCast]
    exact reads_pure count
  have read : Reads nextCount (nextIntegerPut count ++ []) count :=
    (reads_nextInteger fits).bind checked
  rwa [List.append_nil] at read

theorem reads_nextBoolean (value : Bool) :
    Reads nextBoolean [nextBooleanPut value] value := by
  have read := (reads_byte (nextBooleanPut value)).map fun byte => decide (byte = 1)
  cases value <;> exact read

theorem reads_nextEnvironment {value : Int} (fits : InWord value) :
    Reads nextEnvironment (nextIntegerPut value) value := by
  have read := (reads_nextInteger fits).map fun value =>
    if value ≠ -2 then value else instackEnvironment
  have same : (if value ≠ -2 then value else instackEnvironment) = value := by
    by_cases inStack : value = -2
    · rw [if_neg (not_not_intro inStack), inStack]
      rfl
    · rw [if_pos inStack]
  rwa [same] at read

theorem reads_nextArray {values : List Int} (bytes : AreBytes values) :
    Reads nextArray (nextPutAll (values.map UInt8.ofInt)) values := by
  obtain ⟨fits, small⟩ := bytes
  have back : (values.map UInt8.ofInt).map (fun byte => (byte.toNat : Int)) = values := by
    rw [List.map_map]
    refine (List.map_congr_left fun value member => ?_).trans (List.map_id values)
    have range := small value member
    rw [Function.comp_apply, toNat_ofInt]
    exact Int.emod_eq_of_lt range.1 range.2
  have elements := (reads_bytes (values.map UInt8.ofInt)).map
    (List.map fun byte => (byte.toNat : Int))
  rw [back] at elements
  rw [nextPutAll, List.length_map] at *
  exact (reads_nextInteger fits).bind elements

theorem reads_decodeLiteral {value : LiteralValue}
    (kept : value ∈ literals ∨ ∃ integer, value = .integer integer)
    (fits : (value.resolved literals).Fits literals IsShort) :
    Reads (decodeLiteral literals) ((visitLiteral literals value).tail) (value.resolved literals) := by
  obtain ⟨index, inline⟩ := fits
  refine (reads_nextInteger index).bind ?_
  by_cases absent : literals.indexOf value = 0
  · have zero : ((literals.indexOf value : Nat) : Int) = 0 := by lia
    rw [if_pos zero, if_pos absent]
    obtain ⟨integer, rfl⟩ : ∃ integer, value = .integer integer :=
      kept.resolve_left fun member => indexOf_of_mem member absent
    exact (reads_nextInteger (inline zero)).map _
  · have nonzero : ((literals.indexOf value : Nat) : Int) ≠ 0 := by lia
    rw [if_neg nonzero, if_neg absent]
    have found : literals.literalAt (literals.indexOf value) = some value :=
      literalAt_of_indexOf absent
    exact (reads_ofOption found).map (SExpression.literal (literals.indexOf value))

theorem reads_bound {id : UInt8} {code : Int} {bytes : List UInt8} {bound : SBinding}
    (integer : Reads nextInteger [id] code) (binding : Reads (decodeBinding literals code) bytes bound) :
    Reads (decodeIdentifier literals) (id :: bytes) (.identifier bound) :=
  integer.bind (binding.map SExpression.identifier)

theorem reads_local {index environment : Int} (indexFits : InWord index)
    (environmentFits : InWord environment) (bound : Int → Int → SBinding) :
    Reads (do
      let index ← nextInteger
      let environment ← nextEnvironment
      pure (bound index environment)) (nextIntegerPut index ++ nextIntegerPut environment)
      (bound index environment) :=
  (reads_nextInteger indexFits).bind ((reads_nextEnvironment environmentFits).map (bound index))

theorem reads_decodeIdentifier {binding : Binding}
    (kept : ∀ literal ∈ binding.literal, literal ∈ literals)
    (fits : binding.resolved.Fits literals) :
    Reads (decodeIdentifier literals) (encodeBinding literals binding)
      (.identifier binding.resolved) := by
  cases binding with
  | nil => exact reads_bound (fun _ => rfl) (reads_pure SBinding.nil)
  | true => exact reads_bound (fun _ => rfl) (reads_pure SBinding.true)
  | false => exact reads_bound (fun _ => rfl) (reads_pure SBinding.false)
  | self => exact reads_bound (fun _ => rfl) (reads_pure SBinding.self)
  | super => exact reads_bound (fun _ => rfl) (reads_pure SBinding.super)
  | dynamic name =>
    have symbol := reads_nextSymbol (kept _ (List.mem_singleton_self _)) fits
    have integer : Reads nextInteger [14] 14 := fun _ => rfl
    exact reads_bound integer (symbol.map SBinding.dynamic)
  | «local» binding =>
    obtain ⟨isArgument, index, environment⟩ := binding
    cases isArgument with
    | true =>
      have integer : Reads nextInteger [4] 4 := fun _ => rfl
      exact reads_bound integer (reads_local fits.1 fits.2 SBinding.argument)
    | false =>
      have integer : Reads nextInteger [5] 5 := fun _ => rfl
      exact reads_bound integer (reads_local fits.1 fits.2 SBinding.temporary)

end Fields

section Expressions

variable {literals : Literals}

theorem reads_nextExpression {id : UInt8} {bytes : List UInt8} {value : SExpression} {depth : Nat}
    (deep : (id :: bytes).length ≤ depth)
    (body : ∀ lower, bytes.length ≤ lower →
      Reads (decodeExpression literals (nextExpression literals lower) id) bytes value) :
    Reads (nextExpression literals depth) (id :: bytes) value := by
  cases depth with
  | zero => simp at deep
  | succ lower => exact (reads_byte id).bind (body lower (Nat.le_of_succ_le_succ deep))

variable {next : Reader SExpression} {bytes more others : List UInt8}

theorem reads_nextExpressionArray {count : Nat} {expressions : List SExpression}
    (fits : InWord count) (each : Reads (next.times count) bytes expressions) :
    Reads (nextExpressionArray next) (nextIntegerPut count ++ bytes) expressions :=
  (reads_nextCount fits).bind each

theorem reads_decodeMessage {isInlined : Bool} {selector : String} {receiver : SExpression}
    {arguments : List SExpression} (kept : LiteralValue.symbol selector ∈ literals)
    (fits : InWord (literals.indexOf (.symbol selector))) (head : Reads next bytes receiver)
    (tail : Reads (nextExpressionArray next) more arguments) :
    Reads (decodeMessage literals next)
      (nextBooleanPut isInlined :: (nextSymbolPut literals selector ++ (bytes ++ more)))
      (.message receiver (.symbol selector) arguments isInlined) :=
  (reads_nextBoolean isInlined).bind ((reads_nextSymbol kept fits).bind (head.bind (tail.map _)))

theorem reads_decodeCascadeMessage {selector : String} {arguments : List SExpression}
    (kept : LiteralValue.symbol selector ∈ literals)
    (fits : InWord (literals.indexOf (.symbol selector)))
    (tail : Reads (nextExpressionArray next) more arguments) :
    Reads (decodeCascadeMessage literals next) (nextSymbolPut literals selector ++ more)
      (.mk (.symbol selector) arguments) :=
  (reads_nextSymbol kept fits).bind (tail.map _)

theorem reads_decodeCascade {count : Nat} {receiver : SExpression} {messages : List SCascadeMessage}
    (head : Reads next bytes receiver) (fits : InWord count)
    (tail : Reads ((decodeCascadeMessage literals next).times count) more messages) :
    Reads (decodeCascade literals next) (bytes ++ (nextIntegerPut count ++ more))
      (.cascade receiver messages) :=
  head.bind ((reads_nextCount fits).bind (tail.map _))

theorem reads_decodeAssignment {assignees : List SExpression} {expression : SExpression}
    (head : Reads (nextExpressionArray next) bytes assignees) (tail : Reads next more expression) :
    Reads (decodeAssignment next) (bytes ++ more)
      (.assignment (assignees.map SExpression.asIdentifier) expression) :=
  head.bind (tail.map _)

theorem reads_decodeReturn {isLocal : Bool} {expression : SExpression}
    (tail : Reads next more expression) :
    Reads (decodeReturn next) (nextBooleanPut isLocal :: more) (.return isLocal expression) :=
  (reads_nextBoolean isLocal).bind (tail.map _)

theorem reads_inlinedBlock {inlinedArgs : List Int} {statements : List SExpression}
    (arguments : AreBytes inlinedArgs) (tail : Reads (nextExpressionArray next) more statements) :
    Reads (decodeBlock literals next)
      (nextBooleanPut true :: (nextPutAll (inlinedArgs.map UInt8.ofInt) ++ more))
      (.inlinedBlock inlinedArgs statements) :=
  (reads_nextBoolean true).bind ((reads_nextArray arguments).bind (tail.map _))

/-- A block's index is written as a byte: it is read back if it is short. -/
theorem reads_blockIndex {index : Nat} (short : IsShort index) :
    Reads nextInteger [UInt8.ofNat index] index := by
  have written : nextIntegerPut index = [UInt8.ofNat index] := by
    have small : ¬ ((127 : Int) < index ∨ (index : Int) < -127) := by
      have upper := short.2
      lia
    have same : UInt8.ofInt index = UInt8.ofNat index := by
      have byte := toNat_ofInt index
      refine UInt8.toNat_inj.mp ?_
      rw [UInt8.toNat_ofNat']
      lia
    rw [nextIntegerPut, if_neg small, if_pos (by lia), same]
  rw [← written]
  exact reads_nextInteger short.inWord

theorem reads_decodeBlock {id : Nat} {captured : List Int} {statements : List SExpression}
    (kept : LiteralValue.block id ∈ literals) (short : IsShort (literals.indexOf (.block id)))
    (elements : AreBytes captured) (tail : Reads (nextExpressionArray next) more statements) :
    Reads (decodeBlock literals next)
      (nextBooleanPut false :: UInt8.ofNat (literals.indexOf (.block id)) ::
        (nextPutAll (captured.map UInt8.ofInt) ++ more))
      (.block (literals.indexOf (.block id)) (.block id) captured statements) := by
  have block : Reads (literalAt literals (literals.indexOf (.block id))) [] (.block id) :=
    reads_ofOption (literalAt_of_indexOf (indexOf_of_mem kept))
  refine (reads_nextBoolean false).bind ((reads_blockIndex short).bind (block.next ?_))
  exact (reads_nextArray elements).bind (tail.map _)

theorem reads_visitIdentifier {binding : Binding} {depth : Nat} (deep : 0 < depth)
    (kept : ∀ literal ∈ binding.literal, literal ∈ literals)
    (fits : binding.resolved.Fits literals) :
    Reads (nextExpression literals depth) (visitIdentifier literals binding)
      (.identifier binding.resolved) := by
  obtain ⟨lower, rfl⟩ : ∃ lower, depth = lower + 1 := ⟨depth - 1, by lia⟩
  exact (reads_byte identifierId).bind (reads_decodeIdentifier kept fits)

theorem reads_visitLiteral {value : LiteralValue} {depth : Nat} (deep : 0 < depth)
    (kept : value ∈ literals ∨ ∃ integer, value = .integer integer)
    (fits : (value.resolved literals).Fits literals IsShort) :
    Reads (nextExpression literals depth) (visitLiteral literals value)
      (value.resolved literals) := by
  obtain ⟨lower, rfl⟩ : ∃ lower, depth = lower + 1 := ⟨depth - 1, by lia⟩
  exact (reads_byte literalId).bind (reads_decodeLiteral kept fits)

theorem nextIntegerPut_length (value : Int) : 0 < (nextIntegerPut value).length := by
  unfold nextIntegerPut nextBigIntegerPut
  split <;> simp

end Expressions

section Nodes

variable {literals : Literals}

open Node

theorem resolvedAll_length (isMethod : Bool) (nodes : List Node) :
    (resolvedAll literals isMethod nodes).length = nodes.length := by
  induction nodes with
  | nil => rfl
  | cons node nodes ih => simp only [resolvedAll, List.length_cons, ih]

theorem resolvedMessages_length (isMethod : Bool) (messages : List CascadeMessage) :
    (resolvedMessages literals isMethod messages).length = messages.length := by
  induction messages with
  | nil => rfl
  | cons message messages ih => cases message; simp only [resolvedMessages, List.length_cons, ih]

theorem resolvedElements_length (isMethod : Bool) (position : Nat) (elements : List Node) :
    (resolvedElements literals isMethod position elements).length = elements.length := by
  induction elements generalizing position with
  | nil => rfl
  | cons element elements ih => simp only [resolvedElements, List.length_cons, ih]

theorem reads_braceArray {array : Option LocalBinding} {size depth : Nat} (deep : 1 < depth)
    (kept : LiteralValue.symbol "new:" ∈ literals)
    (arrayKept : ∀ literal ∈ (arrayBinding array).literal, literal ∈ literals)
    (fits : (SExpression.message (.identifier (arrayBinding array).resolved) (.symbol "new:")
      [(LiteralValue.integer size).resolved literals] false).Fits literals IsShort) :
    Reads (nextExpression literals depth)
      (messageId :: nextBooleanPut false :: (nextSymbolPut literals "new:" ++
        (visitIdentifier literals (arrayBinding array) ++
          (nextIntegerPut 1 ++ visitLiteral literals (.integer size)))))
      (.message (.identifier (arrayBinding array).resolved) (.symbol "new:")
        [(LiteralValue.integer size).resolved literals] false) := by
  obtain ⟨lower, rfl⟩ : ∃ lower, depth = lower + 1 := ⟨depth - 1, by lia⟩
  obtain ⟨index, arrayFits, one, sizeFits, _⟩ := fits
  have inner : 0 < lower := by lia
  have head := reads_visitIdentifier inner arrayKept arrayFits
  have size : Reads ((nextExpression literals lower).times 1)
      (visitLiteral literals (.integer size)) [(LiteralValue.integer size).resolved literals] :=
    (reads_visitLiteral inner (.inr ⟨_, rfl⟩) sizeFits).once
  exact (reads_byte messageId).bind
    (reads_decodeMessage kept index head (reads_nextExpressionArray one size))

theorem messagesFit_append {holds : Int → Prop} {messages others : List SCascadeMessage}
    (fits : SExpression.MessagesFit literals holds (messages ++ others)) :
    SExpression.MessagesFit literals holds others := by
  induction messages with
  | nil => exact fits
  | cons message messages ih =>
    cases message
    exact ih fits.2.2.2

theorem reads_yourself {next : Reader SExpression} {messages : List SCascadeMessage}
    (kept : LiteralValue.symbol "yourself" ∈ literals)
    (fits : SExpression.MessagesFit literals IsShort (messages ++ [.mk (.symbol "yourself") []])) :
    Reads (decodeCascadeMessage literals next)
      (nextSymbolPut literals "yourself" ++ nextIntegerPut 0) (.mk (.symbol "yourself") []) := by
  obtain ⟨index, count, _⟩ := messagesFit_append fits
  have none : Reads (nextExpressionArray next) (nextIntegerPut 0 ++ []) [] :=
    reads_nextExpressionArray count (reads_pure [])
  exact reads_decodeCascadeMessage kept index none

mutual

/-- Decoding reads back every node that fits. -/
theorem reads_encode (isMethod : Bool) (depth : Nat) (node : Node)
    (kept : ∀ literal ∈ node.literals, literal ∈ literals)
    (fits : (node.resolved literals isMethod).Fits literals IsShort)
    (deep : (node.encode literals isMethod).length ≤ depth) :
    Reads (nextExpression literals depth) (node.encode literals isMethod)
      (node.resolved literals isMethod) := by
  cases node with
  | literal value =>
    refine reads_visitLiteral (Nat.lt_of_lt_of_le (Nat.succ_pos _) deep) ?_ fits
    by_cases small : value.isSmall
    · right
      cases value with
      | integer integer => exact ⟨integer, rfl⟩
      | _ => cases small
    · left
      refine kept value ?_
      rw [Node.literals, if_neg small]
      exact List.mem_singleton_self value
  | identifier binding =>
    exact reads_visitIdentifier (Nat.lt_of_lt_of_le (Nat.succ_pos _) deep) kept fits
  | message isInlined selector receiver arguments =>
    obtain ⟨index, receiverFits, count, argumentsFit⟩ := fits
    rw [resolvedAll_length] at count
    refine reads_nextExpression deep fun lower room => ?_
    simp only [List.length_append, List.length_cons] at room
    simp only [Node.literals, List.mem_cons, List.mem_append] at kept
    have head := reads_encode isMethod lower receiver (by grind) receiverFits (by lia)
    have tail := reads_encodeAll isMethod lower arguments (by grind) argumentsFit (by lia)
    exact reads_decodeMessage (kept _ (.inl rfl)) index head (reads_nextExpressionArray count tail)
  | cascade receiver messages =>
    obtain ⟨receiverFits, count, messagesFit⟩ := fits
    rw [resolvedMessages_length] at count
    refine reads_nextExpression deep fun lower room => ?_
    simp only [List.length_append] at room
    simp only [Node.literals, List.mem_append] at kept
    have head := reads_encode isMethod lower receiver (by grind) receiverFits (by lia)
    have tail := reads_encodeMessages isMethod lower messages (by grind) messagesFit (by lia)
    exact reads_decodeCascade head count tail
  | assignment assignees expression =>
    obtain ⟨count, assigneesFit, expressionFits⟩ := fits
    rw [List.length_map] at count
    refine reads_nextExpression deep fun lower room => ?_
    simp only [List.length_append] at room
    simp only [Node.literals, List.mem_append, List.mem_flatMap] at kept
    have positive := nextIntegerPut_length assignees.length
    have each : ∀ assignee ∈ assignees, Reads (nextExpression literals lower)
        (visitIdentifier literals assignee) (.identifier assignee.resolved) :=
      fun assignee member => reads_visitIdentifier (by lia)
        (fun literal named => kept literal (.inl ⟨assignee, member, named⟩))
        (assigneesFit _ (List.mem_map_of_mem member) _ rfl)
    have head := reads_nextExpressionArray count (Reads.times each)
    have tail := reads_encode isMethod lower expression (by grind) expressionFits (by lia)
    have read := reads_decodeAssignment head tail
    rw [List.map_map, List.append_assoc] at read
    exact read
  | «return» expression =>
    refine reads_nextExpression deep fun lower room => ?_
    simp only [List.length_cons] at room
    have tail := reads_encode isMethod lower expression kept fits (by lia)
    exact reads_decodeReturn tail
  | inlinedBlock arguments statements =>
    obtain ⟨areBytes, count, statementsFit⟩ := fits
    rw [resolvedAll_length] at count
    refine reads_nextExpression deep fun lower room => ?_
    simp only [List.length_append, List.length_cons] at room
    have tail := reads_encodeAll isMethod lower statements kept statementsFit (by lia)
    exact reads_inlinedBlock areBytes (reads_nextExpressionArray count tail)
  | block index captured statements =>
    obtain ⟨short, areBytes, count, statementsFit⟩ := fits
    rw [resolvedAll_length] at count
    refine reads_nextExpression deep fun lower room => ?_
    simp only [List.length_append, List.length_cons] at room
    simp only [Node.literals, List.mem_cons] at kept
    have tail := reads_encodeAll false lower statements (by grind) statementsFit (by lia)
    exact reads_decodeBlock (kept _ (.inl rfl)) short areBytes
      (reads_nextExpressionArray count tail)
  | brace array elements =>
    obtain ⟨⟨selectorIndex, arrayFits, one, sizeFits, _⟩, count, elementsFit⟩ := fits
    have total : (resolvedElements literals isMethod 1 elements ++
        [SCascadeMessage.mk (.symbol "yourself") []]).length = elements.length + 1 := by
      rw [List.length_append, resolvedElements_length, List.length_singleton]
    rw [total] at count
    refine reads_nextExpression deep fun lower room => ?_
    simp only [List.length_append, List.length_cons] at room
    simp only [Node.literals, List.mem_cons] at kept
    have arrayKept : ∀ literal ∈ (arrayBinding array).literal, literal ∈ literals := by
      intro literal member
      cases array with
      | none => exact kept literal (.inl (List.mem_singleton.mp member))
      | some binding => cases member
    have inner : 1 < lower := by lia
    have head := reads_braceArray inner (kept _ (.inr (.inl rfl))) arrayKept
      ⟨selectorIndex, arrayFits, one, sizeFits, trivial⟩
    have last : Reads (decodeCascadeMessage literals (nextExpression literals lower))
        (nextSymbolPut literals "yourself" ++ nextIntegerPut 0) (.mk (.symbol "yourself") []) :=
      reads_yourself (kept _ (.inr (.inr (.inr (.inl rfl))))) elementsFit
    have tail := reads_encodeElements isMethod lower 1 elements last (by grind) elementsFit (by lia)
    exact reads_decodeCascade head count tail

theorem reads_encodeMessages (isMethod : Bool) (depth : Nat) (messages : List CascadeMessage)
    (kept : ∀ literal ∈ messageLiterals messages, literal ∈ literals)
    (fits : SExpression.MessagesFit literals IsShort (resolvedMessages literals isMethod messages))
    (deep : (encodeMessages literals isMethod messages).length ≤ depth) :
    Reads ((decodeCascadeMessage literals (nextExpression literals depth)).times messages.length)
      (encodeMessages literals isMethod messages) (resolvedMessages literals isMethod messages) := by
  cases messages with
  | nil => exact reads_pure []
  | cons message messages =>
    obtain ⟨selector, arguments⟩ := message
    obtain ⟨index, count, argumentsFit, messagesFit⟩ := fits
    rw [resolvedAll_length] at count
    simp only [messageLiterals, List.mem_cons, List.mem_append] at kept
    simp only [encodeMessages, List.length_append] at deep
    have arguments := reads_encodeAll isMethod depth arguments (by grind) argumentsFit (by lia)
    have head := reads_decodeCascadeMessage (kept _ (.inl rfl)) index
      (reads_nextExpressionArray count arguments)
    have tail := reads_encodeMessages isMethod depth messages (by grind) messagesFit (by lia)
    have read := head.cons tail
    rw [List.append_assoc, List.append_assoc] at read
    exact read

/-- The messages of a brace and the one that ends it. -/
theorem reads_encodeElements (isMethod : Bool) (depth position : Nat) (elements : List Node)
    {bytes : List UInt8} {message : SCascadeMessage}
    (last : Reads (decodeCascadeMessage literals (nextExpression literals depth)) bytes message)
    (kept : ∀ literal, literal = .symbol "at:put:" ∨ literal ∈ allLiterals elements →
      literal ∈ literals)
    (fits : SExpression.MessagesFit literals IsShort
      (resolvedElements literals isMethod position elements ++ [message]))
    (deep : (encodeElements literals isMethod position elements).length ≤ depth) :
    Reads ((decodeCascadeMessage literals (nextExpression literals depth)).times
        (elements.length + 1))
      (encodeElements literals isMethod position elements ++ bytes)
      (resolvedElements literals isMethod position elements ++ [message]) := by
  cases elements with
  | nil =>
    exact last.once
  | cons element elements =>
    obtain ⟨index, two, ⟨positionFits, elementFits, _⟩, elementsFit⟩ := fits
    simp only [allLiterals, List.mem_append] at kept
    simp only [encodeElements, List.length_append] at deep
    have positive := nextIntegerPut_length 2
    have value := reads_encode isMethod depth element (by grind) elementFits (by lia)
    have pair : Reads ((nextExpression literals depth).times 2)
        (visitLiteral literals (.integer position) ++ element.encode literals isMethod)
        [(LiteralValue.integer position).resolved literals, element.resolved literals isMethod] :=
      (reads_visitLiteral (by lia) (.inr ⟨_, rfl⟩) positionFits).cons value.once
    have head := reads_decodeCascadeMessage (kept _ (.inl rfl)) index
      (reads_nextExpressionArray two pair)
    have tail := reads_encodeElements isMethod depth (position + 1) elements last (by grind)
      elementsFit (by lia)
    have read := head.cons tail
    simp only [List.append_assoc] at read
    simp only [encodeElements, List.append_assoc]
    exact read

theorem reads_encodeAll (isMethod : Bool) (depth : Nat) (nodes : List Node)
    (kept : ∀ literal ∈ allLiterals nodes, literal ∈ literals)
    (fits : SExpression.AllFit literals IsShort (resolvedAll literals isMethod nodes))
    (deep : (encodeAll literals isMethod nodes).length ≤ depth) :
    Reads ((nextExpression literals depth).times nodes.length) (encodeAll literals isMethod nodes)
      (resolvedAll literals isMethod nodes) := by
  cases nodes with
  | nil => exact reads_pure []
  | cons node nodes =>
    obtain ⟨nodeFits, nodesFit⟩ := fits
    simp only [allLiterals, List.mem_append] at kept
    simp only [encodeAll, List.length_append] at deep
    have head := reads_encode isMethod depth node (by grind) nodeFits (by lia)
    have tail := reads_encodeAll isMethod depth nodes (by grind) nodesFit (by lia)
    exact head.cons tail

end

end Nodes

section Methods

theorem mem_addUnique {literals : Literals} {literal other : LiteralValue} :
    other ∈ literals.addUnique literal ↔ other ∈ literals ∨ other = literal := by
  unfold Literals.addUnique
  split
  · next present =>
    constructor
    · exact Or.inl
    · rintro (member | rfl)
      · exact member
      · exact present
  · rw [List.mem_append, List.mem_singleton]

theorem mem_foldl_addUnique {contributed : List LiteralValue} {literals : Literals}
    {literal : LiteralValue} : literal ∈ contributed.foldl Literals.addUnique literals ↔
      literal ∈ literals ∨ literal ∈ contributed := by
  induction contributed generalizing literals with
  | nil => simp
  | cons first others ih => rw [List.foldl_cons, ih, mem_addUnique, List.mem_cons, or_assoc]

/-- The frame of a method holds the literals of all of its nodes. -/
theorem mem_literals_of_node {method : MethodNode} {literal : LiteralValue}
    (member : literal ∈ Node.allLiterals method.statements) : literal ∈ method.literals :=
  mem_foldl_addUnique.mpr (.inr (List.mem_append_right _ member))

theorem mem_literals_of_pragma {method : MethodNode} {name : String}
    (used : method.pragma = some name) (named : ¬ name.isEmpty) :
    LiteralValue.symbol name ∈ method.literals := by
  refine mem_foldl_addUnique.mpr (.inr (List.mem_append_left _ ?_))
  rw [used]
  simp only [named]
  exact List.mem_singleton_self _

variable {method : MethodNode} {depth : Nat}

theorem reads_statements (fits : method.resolved.Fits method.literals IsShort)
    (deep : (Node.encodeAll method.literals true method.statements).length ≤ depth) :
    Reads (nextExpressionArray (nextExpression method.literals depth))
      (nextIntegerPut method.statements.length ++
        Node.encodeAll method.literals true method.statements)
      method.resolved.statements := by
  obtain ⟨_, count, statementsFit⟩ := fits
  have length : method.resolved.statements.length = method.statements.length :=
    resolvedAll_length true method.statements
  rw [length] at count
  exact reads_nextExpressionArray count (reads_encodeAll true depth method.statements
    (fun _ member => mem_literals_of_node member) statementsFit deep)

theorem reads_pragma {name : String} (used : method.pragma = some name)
    (fits : method.resolved.Fits method.literals IsShort) :
    Reads (nextSymbolOrNil method.literals)
      (if name.isEmpty then [0] else nextSymbolPut method.literals name)
      (if name.isEmpty then none else some (.symbol name)) := by
  by_cases unnamed : name.isEmpty
  · rw [if_pos unnamed, if_pos unnamed]
    exact fun _ => rfl
  · rw [if_neg unnamed, if_neg unnamed]
    have member := mem_literals_of_pragma used unnamed
    have index : InWord (method.literals.indexOf (.symbol name)) := by
      refine fits.1 _ ?_
      simp only [MethodNode.resolved, used, Option.map_some, unnamed]
      rfl
    have nonzero : ((method.literals.indexOf (.symbol name) : Nat) : Int) ≠ 0 := by
      have positive := indexOf_of_mem member
      lia
    have symbol : Reads (literalAt method.literals (method.literals.indexOf (.symbol name))) []
        (.symbol name) :=
      reads_ofOption (literalAt_of_indexOf (indexOf_of_mem member))
    have read : Reads (nextSymbolOrNil method.literals)
        (nextSymbolPut method.literals name ++ []) (some (.symbol name)) := by
      refine (reads_nextInteger index).bind ?_
      rw [if_pos nonzero]
      exact symbol.map some
    rwa [List.append_nil] at read

/-- A count starts with the byte of a pragma just when it is that byte. -/
theorem nextIntegerPut_pragma (count : Nat) :
    ∃ first rest, nextIntegerPut count = first :: rest ∧ (first = pragmaId ↔ count = 110) := by
  unfold nextIntegerPut
  split
  · refine ⟨_, _, rfl, ?_⟩
    constructor
    · intro same
      cases same
    · lia
  · next small =>
    refine ⟨_, _, rfl, ?_⟩
    have byte := toNat_ofInt (if 0 ≤ (count : Int) then (count : Int) else count + 0x100)
    rw [if_pos (by lia)] at byte ⊢
    rw [← UInt8.toNat_inj]
    show _ = 110 ↔ _
    lia

theorem reads_marked {literals : Literals} {bytes more : List UInt8}
    {pragma : Option LiteralValue} {statements : List SExpression}
    (head : Reads (nextSymbolOrNil literals) bytes pragma)
    (tail : Reads (nextExpressionArray (nextExpression literals depth)) more statements) :
    Reads (decodeScript literals depth) (pragmaId :: (bytes ++ more))
      { pragma := some pragma, statements := statements } :=
  head.bind (tail.map (SMethod.mk (some pragma)))

theorem reads_unmarked {literals : Literals} {first : UInt8} {bytes : List UInt8}
    {statements : List SExpression} (other : first ≠ pragmaId)
    (tail : Reads (nextExpressionArray (nextExpression literals depth)) (first :: bytes)
      statements) :
    Reads (decodeScript literals depth) (first :: bytes)
      { pragma := none, statements := statements } := by
  intro rest
  have read := tail.map (SMethod.mk none) rest
  simp only [decodeScript, List.cons_append, if_neg other]
  exact read

theorem decodeMethod_encodeMethod (fits : method.resolved.Fits method.literals IsShort)
    (marked : ¬ (method.pragma = none ∧ method.statements.length = 110)) :
    decodeMethod method.literals (encodeMethod method) = some method.resolved := by
  have within : ∀ depth,
      (Node.encodeAll method.literals true method.statements).length ≤ depth →
      Reads (decodeMethodWithin method.literals depth) (encodeMethod method) method.resolved := by
    intro depth deep
    have statements := reads_statements fits deep
    obtain ⟨pragma, script⟩ := method
    cases pragma with
    | none =>
      have other : script.length ≠ 110 := fun same => marked ⟨rfl, same⟩
      obtain ⟨first, rest, bytes, pragma⟩ := nextIntegerPut_pragma script.length
      simp only [bytes, List.cons_append] at statements
      have read := reads_unmarked (fun same => other (pragma.mp same)) statements
      rw [← List.cons_append, ← bytes] at read
      exact (reads_byte methodId).bind read
    | some name =>
      have read := reads_marked (reads_pragma rfl fits) statements
      exact (reads_byte methodId).bind read
  have length : (Node.encodeAll method.literals true method.statements).length ≤
      (encodeMethod method).length := by
    simp only [encodeMethod, List.length_cons, List.length_append]
    lia
  have read := within _ length []
  rw [List.append_nil] at read
  rw [decodeMethod, read]
  rfl

end Methods

end Egg.Treecode
