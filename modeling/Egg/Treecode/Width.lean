import Egg.Treecode.RoundTrip

/-! How much of the treecodes a tree takes, and which trees survive them. -/
namespace Egg.Treecode

open Egg.Data Egg.Data.Reader

/-- The bytes that an integer takes. -/
def integerWidth (value : Int) : Nat :=
  (nextIntegerPut value).length

def SBinding.width (literals : Literals) : SBinding → Nat
  | .argument index environment => 1 + integerWidth index + integerWidth environment
  | .temporary index environment => 1 + integerWidth index + integerWidth environment
  | .dynamic symbol => 1 + integerWidth (literals.indexOf symbol)
  | .nestedDynamic symbol => 1 + integerWidth (literals.indexOf symbol)
  | _ => 1

/-- The bytes of an assigned identifier. -/
def assigneeWidth (literals : Literals) : Option SBinding → Nat
  | some binding => 1 + binding.width literals
  | none => 0

namespace SExpression

variable (literals : Literals) (blockWidth : Int → Nat)

mutual

/-- The bytes of a tree, where the width of a block's index is given. -/
def width : SExpression → Nat
  | .literal index value =>
    1 + integerWidth index + if index = 0 then integerWidth value.intVal else 0
  | .identifier binding => 1 + binding.width literals
  | .message receiver selector arguments _ =>
    2 + integerWidth (literals.indexOf selector) + width receiver +
      integerWidth arguments.length + widthAll arguments
  | .cascade receiver messages =>
    1 + width receiver + integerWidth messages.length + messagesWidth messages
  | .assignment assignees expression =>
    1 + integerWidth assignees.length + (assignees.map (assigneeWidth literals)).sum +
      width expression
  | .return _ expression => 2 + width expression
  | .inlinedBlock inlinedArgs statements =>
    2 + integerWidth inlinedArgs.length + inlinedArgs.length + integerWidth statements.length +
      widthAll statements
  | .block index _ capturedVariables statements =>
    2 + blockWidth index + integerWidth capturedVariables.length + capturedVariables.length +
      integerWidth statements.length + widthAll statements

def widthAll : List SExpression → Nat
  | [] => 0
  | expression :: expressions => width expression + widthAll expressions

def messagesWidth : List SCascadeMessage → Nat
  | [] => 0
  | .mk selector arguments :: messages =>
    integerWidth (literals.indexOf selector) + integerWidth arguments.length +
      widthAll arguments + messagesWidth messages

end

-- Their equations are made once, here, and not by the first proofs that need them.
section
attribute [local simp] width widthAll messagesWidth
end

end SExpression

/-- The bytes of a method's pragma. -/
def pragmaWidth (literals : Literals) : Option (Option LiteralValue) → Nat
  | none => 0
  | some none => 2
  | some (some symbol) => 1 + integerWidth (literals.indexOf symbol)

def SMethod.width (literals : Literals) (blockWidth : Int → Nat) (method : SMethod) : Nat :=
  1 + pragmaWidth literals method.pragma + integerWidth method.statements.length +
    SExpression.widthAll literals blockWidth method.statements

section Integers

theorem integerWidth_cases (value : Int) :
    (IsShort value ∧ integerWidth value = 1) ∨ (¬ IsShort value ∧ integerWidth value = 9) := by
  unfold integerWidth nextIntegerPut IsShort
  split
  · exact .inr ⟨by lia, rfl⟩
  · exact .inl ⟨by lia, rfl⟩

theorem integerWidth_mono {lower upper : Nat} (below : lower ≤ upper) :
    integerWidth lower ≤ integerWidth upper := by
  rcases integerWidth_cases lower with ⟨_, first⟩ | ⟨long, first⟩
  · rcases integerWidth_cases upper with ⟨_, second⟩ | ⟨_, second⟩ <;> lia
  · rcases integerWidth_cases upper with ⟨short, second⟩ | ⟨_, second⟩
    · unfold IsShort at short long
      lia
    · lia

theorem foldl_bytes_lt (bytes : List UInt8) (value : Nat) :
    bytes.foldl (fun (value : Nat) byte => value * 256 + byte.toNat) value <
      (value + 1) * 256 ^ bytes.length := by
  induction bytes generalizing value with
  | nil => simp
  | cons first others ih =>
    have digit := first.toNat_lt
    have step : value * 256 + first.toNat + 1 ≤ (value + 1) * 256 := by lia
    calc (first :: others).foldl (fun (value : Nat) byte => value * 256 + byte.toNat) value
        < (value * 256 + first.toNat + 1) * 256 ^ others.length := ih _
      _ ≤ (value + 1) * 256 * 256 ^ others.length := Nat.mul_le_mul_right _ step
      _ = (value + 1) * 256 ^ (first :: others).length := by
        rw [List.length_cons, Nat.pow_succ, Nat.mul_assoc, Nat.mul_comm 256]

theorem bigInteger_inWord {bytes : List UInt8} (size : bytes.length = 8) :
    InWord (bigInteger bytes) := by
  have total := foldl_bytes_lt bytes 0
  rw [size] at total
  unfold bigInteger InWord
  dsimp only
  split
  · lia
  · lia

theorem sum_ones {α : Type} (values : List α) : (values.map fun _ => 1).sum = values.length := by
  induction values with
  | nil => rfl
  | cons first others ih =>
    rw [List.map_cons, List.sum_cons, ih, List.length_cons, Nat.add_comm]

theorem delivers_nextInteger : Delivers 0 nextInteger InWord integerWidth := by
  refine delivers_byte.bind fun first _ => ?_
  split
  · refine (delivers_byte.times 8).bind fun bytes read => ?_
    have taken : (bytes.map fun _ => 1).sum = 8 := by rw [sum_ones, read.1]
    refine delivers_pure (bigInteger_inWord read.1) ?_
    rcases integerWidth_cases (bigInteger bytes) with ⟨_, width⟩ | ⟨_, width⟩ <;> lia
  · next small =>
    have digit := first.toNat_lt
    have other : first.toNat ≠ 128 := fun same => small (UInt8.toNat_inj.mp same)
    have short : IsShort (if first ≤ 127 then (first.toNat : Int) else first.toNat - 256) := by
      simp only [UInt8.le_iff_toNat_le, UInt8.reduceToNat]
      split <;> exact ⟨by lia, by lia⟩
    have inWord := short.inWord
    rcases integerWidth_cases _ with ⟨_, width⟩ | ⟨long, _⟩
    · exact delivers_pure inWord (Nat.le_of_eq width)
    · exact absurd short long

end Integers

section Fields

variable {literals : Literals}

theorem delivers_nextBoolean : Delivers 0 nextBoolean (fun _ => True) (fun _ => 1) :=
  delivers_byte.bind fun _ _ => delivers_pure trivial (Nat.le_refl 1)

theorem delivers_nextArray : Delivers 0 nextArray AreBytes
    (fun values => integerWidth values.length + values.length) := by
  refine delivers_nextInteger.bind fun count inWord => ?_
  refine (delivers_byte.times count.toNat).bind fun bytes read => ?_
  obtain ⟨size, _⟩ := read
  have word : InWord bytes.length ∧ integerWidth bytes.length ≤ integerWidth count := by
    by_cases negative : count < 0
    · have empty : bytes.length = 0 := by lia
      rw [empty]
      exact ⟨⟨by lia, by lia⟩, nextIntegerPut_length count⟩
    · have same : (bytes.length : Int) = count := by lia
      rw [same]
      exact ⟨inWord, Nat.le_refl _⟩
  refine delivers_pure ⟨by rw [List.length_map]; exact word.1, ?_⟩ ?_
  · intro value member
    obtain ⟨byte, _, rfl⟩ := List.mem_map.mp member
    have digit := byte.toNat_lt
    exact ⟨by lia, by lia⟩
  · rw [List.length_map, sum_ones]
    lia

theorem delivers_nextCount : Delivers 0 nextCount (fun count => InWord count)
    (fun count => integerWidth count) := by
  refine delivers_nextInteger.bind fun count inWord => ?_
  split
  · exact delivers_fail
  · next positive =>
    have same : ((count.toNat : Nat) : Int) = count := by lia
    exact delivers_pure (by rwa [same]) (by rw [same]; lia)

theorem delivers_nextEnvironment : Delivers 0 nextEnvironment InWord integerWidth := by
  refine delivers_nextInteger.bind fun value inWord => ?_
  have same : (if value ≠ -2 then value else instackEnvironment) = value := by
    by_cases inStack : value = -2
    · rw [if_neg (not_not_intro inStack), inStack]
      rfl
    · rw [if_pos inStack]
  exact delivers_pure (by rwa [same]) (by rw [same]; lia)

/-- The first index of a literal is at most any index it is found at. -/
theorem indexOf_le {index : Int} {literal : LiteralValue}
    (found : literals.literalAt index = some literal) :
    (literals.indexOf literal : Int) ≤ index := by
  unfold Literals.literalAt at found
  split at found
  · next positive =>
    obtain ⟨inside, same⟩ := List.getElem?_eq_some_iff.mp found
    unfold Literals.indexOf
    cases search : literals.findIdx? (· == literal) with
    | none => exact Int.le_trans (by decide) positive
    | some first =>
      obtain ⟨_, _, earlier⟩ := List.findIdx?_eq_some_iff_getElem.mp search
      have least : ¬ (index - 1).toNat < first := by
        intro before
        exact earlier _ before (beq_iff_eq.mpr same)
      dsimp only
      lia
  · cases found

theorem indexOf_fits {index : Int} {literal : LiteralValue} (inWord : InWord index)
    (found : literals.literalAt index = some literal) :
    InWord (literals.indexOf literal) ∧
      integerWidth (literals.indexOf literal) ≤ integerWidth index := by
  have below := indexOf_le found
  obtain ⟨lower, upper⟩ := inWord
  refine ⟨⟨by lia, by lia⟩, ?_⟩
  have same : ((index.toNat : Nat) : Int) = index := by lia
  rw [← same] at below ⊢
  exact integerWidth_mono (by lia)

theorem delivers_nextSymbol : Delivers 0 (nextSymbol literals)
    (fun symbol => InWord (literals.indexOf symbol))
    (fun symbol => integerWidth (literals.indexOf symbol)) := by
  refine delivers_nextInteger.bind fun index inWord => ?_
  refine (delivers_ofOption _).mono fun symbol found => ?_
  obtain ⟨fits, narrow⟩ := indexOf_fits inWord found
  exact ⟨fits, by lia⟩

theorem delivers_local (bound : Int → Int → SBinding)
    (fits : ∀ index environment, InWord index → InWord environment →
      (bound index environment).Fits literals)
    (width : ∀ index environment, (bound index environment).width literals =
      1 + integerWidth index + integerWidth environment) :
    Delivers 0 (do
      let index ← nextInteger
      let environment ← nextEnvironment
      pure (bound index environment)) (SBinding.Fits literals)
      (fun binding => binding.width literals - 1) := by
  refine delivers_nextInteger.bind fun index indexFits => ?_
  refine delivers_nextEnvironment.bind fun environment environmentFits => ?_
  exact delivers_pure (fits _ _ indexFits environmentFits) (by rw [width]; lia)

/-- What follows the id of a binding; the id itself takes a byte. -/
theorem delivers_decodeBinding (id : Int) : Delivers 0 (decodeBinding literals id)
    (SBinding.Fits literals) (fun binding => binding.width literals - 1) := by
  unfold decodeBinding
  split
  · exact delivers_pure trivial (Nat.le_refl 0)
  · exact delivers_pure trivial (Nat.le_refl 0)
  · exact delivers_pure trivial (Nat.le_refl 0)
  · exact delivers_pure trivial (Nat.le_refl 0)
  · exact delivers_pure trivial (Nat.le_refl 0)
  · exact delivers_local SBinding.argument (fun _ _ index environment => ⟨index, environment⟩)
      (fun _ _ => rfl)
  · exact delivers_local SBinding.temporary (fun _ _ index environment => ⟨index, environment⟩)
      (fun _ _ => rfl)
  · refine delivers_nextSymbol.bind fun symbol fits => ?_
    exact delivers_pure fits (by simp only [SBinding.width]; lia)
  · refine delivers_nextSymbol.bind fun symbol fits => ?_
    exact delivers_pure fits (by simp only [SBinding.width]; lia)
  · exact delivers_fail

end Fields

section Expressions

variable {literals : Literals}

open SExpression

/-- A reader of trees that takes what they are wide. -/
def DeliversTrees (literals : Literals) (next : Reader SExpression) : Prop :=
  Delivers 0 next (Fits literals InWord) (width literals integerWidth)

theorem allFit_iff {holds : Int → Prop} {expressions : List SExpression} :
    AllFit literals holds expressions ↔
      ∀ expression ∈ expressions, expression.Fits literals holds := by
  induction expressions with
  | nil => simp [AllFit]
  | cons first others ih => simp [AllFit, ih]

theorem widthAll_eq (blockWidth : Int → Nat) (expressions : List SExpression) :
    widthAll literals blockWidth expressions =
      (expressions.map (width literals blockWidth)).sum := by
  induction expressions with
  | nil => rfl
  | cons first others ih => rw [widthAll, ih, List.map_cons, List.sum_cons]

theorem messagesFit_iff {holds : Int → Prop} {messages : List SCascadeMessage} :
    MessagesFit literals holds messages ↔
      ∀ message ∈ messages, MessagesFit literals holds [message] := by
  induction messages with
  | nil => simp [MessagesFit]
  | cons first others ih =>
    cases first
    simp only [MessagesFit, List.forall_mem_cons, ih]
    tauto

theorem messagesWidth_eq (blockWidth : Int → Nat) (messages : List SCascadeMessage) :
    messagesWidth literals blockWidth messages =
      (messages.map fun message => messagesWidth literals blockWidth [message]).sum := by
  induction messages with
  | nil => rfl
  | cons first others ih =>
    cases first
    simp only [List.map_cons, List.sum_cons, ← ih]
    simp only [messagesWidth, Nat.add_zero]

theorem asIdentifier_fits {tree : SExpression} {binding : SBinding}
    (same : tree.asIdentifier = some binding) (fits : tree.Fits literals InWord) :
    binding.Fits literals := by
  cases tree with
  | identifier bound =>
    cases same
    exact fits
  | _ => cases same

theorem asIdentifier_width (tree : SExpression) :
    assigneeWidth literals tree.asIdentifier ≤ tree.width literals integerWidth := by
  cases tree with
  | identifier binding => exact Nat.le_refl _
  | _ => exact Nat.zero_le _

theorem assignees_width (assignees : List SExpression) :
    ((assignees.map asIdentifier).map (assigneeWidth literals)).sum ≤
      widthAll literals integerWidth assignees := by
  induction assignees with
  | nil => exact Nat.le_refl _
  | cons first others ih =>
    have head : assigneeWidth literals first.asIdentifier ≤ first.width literals integerWidth :=
      asIdentifier_width first
    simp only [List.map_cons, List.sum_cons, widthAll]
    exact Nat.add_le_add head ih

theorem delivers_decodeLiteral : Delivers 1 (decodeLiteral literals) (Fits literals InWord)
    (width literals integerWidth) := by
  refine delivers_nextInteger.bind fun index inWord => ?_
  split
  · next zero =>
    refine delivers_nextInteger.bind fun value valueFits => ?_
    refine delivers_pure ⟨inWord, fun _ => valueFits⟩ ?_
    simp only [width, if_pos zero, LiteralValue.intVal]
    lia
  · next nonzero =>
    refine (delivers_ofOption _).bind fun value found => ?_
    refine delivers_pure ⟨inWord, fun zero => absurd zero nonzero⟩ ?_
    simp only [width, if_neg nonzero]
    lia

theorem delivers_decodeIdentifier : Delivers 1 (decodeIdentifier literals) (Fits literals InWord)
    (width literals integerWidth) := by
  refine delivers_nextInteger.bind fun id _ => ?_
  have positive : 0 < integerWidth id := nextIntegerPut_length id
  refine (delivers_decodeBinding id).bind fun binding fits => ?_
  exact delivers_pure fits (by simp only [width]; lia)

variable {next : Reader SExpression} (trees : DeliversTrees literals next)
include trees

theorem delivers_nextExpressionArray : Delivers 0 (nextExpressionArray next)
    (fun expressions => InWord expressions.length ∧ AllFit literals InWord expressions)
    (fun expressions => integerWidth expressions.length +
      widthAll literals integerWidth expressions) := by
  refine delivers_nextCount.bind fun count inWord => ?_
  refine (trees.times count).mono fun expressions read => ?_
  obtain ⟨length, fits⟩ := read
  subst length
  refine ⟨⟨inWord, allFit_iff.mpr fits⟩, ?_⟩
  rw [widthAll_eq]
  lia

theorem delivers_decodeAssignment : Delivers 1 (decodeAssignment next) (Fits literals InWord)
    (width literals integerWidth) := by
  refine (delivers_nextExpressionArray trees).bind fun assignees assigneesFit => ?_
  refine trees.bind fun expression expressionFits => ?_
  obtain ⟨count, each⟩ := assigneesFit
  refine delivers_pure ⟨by rwa [List.length_map], ?_, expressionFits⟩ ?_
  · intro assignee member binding same
    obtain ⟨tree, present, rfl⟩ := List.mem_map.mp member
    exact asIdentifier_fits same (allFit_iff.mp each tree present)
  · have narrow := @assignees_width literals assignees
    simp only [width, List.length_map]
    lia

theorem delivers_decodeBlock : Delivers 1 (decodeBlock literals next) (Fits literals InWord)
    (width literals integerWidth) := by
  refine delivers_nextBoolean.bind fun inlined _ => ?_
  split
  · refine delivers_nextArray.bind fun inlinedArgs areBytes => ?_
    refine (delivers_nextExpressionArray trees).bind fun statements statementsFit => ?_
    refine delivers_pure ⟨areBytes, statementsFit⟩ ?_
    simp only [width]
    lia
  · refine delivers_nextInteger.bind fun index inWord => ?_
    refine (delivers_ofOption _).bind fun block _ => ?_
    refine delivers_nextArray.bind fun capturedVariables areBytes => ?_
    refine (delivers_nextExpressionArray trees).bind fun statements statementsFit => ?_
    refine delivers_pure ⟨inWord, areBytes, statementsFit⟩ ?_
    simp only [width]
    lia

theorem delivers_decodeCascadeMessage : Delivers 0 (decodeCascadeMessage literals next)
    (fun message => MessagesFit literals InWord [message])
    (fun message => messagesWidth literals integerWidth [message]) := by
  refine delivers_nextSymbol.bind fun selector selectorFits => ?_
  refine (delivers_nextExpressionArray trees).bind fun arguments argumentsFit => ?_
  refine delivers_pure ⟨selectorFits, argumentsFit.1, argumentsFit.2, trivial⟩ ?_
  simp only [messagesWidth]
  lia

theorem delivers_messages (count : Nat) :
    Delivers 0 ((decodeCascadeMessage literals next).times count)
      (fun messages => messages.length = count ∧ MessagesFit literals InWord messages)
      (fun messages => messagesWidth literals integerWidth messages) := by
  refine ((delivers_decodeCascadeMessage trees).times count).mono fun messages read => ?_
  refine ⟨⟨read.1, messagesFit_iff.mpr read.2⟩, ?_⟩
  rw [messagesWidth_eq]
  lia

theorem delivers_decodeCascade : Delivers 1 (decodeCascade literals next) (Fits literals InWord)
    (width literals integerWidth) := by
  refine trees.bind fun receiver receiverFits => ?_
  refine delivers_nextCount.bind fun count inWord => ?_
  refine (delivers_messages trees count).bind fun messages read => ?_
  obtain ⟨rfl, messagesFit⟩ := read
  refine delivers_pure ⟨receiverFits, inWord, messagesFit⟩ ?_
  simp only [width]
  lia

theorem delivers_decodeMessage : Delivers 1 (decodeMessage literals next) (Fits literals InWord)
    (width literals integerWidth) := by
  refine delivers_nextBoolean.bind fun inlined _ => ?_
  refine delivers_nextSymbol.bind fun selector selectorFits => ?_
  refine trees.bind fun receiver receiverFits => ?_
  refine (delivers_nextExpressionArray trees).bind fun arguments argumentsFit => ?_
  refine delivers_pure ⟨selectorFits, receiverFits, argumentsFit⟩ ?_
  simp only [width]
  lia

theorem delivers_decodeReturn : Delivers 1 (decodeReturn next) (Fits literals InWord)
    (width literals integerWidth) := by
  refine delivers_nextBoolean.bind fun isLocal _ => ?_
  refine trees.bind fun expression expressionFits => ?_
  refine delivers_pure expressionFits ?_
  simp only [width]
  lia

theorem delivers_decodeExpression (id : UInt8) : Delivers 1 (decodeExpression literals next id)
    (Fits literals InWord) (width literals integerWidth) := by
  unfold decodeExpression
  split_ifs
  · exact delivers_decodeAssignment trees
  · exact delivers_decodeBlock trees
  · exact delivers_decodeCascade trees
  · exact delivers_decodeLiteral
  · exact delivers_decodeIdentifier
  · exact delivers_decodeMessage trees
  · exact delivers_decodeReturn trees
  · exact delivers_fail

omit trees in
/-- A tree that has been read fits, and took what it is wide. -/
theorem delivers_nextExpression (depth : Nat) :
    DeliversTrees literals (nextExpression literals depth) := by
  induction depth with
  | zero => exact delivers_fail
  | succ depth ih => exact delivers_byte.bind fun id _ => delivers_decodeExpression ih id

end Expressions

section Nodes

variable (literals : Literals)

open Node

theorem nextPutAll_length (values : List Int) :
    (nextPutAll (values.map UInt8.ofInt)).length =
      integerWidth values.length + values.length := by
  rw [nextPutAll, List.length_append, List.length_map, integerWidth]

theorem encodeBinding_length (binding : Binding) :
    (encodeBinding literals binding).length = binding.resolved.width literals := by
  cases binding with
  | «local» binding =>
    obtain ⟨isArgument, index, environment⟩ := binding
    cases isArgument <;>
      simp only [encodeBinding, encodeLocal, Binding.resolved, LocalBinding.resolved,
        SBinding.width, List.length_cons, List.length_append, integerWidth] <;>
      simp only [Bool.false_eq_true, if_false, if_true] <;> lia
  | dynamic name =>
    simp only [encodeBinding, Binding.resolved, SBinding.width, List.length_cons, nextSymbolPut,
      integerWidth, Nat.add_comm]
  | _ => rfl

theorem visitIdentifier_length (binding : Binding) :
    (visitIdentifier literals binding).length = 1 + binding.resolved.width literals := by
  rw [visitIdentifier, List.length_cons, encodeBinding_length, Nat.add_comm]

theorem assignees_length (assignees : List Binding) :
    (assignees.flatMap (visitIdentifier literals)).length =
      ((assignees.map (some ·.resolved)).map (assigneeWidth literals)).sum := by
  induction assignees with
  | nil => rfl
  | cons first others ih =>
    rw [List.flatMap_cons, List.length_append, ih, visitIdentifier_length]
    rfl

theorem visitLiteral_length (value : LiteralValue) :
    (visitLiteral literals value).length =
      (value.resolved literals).width literals fun _ => 1 := by
  by_cases absent : literals.indexOf value = 0
  · have zero : ((literals.indexOf value : Nat) : Int) = 0 := by lia
    simp only [visitLiteral, LiteralValue.resolved, SExpression.width, if_pos absent, if_pos zero,
      List.length_cons, List.length_append, integerWidth]
    lia
  · have nonzero : ((literals.indexOf value : Nat) : Int) ≠ 0 := by lia
    simp only [visitLiteral, LiteralValue.resolved, SExpression.width, if_neg absent,
      if_neg nonzero, List.length_cons, List.length_append, List.length_nil, integerWidth]
    lia

theorem messagesWidth_append (blockWidth : Int → Nat) (messages others : List SCascadeMessage) :
    SExpression.messagesWidth literals blockWidth (messages ++ others) =
      SExpression.messagesWidth literals blockWidth messages +
        SExpression.messagesWidth literals blockWidth others := by
  rw [messagesWidth_eq, messagesWidth_eq blockWidth messages, messagesWidth_eq blockWidth others,
    List.map_append, List.sum_append]

mutual

/-- The treecodes of a node are as long as what it stands for is wide, with a byte for the index
of every block. -/
theorem encode_length (isMethod : Bool) (node : Node) :
    (node.encode literals isMethod).length =
      (node.resolved literals isMethod).width literals fun _ => 1 := by
  cases node with
  | literal value => exact visitLiteral_length literals value
  | identifier binding => exact visitIdentifier_length literals binding
  | message isInlined selector receiver arguments =>
    have head := encode_length isMethod receiver
    have tail := encodeAll_length isMethod arguments
    simp only [encode, resolved, SExpression.width, List.length_cons, List.length_append, head, tail,
      resolvedAll_length, nextSymbolPut, integerWidth]
    lia
  | cascade receiver messages =>
    have head := encode_length isMethod receiver
    have tail := encodeMessages_length isMethod messages
    simp only [encode, resolved, SExpression.width, List.length_cons, List.length_append, head, tail,
      resolvedMessages_length, integerWidth]
    lia
  | assignment assignees expression =>
    have head := assignees_length literals assignees
    have tail := encode_length isMethod expression
    simp only [encode, resolved, SExpression.width, List.length_cons, List.length_append, head, tail,
      List.length_map, integerWidth]
    lia
  | «return» expression =>
    have tail := encode_length isMethod expression
    simp only [encode, resolved, SExpression.width, List.length_cons, tail]
    lia
  | inlinedBlock arguments statements =>
    have tail := encodeAll_length isMethod statements
    simp only [encode, resolved, SExpression.width, List.length_cons, List.length_append, tail,
      nextPutAll_length, resolvedAll_length, integerWidth]
    lia
  | block index captured statements =>
    have tail := encodeAll_length false statements
    simp only [encode, resolved, SExpression.width, List.length_cons, List.length_append, tail,
      encodeClosureElements, nextPutAll_length, resolvedAll_length, integerWidth]
    lia
  | brace array elements =>
    have size := visitLiteral_length literals (.integer elements.length)
    have tail := encodeElements_length isMethod 1 elements
    simp only [encode, resolved, SExpression.width, List.length_cons, List.length_append, tail,
      visitIdentifier_length, size, resolvedElements_length, nextSymbolPut, integerWidth,
      SExpression.widthAll, messagesWidth_append, SExpression.messagesWidth, List.length_nil,
      Nat.zero_add, Int.natCast_add, Int.cast_ofNat_Int]
    lia

theorem encodeAll_length (isMethod : Bool) (nodes : List Node) :
    (encodeAll literals isMethod nodes).length =
      SExpression.widthAll literals (fun _ => 1) (resolvedAll literals isMethod nodes) := by
  cases nodes with
  | nil => rfl
  | cons node nodes =>
    have head := encode_length isMethod node
    have tail := encodeAll_length isMethod nodes
    rw [encodeAll, resolvedAll, SExpression.widthAll, List.length_append, head, tail]

theorem encodeMessages_length (isMethod : Bool) (messages : List CascadeMessage) :
    (encodeMessages literals isMethod messages).length =
      SExpression.messagesWidth literals (fun _ => 1)
        (resolvedMessages literals isMethod messages) := by
  cases messages with
  | nil => rfl
  | cons message messages =>
    obtain ⟨selector, arguments⟩ := message
    have head := encodeAll_length isMethod arguments
    have tail := encodeMessages_length isMethod messages
    simp only [encodeMessages, resolvedMessages, SExpression.messagesWidth, List.length_append, head,
      tail, resolvedAll_length, nextSymbolPut, integerWidth]
    lia

theorem encodeElements_length (isMethod : Bool) (position : Nat) (elements : List Node) :
    (encodeElements literals isMethod position elements).length =
      SExpression.messagesWidth literals (fun _ => 1)
        (resolvedElements literals isMethod position elements) := by
  cases elements with
  | nil => rfl
  | cons element elements =>
    have place := visitLiteral_length literals (.integer position)
    have head := encode_length isMethod element
    have tail := encodeElements_length isMethod (position + 1) elements
    simp only [encodeElements, resolvedElements, SExpression.messagesWidth, List.length_append, place,
      head, tail, SExpression.widthAll, List.length_cons, List.length_nil, nextSymbolPut,
      integerWidth, Nat.zero_add, Nat.reduceAdd, Int.cast_ofNat_Int]
    lia

end

end Nodes

section Blocks

variable (literals : Literals)

open SExpression

mutual

/-- A tree that is no wider than its treecodes has one-byte block indices. -/
theorem fits_short (expression : SExpression) (fits : expression.Fits literals InWord) :
    expression.width literals (fun _ => 1) ≤ expression.width literals integerWidth ∧
      (expression.width literals integerWidth ≤ expression.width literals (fun _ => 1) →
        expression.Fits literals IsShort) := by
  cases expression with
  | literal index value => exact ⟨Nat.le_refl _, fun _ => fits⟩
  | identifier binding => exact ⟨Nat.le_refl _, fun _ => fits⟩
  | message receiver selector arguments isInlined =>
    obtain ⟨index, receiverFits, count, argumentsFit⟩ := fits
    obtain ⟨receiverWide, receiverShort⟩ := fits_short receiver receiverFits
    obtain ⟨argumentsWide, argumentsShort⟩ := allFit_short arguments argumentsFit
    simp only [width]
    refine ⟨by lia, fun narrow => ⟨index, ?_, count, ?_⟩⟩
    · exact receiverShort (by lia)
    · exact argumentsShort (by lia)
  | cascade receiver messages =>
    obtain ⟨receiverFits, count, messagesFit⟩ := fits
    obtain ⟨receiverWide, receiverShort⟩ := fits_short receiver receiverFits
    obtain ⟨messagesWide, messagesShort⟩ := messagesFit_short messages messagesFit
    simp only [width]
    refine ⟨by lia, fun narrow => ⟨?_, count, ?_⟩⟩
    · exact receiverShort (by lia)
    · exact messagesShort (by lia)
  | assignment assignees expression =>
    obtain ⟨count, assigneesFit, expressionFits⟩ := fits
    obtain ⟨wide, short⟩ := fits_short expression expressionFits
    simp only [width]
    refine ⟨by lia, fun narrow => ⟨count, assigneesFit, ?_⟩⟩
    exact short (by lia)
  | «return» isLocal expression =>
    obtain ⟨wide, short⟩ := fits_short expression fits
    simp only [width]
    exact ⟨by lia, fun narrow => short (by lia)⟩
  | inlinedBlock inlinedArgs statements =>
    obtain ⟨areBytes, count, statementsFit⟩ := fits
    obtain ⟨wide, short⟩ := allFit_short statements statementsFit
    simp only [width]
    refine ⟨by lia, fun narrow => ⟨areBytes, count, ?_⟩⟩
    exact short (by lia)
  | block index compiledCode capturedVariables statements =>
    obtain ⟨_, areBytes, count, statementsFit⟩ := fits
    obtain ⟨wide, short⟩ := allFit_short statements statementsFit
    have positive : 0 < integerWidth index := nextIntegerPut_length index
    simp only [width]
    refine ⟨by lia, fun narrow => ⟨?_, areBytes, count, ?_⟩⟩
    · rcases integerWidth_cases index with ⟨indexShort, _⟩ | ⟨_, indexWide⟩
      · exact indexShort
      · lia
    · exact short (by lia)

theorem allFit_short (expressions : List SExpression)
    (fits : AllFit literals InWord expressions) :
    widthAll literals (fun _ => 1) expressions ≤ widthAll literals integerWidth expressions ∧
      (widthAll literals integerWidth expressions ≤ widthAll literals (fun _ => 1) expressions →
        AllFit literals IsShort expressions) := by
  cases expressions with
  | nil => exact ⟨Nat.le_refl _, fun _ => trivial⟩
  | cons first others =>
    obtain ⟨firstFits, othersFit⟩ := fits
    obtain ⟨firstWide, firstShort⟩ := fits_short first firstFits
    obtain ⟨othersWide, othersShort⟩ := allFit_short others othersFit
    simp only [widthAll]
    refine ⟨by lia, fun narrow => ⟨?_, ?_⟩⟩
    · exact firstShort (by lia)
    · exact othersShort (by lia)

theorem messagesFit_short (messages : List SCascadeMessage)
    (fits : MessagesFit literals InWord messages) :
    messagesWidth literals (fun _ => 1) messages ≤ messagesWidth literals integerWidth messages ∧
      (messagesWidth literals integerWidth messages ≤
          messagesWidth literals (fun _ => 1) messages →
        MessagesFit literals IsShort messages) := by
  cases messages with
  | nil => exact ⟨Nat.le_refl _, fun _ => trivial⟩
  | cons message messages =>
    obtain ⟨selector, arguments⟩ := message
    obtain ⟨index, count, argumentsFit, messagesFit⟩ := fits
    obtain ⟨argumentsWide, argumentsShort⟩ := allFit_short arguments argumentsFit
    obtain ⟨messagesWide, messagesShort⟩ := messagesFit_short messages messagesFit
    simp only [messagesWidth]
    refine ⟨by lia, fun narrow => ⟨index, count, ?_, ?_⟩⟩
    · exact argumentsShort (by lia)
    · exact messagesShort (by lia)

end

end Blocks

section Methods

variable {literals : Literals}

theorem delivers_nextSymbolOrNil : Delivers 0 (nextSymbolOrNil literals)
    (fun pragma => ∀ symbol, pragma = some symbol → InWord (literals.indexOf symbol))
    (fun pragma => pragmaWidth literals (some pragma) - 1) := by
  refine delivers_nextInteger.bind fun index inWord => ?_
  split
  · refine (delivers_ofOption _).bind fun symbol found => ?_
    obtain ⟨fits, narrow⟩ := indexOf_fits inWord found
    refine delivers_pure ?_ (by simp only [pragmaWidth]; lia)
    intro other same
    cases same
    exact fits
  · have positive : 0 < integerWidth index := nextIntegerPut_length index
    refine delivers_pure ?_ (by simp only [pragmaWidth]; lia)
    intro symbol same
    cases same

theorem delivers_marked (depth : Nat) : Delivers 2 (do
      let pragma ← nextSymbolOrNil literals
      let statements ← nextExpressionArray (nextExpression literals depth)
      pure { pragma := some pragma, statements := statements } : Reader SMethod)
    (SMethod.Fits literals InWord) (SMethod.width literals integerWidth) := by
  refine delivers_nextSymbolOrNil.bind fun pragma pragmaFits => ?_
  refine (delivers_nextExpressionArray (delivers_nextExpression depth)).bind
    fun statements statementsFit => ?_
  refine delivers_pure ⟨fun symbol same => pragmaFits symbol (Option.some.inj same), statementsFit⟩ ?_
  simp only [SMethod.width]
  lia

theorem delivers_unmarked (depth : Nat) : Delivers 1 (do
      let statements ← nextExpressionArray (nextExpression literals depth)
      pure { pragma := none, statements := statements } : Reader SMethod)
    (SMethod.Fits literals InWord) (SMethod.width literals integerWidth) := by
  refine (delivers_nextExpressionArray (delivers_nextExpression depth)).bind
    fun statements statementsFit => ?_
  have unnamed : ∀ symbol, (none : Option (Option LiteralValue)) = some (some symbol) →
      InWord (literals.indexOf symbol) := fun symbol same => nomatch same
  refine delivers_pure ⟨unnamed, statementsFit⟩ ?_
  simp only [SMethod.width, pragmaWidth]
  lia

theorem delivers_decodeScript (depth : Nat) : Delivers 1 (decodeScript literals depth)
    (SMethod.Fits literals InWord) (SMethod.width literals integerWidth) := by
  intro bytes method rest read
  cases bytes with
  | nil => cases read
  | cons next others =>
    simp only [decodeScript] at read
    split at read
    · obtain ⟨fits, paid⟩ := delivers_marked depth others method rest read
      exact ⟨fits, by simp only [List.length_cons]; lia⟩
    · exact delivers_unmarked depth (next :: others) method rest read

theorem delivers_decodeMethodWithin (depth : Nat) :
    Delivers 0 (decodeMethodWithin literals depth) (SMethod.Fits literals InWord)
      (SMethod.width literals integerWidth) := by
  refine delivers_byte.bind fun type _ => ?_
  split
  · exact delivers_fail
  · exact delivers_decodeScript depth

variable {method : MethodNode}

theorem encodeMethod_length (method : MethodNode) :
    (encodeMethod method).length = method.resolved.width method.literals fun _ => 1 := by
  have statements := encodeAll_length method.literals true method.statements
  have count := @resolvedAll_length method.literals true method.statements
  simp only [encodeMethod, SMethod.width, MethodNode.resolved, List.length_cons,
    List.length_append, statements, count, integerWidth]
  cases method.pragma with
  | none =>
    simp only [Option.map_none, pragmaWidth, List.length_nil]
    lia
  | some name =>
    by_cases unnamed : name.isEmpty
    · simp only [Option.map_some, unnamed, if_true, pragmaWidth, List.length_cons, List.length_nil]
      lia
    · simp only [Option.map_some, unnamed, pragmaWidth, List.length_cons, nextSymbolPut,
        integerWidth, Bool.false_eq_true, if_false]
      lia

/-- A script whose count is taken for the id of a pragma is read as one with a pragma. -/
theorem decodeMethod_of_marked {decoded : SMethod} (unused : method.pragma = none)
    (marked : method.statements.length = 110)
    (read : decodeMethod method.literals (encodeMethod method) = some decoded) :
    decoded.pragma ≠ none := by
  obtain ⟨⟨other, rest⟩, within, same⟩ := Option.map_eq_some_iff.mp read
  have same : other = decoded := same
  subst same
  obtain ⟨pragma, script⟩ := method
  cases unused
  obtain ⟨first, others, bytes, isPragma⟩ := nextIntegerPut_pragma script.length
  have taken : decodeScript (MethodNode.literals ⟨none, script⟩)
      (encodeMethod ⟨none, script⟩).length
      (pragmaId :: (others ++ Node.encodeAll (MethodNode.literals ⟨none, script⟩) true script)) =
        some (other, rest) := by
    rw [← isPragma.mpr marked, ← List.cons_append, ← bytes]
    exact within
  obtain ⟨symbol, _, _, last⟩ := bind_eq_some.mp taken
  obtain ⟨statements, _, _, last⟩ := bind_eq_some.mp last
  cases last
  exact nofun

theorem fits_of_decodeMethod
    (read : decodeMethod method.literals (encodeMethod method) = some method.resolved) :
    method.resolved.Fits method.literals IsShort := by
  obtain ⟨⟨decoded, rest⟩, within, same⟩ := Option.map_eq_some_iff.mp read
  have same : decoded = method.resolved := same
  subst same
  obtain ⟨⟨pragmaFits, count, statementsFit⟩, paid⟩ := delivers_decodeMethodWithin _ _ _ _ within
  obtain ⟨_, short⟩ := allFit_short method.literals _ statementsFit
  rw [encodeMethod_length] at paid
  simp only [SMethod.width] at paid
  exact ⟨pragmaFits, count, short (by lia)⟩

/-- The treecodes of a method give back what was resolved just when the fields of every node fit
what is written of them and its count of statements is not taken for a pragma. -/
theorem decodeMethod_encodeMethod_iff (method : MethodNode) :
    decodeMethod method.literals (encodeMethod method) = some method.resolved ↔
      method.resolved.Fits method.literals IsShort ∧
        ¬ (method.pragma = none ∧ method.statements.length = 110) := by
  constructor
  · intro read
    refine ⟨fits_of_decodeMethod read, ?_⟩
    rintro ⟨unused, marked⟩
    refine decodeMethod_of_marked unused marked read ?_
    rw [MethodNode.resolved, unused]
    rfl
  · rintro ⟨fits, marked⟩
    exact decodeMethod_encodeMethod fits marked

/-- A method without a pragma whose statements are as many as the id of a pragma. -/
def selfStatements : MethodNode where
  pragma := none
  statements := List.replicate 110 (.identifier .self)

theorem treecodes_lose_method :
    ¬ ∀ method : MethodNode,
      decodeMethod method.literals (encodeMethod method) = some method.resolved := by
  intro roundTrip
  have marked : selfStatements.statements.length = 110 := List.length_replicate
  exact decodeMethod_of_marked rfl marked (roundTrip selfStatements) rfl

end Methods

end Egg.Treecode
