import Egg.Data.Outcomes
import Egg.Linearizer.Linearizer

/-! What a tree means: the values it answers and the ways it stops, given what sends, variables
and closures do. -/
namespace Egg.Linearizer

open Egg.Treecode Egg.Data

variable {Value World Abandoned : Type}

/-- How the code of a method or a block stops: it returns, it returns from its home, or a send
does not come back to it. -/
inductive Ended (Value World Abandoned : Type) where
  | returned (value : Value) (world : World)
  | nonLocalReturned (value : Value) (world : World)
  | abandoned (how : Abandoned)

abbrev Meaning (Value World Abandoned α : Type) :=
  StateT World (Outcomes (Ended Value World Abandoned)) α

/-- What is answered, from the value that was answered before. -/
abbrev Step (Value World Abandoned : Type) := Value → Meaning Value World Abandoned Value

/-- What an activation rests on; a primitive that fails answers `none`. -/
structure Surroundings (Value World Abandoned : Type) where
  nilObj : Value
  trueObj : Value
  falseObj : Value
  literal : LiteralValue → Value
  self : World → Value
  temporary : Int → World → Value
  setTemporary : Int → Value → World → World
  valueOf : SBinding → Meaning Value World Abandoned Value
  assign : List (Option SBinding) → Value → Meaning Value World Abandoned Unit
  closure : Option LiteralValue → List Int → Meaning Value World Abandoned Value
  send : LiteralValue → Bool → Value → List Value → Meaning Value World Abandoned Value
  primitive : Option LiteralValue → Meaning Value World Abandoned (Option Value)

namespace Surroundings

variable (surroundings : Surroundings Value World Abandoned)

def boolean (aBoolean : Bool) : Value :=
  if aBoolean then surroundings.trueObj else surroundings.falseObj

def one : Value := surroundings.literal (.integer 1)

end Surroundings

/-- Leave the activation for good. -/
def leave (how : World → Ended Value World Abandoned) : Meaning Value World Abandoned Value :=
  fun world => Outcomes.stop (how world)

/-! ### Messages with a meaning of their own, from what their parts mean -/

section Messages

variable (surroundings : Surroundings Value World Abandoned) [DecidableEq Value]

/-- A send, from what its receiver means and what its arguments do, with the last of them. -/
def evaluateSend (selector : LiteralValue) (isSuper : Bool) (receiver : Step Value World Abandoned)
    (arguments : Value → Meaning Value World Abandoned (List Value × Value)) :
    Step Value World Abandoned := fun current => do
  let value ← receiver current
  let gathered ← arguments value
  surroundings.send selector isSuper value gathered.1

/-- Anything but the opposite boolean is taken for the boolean. -/
def evaluateIf (aBoolean : Bool) (receiver script : Step Value World Abandoned) :
    Step Value World Abandoned := fun current => do
  let value ← receiver current
  if value = surroundings.boolean (!aBoolean) then pure surroundings.nilObj else script value

def evaluateIfTrueIfFalse (aBoolean : Bool) (receiver first second : Step Value World Abandoned) :
    Step Value World Abandoned := fun current => do
  let value ← receiver current
  if value = surroundings.boolean (!aBoolean) then second value else first value

/-- A value is kept in the only argument of a block, if there is just one. -/
def keepArgument (inlinedArgs : List Int) (value : Value) : Meaning Value World Abandoned Unit :=
  match inlinedArgs with
  | [index] => modify (surroundings.setTemporary index value)
  | _ => pure ()

/-- The receiver, which is kept in the argument of a block, and what comparing it with nil says. -/
def evaluateCompared (receiver : Step Value World Abandoned) (inlinedArgs : List Int)
    (current : Value) : Meaning Value World Abandoned (Value × Value) := do
  let value ← receiver current
  keepArgument surroundings inlinedArgs value
  let isNil ← surroundings.send (.symbol "==") false value [surroundings.nilObj]
  pure (value, isNil)

def evaluateIfNil (aBoolean : Bool) (receiver : Step Value World Abandoned)
    (inlinedArgs : List Int) (script : Step Value World Abandoned) :
    Step Value World Abandoned := fun current => do
  let compared ← evaluateCompared surroundings receiver inlinedArgs current
  if compared.2 = surroundings.boolean (!aBoolean) then pure compared.1 else script compared.2

def evaluateIfNilIfNotNil (aBoolean : Bool) (receiver : Step Value World Abandoned)
    (inlinedArgs : List Int) (first second : Step Value World Abandoned) :
    Step Value World Abandoned := fun current => do
  let compared ← evaluateCompared surroundings receiver inlinedArgs current
  if compared.2 = surroundings.boolean (!aBoolean) then second compared.2 else first compared.2

/-- Rounds that pass on a state until one of them answers. -/
def rounds {σ α : Type} (round : σ → Meaning Value World Abandoned (σ ⊕ α)) (s : σ) :
    Meaning Value World Abandoned α := fun world =>
  Outcomes.iterate (fun at_ => (fun after => after.1.map (·, after.2) (·, after.2)) <$>
    (round at_.1).run at_.2) (s, world)

def evaluateUnitaryWhile (aBoolean : Bool) (receiver : Step Value World Abandoned) :
    Step Value World Abandoned := rounds fun current => do
  let value ← receiver current
  pure (if value = surroundings.boolean aBoolean then .inl value else .inr value)

/-- The answer is that of the last test. -/
def evaluateBinaryWhile (aBoolean : Bool) (receiver body : Step Value World Abandoned) :
    Step Value World Abandoned := rounds fun current => do
  let value ← receiver current
  if value = surroundings.boolean (!aBoolean) then pure (.inr value) else .inl <$> body value

def evaluateRepeat (receiver : Step Value World Abandoned) : Step Value World Abandoned :=
  rounds fun current => .inl <$> receiver current

/-- The body, and one more in the temporary that counts. -/
def evaluateAdvance (index : Int) (body : Step Value World Abandoned) :
    Step Value World Abandoned := fun current => do
  let _ ← body current
  let counter ← surroundings.temporary index <$> get
  let next ← surroundings.send (.symbol "+") false counter [surroundings.one]
  modify (surroundings.setTemporary index next)
  pure next

/-- The counter is the argument of the block, which may change it. -/
def evaluateToDo (receiver : Step Value World Abandoned) (index : Int)
    (limit body : Step Value World Abandoned) : Step Value World Abandoned := fun current => do
  let start ← receiver current
  modify (surroundings.setTemporary index start)
  let last ← limit start
  rounds (fun _ => do
    let counter ← surroundings.temporary index <$> get
    let exceeds ← surroundings.send (.symbol ">") false counter [last]
    if exceeds = surroundings.trueObj then pure (.inr exceeds)
    else .inl <$> evaluateAdvance surroundings index body exceeds) last

def evaluateTimesRepeat (receiver body : Step Value World Abandoned) :
    Step Value World Abandoned := fun _ => do
  let last ← receiver surroundings.one
  rounds (fun counter => do
    let exceeds ← surroundings.send (.symbol ">") false counter [last]
    if exceeds = surroundings.trueObj then pure (.inr exceeds)
    else .inl <$> (body exceeds >>= fun _ =>
      surroundings.send (.symbol "+") false counter [surroundings.one])) surroundings.one

/-- `andNot:` and `orNot:` negate what their block answers. -/
def evaluateNot (aBoolean : Bool) (receiver script : Step Value World Abandoned) :
    Step Value World Abandoned := fun current => do
  let value ← receiver current
  if value = surroundings.boolean aBoolean then pure value else
    let other ← script value
    surroundings.send (.symbol "not") false other []

/-- One of the blocks of `and:` or `or:`, and those behind it. -/
def evaluateUnless (aBoolean : Bool) (script rest : Step Value World Abandoned) :
    Step Value World Abandoned := fun current =>
  if current = surroundings.boolean aBoolean then pure current else script current >>= rest

end Messages

section Trees

variable (surroundings : Surroundings Value World Abandoned) [DecidableEq Value]

mutual

/-- What an expression means, in the code of a method or `inBlock`; a block that is evaluated in
place means what its statements do. -/
def evaluate (inBlock inPlace : Bool) : SExpression → Step Value World Abandoned
  | .literal _ value => fun _ => pure (surroundings.literal value)
  | .identifier binding => fun _ => surroundings.valueOf binding
  | .assignment assignees expression => fun current => do
    let value ← evaluate inBlock false expression current
    surroundings.assign assignees value
    pure value
  | .return isLocal expression => fun current => do
    let value ← evaluate inBlock false expression current
    leave (if isLocal && !inBlock then .returned value else .nonLocalReturned value)
  | .inlinedBlock _ statements =>
    if inPlace then evaluateStatements inBlock statements
    else fun _ => surroundings.closure none []
  | .block _ compiledCode capturedVariables statements =>
    if inPlace then evaluateStatements inBlock statements
    else fun _ => surroundings.closure (some compiledCode) capturedVariables
  | .cascade receiver messages => fun current => do
    let value ← evaluate inBlock false receiver current
    evaluateMessages inBlock messages value value
  | .message receiver selector arguments isInlined =>
    if isInlined then
      match inlined selector, arguments with
      | some (.if_ aBoolean), script :: _ =>
        evaluateIf surroundings aBoolean (evaluate inBlock false receiver)
          (evaluate inBlock true script)
      | some (.ifNil aBoolean), arg :: _ =>
        evaluateIfNil surroundings aBoolean (evaluate inBlock false receiver) (inlinedArgs arg)
          (evaluate inBlock true arg)
      | some (.ifNilIfNotNil aBoolean), arg0 :: arg1 :: _ =>
        evaluateIfNilIfNotNil surroundings aBoolean (evaluate inBlock false receiver)
          (inlinedArgs (if aBoolean then arg1 else arg0)) (evaluate inBlock true arg0)
          (evaluate inBlock true arg1)
      | some (.ifTrueIfFalse aBoolean), arg0 :: arg1 :: _ =>
        evaluateIfTrueIfFalse surroundings aBoolean (evaluate inBlock false receiver)
          (evaluate inBlock true arg0) (evaluate inBlock true arg1)
      | some (.unitaryWhile aBoolean), _ =>
        evaluateUnitaryWhile surroundings aBoolean (evaluate inBlock true receiver)
      | some (.binaryWhile aBoolean), arg :: _ =>
        evaluateBinaryWhile surroundings aBoolean (evaluate inBlock true receiver)
          (evaluate inBlock true arg)
      | some .repeat, _ => evaluateRepeat (evaluate inBlock true receiver)
      | some .toDo, limit :: body :: _ =>
        match inlinedArgs body with
        | index :: _ =>
          evaluateToDo surroundings (evaluate inBlock false receiver) index
            (evaluate inBlock false limit) (evaluate inBlock true body)
        | [] => fun _ _ => Outcomes.never
      | some .timesRepeat, body :: _ =>
        evaluateTimesRepeat surroundings (evaluate inBlock false receiver)
          (evaluate inBlock true body)
      | some .andNot, arg :: _ =>
        evaluateNot surroundings false (evaluate inBlock false receiver)
          (evaluate inBlock true arg)
      | some .orNot, arg :: _ =>
        evaluateNot surroundings true (evaluate inBlock false receiver)
          (evaluate inBlock true arg)
      | some .or, arguments => fun current => do
        let value ← evaluate inBlock false receiver current
        evaluateConditions inBlock true arguments value
      | some .and, arguments => fun current => do
        let value ← evaluate inBlock false receiver current
        evaluateConditions inBlock false arguments value
      | _, _ => fun _ _ => Outcomes.never
    else
      evaluateSend surroundings selector (isSuper receiver) (evaluate inBlock false receiver)
        (evaluateArguments inBlock arguments)

/-- The answer is that of the last statement; without one, what there was is left. -/
def evaluateStatements (inBlock : Bool) : List SExpression → Step Value World Abandoned
  | [] => pure
  | statement :: statements => fun current => do
    let value ← evaluate inBlock false statement current
    evaluateStatements inBlock statements value

/-- The values of arguments, and the last of them. -/
def evaluateArguments (inBlock : Bool) :
    List SExpression → Value → Meaning Value World Abandoned (List Value × Value)
  | [] => fun current => pure ([], current)
  | argument :: arguments => fun current => do
    let value ← evaluate inBlock false argument current
    let gathered ← evaluateArguments inBlock arguments value
    pure (value :: gathered.1, gathered.2)

/-- Messages to one receiver; the answer is that of the last one. -/
def evaluateMessages (inBlock : Bool) :
    List SCascadeMessage → Value → Step Value World Abandoned
  | [] => fun _ => pure
  | .mk selector arguments :: messages => fun receiver current => do
    let gathered ← evaluateArguments inBlock arguments current
    let answer ← surroundings.send selector false receiver gathered.1
    evaluateMessages inBlock messages receiver answer

def evaluateConditions (inBlock aBoolean : Bool) : List SExpression → Step Value World Abandoned
  | [] => pure
  | block :: blocks => evaluateUnless surroundings aBoolean (evaluate inBlock true block)
      (evaluateConditions inBlock aBoolean blocks)

end

/-- A block answers its last value, or nil if it has none. -/
def evaluateBlock (statements : List SExpression) (current : Value) :
    Meaning Value World Abandoned Value := do
  let value ← evaluateStatements surroundings true statements current
  leave (.returned (if statements.isEmpty then surroundings.nilObj else value))

/-- A primitive that is known returns what it answers, if it does not fail. -/
def evaluatePragma (hasPrimitive : Option LiteralValue → Bool) (isFFI : Bool) (method : SMethod) :
    Step Value World Abandoned := fun current =>
  match primitiveName isFFI method with
  | none => pure current
  | some name =>
    if hasPrimitive name then do
      let tried ← surroundings.primitive name
      tried.elim (pure current) fun value => leave (.returned value)
    else pure current

/-- A method answers self if no statement returns. -/
def evaluateMethod (hasPrimitive : Option LiteralValue → Bool) (isFFI : Bool)
    (method : SMethod) : Step Value World Abandoned := fun current => do
  let current ← evaluatePragma surroundings hasPrimitive isFFI method current
  let _ ← evaluateStatements surroundings false method.statements current
  let self ← surroundings.self <$> get
  leave (.returned self)

end Trees

mutual

/-- The blocks of an expression that get code of their own, inner ones first. -/
def closures (inPlace : Bool) : SExpression → List (LiteralValue × List SExpression)
  | .literal _ _ | .identifier _ => []
  | .assignment _ expression | .return _ expression => closures false expression
  | .inlinedBlock _ statements => closuresOf statements
  | .block _ compiledCode _ statements =>
    closuresOf statements ++ if inPlace then [] else [(compiledCode, statements)]
  | .cascade receiver messages => closures false receiver ++ closuresOfMessages messages
  | .message receiver selector arguments isInlined =>
    if isInlined then
      match inlined selector, arguments with
      | some (.if_ _), first :: _ | some (.ifNil _), first :: _ | some .timesRepeat, first :: _
      | some .andNot, first :: _ | some .orNot, first :: _ =>
        closures false receiver ++ closures true first
      | some (.ifNilIfNotNil _), first :: second :: _
      | some (.ifTrueIfFalse _), first :: second :: _ =>
        closures false receiver ++ (closures true first ++ closures true second)
      | some (.unitaryWhile _), _ | some .repeat, _ => closures true receiver
      | some (.binaryWhile _), first :: _ => closures true receiver ++ closures true first
      | some .toDo, limit :: body :: _ =>
        closures false receiver ++ (closures false limit ++ closures true body)
      | some .or, arguments | some .and, arguments =>
        closures false receiver ++ closuresInPlace arguments
      | _, _ => []
    else closures false receiver ++ closuresOf arguments

def closuresOf : List SExpression → List (LiteralValue × List SExpression)
  | [] => []
  | expression :: expressions => closures false expression ++ closuresOf expressions

def closuresInPlace : List SExpression → List (LiteralValue × List SExpression)
  | [] => []
  | expression :: expressions => closures true expression ++ closuresInPlace expressions

def closuresOfMessages : List SCascadeMessage → List (LiteralValue × List SExpression)
  | [] => []
  | .mk _ arguments :: messages => closuresOf arguments ++ closuresOfMessages messages

end

end Egg.Linearizer
