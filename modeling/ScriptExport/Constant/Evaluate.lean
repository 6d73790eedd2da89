import ScriptExport.Constant.Token

/-!
# Values of constant expressions

The evaluator reads the tokens from left to right and keeps a stack of what is still open: parentheses,
prefixed operators that wait for their operand and infixed operators that wait for their right
operand. A prefixed operator is applied as soon as its operand is complete, an infixed one as soon as
the next token cannot bind tighter, so the leftmost failing operation decides the error.
-/

namespace ScriptExport.Constant

/-- What is still open to the left of the current token, innermost first. -/
inductive Frame where
  | paren
  | unary (op : UnaryOp)
  | binary (lhs : Int64) (op : BinaryOp)
deriving DecidableEq, Repr

/-- The nesting that a frame adds. -/
def Frame.depth : Frame → Nat
  | paren | unary _ => 1
  | binary _ _ => 0

/-- How many parentheses and prefixed operators are open. -/
def depth (stack : List Frame) : Nat :=
  stack.foldr (fun f n => f.depth + n) 0

/-- The value of a prefixed operator. -/
def applyUnary (op : UnaryOp) (a : Int64) : Except EvalError Int64 :=
  match op.apply a with
  | some v => .ok v
  | none => .error (.negateOverflow a)

/-- The value of an infixed operator. -/
def applyBinary (op : BinaryOp) (a b : Int64) : Except EvalError Int64 :=
  match op.apply a b with
  | .ok v => .ok v
  | .error .overflow => .error (.overflow a op b)
  | .error .divisionByZero => .error .divisionByZero
  | .error .shiftAmount => .error (.shiftAmount b)

/-- Apply the prefixed operators that wait for the value. -/
def settle (v : Int64) : List Frame → Except EvalError (Int64 × List Frame)
  | .unary op :: stack => do settle (← applyUnary op v) stack
  | stack => .ok (v, stack)

/-- Apply the infixed operators that wait for the value and bind at least as tightly as `power`. -/
def reduce (power : Nat) (v : Int64) : List Frame → Except EvalError (Int64 × List Frame)
  | .binary lhs op :: stack =>
    if power ≤ op.power then do reduce power (← applyBinary op lhs v) stack
    else .ok (v, .binary lhs op :: stack)
  | stack => .ok (v, stack)

/-- The value of a name: as it stands, else by its last segment. -/
def resolve (lookup : String → Option Int64) (name : String) : Except EvalError Int64 :=
  match lookup name with
  | some v => .ok v
  | none =>
    let short := if Text.hasColons name.toList then lookup (Text.lastSegment name) else none
    match short with
    | some v => .ok v
    | none => .error (.unknownName name)

/-- What the evaluator has before the next token: an operand to come, or a value. -/
inductive Focus where
  | operand
  | value (v : Int64)
deriving DecidableEq, Repr

/-- Take a token where an operand has to start. -/
def takeOperand (lookup : String → Option Int64) (stack : List Frame) (t : Token) :
    Except EvalError (Focus × List Frame) :=
  let settled (v : Int64) := (settle v stack).map fun (v, stack) => (Focus.value v, stack)
  match t with
  | .number v => settled v
  | .name text => do settled (← resolve lookup text)
  | .openParen => .ok (.operand, .paren :: stack)
  | .minus => .ok (.operand, .unary .negate :: stack)
  | .plus => .ok (.operand, .unary .plus :: stack)
  | .tilde => .ok (.operand, .unary .complement :: stack)
  | .infixed op => .error (.unexpectedOperator op.token)
  | .closeParen => .error .unexpectedClose

/-- Take a token after a value. `text` is the whole expression, for the message about a token that
cannot follow. -/
def takeOperator (text : String) (stack : List Frame) (v : Int64) (t : Token) :
    Except EvalError (Focus × List Frame) :=
  match t.binary? with
  | some op => do
    let (v, stack) ← reduce op.power v stack
    return (.operand, .binary v op :: stack)
  | none => do
    match ← reduce 0 v stack with
    | (v, .paren :: stack) =>
      if t = .closeParen then do
        let (v, stack) ← settle v stack
        return (.value v, stack)
      else .error .missingClose
    | _ => .error (.trailingInput (Text.trim text))

/-- The value of the tokens that are left. -/
def run (lookup : String → Option Int64) (text : String) (focus : Focus) (stack : List Frame) :
    List Token → Except EvalError Int64
  | [] =>
    match focus with
    | .operand => if maxDepth ≤ depth stack then .error .tooDeep else .error .unexpectedEnd
    | .value v => do
      match ← reduce 0 v stack with
      | (v, []) => return v
      | _ => .error .missingClose
  | t :: ts =>
    match focus with
    | .operand =>
      if maxDepth ≤ depth stack then .error .tooDeep
      else do
        let (focus, stack) ← takeOperand lookup stack t
        run lookup text focus stack ts
    | .value v => do
      let (focus, stack) ← takeOperator text stack v t
      run lookup text focus stack ts

/-- The value of a constant expression whose names are known to `lookup`. A qualified name that is not
known is tried again by its last segment. -/
def evaluate (lookup : String → Option Int64) (text : String) : Except EvalError Int64 := do
  let ts ← tokens text
  if ts.isEmpty then .error .emptyExpression
  else run lookup text .operand [] ts

end ScriptExport.Constant
