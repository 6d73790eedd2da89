import ScriptExport.Constant.Arithmetic

/-!
# Why a constant expression has no value
-/

namespace ScriptExport.Constant

/-- Why the digits of a literal could not be read. -/
inductive DigitFault where
  | invalidDigit
  | tooLarge
deriving DecidableEq, Repr

/-- Why an expression has no value. -/
inductive EvalError where
  | emptyExpression
  | unsupportedCharacter (c : Char)
  | trailingInput (text : String)
  /-- A literal without digits. -/
  | noDigits (literal : String)
  | badDigits (literal : String) (fault : DigitFault)
  /-- A literal that is larger than the largest value. -/
  | literalRange (literal : String)
  | unexpectedEnd
  | missingClose
  | unexpectedClose
  | unexpectedOperator (token : String)
  | unknownName (name : String)
  | tooDeep
  | negateOverflow (value : Int64)
  | overflow (lhs : Int64) (op : BinaryOp) (rhs : Int64)
  | divisionByZero
  | shiftAmount (amount : Int64)
deriving DecidableEq, Repr

/-- Parentheses and prefixed operators may nest this deep. -/
def maxDepth : Nat := 256

/-- The message about unreadable digits. -/
def DigitFault.message : DigitFault → String
  | invalidDigit => "invalid digit found in string"
  | tooLarge => "number too large to fit in target type"

/-- A value in decimal. -/
def decimal (v : Int64) : String :=
  toString v.toInt

namespace EvalError

/-- The message about an expression without a value. -/
def message : EvalError → String
  | emptyExpression => "empty expression"
  | unsupportedCharacter c => "unsupported character '" ++ c.toString ++ "'"
  | trailingInput text => "unexpected trailing input in '" ++ text ++ "'"
  | noDigits literal => "invalid integer literal '" ++ literal ++ "'"
  | badDigits literal fault => "invalid integer literal '" ++ literal ++ "': " ++ fault.message
  | literalRange literal => "integer literal '" ++ literal ++ "' does not fit in 64 bits"
  | unexpectedEnd => "unexpected end of expression"
  | missingClose => "missing closing parenthesis"
  | unexpectedClose => "unexpected ')'"
  | unexpectedOperator token => "unexpected operator '" ++ token ++ "'"
  | unknownName name => "unknown identifier '" ++ name ++ "'"
  | tooDeep => "expression nests deeper than " ++ toString maxDepth ++ " levels"
  | negateOverflow value => "overflow negating " ++ decimal value
  | overflow lhs op rhs =>
    "overflow evaluating " ++ decimal lhs ++ " " ++ op.token ++ " " ++ decimal rhs
  | divisionByZero => "division by zero"
  | shiftAmount amount => "invalid shift amount " ++ decimal amount

end EvalError

end ScriptExport.Constant
