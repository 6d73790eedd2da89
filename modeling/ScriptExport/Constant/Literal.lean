import ScriptExport.Constant.Error
import ScriptExport.Text.Segment

/-!
# Integer literals

A literal is a digit followed by ASCII letters, digits and `'` separators. Separators are dropped,
case does not matter, a suffix of `u` and `l` is dropped, and the radix follows from the head: `0x`, `0b`,
a leading `0` before more characters, or none.
-/

namespace ScriptExport.Constant

/-- The value of a digit, if the radix has it. Letters are in lower case. -/
def digitValue? (radix : Nat) (c : Char) : Option Nat :=
  let d :=
    if c.isDigit then c.toNat - '0'.toNat
    else if c.isLower then c.toNat - 'a'.toNat + 10
    else radix
  if d < radix then some d else none

/-- The number written by the digits after `acc`, which has to stay below 2^64. The first character
at fault decides the failure. -/
def readDigits (radix : Nat) : Nat → List Char → Except DigitFault Nat
  | acc, [] => .ok acc
  | acc, c :: cs =>
    match digitValue? radix c with
    | none => .error .invalidDigit
    | some d =>
      let n := acc * radix + d
      if n < UInt64.size then readDigits radix n cs else .error .tooLarge

/-- The literal in lower case without separators and suffix. -/
def literalBody (literal : List Char) : List Char :=
  let plain := (literal.filter (· != '\'')).map Char.toLower
  (plain.reverse.dropWhile (fun c => c == 'u' || c == 'l')).reverse

/-- The radix of a literal body and the digits after its head. -/
def splitRadix : List Char → Nat × List Char
  | '0' :: 'x' :: cs => (16, cs)
  | '0' :: 'b' :: cs => (2, cs)
  | '0' :: c :: cs => (8, c :: cs)
  | cs => (10, cs)

/-- The value of a literal. -/
def readLiteral (literal : List Char) : Except EvalError Int64 :=
  let (radix, digits) := splitRadix (literalBody literal)
  if digits.isEmpty then .error (.noDigits (String.ofList literal))
  else match readDigits radix 0 digits with
    | .error fault => .error (.badDigits (String.ofList literal) fault)
    | .ok n => match checked n with
      | some v => .ok v
      | none => .error (.literalRange (String.ofList literal))

end ScriptExport.Constant
