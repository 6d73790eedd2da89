import ScriptExport.Document.Value
import ScriptExport.Text.Digit
import ScriptExport.Text.Segment

/-!
# Plain values of TOML

The words that stand for a truth value, a number, a date or a time.
-/

namespace ScriptExport.Toml

/-- The digits of a number without the underscores between them. -/
def ungroup? (isDigit : Char → Bool) (cs : List Char) : Option (List Char) :=
  let groups := Text.segments (· == '_') cs
  if groups.all (fun g => !g.isEmpty && g.all isDigit) then some groups.flatten else none

/-- A sign and the rest of a word. -/
def splitSign : List Char → Bool × List Char
  | '-' :: cs => (true, cs)
  | '+' :: cs => (false, cs)
  | cs => (false, cs)

/-- Decimal digits without a `0` before others. -/
def decimalDigits? (cs : List Char) : Option (List Char) :=
  match ungroup? Char.isDigit cs with
  | some ['0'] => some ['0']
  | some ('0' :: _) => none
  | ds => ds

/-- A number in the given radix. -/
def radixNumber? (radix : Nat) (cs : List Char) : Option Int := do
  let ds ← ungroup? (Text.isDigitOf radix) cs
  let n ← Text.numberValue? radix ds
  return (n : Int)

/-- The integer that a word writes. -/
def integer? (word : List Char) : Option Int :=
  match word with
  | '0' :: 'x' :: cs => radixNumber? 16 cs
  | '0' :: 'o' :: cs => radixNumber? 8 cs
  | '0' :: 'b' :: cs => radixNumber? 2 cs
  | word => do
    let (negative, cs) := splitSign word
    let ds ← decimalDigits? cs
    let n ← Text.numberValue? 10 ds
    return if negative then -(n : Int) else n

/-- Whether the characters are the exponent of a number, without its mark. -/
def isExponent (cs : List Char) : Bool :=
  (ungroup? Char.isDigit (splitSign cs).2).isSome

/-- Whether a word writes a number that is no integer. -/
def isFloat (word : List Char) : Bool :=
  let cs := (splitSign word).2
  if cs = ['i', 'n', 'f'] ∨ cs = ['n', 'a', 'n'] then true
  else
    let whole := cs.takeWhile (fun c => c.isDigit || c == '_')
    let rest := cs.dropWhile (fun c => c.isDigit || c == '_')
    (decimalDigits? whole).isSome &&
      match rest with
      | '.' :: rest =>
        let part := rest.takeWhile (fun c => c.isDigit || c == '_')
        (ungroup? Char.isDigit part).isSome &&
          match rest.dropWhile (fun c => c.isDigit || c == '_') with
          | [] => true
          | e :: cs => (e == 'e' || e == 'E') && isExponent cs
      | e :: cs => (e == 'e' || e == 'E') && isExponent cs
      | [] => false

/-- The number that two digits write, if it is at most `limit`. -/
def pair? (limit : Nat) (a b : Char) : Option Nat :=
  (Text.numberValue? 10 [a, b]).filter (· ≤ limit)

/-- How many days a month has. -/
def daysIn (year month : Nat) : Nat :=
  if month = 2 then
    if year % 4 = 0 ∧ (year % 100 ≠ 0 ∨ year % 400 = 0) then 29 else 28
  else if month = 4 ∨ month = 6 ∨ month = 9 ∨ month = 11 then 30
  else 31

/-- What follows a date. -/
def afterDate? : List Char → Option (List Char)
  | y₁ :: y₂ :: y₃ :: y₄ :: '-' :: m₁ :: m₂ :: '-' :: d₁ :: d₂ :: rest => do
    let year ← Text.numberValue? 10 [y₁, y₂, y₃, y₄]
    let month ← pair? 12 m₁ m₂
    let day ← pair? (daysIn year month) d₁ d₂
    if month = 0 ∨ day = 0 then none else some rest
  | _ => none

/-- What follows the fraction of a second, if there is one. -/
def afterFraction? : List Char → Option (List Char)
  | '.' :: cs =>
    if (cs.takeWhile Char.isDigit).isEmpty then none else some (cs.dropWhile Char.isDigit)
  | cs => some cs

/-- What follows a time; its seconds may be missing. -/
def afterTime? : List Char → Option (List Char)
  | h₁ :: h₂ :: ':' :: m₁ :: m₂ :: rest => do
    let _ ← pair? 23 h₁ h₂
    let _ ← pair? 59 m₁ m₂
    match rest with
    | ':' :: s₁ :: s₂ :: rest => do
      let _ ← pair? 60 s₁ s₂
      afterFraction? rest
    | ':' :: _ => none
    | rest => some rest
  | _ => none

/-- Whether the characters are an offset from universal time, or nothing. -/
def isOffset : List Char → Bool
  | [] => true
  | [c] => c == 'Z' || c == 'z'
  | [sign, h₁, h₂, ':', m₁, m₂] =>
    (sign == '+' || sign == '-') && (pair? 23 h₁ h₂).isSome && (pair? 59 m₁ m₂).isSome
  | _ => false

/-- Whether a word writes a date, a time or both. -/
def isDateTime (word : List Char) : Bool :=
  match afterDate? word with
  | some [] => true
  | some (c :: rest) =>
    (c == 'T' || c == 't' || c == ' ') && (afterTime? rest).any isOffset
  | none => afterTime? word == some []

/-- The key under which a date or time has its text. -/
def dateTimeKey : String := "$__toml_private_datetime"

/-- The value that a word stands for. A date or time is a table with its text. -/
def wordValue? (word : List Char) : Option Value :=
  if word = ['t', 'r', 'u', 'e'] then some (.bool true)
  else if word = ['f', 'a', 'l', 's', 'e'] then some (.bool false)
  else match integer? word with
    | some n => if -Int.pow 2 127 ≤ n ∧ n < Int.pow 2 128 then some (.int n) else none
    | none =>
      if isFloat word then some .float
      else if isDateTime word then some (.table [(dateTimeKey, .text (String.ofList word))])
      else none

end ScriptExport.Toml
