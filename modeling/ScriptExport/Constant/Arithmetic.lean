/-!
# Checked arithmetic on 64-bit constants

Values of constant expressions are signed 64-bit integers. An operation whose mathematical result does
not fit fails; only the left shift drops high bits. `checked` is the one place where a result is
tested, and `BinaryOp.apply` says for each operation what its result is.
-/

namespace ScriptExport.Constant

/-- The integer as a 64-bit value, if it fits. -/
def checked (n : Int) : Option Int64 :=
  if Int64.minValue.toInt ≤ n ∧ n ≤ Int64.maxValue.toInt then some (Int64.ofInt n) else none

/-- A prefixed operator. -/
inductive UnaryOp where
  | negate
  | plus
  | complement
deriving DecidableEq, Repr

/-- An infixed operator. -/
inductive BinaryOp where
  | mul
  | div
  | mod
  | add
  | sub
  | shiftLeft
  | shiftRight
  | bitAnd
  | bitXor
  | bitOr
deriving DecidableEq, Repr

/-- How an operation fails. -/
inductive Fault where
  | overflow
  | divisionByZero
  | shiftAmount
deriving DecidableEq, Repr

namespace UnaryOp

/-- The value of a prefixed operator; only the negation of the smallest value fails. -/
def apply (op : UnaryOp) (a : Int64) : Option Int64 :=
  match op with
  | negate => checked (-a.toInt)
  | plus => some a
  | complement => some (~~~a)

end UnaryOp

namespace BinaryOp

/-- The token of an operator. -/
def token : BinaryOp → String
  | mul => "*"
  | div => "/"
  | mod => "%"
  | add => "+"
  | sub => "-"
  | shiftLeft => "<<"
  | shiftRight => ">>"
  | bitAnd => "&"
  | bitXor => "^"
  | bitOr => "|"

/-- How tightly an operator binds. All operators associate to the left. -/
def power : BinaryOp → Nat
  | bitOr => 1
  | bitXor => 2
  | bitAnd => 3
  | shiftLeft | shiftRight => 4
  | add | sub => 5
  | mul | div | mod => 6

/-- The shift distance that a value stands for. -/
def shiftDistance (b : Int64) : Except Fault Nat :=
  if 0 ≤ b.toInt ∧ b.toInt < 64 then .ok b.toInt.toNat else .error .shiftAmount

/-- A result that has to fit. -/
def exact (n : Int) : Except Fault Int64 :=
  match checked n with
  | some v => .ok v
  | none => .error .overflow

/-- The value of an infixed operator. Division truncates toward zero, a remainder exists where the
quotient fits, and a left shift keeps the low 64 bits. -/
def apply (op : BinaryOp) (a b : Int64) : Except Fault Int64 :=
  match op with
  | add => exact (a.toInt + b.toInt)
  | sub => exact (a.toInt - b.toInt)
  | mul => exact (a.toInt * b.toInt)
  | div => if b = 0 then .error .divisionByZero else exact (a.toInt.tdiv b.toInt)
  | mod =>
    if b = 0 then .error .divisionByZero
    else (exact (a.toInt.tdiv b.toInt)).map fun _ => Int64.ofInt (a.toInt.tmod b.toInt)
  | shiftLeft => (shiftDistance b).map fun n => Int64.ofInt (a.toInt * Int.pow 2 n)
  | shiftRight => (shiftDistance b).map fun n => Int64.ofInt (a.toInt / Int.pow 2 n)
  | bitAnd => .ok (a &&& b)
  | bitXor => .ok (a ^^^ b)
  | bitOr => .ok (a ||| b)

end BinaryOp

/-- The value after `a`; the largest value has no other successor than itself. -/
def successor (a : Int64) : Int64 :=
  (checked (a.toInt + 1)).getD a

end ScriptExport.Constant
