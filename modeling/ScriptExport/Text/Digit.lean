/-!
# Digits

The values of ASCII digits and of the numbers that they write.
-/

namespace ScriptExport.Text

/-- The value of a digit, if the radix has it. Letters count in either case. -/
def digitValue? (radix : Nat) (c : Char) : Option Nat :=
  let d :=
    if c.isDigit then c.toNat - '0'.toNat
    else if c.isLower then c.toNat - 'a'.toNat + 10
    else if c.isUpper then c.toNat - 'A'.toNat + 10
    else radix
  if d < radix then some d else none

/-- Whether the radix has the digit. -/
def isDigitOf (radix : Nat) (c : Char) : Bool :=
  (digitValue? radix c).isSome

/-- The number that digits write. -/
def numberValue? (radix : Nat) (ds : List Char) : Option Nat :=
  ds.foldlM (fun n d => (digitValue? radix d).map (radix * n + ·)) 0

end ScriptExport.Text
