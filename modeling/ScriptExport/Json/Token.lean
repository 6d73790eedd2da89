import ScriptExport.Document.Value
import ScriptExport.Text.Digit

/-!
# Tokens of JSON text

The reader takes one character at a time. `Mode` is what it is in the middle of: nothing, a word (a
literal or a number) or a string. A string is collected as written and decoded at its closing quote.
-/

namespace ScriptExport.Json

/-- A token of JSON text. -/
inductive Token where
  | openList
  | closeList
  | openTable
  | closeTable
  | comma
  | colon
  /-- A string, without a value if a surrogate escape in it has no partner. -/
  | string (s : Option String)
  /-- A number or one of the three literals. -/
  | atom (v : Value)
deriving Repr

/-! ## Strings -/

/-- A piece of a string: a character, or the code unit of a numeric escape. -/
inductive Piece where
  | char (c : Char)
  | unit (n : Nat)
deriving DecidableEq, Repr

/-- The character that a one-letter escape stands for. -/
def escape? : Char → Option Char
  | '"' => some '"'
  | '\\' => some '\\'
  | '/' => some '/'
  | 'b' => some '\x08'
  | 'f' => some '\x0c'
  | 'n' => some '\n'
  | 'r' => some '\r'
  | 't' => some '\t'
  | _ => none

/-- The pieces of a string between its quotes. A control character has to be escaped. -/
def pieces? : List Char → Option (List Piece)
  | [] => some []
  | '\\' :: 'u' :: a :: b :: c :: d :: cs => do
    let n ← Text.numberValue? 16 [a, b, c, d]
    let rest ← pieces? cs
    return .unit n :: rest
  | '\\' :: c :: cs => do
    let e ← escape? c
    let rest ← pieces? cs
    return .char e :: rest
  | c :: cs => do
    if c.toNat < 0x20 ∨ c = '\\' then none
    else
      let rest ← pieces? cs
      return .char c :: rest

/-- The first half of a surrogate pair. -/
def isHighSurrogate (n : Nat) : Bool := 0xD800 ≤ n && n ≤ 0xDBFF

/-- The second half of a surrogate pair. -/
def isLowSurrogate (n : Nat) : Bool := 0xDC00 ≤ n && n ≤ 0xDFFF

/-- The characters of the pieces, `high` being a first half that waits for its partner. Fails at a half
without a partner. -/
def characters? (high : Option Nat) : List Piece → Option (List Char)
  | [] => if high.isSome then none else some []
  | .char c :: ps => if high.isSome then none else (characters? none ps).map (c :: ·)
  | .unit n :: ps =>
    match high with
    | some h =>
      if isLowSurrogate n then
        let c := Char.ofNat (0x10000 + (h - 0xD800) * 0x400 + (n - 0xDC00))
        (characters? none ps).map (c :: ·)
      else none
    | none =>
      if isHighSurrogate n then characters? (some n) ps
      else if isLowSurrogate n then none
      else (characters? none ps).map (Char.ofNat n :: ·)

/-- The string token of the characters between two quotes. -/
def stringToken? (body : List Char) : Option Token :=
  (pieces? body).map fun ps => .string ((characters? none ps).map String.ofList)

/-! ## Numbers -/

/-- The leading digits and the rest. -/
def digits (cs : List Char) : List Char × List Char :=
  (cs.takeWhile Char.isDigit, cs.dropWhile Char.isDigit)

/-- The number that decimal digits write. -/
def decimalValue (ds : List Char) : Nat :=
  ds.foldl (fun n d => 10 * n + (d.toNat - '0'.toNat)) 0

/-- Integer digits: at least one, and no `0` before others. -/
def isIntegerPart : List Char → Bool
  | [] => false
  | ['0'] => true
  | c :: _ => c != '0'

/-- A fraction after its point, if there is one: its digits and the rest. -/
def fraction? : List Char → Option (List Char × List Char)
  | '.' :: cs =>
    let (ds, rest) := digits cs
    if ds.isEmpty then none else some (ds, rest)
  | cs => some ([], cs)

/-- An exponent at the end of a number, if there is one. -/
def exponent? : List Char → Option Int
  | [] => some 0
  | e :: cs =>
    if e = 'e' ∨ e = 'E' then
      let (negative, ds) := match cs with
        | '-' :: ds => (true, ds)
        | '+' :: ds => (false, ds)
        | ds => (false, ds)
      if ds.isEmpty || !ds.all Char.isDigit then none
      else some (if negative then -(decimalValue ds : Int) else decimalValue ds)
    else none

/-- Whether `mantissa · 10 ^ exponent` lies beyond every double-precision number. -/
def isHuge (mantissa : List Char) (exponent : Int) : Bool :=
  let ds := mantissa.dropWhile (· == '0')
  let magnitude := (ds.length : Int) + exponent
  if ds.isEmpty || magnitude < 300 then false
  else if 320 < magnitude then true
  else
    let limit := Nat.pow 2 1024 - Nat.pow 2 970
    if 0 ≤ exponent then limit ≤ decimalValue ds * Nat.pow 10 exponent.toNat
    else limit * Nat.pow 10 (-exponent).toNat ≤ decimalValue ds

/-- The number that a word writes. A word without fraction and exponent is an integer, negative zero
apart. -/
def number? (word : List Char) : Option Value := do
  let (negative, cs) := match word with
    | '-' :: cs => (true, cs)
    | cs => (false, cs)
  let (whole, rest) := digits cs
  if !isIntegerPart whole then none
  else do
    let (part, tail) ← fraction? rest
    let exponent ← exponent? tail
    if isHuge (whole ++ part) (exponent - part.length) then return .malformed
    else if rest.isEmpty && !(negative && whole == ['0']) then
      let n := (decimalValue whole : Int)
      return .int (if negative then -n else n)
    else return .float

/-- The token of a word. -/
def wordToken? (word : List Char) : Option Token :=
  if word = ['n', 'u', 'l', 'l'] then some (.atom .null)
  else if word = ['t', 'r', 'u', 'e'] then some (.atom (.bool true))
  else if word = ['f', 'a', 'l', 's', 'e'] then some (.atom (.bool false))
  else (number? word).map .atom

/-! ## The reader -/

/-- What the reader is in the middle of. Collected characters are in reverse order. -/
inductive Mode where
  | between
  | word (collected : List Char)
  | string (collected : List Char)
  /-- In a string, after a backslash. -/
  | escaped (collected : List Char)
deriving DecidableEq, Repr

/-- A blank of JSON text. -/
def isSpace (c : Char) : Bool :=
  c == ' ' || c == '\n' || c == '\t' || c == '\r'

/-- The token that a character is by itself. -/
def punctuation? : Char → Option Token
  | '[' => some .openList
  | ']' => some .closeList
  | '\x7b' => some .openTable
  | '\x7d' => some .closeTable
  | ',' => some .comma
  | ':' => some .colon
  | _ => none

namespace Mode

/-- Take a character outside of strings, after the tokens `before`. -/
def start (before : List Token) (c : Char) : List Token × Mode :=
  if isSpace c then (before, between)
  else if c = '"' then (before, string [])
  else match punctuation? c with
    | some t => (before ++ [t], between)
    | none => (before, word [c])

/-- Whether the character ends a word. -/
def endsWord (c : Char) : Bool :=
  isSpace c || c == '"' || (punctuation? c).isSome

/-- Take one character. -/
def step (mode : Mode) (c : Char) : Option (List Token × Mode) :=
  match mode with
  | between => some (start [] c)
  | word collected =>
    if endsWord c then (wordToken? collected.reverse).map fun t => start [t] c
    else some ([], word (c :: collected))
  | string collected =>
    if c = '"' then (stringToken? collected.reverse).map fun t => ([t], between)
    else if c = '\\' then some ([], escaped (c :: collected))
    else some ([], string (c :: collected))
  | escaped collected => some ([], string (c :: collected))

/-- The tokens that are complete at the end of the text. -/
def finish : Mode → Option (List Token)
  | between => some []
  | word collected => (wordToken? collected.reverse).map ([·])
  | string _ => none
  | escaped _ => none

end Mode

/-- The tokens of the rest of a text. -/
def scan? (mode : Mode) : List Char → Option (List Token)
  | [] => mode.finish
  | c :: cs => do
    let (ts, next) ← mode.step c
    let rest ← scan? next cs
    return ts ++ rest

/-- The tokens of a text. -/
def tokens? (text : String) : Option (List Token) :=
  scan? .between text.toList

end ScriptExport.Json
