import ScriptExport.Constant.Literal
import ScriptExport.Text.Spelling

/-!
# Tokens of a constant expression

`tokens` reads a text one character at a time. `Mode` is what the reader is in the middle of; `Mode.step`
takes one character, hands out the tokens that are complete with it and says what comes next. The
leftmost fault decides the error.
-/

namespace ScriptExport.Constant

/-- A token of a constant expression. -/
inductive Token where
  | number (value : Int64)
  | name (text : String)
  /-- `-` and `+`, which are prefixed or infixed operators by their place. -/
  | minus
  | plus
  | tilde
  /-- An operator that can only be infixed. -/
  | infixed (op : BinaryOp)
  | openParen
  | closeParen
deriving DecidableEq, Repr

/-- The infixed operator that a token stands for after an operand. -/
def Token.binary? : Token → Option BinaryOp
  | minus => some .sub
  | plus => some .add
  | infixed op => some op
  | _ => none

/-- What the reader is in the middle of. Collected characters are in reverse order. -/
inductive Mode where
  | between
  | number (collected : List Char)
  | name (collected : List Char)
  /-- After one `:` that may go on as `::`. -/
  | nameColon (collected : List Char)
  /-- After a `<` or `>` that has to be doubled. -/
  | shift (c : Char)
deriving DecidableEq, Repr

/-- A character of a literal after its first digit. -/
def isLiteralChar (c : Char) : Bool :=
  Text.isAsciiAlnum c || c == '\''

/-- A character of a name after its first one, `::` apart. -/
def isNameChar (c : Char) : Bool :=
  Text.isLetterOrDigit c || c == '_'

/-- The name token of collected characters; a leading `::` is no part of the name. -/
def nameToken (collected : List Char) : Token :=
  .name (String.ofList (Text.dropColons collected.reverse))

/-- The token that a character is by itself. -/
def singleToken? : Char → Option Token
  | '(' => some .openParen
  | ')' => some .closeParen
  | '+' => some .plus
  | '-' => some .minus
  | '~' => some .tilde
  | '*' => some (.infixed .mul)
  | '/' => some (.infixed .div)
  | '%' => some (.infixed .mod)
  | '&' => some (.infixed .bitAnd)
  | '^' => some (.infixed .bitXor)
  | '|' => some (.infixed .bitOr)
  | _ => none

namespace Mode

/-- Take a character between tokens. -/
def start (c : Char) : Except EvalError (List Token × Mode) :=
  if Text.isBlank c then .ok ([], between)
  else if c.isDigit then .ok ([], number [c])
  else if Text.isLetter c || c == '_' then .ok ([], name [c])
  else if c == ':' then .ok ([], nameColon [])
  else if c == '<' || c == '>' then .ok ([], shift c)
  else match singleToken? c with
    | some t => .ok ([t], between)
    | none => .error (.unsupportedCharacter c)

/-- The tokens that are complete at the end of the text. -/
def finish : Mode → Except EvalError (List Token)
  | between => .ok []
  | number collected => (readLiteral collected.reverse).map fun v => [.number v]
  | name collected => .ok [nameToken collected]
  | nameColon _ => .error (.unsupportedCharacter ':')
  | shift c => .error (.unsupportedCharacter c)

/-- Take one character. -/
def step (mode : Mode) (c : Char) : Except EvalError (List Token × Mode) :=
  match mode with
  | between => start c
  | number collected =>
    if isLiteralChar c then .ok ([], number (c :: collected))
    else do
      let v ← readLiteral collected.reverse
      let (ts, next) ← start c
      return (.number v :: ts, next)
  | name collected =>
    if isNameChar c then .ok ([], name (c :: collected))
    else if c == ':' then .ok ([], nameColon collected)
    else do
      let (ts, next) ← start c
      return (nameToken collected :: ts, next)
  | nameColon collected =>
    if c == ':' then .ok ([], name (':' :: ':' :: collected))
    else .error (.unsupportedCharacter ':')
  | shift d =>
    if c == d then
      .ok ([.infixed (if d == '<' then .shiftLeft else .shiftRight)], between)
    else .error (.unsupportedCharacter d)

end Mode

/-- The tokens of the rest of a text. -/
def scan (mode : Mode) : List Char → Except EvalError (List Token)
  | [] => mode.finish
  | c :: cs => do
    let (ts, next) ← mode.step c
    let rest ← scan next cs
    return ts ++ rest

/-- The tokens of a text. -/
def tokens (text : String) : Except EvalError (List Token) :=
  scan .between text.toList

end ScriptExport.Constant
