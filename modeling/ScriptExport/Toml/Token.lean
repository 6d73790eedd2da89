import ScriptExport.Text.Digit

/-!
# Tokens of TOML text

The reader takes one character at a time. `Mode` is what it is in the middle of: nothing, a word, a
comment or one of the four kinds of strings. A string is collected as written and decoded at its end. A
word is a bare key, a dotted run of them, or a plain value; which one it is depends on where it stands.
-/

namespace ScriptExport.Toml

/-- A token of TOML text. A bracket is joined if the character before it is the same bracket. -/
inductive Token where
  | openList (joined : Bool)
  | closeList (joined : Bool)
  | openTable
  | closeTable
  | comma
  | equals
  | newline
  | word (cs : List Char)
  /-- A string; one over several lines cannot be a key. -/
  | text (s : String) (multiline : Bool)
deriving DecidableEq, Repr

/-- A character that no string or comment may hold as it is, line breaks apart. -/
def isControl (c : Char) : Bool :=
  (c.toNat < 0x20 && c != '\t') || c.toNat == 0x7F

/-! ## Strings -/

/-- Where the decoder of a string stands. -/
inductive Decoding where
  | plain
  /-- After a carriage return, which needs a line feed. -/
  | carriage
  | backslash
  /-- After a backslash and blanks, before the line break that they escape. -/
  | lineEnd
  /-- After an escaped line break; blanks are skipped. -/
  | skipping
  /-- In a numeric escape with `left + 1` digits to go. -/
  | code (left value : Nat)
deriving DecidableEq, Repr

/-- The character that a one-letter escape stands for. -/
def escape? : Char → Option Char
  | 'b' => some '\x08'
  | 't' => some '\t'
  | 'n' => some '\n'
  | 'f' => some '\x0c'
  | 'r' => some '\r'
  | 'e' => some '\x1b'
  | '"' => some '"'
  | '\\' => some '\\'
  | _ => none

/-- How many digits a numeric escape has. -/
def codeLength? : Char → Option Nat
  | 'x' => some 2
  | 'u' => some 4
  | 'U' => some 8
  | _ => none

/-- The character with a code, if it is one. -/
def character? (n : Nat) : Option Char :=
  if h : n.isValidChar then some (Char.ofNatAux n h) else none

/-- Take a character that stands for itself. A line break is one of them in a string over several
lines. -/
def takePlain (multiline : Bool) (done : List Char) (c : Char) : Option (Decoding × List Char) :=
  if c = '\n' then if multiline then some (.plain, '\n' :: done) else none
  else if c = '\r' then if multiline then some (.carriage, done) else none
  else if isControl c then none
  else some (.plain, c :: done)

/-- Take one character of a string with escapes. Decoded characters are in reverse order. -/
def decodeStep (multiline : Bool) : Decoding × List Char → Char → Option (Decoding × List Char)
  | (.plain, done), c =>
    if c = '\\' then some (.backslash, done) else takePlain multiline done c
  | (.carriage, done), c => if c = '\n' then some (.plain, '\n' :: done) else none
  | (.backslash, done), c =>
    match escape? c, codeLength? c with
    | some e, _ => some (.plain, e :: done)
    | none, some n => some (.code (n - 1) 0, done)
    | none, none =>
      if !multiline then none
      else if c = '\n' then some (.skipping, done)
      else if c = ' ' ∨ c = '\t' ∨ c = '\r' then some (.lineEnd, done)
      else none
  | (.lineEnd, done), c =>
    if c = '\n' then some (.skipping, done)
    else if c = ' ' ∨ c = '\t' ∨ c = '\r' then some (.lineEnd, done)
    else none
  | (.skipping, done), c =>
    if c = ' ' ∨ c = '\t' ∨ c = '\n' ∨ c = '\r' then some (.skipping, done)
    else if c = '\\' then some (.backslash, done)
    else takePlain multiline done c
  | (.code left value, done), c => do
    let d ← Text.digitValue? 16 c
    let n := 16 * value + d
    match left with
    | 0 => (character? n).map fun c => (.plain, c :: done)
    | left + 1 => some (.code left n, done)

/-- The text of a string with escapes. -/
def decode? (multiline : Bool) (body : List Char) : Option String :=
  match body.foldlM (decodeStep multiline) (.plain, []) with
  | some (.plain, done) => some (String.ofList done.reverse)
  | some (.skipping, done) => some (String.ofList done.reverse)
  | _ => none

/-- Take one character of a string without escapes. -/
def literalStep (multiline : Bool) : Decoding × List Char → Char → Option (Decoding × List Char)
  | (.plain, done), c => takePlain multiline done c
  | (.carriage, done), c => if c = '\n' then some (.plain, '\n' :: done) else none
  | _, _ => none

/-- The text of a string without escapes. -/
def literal? (multiline : Bool) (body : List Char) : Option String :=
  match body.foldlM (literalStep multiline) (.plain, []) with
  | some (.plain, done) => some (String.ofList done.reverse)
  | _ => none

/-- A text without a line break at its start. -/
def dropFirstBreak : List Char → List Char
  | '\n' :: cs => cs
  | '\r' :: '\n' :: cs => cs
  | cs => cs

/-- The token of a string on one line. -/
def singleToken? (quote : Char) (body : List Char) : Option Token :=
  (if quote = '"' then decode? false body else literal? false body).map (.text · false)

/-- The token of a string over several lines. -/
def multiToken? (quote : Char) (body : List Char) : Option Token :=
  let body := dropFirstBreak body
  (if quote = '"' then decode? true body else literal? true body).map (.text · true)

/-! ## The reader -/

/-- What the reader is in the middle of. Collected characters are in reverse order. -/
inductive Mode where
  /-- Between tokens, after the character `last`. -/
  | between (last : Char)
  | word (collected : List Char)
  /-- After a date and one space, where a time may follow. -/
  | date (collected : List Char)
  | comment
  /-- After a carriage return outside of strings. -/
  | carriage
  /-- After the first quote of a string. -/
  | opening (quote : Char)
  /-- After two quotes, which are an empty string or start one over several lines. -/
  | doubled (quote : Char)
  | single (quote : Char) (collected : List Char)
  | singleEscaped (collected : List Char)
  /-- In a string over several lines, after `quotes` quotes. -/
  | multi (quote : Char) (collected : List Char) (quotes : Nat)
  | multiEscaped (collected : List Char)
deriving DecidableEq, Repr

/-- The token that a character is by itself. -/
def punctuation? (last : Char) : Char → Option Token
  | '[' => some (.openList (last == '['))
  | ']' => some (.closeList (last == ']'))
  | '\x7b' => some .openTable
  | '\x7d' => some .closeTable
  | ',' => some .comma
  | '=' => some .equals
  | _ => none

/-- Whether a word is a date. -/
def isDateWord (cs : List Char) : Bool :=
  match cs with
  | [a, b, c, d, '-', e, f, '-', g, h] => [a, b, c, d, e, f, g, h].all Char.isDigit
  | _ => false

namespace Mode

/-- Take a character outside of strings, words and comments. -/
def start (before : List Token) (last c : Char) : Option (List Token × Mode) :=
  if c = ' ' ∨ c = '\t' then some (before, between c)
  else if c = '\n' then some (before ++ [.newline], between c)
  else if c = '\r' then some (before, carriage)
  else if c = '#' then some (before, comment)
  else if c = '"' ∨ c = '\'' then some (before, opening c)
  else if isControl c then none
  else match punctuation? last c with
    | some t => some (before ++ [t], between c)
    | none => some (before, word [c])

/-- Whether the character ends a word. -/
def endsWord (c : Char) : Bool :=
  c == ' ' || c == '\t' || c == '\n' || c == '\r' || c == '#' || c == '"' || c == '\''
    || (punctuation? ' ' c).isSome

/-- The token of a string over several lines that ends with `quotes` quotes, the last three of which
close it. -/
def closeMulti (quote : Char) (collected : List Char) (quotes : Nat) : Option Token :=
  multiToken? quote (List.replicate (quotes - 3) quote ++ collected).reverse

/-- Take one character. -/
def step (mode : Mode) (c : Char) : Option (List Token × Mode) :=
  match mode with
  | between last => start [] last c
  | word collected =>
    if c = ' ' ∧ isDateWord collected.reverse then some ([], date collected)
    else if endsWord c then start [.word collected.reverse] ' ' c
    else some ([], word (c :: collected))
  | date collected =>
    if c.isDigit then some ([], word (c :: ' ' :: collected))
    else start [.word collected.reverse] ' ' c
  | comment =>
    if c = '\n' then some ([.newline], between c)
    else if c = '\r' then some ([], carriage)
    else if isControl c then none
    else some ([], comment)
  | carriage => if c = '\n' then some ([.newline], between c) else none
  | opening quote =>
    if c = quote then some ([], doubled quote)
    else if c = '\n' then none
    else if c = '\\' ∧ quote = '"' then some ([], singleEscaped [c])
    else some ([], single quote [c])
  | doubled quote =>
    if c = quote then some ([], multi quote [] 0)
    else start [.text "" false] ' ' c
  | single quote collected =>
    if c = quote then (singleToken? quote collected.reverse).map fun t => ([t], between c)
    else if c = '\n' then none
    else if c = '\\' ∧ quote = '"' then some ([], singleEscaped (c :: collected))
    else some ([], single quote (c :: collected))
  | singleEscaped collected =>
    if c = '\n' then none else some ([], single '"' (c :: collected))
  | multi quote collected quotes =>
    if c = quote then
      if quotes = 4 then (closeMulti quote collected 5).map fun t => ([t], between c)
      else some ([], multi quote collected (quotes + 1))
    else if 3 ≤ quotes then do
      let t ← closeMulti quote collected quotes
      start [t] ' ' c
    else
      let collected := c :: (List.replicate quotes quote ++ collected)
      if c = '\\' ∧ quote = '"' then some ([], multiEscaped collected)
      else some ([], multi quote collected 0)
  | multiEscaped collected => some ([], multi '"' (c :: collected) 0)

/-- The tokens that are complete at the end of the text. -/
def finish : Mode → Option (List Token)
  | between _ => some []
  | word collected => some [.word collected.reverse]
  | date collected => some [.word collected.reverse]
  | comment => some []
  | doubled _ => some [.text "" false]
  | multi quote collected quotes =>
    if 3 ≤ quotes then (closeMulti quote collected quotes).map ([·]) else none
  | _ => none

end Mode

/-- The tokens of the rest of a text. -/
def scan? (mode : Mode) : List Char → Option (List Token)
  | [] => mode.finish
  | c :: cs => do
    let (ts, next) ← mode.step c
    let rest ← scan? next cs
    return ts ++ rest

/-- A text without the byte order mark at its start. -/
def dropByteOrderMark : List Char → List Char
  | '\ufeff' :: cs => cs
  | cs => cs

/-- The tokens of a text. -/
def tokens? (text : String) : Option (List Token) :=
  scan? (.between '\n') (dropByteOrderMark text.toList)

end ScriptExport.Toml
