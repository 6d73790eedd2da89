import ScriptExport.Document.Value

/-!
# Writing TOML

A table writes its plain values first and then its sub-tables under headers. A string takes the first
of several forms that can hold it, so that text without special characters stands as it is.
-/

namespace ScriptExport.Toml

/-- A character that only an escape can write. -/
def needsEscape (c : Char) : Bool :=
  (c.toNat < 0x20 && c != '\t' && c != '\n') || c.toNat == 0x7F

/-- An upper-case hexadecimal digit. -/
def upperHexDigit (n : Nat) : Char :=
  (Nat.digitChar n).toUpper

/-- The form of a character other than a quote or a line break in a string with escapes. -/
def escapedChar (c : Char) : List Char :=
  match c with
  | '\\' => ['\\', '\\']
  | '\t' => ['\\', 't']
  | '\x08' => ['\\', 'b']
  | '\x0c' => ['\\', 'f']
  | '\r' => ['\\', 'r']
  | c =>
    if needsEscape c then
      ['\\', 'u', '0', '0', upperHexDigit (c.toNat / 16), upperHexDigit (c.toNat % 16)]
    else [c]

/-- A string with escapes on one line. -/
def basic (cs : List Char) : List Char :=
  '"' :: (cs.flatMap fun c =>
    if c = '"' then ['\\', '"'] else if c = '\n' then ['\\', 'n'] else escapedChar c) ++ ['"']

/-- The body of a string with escapes over several lines, after `quotes` quotes in a row. A third one
is escaped. -/
def multilineBody (quotes : Nat) : List Char → List Char
  | [] => []
  | c :: cs =>
    if c = '"' then
      if quotes = 2 then '\\' :: '"' :: multilineBody 0 cs else '"' :: multilineBody (quotes + 1) cs
    else if c = '\n' then '\n' :: multilineBody 0 cs
    else escapedChar c ++ multilineBody 0 cs

/-- The line break after the opening quotes of a string that has one itself. -/
def firstBreak (cs : List Char) : List Char :=
  if cs.contains '\n' then ['\n'] else []

/-- A string with escapes over several lines. -/
def multiline (cs : List Char) : List Char :=
  ['"', '"', '"'] ++ firstBreak cs ++ multilineBody 0 cs ++ ['"', '"', '"']

/-- Whether more than two of a character stand in a row somewhere, after `run` of them. -/
def hasTriple (q : Char) (run : Nat) : List Char → Bool
  | [] => false
  | c :: cs => if c = q then run == 2 || hasTriple q (run + 1) cs else hasTriple q 0 cs

/-- A text as a TOML string. -/
def stringChars (cs : List Char) : List Char :=
  let plain := !cs.any needsEscape
  let oneLine := !cs.contains '\n'
  if plain && oneLine && !cs.contains '\\' && !cs.contains '"' then basic cs
  else if plain && oneLine && !cs.contains '\'' then ['\''] ++ cs ++ ['\'']
  else if plain && !cs.contains '\\' && !hasTriple '"' 0 cs then multiline cs
  else if plain && !hasTriple '\'' 0 cs then
    ['\'', '\'', '\''] ++ firstBreak cs ++ cs ++ ['\'', '\'', '\'']
  else if oneLine then basic cs
  else multiline cs

/-- A text as a TOML string. -/
def string (s : String) : String :=
  String.ofList (stringChars s.toList)

/-- A character of a bare key. -/
def isBareChar (c : Char) : Bool :=
  c.isAlphanum || c == '_' || c == '-'

/-- A text as a TOML key. -/
def keyChars (cs : List Char) : List Char :=
  let plain := !cs.any fun c => needsEscape c || c == '\n'
  if !cs.isEmpty && cs.all isBareChar then cs
  else if plain && !cs.contains '\\' && !cs.contains '"' then ['"'] ++ cs ++ ['"']
  else if plain && !cs.contains '\'' then ['\''] ++ cs ++ ['\'']
  else basic cs

/-- A text as a TOML key. -/
def key (s : String) : String :=
  String.ofList (keyChars s.toList)

/-- A plain value. Values without a TOML form are written as nothing. -/
def atom : Value → String
  | .bool true => "true"
  | .bool false => "false"
  | .int n => toString n
  | .text s => string s
  | _ => ""

/-- A list of plain values: none or one on the same line, more on lines of their own. -/
def plainList : List Value → String
  | [] => "[]"
  | [v] => "[" ++ atom v ++ "]"
  | vs => "[\n" ++ String.join (vs.map fun v => "    " ++ atom v ++ ",\n") ++ "]"

/-- Whether the value stands under a header of its own. -/
def isSection : Value → Bool
  | .table _ => true
  | .list (.table _ :: _) => true
  | _ => false

/-- The value of an assignment line. -/
def inlineValue : Value → String
  | .list vs => plainList vs
  | v => atom v

/-- The assignment lines of a table. -/
def assignments (fields : List (String × Value)) : String :=
  String.join ((fields.filter fun f => !isSection f.2).map fun f =>
    key f.1 ++ " = " ++ inlineValue f.2 ++ "\n")

/-- The path of a header, dots between its keys. -/
def dottedPath : List String → String
  | [] => ""
  | [k] => key k
  | k :: ks => key k ++ "." ++ dottedPath ks

/-- The parts of a document: each is a header with its assignments. -/
abbrev Parts := List String

mutual

/-- The parts of the sub-tables of a table with the given path. -/
def sections (path : List String) : List (String × Value) → Parts
  | [] => []
  | (k, v) :: fs => sectionParts (path ++ [k]) v ++ sections path fs

/-- The parts of one value, if it stands under a header. -/
def sectionParts (path : List String) : Value → Parts
  | .table fields =>
    ("[" ++ dottedPath path ++ "]\n" ++ assignments fields) :: sections path fields
  | .list items => elementParts path items
  | _ => []

/-- The parts of the tables of a list. -/
def elementParts (path : List String) : List Value → Parts
  | [] => []
  | .table fields :: items =>
    (("[[" ++ dottedPath path ++ "]]\n" ++ assignments fields) :: sections path fields)
      ++ elementParts path items
  | _ :: items => elementParts path items

end

/-- The text of a document with the given top-level fields; an empty line stands between its parts. -/
def document (fields : List (String × Value)) : String :=
  let top := assignments fields
  let parts := sections [] fields
  match parts with
  | [] => top
  | part :: rest =>
    (if top.isEmpty then "" else top ++ "\n") ++ part ++ String.join (rest.map ("\n" ++ ·))

/-- The text of a table. -/
def print : Value → String
  | .table fields => document fields
  | _ => ""

end ScriptExport.Toml
