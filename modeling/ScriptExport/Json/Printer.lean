import ScriptExport.Document.Value

/-!
# Writing JSON

Two layouts of the same text: `compact` on one line, `pretty` with one item or field a line and two
spaces for each level. Characters beyond ASCII stand for themselves.
-/

namespace ScriptExport.Json

/-- The form of a character inside a string. -/
def escapedChar (c : Char) : List Char :=
  match c with
  | '"' => ['\\', '"']
  | '\\' => ['\\', '\\']
  | '\x08' => ['\\', 'b']
  | '\x0c' => ['\\', 'f']
  | '\n' => ['\\', 'n']
  | '\r' => ['\\', 'r']
  | '\t' => ['\\', 't']
  | c =>
    if c.toNat < 0x20 then
      ['\\', 'u', '0', '0', Nat.digitChar (c.toNat / 16), Nat.digitChar (c.toNat % 16)]
    else [c]

/-- A text as a JSON string. -/
def string (s : String) : String :=
  String.ofList ('"' :: (s.toList.flatMap escapedChar ++ ['"']))

/-- A value without parts. Numbers other than integers and malformed parts have no text to give. -/
def atom : Value → String
  | .bool true => "true"
  | .bool false => "false"
  | .int n => toString n
  | .text s => string s
  | _ => "null"

mutual

/-- A value on one line. -/
def compact : Value → String
  | .list items => "[" ++ compactItems items ++ "]"
  | .table fields => "\x7b" ++ compactFields fields ++ "\x7d"
  | v => atom v

/-- Items between commas. -/
def compactItems : List Value → String
  | [] => ""
  | [v] => compact v
  | v :: vs => compact v ++ "," ++ compactItems vs

/-- Fields between commas. -/
def compactFields : List (String × Value) → String
  | [] => ""
  | [(k, v)] => string k ++ ":" ++ compact v
  | (k, v) :: fs => string k ++ ":" ++ compact v ++ "," ++ compactFields fs

end

/-- A line break and the indentation of a level. -/
def newline (level : Nat) : String :=
  String.ofList ('\n' :: List.replicate (2 * level) ' ')

mutual

/-- A value whose own line is indented by `level`. -/
def prettyAt (level : Nat) : Value → String
  | .list [] => "[]"
  | .list (v :: vs) => "[" ++ prettyItems (level + 1) (v :: vs) ++ newline level ++ "]"
  | .table [] => "\x7b\x7d"
  | .table (f :: fs) => "\x7b" ++ prettyFields (level + 1) (f :: fs) ++ newline level ++ "\x7d"
  | v => atom v

/-- Items on lines of their own. -/
def prettyItems (level : Nat) : List Value → String
  | [] => ""
  | [v] => newline level ++ prettyAt level v
  | v :: vs => newline level ++ prettyAt level v ++ "," ++ prettyItems level vs

/-- Fields on lines of their own. -/
def prettyFields (level : Nat) : List (String × Value) → String
  | [] => ""
  | [(k, v)] => newline level ++ string k ++ ": " ++ prettyAt level v
  | (k, v) :: fs =>
    newline level ++ string k ++ ": " ++ prettyAt level v ++ "," ++ prettyFields level fs

end

/-- A value with one item or field a line. -/
def pretty (v : Value) : String :=
  prettyAt 0 v

end ScriptExport.Json
