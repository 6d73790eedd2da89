import ScriptExport.Directive.Kind
import ScriptExport.Diagnostic
import ScriptExport.OrderedMap
import ScriptExport.Record.Kind

/-!
# Attributes of a directive

After its kind a directive lists `key=value` attributes between commas. Commas inside quotes or
brackets do not separate; a closing bracket that closes nothing is counted all the same and makes up for
one that is opened later. Every segment either adds one attribute or raises one issue.
-/

namespace ScriptExport

/-- The attributes of a directive in the order in which they were written. -/
abbrev Attributes := OrderedMap String String

/-- A problem with a directive that was worked around. -/
inductive DirectiveIssue where
  | unknownKind (word : String)
  | notAPair (segment : String)
  | invalidKey (segment : String)
  | invalidAccess (value : String)
  | repeatedKey (key : String)
  /-- A further export directive on a declaration that has one. -/
  | additional (kind earlier : DirectiveKind)
deriving DecidableEq, Repr

namespace DirectiveIssue

/-- The kind of diagnostic that the issue becomes. -/
def kind : DirectiveIssue → DiagnosticKind
  | unknownKind _ => .unknownDirective
  | _ => .malformedAttribute

/-- The issue in words. -/
def message : DirectiveIssue → String
  | unknownKind word => "unknown export kind '" ++ word ++ "'"
  | notAPair segment => "attribute '" ++ segment ++ "' is not a key=value pair"
  | invalidKey segment => "attribute '" ++ segment ++ "' has an invalid key"
  | invalidAccess value => "access '" ++ value ++ "' is not one of readonly, readwrite, writeonly"
  | repeatedKey key => "attribute '" ++ key ++ "' repeated, first value kept"
  | additional kind earlier =>
    "additional export annotation '" ++ kind.name ++ "' ignored, '" ++ earlier.name ++
      "' already applies"

end DirectiveIssue

namespace Attribute

/-- A character that opens a bracket. -/
def isOpening (c : Char) : Bool :=
  c == '[' || c == '\x7b' || c == '(' || c == '<'

/-- A character that closes a bracket. -/
def isClosing (c : Char) : Bool :=
  c == ']' || c == '\x7d' || c == ')' || c == '>'

/-- Put a character in front of the first segment. -/
def onto (c : Char) : List (List Char) → List (List Char)
  | [] => [[c]]
  | s :: ss => (c :: s) :: ss

/-- The segments between the commas outside of quotes and brackets. `depth` is the number of
opening brackets less the number of closing ones, in 32 bits, `quote` the quote that is open. -/
def topSegments (depth : Int32) (quote : Option Char) : List Char → List (List Char)
  | [] => [[]]
  | c :: cs =>
    match quote with
    | some q => onto c (topSegments depth (if c = q then none else some q) cs)
    | none =>
      if c = '"' ∨ c = '\'' then onto c (topSegments depth (some c) cs)
      else if isOpening c then onto c (topSegments (depth + 1) none cs)
      else if isClosing c then onto c (topSegments (depth - 1) none cs)
      else if c = ',' ∧ depth ≤ 0 then [] :: topSegments depth none cs
      else onto c (topSegments depth none cs)

/-- Drop one blank segment at the end, unless it is the only one. -/
def dropTrailing (ss : List (List Char)) : List (List Char) :=
  match ss.getLast? with
  | some s => if s.all Text.isBlank && 1 < ss.length then ss.dropLast else ss
  | none => ss

/-- The attribute segments of a payload. A comma at the end is harmless, and a blank payload has no
segments. -/
def splitTopLevel (payload : List Char) : List (List Char) :=
  match dropTrailing (topSegments 0 none payload) with
  | [s] => if s.all Text.isBlank then [] else [s]
  | ss => ss

/-- The text without a pair of equal quotes around it. -/
def stripQuotes (cs : List Char) : List Char :=
  match cs with
  | q :: c :: rest =>
    if (q = '"' ∨ q = '\'') ∧ (c :: rest).getLast? = some q then (c :: rest).dropLast
    else q :: c :: rest
  | cs => cs

/-- A key: one or more ASCII letters, digits and underscores. -/
def isKey (cs : List Char) : Bool :=
  !cs.isEmpty && cs.all fun c => Text.isAsciiAlnum c || c == '_'

/-- Read one segment: the attribute that it adds, or the issue that it raises. -/
def read (attributes : Attributes) (segment : List Char) :
    Except DirectiveIssue (String × String) :=
  let shown := String.ofList (Text.trimChars segment)
  match Text.cutAt '=' segment with
  | none => .error (.notAPair shown)
  | some (before, after) =>
    let key := Text.trimChars before
    if !isKey key then .error (.invalidKey shown)
    else
      let key := String.ofList key
      let value := String.ofList (stripQuotes (Text.trimChars after))
      if key == "access" && (AccessMode.ofAttribute? value).isNone then .error (.invalidAccess value)
      else if attributes.contains key then .error (.repeatedKey key)
      else .ok (key, value)

/-- Take one segment into the attributes and issues so far. -/
def take (acc : Attributes × List DirectiveIssue) (segment : List Char) :
    Attributes × List DirectiveIssue :=
  match read acc.1 segment with
  | .ok (key, value) => (acc.1.insert key value, acc.2)
  | .error issue => (acc.1, acc.2 ++ [issue])

/-- Take the attributes of a payload into the attributes and issues so far. -/
def parse (payload : List Char) (acc : Attributes × List DirectiveIssue) :
    Attributes × List DirectiveIssue :=
  (splitTopLevel payload).foldl take acc

end Attribute

end ScriptExport
