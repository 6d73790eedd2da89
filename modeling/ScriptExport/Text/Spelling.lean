import ScriptExport.Text.Letter
import ScriptExport.Text.Segment

/-!
# Spelled names

A spelled name comes from the front end with qualifiers, odd spacing and a leading `::`. `spelling`
brings it to one form: words separated by single spaces, no `const` or `volatile`, no leading `::`,
no space beside `::`. `identifier` turns any text into a script identifier for types that could not be
resolved. `lastSegment` is the part of a qualified name after its last `::`.
-/

namespace ScriptExport.Text

/-- Drop every `::` at the start. -/
def dropColons : List Char → List Char
  | ':' :: ':' :: cs => dropColons cs
  | cs => cs

/-- Drop one space before each `::`, from left to right. -/
def closeBeforeColons : List Char → List Char
  | ' ' :: ':' :: ':' :: cs => ':' :: ':' :: closeBeforeColons cs
  | c :: cs => c :: closeBeforeColons cs
  | [] => []

/-- Drop one space after each `::`, from left to right. -/
def closeAfterColons : List Char → List Char
  | ':' :: ':' :: ' ' :: cs => ':' :: ':' :: closeAfterColons cs
  | c :: cs => c :: closeAfterColons cs
  | [] => []

/-- A word that qualifies a type and is not part of its name. -/
def isQualifier (word : List Char) : Bool :=
  word == ['c', 'o', 'n', 's', 't'] || word == ['v', 'o', 'l', 'a', 't', 'i', 'l', 'e']

/-- The words of a spelled name without qualifiers, separated by single spaces. -/
def plainWords (cs : List Char) : List Char :=
  joinChars [' '] ((words cs).filter (fun w => !isQualifier w))

/-- The normalized spelling of a name. -/
def spellingChars (cs : List Char) : List Char :=
  closeAfterColons (closeBeforeColons (dropColons (plainWords cs)))

/-- The normalized spelling of a name. -/
def spelling (name : String) : String :=
  String.ofList (spellingChars name.toList)

/-- Replace each run of characters other than ASCII letters and digits by one `_`. The flag says that
the character before was part of such a run. -/
def squeeze : Bool → List Char → List Char
  | _, [] => []
  | inRun, c :: cs =>
    if isAsciiAlnum c then c :: squeeze false cs
    else if inRun then squeeze true cs
    else '_' :: squeeze true cs

/-- Drop every `_` at either end. -/
def stripMarks (cs : List Char) : List Char :=
  ((cs.dropWhile (· == '_')).reverse.dropWhile (· == '_')).reverse

/-- An identifier made of the ASCII letters and digits of the text. -/
def identifierChars (cs : List Char) : List Char :=
  match stripMarks (squeeze false cs) with
  | [] => ['u', 'n', 'k', 'n', 'o', 'w', 'n']
  | c :: rest => if c.isDigit then '_' :: c :: rest else c :: rest

/-- An identifier made of the ASCII letters and digits of the text, `unknown` if it has none. -/
def identifier (text : String) : String :=
  String.ofList (identifierChars text.toList)

/-- The characters before the first `::`. -/
def untilColons : List Char → List Char
  | ':' :: ':' :: _ => []
  | c :: cs => c :: untilColons cs
  | [] => []

/-- The part after the last `::`, all of it if there is none. -/
def lastSegmentChars (cs : List Char) : List Char :=
  (untilColons cs.reverse).reverse

/-- The part of a qualified name after its last `::`. -/
def lastSegment (name : String) : String :=
  String.ofList (lastSegmentChars name.toList)

/-- Whether the name has a `::`. -/
def hasColons : List Char → Bool
  | ':' :: ':' :: _ => true
  | _ :: cs => hasColons cs
  | [] => false

section Colons

variable {c : Char} (hc : c ≠ ':') (cs : List Char)

include hc

theorem dropColons_cons : dropColons (c :: cs) = c :: cs := by
  unfold dropColons
  split <;> simp_all

theorem untilColons_cons : untilColons (c :: cs) = c :: untilColons cs := by
  rw [untilColons]
  intro _ h
  exact absurd h hc

theorem hasColons_cons : hasColons (c :: cs) = hasColons cs := by
  rw [hasColons]
  intro _ h
  exact absurd h hc

end Colons

end ScriptExport.Text
