import ScriptExport.Document.Value

/-!
# Decoding tables

A structure with named fields is read from a table or from a list that gives the fields by position.
Unknown fields of a table are passed over and a known field may occur once. A list may leave out trailing
fields that have a default and may not be longer than the fields.
-/

namespace ScriptExport

/-- The fields that a value gives to a structure. -/
structure Fields where
  /-- The fields were given by position. -/
  positional : Bool
  entries : List (String × Value)
deriving Repr

namespace Value

/-- The fields with the given names. -/
def fields? (names : List String) : Value → Option Fields
  | table fs =>
    let known := fs.filter fun f => names.contains f.1
    if (known.map Prod.fst).Nodup then some ⟨false, known⟩ else none
  | list items => if items.length ≤ names.length then some ⟨true, names.zip items⟩ else none
  | _ => none

/-- A text. -/
def text? : Value → Option String
  | text s => some s
  | _ => none

/-- A truth value. -/
def bool? : Value → Option Bool
  | bool b => some b
  | _ => none

/-- An unsigned 32-bit integer. -/
def uint32? : Value → Option UInt32
  | int n => if 0 ≤ n ∧ n < UInt32.size then some (UInt32.ofNat n.toNat) else none
  | _ => none

/-- A signed 64-bit integer. -/
def int64? : Value → Option Int64
  | int n =>
    if Int64.minValue.toInt ≤ n ∧ n ≤ Int64.maxValue.toInt then some (Int64.ofInt n) else none
  | _ => none

/-- A list whose items are all read by `read`. -/
def listOf? {α : Type} (read : Value → Option α) : Value → Option (List α)
  | list items => items.mapM read
  | _ => none

/-- A list of texts. -/
def texts? : Value → Option (List String) :=
  listOf? text?

/-- A member of a vocabulary, given by its word, or by a table that has the word as its only key and
nothing under it. -/
def word? {α : Type} (ofName? : String → Option α) : Value → Option α
  | text s => ofName? s
  | table [(s, null)] => ofName? s
  | _ => none

/-- A member of a vocabulary inside a part that is read as a whole first, where an empty table counts as
nothing too. -/
def innerWord? {α : Type} (ofName? : String → Option α) : Value → Option α
  | table [(s, table [])] => ofName? s
  | v => word? ofName? v

end Value

namespace Fields

/-- The value of a field. -/
def get? (fs : Fields) (name : String) : Option Value :=
  (fs.entries.find? fun f => f.1 == name).map Prod.snd

/-- A field that has to be present. -/
def required {α : Type} (fs : Fields) (name : String) (read : Value → Option α) : Option α :=
  (fs.get? name).bind read

/-- A field that has a default. -/
def withDefault {α : Type} (fs : Fields) (name : String) (default : α) (read : Value → Option α) :
    Option α :=
  match fs.get? name with
  | none => some default
  | some v => read v

/-- A value that may be `null`. -/
def nullable {α : Type} (read : Value → Option α) : Value → Option (Option α)
  | .null => some none
  | v => (read v).map some

/-- A field that may be `null`, and may be missing unless fields are given by position. -/
def nullableField {α : Type} (fs : Fields) (name : String) (read : Value → Option α) :
    Option (Option α) :=
  match fs.get? name with
  | none => if fs.positional then none else some none
  | some v => nullable read v

end Fields

end ScriptExport
