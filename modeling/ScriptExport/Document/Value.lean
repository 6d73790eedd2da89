/-!
# Document values

Tree dumps, manifests and settings are read from and written to text in two formats. `Value` is what
both formats have in common: the tree of texts, integers, truth values, lists and tables. Tables keep
their fields in written order and may repeat a key; whether a repetition is an error is decided by
whoever decodes the table.
-/

namespace ScriptExport

/-- A value of a document. -/
inductive Value where
  | null
  | bool (b : Bool)
  | int (n : Int)
  /-- A number that is not written as an integer. No record holds one. -/
  | float
  | text (s : String)
  | list (items : List Value)
  | table (fields : List (String × Value))
  /-- A part that is well-formed but denotes nothing, such as a number beyond every bound or a text with
  half of a surrogate pair. It does no harm where nobody reads it. -/
  | malformed
deriving Repr, Inhabited

namespace Value

mutual

/-- How deep lists and tables nest. -/
def depth : Value → Nat
  | list items => depthList items + 1
  | table fields => depthFields fields + 1
  | _ => 0

/-- The largest depth in a list. -/
def depthList : List Value → Nat
  | [] => 0
  | v :: vs => max v.depth (depthList vs)

/-- The largest depth among fields. -/
def depthFields : List (String × Value) → Nat
  | [] => 0
  | (_, v) :: fs => max v.depth (depthFields fs)

end

mutual

/-- Whether every part of the value denotes something. -/
def isWhole : Value → Bool
  | list items => isWholeList items
  | table fields => isWholeFields fields
  | malformed => false
  | _ => true

/-- Whether every value of a list is whole. -/
def isWholeList : List Value → Bool
  | [] => true
  | v :: vs => v.isWhole && isWholeList vs

/-- Whether every field is whole. -/
def isWholeFields : List (String × Value) → Bool
  | [] => true
  | (_, v) :: fs => v.isWhole && isWholeFields fs

end

/-- The list of the given texts. -/
def texts (ss : List String) : Value :=
  list (ss.map text)

/-- The text or `null`. -/
def textOrNull : Option String → Value
  | some s => text s
  | none => null

end Value

end ScriptExport
