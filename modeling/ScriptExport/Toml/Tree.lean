import ScriptExport.Document.Value

/-!
# The tree of a TOML document

Headers and assignments build a tree of tables. Each table remembers how it came about, since that
decides who may still add to it: a header may complete a table that other headers have only passed
through, a dotted key may not reach into a table that has its own header, and nothing reaches into a
value that was written in one piece.
-/

namespace ScriptExport.Toml

/-- How a table came about. -/
inductive Origin where
  /-- On the way to the table of a header. -/
  | implicit
  /-- On the way of a dotted key. -/
  | dotted
  /-- By its own header. -/
  | explicit
deriving DecidableEq, Repr

/-- What a key stands for. -/
inductive Node where
  /-- A value written in one piece. -/
  | leaf (v : Value)
  | table (origin : Origin) (entries : List (String × Node))
  /-- The tables of a repeated header. -/
  | tables (elements : List (List (String × Node)))
deriving Inhabited

/-- A table of the document, in the order of its keys. -/
abbrev Table := List (String × Node)

namespace Table

/-- What stands under a key. -/
def get? (t : Table) (key : String) : Option Node :=
  (t.find? fun e => e.1 == key).map Prod.snd

/-- Put another node under a key that is there. -/
def replace (t : Table) (key : String) (node : Node) : Table :=
  t.map fun e => if e.1 == key then (key, node) else e

/-- Change the table at the end of a path, making the tables on the way that are missing. A repeated
header stands for its last table. -/
def update? (dotted : Bool) (edit : Table → Option Table) : List String → Table → Option Table
  | [], t => edit t
  | key :: path, t =>
    match t.get? key with
    | none => do
      let inner ← update? dotted edit path []
      return t ++ [(key, .table (if dotted then .dotted else .implicit) inner)]
    | some (.table origin entries) =>
      if dotted && origin == .explicit then none
      else do
        let inner ← update? dotted edit path entries
        return t.replace key (.table origin inner)
    | some (.tables elements) =>
      match elements.getLast? with
      | none => none
      | some last => do
        let inner ← update? dotted edit path last
        return t.replace key (.tables (elements.dropLast ++ [inner]))
    | some (.leaf _) => none

/-- Put a value under a key that is not there yet. -/
def assign? (key : String) (v : Value) (t : Table) : Option Table :=
  match t.get? key with
  | none => some (t ++ [(key, .leaf v)])
  | some _ => none

/-- Put a value at the end of a dotted key. -/
def assignPath? (path : List String) (v : Value) (t : Table) : Option Table :=
  match path.getLast? with
  | none => none
  | some key => update? true (assign? key v) path.dropLast t

/-- Open the table of a header. -/
def openTable? (key : String) (t : Table) : Option Table :=
  match t.get? key with
  | none => some (t ++ [(key, .table .explicit [])])
  | some (.table .implicit entries) => some (t.replace key (.table .explicit entries))
  | some _ => none

/-- Open a further table of a repeated header. -/
def openElement? (key : String) (t : Table) : Option Table :=
  match t.get? key with
  | none => some (t ++ [(key, .tables [[]])])
  | some (.tables elements) => some (t.replace key (.tables (elements ++ [[]])))
  | some _ => none

/-- Open the table of a header with the given path. -/
def header? (repeated : Bool) (path : List String) (t : Table) : Option Table :=
  match path.getLast? with
  | none => none
  | some key => update? false (if repeated then openElement? key else openTable? key) path.dropLast t

end Table

mutual

/-- The document value of a node. -/
def Node.toValue : Node → Value
  | .leaf v => v
  | .table _ entries => .table (entryValues entries)
  | .tables elements => .list (tableValues elements)

/-- The document values of the entries of a table. -/
def entryValues : List (String × Node) → List (String × Value)
  | [] => []
  | (key, node) :: es => (key, node.toValue) :: entryValues es

/-- The document values of tables. -/
def tableValues : List (List (String × Node)) → List Value
  | [] => []
  | t :: ts => .table (entryValues t) :: tableValues ts

end

end ScriptExport.Toml
