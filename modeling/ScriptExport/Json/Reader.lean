import ScriptExport.Json.Token

/-!
# Reading JSON

The tokens of a document run through a machine with a stack of open lists and tables. Nothing bounds
the nesting here; the decoders of tree dumps bound it where they look.
-/

namespace ScriptExport.Json

/-- A list or table that is still open. Its parts are in reverse order. A table is spoiled by a key
without a value as a string. -/
inductive Frame where
  | list (done : List Value)
  | table (done : List (String × Value)) (spoiled : Bool)
  /-- A table with a key whose value is being read. -/
  | member (done : List (String × Value)) (spoiled : Bool) (key : Option String)
deriving Repr

/-- What may come next. -/
inductive Expect where
  | value
  | valueOrClose
  | key
  | keyOrClose
  | colon
  | commaOrClose
  | done (v : Value)
deriving Repr

/-- A state of the reader: what may come next inside the open lists and tables. -/
abbrev State := Expect × List Frame

/-- Hand a complete value to the innermost open list or table. -/
def complete (v : Value) : List Frame → Option State
  | [] => some (.done v, [])
  | .list done :: stack => some (.commaOrClose, .list (v :: done) :: stack)
  | .member done spoiled (some key) :: stack =>
    some (.commaOrClose, .table ((key, v) :: done) spoiled :: stack)
  | .member done _ none :: stack => some (.commaOrClose, .table done true :: stack)
  | .table .. :: _ => none

/-- The value of a table with the given fields in reverse order. -/
def closed (done : List (String × Value)) (spoiled : Bool) : Value :=
  if spoiled then .malformed else .table done.reverse

/-- Take a token where a value may start. -/
def takeValue (t : Token) (stack : List Frame) : Option State :=
  match t with
  | .openList => some (.valueOrClose, .list [] :: stack)
  | .openTable => some (.keyOrClose, .table [] false :: stack)
  | .string (some s) => complete (.text s) stack
  | .string none => complete .malformed stack
  | .atom v => complete v stack
  | _ => none

/-- Take one token. -/
def step (state : State) (t : Token) : Option State :=
  match state.1, t, state.2 with
  | .value, t, stack => takeValue t stack
  | .valueOrClose, .closeList, .list done :: stack => complete (.list done.reverse) stack
  | .valueOrClose, t, stack => takeValue t stack
  | .keyOrClose, .closeTable, .table done spoiled :: stack => complete (closed done spoiled) stack
  | .keyOrClose, .string key, .table done spoiled :: stack =>
    some (.colon, .member done spoiled key :: stack)
  | .key, .string key, .table done spoiled :: stack =>
    some (.colon, .member done spoiled key :: stack)
  | .colon, .colon, stack => some (.value, stack)
  | .commaOrClose, .comma, .list done :: stack => some (.value, .list done :: stack)
  | .commaOrClose, .closeList, .list done :: stack => complete (.list done.reverse) stack
  | .commaOrClose, .comma, .table done spoiled :: stack =>
    some (.key, .table done spoiled :: stack)
  | .commaOrClose, .closeTable, .table done spoiled :: stack =>
    complete (closed done spoiled) stack
  | _, _, _ => none

/-- Take tokens one after the other. -/
def run? (state : State) : List Token → Option State
  | [] => some state
  | t :: ts => (step state t).bind fun next => run? next ts

/-- The value of a list of tokens. -/
def ofTokens? (ts : List Token) : Option Value :=
  match run? (.value, []) ts with
  | some (.done v, _) => some v
  | _ => none

/-- The value that a JSON text writes. -/
def parse? (text : String) : Option Value :=
  (tokens? text).bind ofTokens?

end ScriptExport.Json
