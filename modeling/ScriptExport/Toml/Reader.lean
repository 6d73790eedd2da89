import ScriptExport.Toml.Scalar
import ScriptExport.Toml.Token
import ScriptExport.Toml.Tree

/-!
# Reading TOML

The tokens of a document run through a machine with a stack of the values that are still open. Each
complete line changes the tree of the document.
-/

namespace ScriptExport.Toml

/-- A token of a key. -/
inductive KeyToken where
  | word (cs : List Char)
  | quoted (s : String)
deriving DecidableEq, Repr

/-- A part of a key, or the dot between two. -/
inductive KeyPart where
  | name (s : String)
  | dot
deriving DecidableEq, Repr

/-- A character of a bare key. -/
def isBareKeyChar (c : Char) : Bool :=
  c.isAlphanum || c == '_' || c == '-'

/-- The parts of a word in a key; nothing between two dots is no part. -/
def wordParts (cs : List Char) : List KeyPart :=
  let pieces := (Text.segments (· == '.') cs).map fun s =>
    if s.isEmpty then [] else [KeyPart.name (String.ofList s)]
  (pieces.intersperse [.dot]).flatten

/-- The parts of a key. -/
def keyParts (ts : List KeyToken) : List KeyPart :=
  ts.flatMap fun
    | .word cs => wordParts cs
    | .quoted s => [.name s]

/-- The names of parts that have exactly one dot between neighbours. -/
def alternating? : List KeyPart → Option (List String)
  | [.name s] => some [s]
  | .name s :: .dot :: parts => (alternating? parts).map (s :: ·)
  | _ => none

/-- The path that a key writes. -/
def keyPath? (ts : List KeyToken) : Option (List String) :=
  let bare := ts.all fun
    | .word cs => cs.all fun c => isBareKeyChar c || c == '.'
    | .quoted _ => true
  if bare then alternating? (keyParts ts) else none

/-- The token as part of a key. -/
def keyToken? : Token → Option KeyToken
  | .word cs => some (.word cs)
  | .text s false => some (.quoted s)
  | _ => none

/-- A value that is still open. -/
inductive Frame where
  /-- The value of an assignment line. -/
  | line (path : List String)
  /-- A list, with its items in reverse order. -/
  | list (done : List Value)
  | inline (entries : Table)
  /-- An inline table with a key whose value is being read. -/
  | member (entries : Table) (path : List String)

/-- What may come next. -/
inductive Expect where
  | line
  | header (repeated : Bool) (key : List KeyToken)
  /-- After the first closing bracket of a repeated header. -/
  | headerEnd (path : List String)
  | lineEnd
  /-- In a key, with its tokens in reverse order. -/
  | key (tokens : List KeyToken)
  | value
  | valueOrClose
  | keyOrClose
  | commaOrClose

/-- A state of the reader. -/
structure State where
  expect : Expect := .line
  stack : List Frame := []
  /-- The path of the header above. -/
  scope : List String := []
  root : Table := []

namespace State

/-- Hand a complete value to whatever is open around it. -/
def complete (s : State) (v : Value) : Option State :=
  match s.stack with
  | .line path :: stack => do
    let root ← Table.update? false (Table.assignPath? path v) s.scope s.root
    return { s with expect := .lineEnd, stack, root }
  | .list done :: stack => some { s with expect := .commaOrClose, stack := .list (v :: done) :: stack }
  | .member entries path :: stack => do
    let entries ← Table.assignPath? path v entries
    return { s with expect := .commaOrClose, stack := .inline entries :: stack }
  | _ => none

/-- Take a header. -/
def takeHeader (s : State) (repeated : Bool) (path : List String) : Option State := do
  let root ← Table.header? repeated path s.root
  return { s with expect := .lineEnd, scope := path, root }

/-- Take a token where a value starts. -/
def takeValue (s : State) : Token → Option State
  | .openList _ => some { s with expect := .valueOrClose, stack := .list [] :: s.stack }
  | .openTable => some { s with expect := .keyOrClose, stack := .inline [] :: s.stack }
  | .text t _ => s.complete (.text t)
  | .word cs => (wordValue? cs).bind s.complete
  | _ => none

/-- Close the innermost list or inline table. -/
def close (s : State) : Token → Option State
  | .closeList _ =>
    match s.stack with
    | .list done :: stack => complete { s with stack } (.list done.reverse)
    | _ => none
  | .closeTable =>
    match s.stack with
    | .inline entries :: stack => complete { s with stack } (.table (entryValues entries))
    | _ => none
  | _ => none

/-- Take one token. -/
def step (s : State) (t : Token) : Option State :=
  match s.expect, t with
  | .line, .newline => some s
  | .line, .openList _ => some { s with expect := .header false [] }
  | .line, t => (keyToken? t).map fun k => { s with expect := .key [k] }
  | .header false [], .openList true => some { s with expect := .header true [] }
  | .header repeated key, .closeList _ => do
    let path ← keyPath? key.reverse
    if repeated then return { s with expect := .headerEnd path } else s.takeHeader false path
  | .header repeated key, t => (keyToken? t).map fun k => { s with expect := .header repeated (k :: key) }
  | .headerEnd path, .closeList true => s.takeHeader true path
  | .headerEnd _, _ => none
  | .lineEnd, .newline => some { s with expect := .line }
  | .lineEnd, _ => none
  | .key tokens, .equals => do
    let path ← keyPath? tokens.reverse
    match s.stack with
    | [] => some { s with expect := .value, stack := [.line path] }
    | .inline entries :: stack => some { s with expect := .value, stack := .member entries path :: stack }
    | _ => none
  | .key tokens, t => (keyToken? t).map fun k => { s with expect := .key (k :: tokens) }
  | .value, t => s.takeValue t
  | .valueOrClose, .newline => some s
  | .valueOrClose, .closeList joined => s.close (.closeList joined)
  | .valueOrClose, t => s.takeValue t
  | .keyOrClose, .newline => some s
  | .keyOrClose, .closeTable => s.close .closeTable
  | .keyOrClose, t => (keyToken? t).map fun k => { s with expect := .key [k] }
  | .commaOrClose, .newline => some s
  | .commaOrClose, .comma =>
    match s.stack with
    | .list _ :: _ => some { s with expect := .valueOrClose }
    | .inline _ :: _ => some { s with expect := .keyOrClose }
    | _ => none
  | .commaOrClose, t => s.close t

/-- Take tokens one after the other. -/
def run? (s : State) : List Token → Option State
  | [] => some s
  | t :: ts => (s.step t).bind fun next => run? next ts

end State

/-- The document of a list of tokens. -/
def ofTokens? (ts : List Token) : Option Value :=
  match State.run? {} ts with
  | some { expect := .line, stack := [], root, .. } => some (.table (entryValues root))
  | some { expect := .lineEnd, stack := [], root, .. } => some (.table (entryValues root))
  | _ => none

/-- The document that a TOML text writes. -/
def parse? (text : String) : Option Value :=
  (tokens? text).bind ofTokens?

end ScriptExport.Toml
