import ScriptExport.Container

/-!
# Type references

A type as the front end resolved it, and its canonical text. Qualifiers and references are dropped at
every depth, pointers keep their `*`, and a part that cannot be spelled is replaced by an identifier
and makes the whole text unresolved.
-/

namespace ScriptExport

/-- A type as the front end resolved it. -/
inductive TypeRef where
  /-- A scalar such as `int` or `unsigned long`. -/
  | builtin (name : String)
  /-- A class, enum or alias under its qualified name. -/
  | named (name : String)
  | const (inner : TypeRef)
  | lvalueRef (inner : TypeRef)
  | rvalueRef (inner : TypeRef)
  | pointer (inner : TypeRef)
  /-- A template instantiation such as `std::vector<int>`. -/
  | template (name : String) (args : List TypeRef)
  | function (ret : TypeRef) (params : List TypeRef)
  /-- A spelling that the front end could not resolve. -/
  | unresolved (spelling : String)
deriving Repr, Inhabited

/-- A canonical text and whether every part of the type could be spelled. -/
structure TypeText where
  text : String
  resolved : Bool
deriving DecidableEq, Repr

namespace TypeRef

/-- The return type of a callable that names none. -/
def void : TypeRef := builtin "void"

/-- The type without qualifiers and references at the top. -/
def unqualified : TypeRef → TypeRef
  | const t => t.unqualified
  | lvalueRef t => t.unqualified
  | rvalueRef t => t.unqualified
  | t => t

/-- Whether the type is `void` up to qualifiers. -/
def isVoid (t : TypeRef) : Bool :=
  match t.unqualified with
  | builtin name => Text.trim name == "void"
  | _ => false

/-- The text of a spelled name; one without a spelling is replaced by an identifier. -/
def nameText (name : String) : TypeText :=
  let s := Text.spelling name
  if s.isEmpty then ⟨Text.identifier name, false⟩ else ⟨s, true⟩

mutual

/-- The canonical text of a type. -/
def canonical : TypeRef → TypeText
  | builtin name => nameText name
  | named name => nameText name
  | const t => t.canonical
  | lvalueRef t => t.canonical
  | rvalueRef t => t.canonical
  | pointer t =>
    let inner := t.canonical
    ⟨inner.text ++ "*", inner.resolved⟩
  | template name args =>
    let head := nameText name
    let args := canonicalList args
    ⟨head.text ++ "<" ++ Text.join ", " (args.map (·.text)) ++ ">",
      args.all (·.resolved) && head.resolved⟩
  | function ret params =>
    let ret := ret.canonical
    let params := canonicalList params
    ⟨ret.text ++ "(" ++ Text.join ", " (params.map (·.text)) ++ ")",
      ret.resolved && params.all (·.resolved)⟩
  | unresolved spelling => ⟨Text.identifier spelling, false⟩

/-- The canonical texts of a list of types. -/
def canonicalList : List TypeRef → List TypeText
  | [] => []
  | t :: ts => t.canonical :: canonicalList ts

end

@[simp] theorem canonicalList_eq_map (ts : List TypeRef) : canonicalList ts = ts.map canonical := by
  induction ts with
  | nil => rfl
  | cons t ts ih => simp [canonicalList, ih]

/-- The family and element types of a template instantiation. Further arguments, such as allocators
and comparators, are no element types. -/
def container? (rules : ContainerRules) (t : TypeRef) : Option (ContainerKind × List TypeRef) :=
  match t.unqualified with
  | template name args => some (((rules.classify name).getD .other).split args)
  | _ => none

/-- A template that wraps a function type. -/
def isFunctionWrapper (name : String) : Bool :=
  let s := Text.spelling name
  s == "std::function" || s == "function"

/-- The return and parameter types of a function type, of a pointer to one, or of a wrapper around
one. -/
def signature? : TypeRef → Option (TypeRef × List TypeRef)
  | const t => t.signature?
  | lvalueRef t => t.signature?
  | rvalueRef t => t.signature?
  | pointer t => t.signature?
  | function ret params => some (ret, params)
  | template name [t] => if isFunctionWrapper name then t.signature? else none
  | _ => none

end TypeRef

end ScriptExport
