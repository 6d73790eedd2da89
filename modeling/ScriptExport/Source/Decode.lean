import ScriptExport.Document.Fields
import ScriptExport.Json.Reader
import ScriptExport.Source.Decl

/-!
# Reading tree dumps

The front end dumps a translation unit as JSON. Decoders of types and declarations take the number of
levels that the value may still nest; the bound of a whole dump is `maxNesting`. A declaration's kind is read
as a whole before it is decoded, so inside of it every part has to denote something and counts for the
nesting, while unknown fields further out are passed over whatever they hold.
-/

namespace ScriptExport

/-- How many lists and tables of a dump may be open at once. -/
def maxNesting : Nat := 127

/-- A location from its fields. -/
def Location.ofValue? (v : Value) : Option Location := do
  let fs ← v.fields? ["file", "line", "column"]
  let file ← fs.required "file" Value.text?
  let line ← fs.required "line" Value.uint32?
  let column ← fs.withDefault "column" 0 Value.uint32?
  return ⟨file, line, column⟩

/-- A type, given by a table whose only key is its constructor. -/
def TypeRef.ofValue? : Nat → Value → Option TypeRef
  | 0, _ => none
  | n + 1, .table [(tag, body)] =>
    match tag with
    | "builtin" => body.text?.map .builtin
    | "named" => body.text?.map .named
    | "const" => (TypeRef.ofValue? n body).map .const
    | "l_value_ref" => (TypeRef.ofValue? n body).map .lvalueRef
    | "r_value_ref" => (TypeRef.ofValue? n body).map .rvalueRef
    | "pointer" => (TypeRef.ofValue? n body).map .pointer
    | "template" => do
      let fs ← body.fields? ["name", "args"]
      let name ← fs.required "name" Value.text?
      let args ← fs.required "args" (Value.listOf? (TypeRef.ofValue? n))
      return .template name args
    | "function" => do
      let fs ← body.fields? ["ret", "params"]
      let ret ← fs.required "ret" (TypeRef.ofValue? n)
      let params ← fs.required "params" (Value.listOf? (TypeRef.ofValue? n))
      return .function ret params
    | "unresolved" => body.text?.map .unresolved
    | _ => none
  | _ + 1, _ => none

/-- A parameter from its fields. -/
def Param.ofValue? (n : Nat) (v : Value) : Option Param := do
  let fs ← v.fields? ["name", "ty"]
  let name ← fs.withDefault "name" "" Value.text?
  let type ← fs.required "ty" (TypeRef.ofValue? n)
  return ⟨name, type⟩

/-- A callable from its fields, all of which have a default. -/
def Callable.ofValue? (n : Nat) (v : Value) : Option Callable := do
  let fs ← v.fields?
    ["return_type", "params", "is_static", "is_const", "is_virtual", "is_pure", "is_deleted"]
  let returnType ← fs.withDefault "return_type" .void (TypeRef.ofValue? n)
  let params ← fs.withDefault "params" [] (Value.listOf? (Param.ofValue? n))
  let isStatic ← fs.withDefault "is_static" false Value.bool?
  let isConst ← fs.withDefault "is_const" false Value.bool?
  let isVirtual ← fs.withDefault "is_virtual" false Value.bool?
  let isPure ← fs.withDefault "is_pure" false Value.bool?
  let isDeleted ← fs.withDefault "is_deleted" false Value.bool?
  return { returnType, params, isStatic, isConst, isVirtual, isPure, isDeleted }

/-- An access level by its word. -/
def Access.ofValue? (inner : Bool) (v : Value) : Option Access :=
  if inner then v.innerWord? Access.ofName? else v.word? Access.ofName?

/-- A base from its fields. -/
def Base.ofValue? (v : Value) : Option Base := do
  let fs ← v.fields? ["name", "access", "is_virtual"]
  let name ← fs.required "name" Value.text?
  let access ← fs.withDefault "access" .pub (Access.ofValue? true)
  let isVirtual ← fs.withDefault "is_virtual" false Value.bool?
  return { name, access, isVirtual }

/-- An enumerator from its fields. -/
def EnumConstant.ofValue? (v : Value) : Option EnumConstant := do
  let fs ← v.fields? ["name", "init"]
  let name ← fs.required "name" Value.text?
  let init ← fs.withDefault "init" none (Fields.nullable Value.text?)
  return { name, init }

/-- The names of a declaration's fields. -/
def Decl.fieldNames : List String :=
  ["name", "location", "annotations", "access", "implicit", "kind"]

/-- What all declarations have in common, from the fields of one. -/
def Header.ofFields? (inner : Bool) (fs : Fields) : Option Header := do
  let name ← fs.withDefault "name" "" Value.text?
  let location ← fs.withDefault "location" none (Fields.nullable Location.ofValue?)
  let annotations ← fs.withDefault "annotations" [] Value.texts?
  let access ← fs.withDefault "access" .pub (Access.ofValue? inner)
  let implicit ← fs.withDefault "implicit" false Value.bool?
  return { name, location, annotations, access, implicit }

/-- The tags of all kinds. -/
def kindTags : List String :=
  ["namespace", "record", "method", "constructor", "destructor", "function", "field", "variable",
    "enum", "type_alias"]

/-- The tag that a value stands for; inside another kind it may be given by its place among all tags. -/
def kindTag? (inner : Bool) : Value → Option String
  | .text tag => some tag
  | .int n => if inner ∧ 0 ≤ n then kindTags[n.toNat]? else none
  | _ => none

/-- The tag of a kind and what stands beside it: the other fields of a table, or the items after the
first of a list. -/
def kindParts? (inner : Bool) : Value → Option (String × Value)
  | .table fields =>
    match fields.filter (fun f => f.1 == "decl") with
    | [(_, tag)] => (kindTag? inner tag).map (·, .table (fields.filter fun f => f.1 != "decl"))
    | _ => none
  | .list (tag :: items) => (kindTag? inner tag).map (·, .list items)
  | _ => none

/-- Whether nothing has to be read beside a tag: any table, or a list without further items. -/
def isBare : Value → Bool
  | .table _ => true
  | .list items => items.isEmpty
  | _ => false

/-- A declaration of the given kind, where `read` decodes the declarations inside of it. -/
def Decl.ofKind? (n : Nat) (read : Value → Option Decl) (header : Header) (tag : String)
    (body : Value) : Option Decl :=
  match tag with
  | "namespace" => do
    let fs ← body.fields? ["decls"]
    let decls ← fs.withDefault "decls" [] (Value.listOf? read)
    return .nameSpace header decls
  | "record" => do
    let fs ← body.fields? ["bases", "members", "is_abstract", "is_specialization"]
    let bases ← fs.withDefault "bases" [] (Value.listOf? Base.ofValue?)
    let members ← fs.withDefault "members" [] (Value.listOf? read)
    let isAbstract ← fs.withDefault "is_abstract" false Value.bool?
    let isSpecialization ← fs.withDefault "is_specialization" false Value.bool?
    return .record header { bases, isAbstract, isSpecialization } members
  | "method" => (Callable.ofValue? n body).map (.method header)
  | "constructor" => (Callable.ofValue? n body).map (.constructor header)
  | "destructor" => if isBare body then some (.destructor header) else none
  | "function" => (Callable.ofValue? n body).map (.function header)
  | "field" => do
    let fs ← body.fields? ["ty", "is_static", "is_const", "init"]
    let type ← fs.required "ty" (TypeRef.ofValue? n)
    let isStatic ← fs.withDefault "is_static" false Value.bool?
    let isConst ← fs.withDefault "is_const" false Value.bool?
    let init ← fs.withDefault "init" none (Fields.nullable Value.text?)
    return .field header { type, isStatic, isConst, init }
  | "variable" => do
    let fs ← body.fields? ["ty", "is_const", "init"]
    let type ← fs.required "ty" (TypeRef.ofValue? n)
    let isConst ← fs.withDefault "is_const" false Value.bool?
    let init ← fs.withDefault "init" none (Fields.nullable Value.text?)
    return .var header { type, isConst, init }
  | "enum" => do
    let fs ← body.fields? ["enumerators", "is_scoped"]
    let enumerators ← fs.withDefault "enumerators" [] (Value.listOf? EnumConstant.ofValue?)
    let isScoped ← fs.withDefault "is_scoped" false Value.bool?
    return .enumeration header { enumerators, isScoped }
  | "type_alias" => do
    let fs ← body.fields? ["target"]
    let target ← fs.required "target" (TypeRef.ofValue? n)
    return .typeAlias header target
  | _ => none

/-- A declaration from its fields. One that is `inner` stands inside the kind of another. -/
def Decl.ofValue? : Nat → (inner : Bool) → Value → Option Decl
  | 0, _, _ => none
  | n + 1, inner, v => do
    let fs ← v.fields? Decl.fieldNames
    let header ← Header.ofFields? inner fs
    let (tag, body) ← (fs.get? "kind").bind (kindParts? inner)
    Decl.ofKind? n (Decl.ofValue? n true) header tag body

/-- A declaration at the top of a dump. Three levels are open around its kind. -/
def Decl.ofTopValue? (v : Value) : Option Decl := do
  let fs ← v.fields? Decl.fieldNames
  let kind ← fs.get? "kind"
  if kind.isWhole && kind.depth + 3 ≤ maxNesting then Decl.ofValue? maxNesting false v else none

/-- A translation unit from its fields. -/
def TranslationUnit.ofValue? (v : Value) : Option TranslationUnit := do
  let fs ← v.fields? ["file_path", "decls"]
  let filePath ← fs.required "file_path" Value.text?
  let decls ← fs.withDefault "decls" [] (Value.listOf? Decl.ofTopValue?)
  return { filePath, decls }

/-- The translation unit that a JSON text dumps. -/
def TranslationUnit.ofJson? (text : String) : Option TranslationUnit :=
  (Json.parse? text).bind TranslationUnit.ofValue?

end ScriptExport
