import ScriptExport.Document.Value
import ScriptExport.Source.Decl

/-!
# Writing tree dumps

The document form of a translation unit, with every field written, also one that has its default.
-/

namespace ScriptExport

/-- A location as a table. -/
def Location.toValue (l : Location) : Value :=
  .table [("file", .text l.file), ("line", .int l.line.toNat), ("column", .int l.column.toNat)]

/-- A location or `null`. -/
def Location.orNull : Option Location → Value
  | some l => l.toValue
  | none => .null

mutual

/-- A type as a table whose only key is its constructor. -/
def TypeRef.toValue : TypeRef → Value
  | .builtin name => .table [("builtin", .text name)]
  | .named name => .table [("named", .text name)]
  | .const t => .table [("const", t.toValue)]
  | .lvalueRef t => .table [("l_value_ref", t.toValue)]
  | .rvalueRef t => .table [("r_value_ref", t.toValue)]
  | .pointer t => .table [("pointer", t.toValue)]
  | .template name args =>
    .table [("template", .table [("name", .text name), ("args", .list (TypeRef.toValues args))])]
  | .function ret params =>
    .table [("function", .table [("ret", ret.toValue), ("params", .list (TypeRef.toValues params))])]
  | .unresolved spelling => .table [("unresolved", .text spelling)]

/-- The document forms of a list of types. -/
def TypeRef.toValues : List TypeRef → List Value
  | [] => []
  | t :: ts => t.toValue :: TypeRef.toValues ts

end

/-- A parameter as a table. -/
def Param.toValue (p : Param) : Value :=
  .table [("name", .text p.name), ("ty", p.type.toValue)]

/-- The fields of a callable. -/
def Callable.toFields (c : Callable) : List (String × Value) :=
  [("return_type", c.returnType.toValue), ("params", .list (c.params.map Param.toValue)),
    ("is_static", .bool c.isStatic), ("is_const", .bool c.isConst),
    ("is_virtual", .bool c.isVirtual), ("is_pure", .bool c.isPure),
    ("is_deleted", .bool c.isDeleted)]

/-- A base as a table. -/
def Base.toValue (b : Base) : Value :=
  .table [("name", .text b.name), ("access", .text b.access.name), ("is_virtual", .bool b.isVirtual)]

/-- An enumerator as a table. -/
def EnumConstant.toValue (e : EnumConstant) : Value :=
  .table [("name", .text e.name), ("init", .textOrNull e.init)]

/-- A declaration as a table of its header and its kind. -/
def Header.toValue (h : Header) (tag : String) (kind : List (String × Value)) : Value :=
  .table [("name", .text h.name), ("location", Location.orNull h.location),
    ("annotations", .texts h.annotations), ("access", .text h.access.name),
    ("implicit", .bool h.implicit), ("kind", .table (("decl", .text tag) :: kind))]

mutual

/-- A declaration as a table. -/
def Decl.toValue : Decl → Value
  | .nameSpace h decls => h.toValue "namespace" [("decls", .list (Decl.toValues decls))]
  | .record h traits members =>
    h.toValue "record"
      [("bases", .list (traits.bases.map Base.toValue)), ("members", .list (Decl.toValues members)),
        ("is_abstract", .bool traits.isAbstract),
        ("is_specialization", .bool traits.isSpecialization)]
  | .method h c => h.toValue "method" c.toFields
  | .constructor h c => h.toValue "constructor" c.toFields
  | .destructor h => h.toValue "destructor" []
  | .function h c => h.toValue "function" c.toFields
  | .field h f =>
    h.toValue "field"
      [("ty", f.type.toValue), ("is_static", .bool f.isStatic), ("is_const", .bool f.isConst),
        ("init", .textOrNull f.init)]
  | .var h i =>
    h.toValue "variable"
      [("ty", i.type.toValue), ("is_const", .bool i.isConst), ("init", .textOrNull i.init)]
  | .enumeration h e =>
    h.toValue "enum"
      [("enumerators", .list (e.enumerators.map EnumConstant.toValue)),
        ("is_scoped", .bool e.isScoped)]
  | .typeAlias h target => h.toValue "type_alias" [("target", target.toValue)]

/-- The document forms of a list of declarations. -/
def Decl.toValues : List Decl → List Value
  | [] => []
  | d :: ds => d.toValue :: Decl.toValues ds

end

/-- A translation unit as a table. -/
def TranslationUnit.toValue (u : TranslationUnit) : Value :=
  .table [("file_path", .text u.filePath), ("decls", .list (Decl.toValues u.decls))]

end ScriptExport
