import ScriptExport.Record.Basic
import ScriptExport.Source.Decode
import ScriptExport.Source.Encode

/-!
# Records and diagnostics in documents

The document form of records and diagnostics. Empty lists, empty names and absent values are not
written, and what is not written is read back as empty or absent.
-/

namespace ScriptExport

/-- A field that is written only if there is a value. -/
def optionalField (key : String) : Option Value → List (String × Value)
  | some v => [(key, v)]
  | none => []

/-- A list of texts that is written only if it is not empty. -/
def textsField (key : String) (ss : List String) : List (String × Value) :=
  if ss.isEmpty then [] else [(key, .texts ss)]

/-- A text that is written only if it is not empty. -/
def textField (key : String) (s : String) : List (String × Value) :=
  if s.isEmpty then [] else [(key, .text s)]

/-- An enumerator as a table. -/
def Enumerator.toValue (e : Enumerator) : Value :=
  .table [("name", .text e.name), ("value", .int e.value.toInt)]

/-- An enumerator from its fields. -/
def Enumerator.ofValue? (v : Value) : Option Enumerator := do
  let fs ← v.fields? ["name", "value"]
  let name ← fs.required "name" Value.text?
  let value ← fs.required "value" Value.int64?
  return { name, value }

/-- Attributes as a table in their own order. -/
def Attributes.toValue (a : Attributes) : Value :=
  .table (a.entries.map fun e => (e.1, .text e.2))

/-- A field whose value is a text. -/
def textEntry? (f : String × Value) : Option (String × String) :=
  f.2.text?.map fun s => (f.1, s)

/-- Attributes from a table of texts; of a repeated key the last value counts. -/
def Attributes.ofValue? : Value → Option Attributes
  | .table fields => (fields.mapM textEntry?).map OrderedMap.ofList
  | _ => none

namespace ExportRecord

/-- The fields of a record in written order. -/
def toFields (r : ExportRecord) : List (String × Value) :=
  [("kind", .text r.kind.name), ("name", .text r.name), ("script_name", .text r.scriptName),
    ("qualified_name", .text r.qualifiedName)]
  ++ optionalField "source_location" (r.location.map Location.toValue)
  ++ [("file_path", .text r.filePath)]
  ++ (if r.attributes.isEmpty then [] else [("attributes", r.attributes.toValue)])
  ++ optionalField "return_type" (r.returnType.map .text)
  ++ textsField "parameter_types" r.parameterTypes
  ++ textsField "parameter_names" r.parameterNames
  ++ [("access_type", .text r.access.name), ("is_static", .bool r.isStatic),
    ("is_const", .bool r.isConst), ("is_virtual", .bool r.isVirtual)]
  ++ textsField "base_types" r.baseTypes
  ++ textField "owner_type" r.ownerType
  ++ textField "namespace_name" r.namespaceName
  ++ textField "module_name" r.moduleName
  ++ optionalField "getter" (r.getter.map .text)
  ++ optionalField "setter" (r.setter.map .text)
  ++ optionalField "value_type" (r.valueType.map .text)
  ++ (if r.enumerators.isEmpty then []
    else [("enumerators", .list (r.enumerators.map Enumerator.toValue))])
  ++ optionalField "value" (r.value.map .text)
  ++ optionalField "container" (r.container.map fun k => .text k.name)
  ++ textsField "element_types" r.elementTypes

/-- A record as a table. -/
def toValue (r : ExportRecord) : Value :=
  .table r.toFields

/-- The names of a record's fields. -/
def fieldNames : List String :=
  ["kind", "name", "script_name", "qualified_name", "source_location", "file_path", "attributes",
    "return_type", "parameter_types", "parameter_names", "access_type", "is_static", "is_const",
    "is_virtual", "base_types", "owner_type", "namespace_name", "module_name", "getter", "setter",
    "value_type", "enumerators", "value", "container", "element_types"]

/-- A record from its fields. -/
def ofValue? (v : Value) : Option ExportRecord := do
  let fs ← v.fields? fieldNames
  let kind ← fs.required "kind" (Value.word? ExportKind.ofName?)
  let name ← fs.required "name" Value.text?
  let scriptName ← fs.required "script_name" Value.text?
  let qualifiedName ← fs.required "qualified_name" Value.text?
  let location ← fs.nullableField "source_location" Location.ofValue?
  let filePath ← fs.withDefault "file_path" "" Value.text?
  let attributes ← fs.withDefault "attributes" {} Attributes.ofValue?
  let returnType ← fs.nullableField "return_type" Value.text?
  let parameterTypes ← fs.withDefault "parameter_types" [] Value.texts?
  let parameterNames ← fs.withDefault "parameter_names" [] Value.texts?
  let access ← fs.withDefault "access_type" .unset (Value.word? AccessMode.ofName?)
  let isStatic ← fs.withDefault "is_static" false Value.bool?
  let isConst ← fs.withDefault "is_const" false Value.bool?
  let isVirtual ← fs.withDefault "is_virtual" false Value.bool?
  let baseTypes ← fs.withDefault "base_types" [] Value.texts?
  let ownerType ← fs.withDefault "owner_type" "" Value.text?
  let namespaceName ← fs.withDefault "namespace_name" "" Value.text?
  let moduleName ← fs.withDefault "module_name" "" Value.text?
  let getter ← fs.nullableField "getter" Value.text?
  let setter ← fs.nullableField "setter" Value.text?
  let valueType ← fs.nullableField "value_type" Value.text?
  let enumerators ← fs.withDefault "enumerators" [] (Value.listOf? Enumerator.ofValue?)
  let value ← fs.nullableField "value" Value.text?
  let container ← fs.nullableField "container" (Value.word? ContainerKind.ofName?)
  let elementTypes ← fs.withDefault "element_types" [] Value.texts?
  return {
    kind, name, scriptName, qualifiedName, location, filePath, attributes, returnType,
    parameterTypes, parameterNames, access, isStatic, isConst, isVirtual, baseTypes, ownerType,
    namespaceName, moduleName, getter, setter, valueType, enumerators, value, container,
    elementTypes }

end ExportRecord

namespace Diagnostic

/-- A diagnostic as a table. -/
def toValue (d : Diagnostic) : Value :=
  .table ([("kind", .text d.kind.name), ("message", .text d.message)]
    ++ optionalField "location" (d.location.map Location.toValue))

/-- A diagnostic from its fields. -/
def ofValue? (v : Value) : Option Diagnostic := do
  let fs ← v.fields? ["kind", "message", "location"]
  let kind ← fs.required "kind" (Value.word? DiagnosticKind.ofName?)
  let message ← fs.required "message" Value.text?
  let location ← fs.nullableField "location" Location.ofValue?
  return { kind, message, location }

end Diagnostic

end ScriptExport
