import ScriptExport.Directive.Attribute

/-!
# Annotations of a declaration

A declaration carries annotation texts of any origin. Those that start with the marker belong to this
library: `lua_export_class,alias=Hero` is the marker `lua_export_`, the kind `class` and one attribute.
`parseAnnotations` reads all texts of a declaration: the first valid kind counts, later ones are
reported, and the kind `ignore` excludes the declaration.
-/

namespace ScriptExport

/-- An export directive. -/
structure Directive where
  kind : DirectiveKind
  attributes : Attributes := {}
deriving DecidableEq

namespace Directive

/-- The value of an attribute that is present and not empty. -/
def attribute? (a : Directive) (key : String) : Option String :=
  (a.attributes.get? key).filter (fun v => !v.isEmpty)

/-- The script name that the directive asks for. -/
def scriptAlias? (a : Directive) : Option String :=
  a.attribute? "alias"

/-- The script namespace that the directive asks for. -/
def scriptNamespace? (a : Directive) : Option String :=
  a.attribute? "namespace"

/-- The access that the directive asks for. -/
def access? (a : Directive) : Option AccessMode :=
  (a.attribute? "access").bind AccessMode.ofAttribute?

end Directive

/-- What the annotations of one declaration say. -/
structure ParsedAnnotations where
  /-- The first valid export directive. -/
  directive : Option Directive := none
  /-- The kind `ignore` is present. -/
  ignored : Bool := false
  issues : List DirectiveIssue := []
deriving DecidableEq

/-- Whether at least one annotation text had the marker. -/
def ParsedAnnotations.isMarked (p : ParsedAnnotations) : Bool :=
  p.directive.isSome || p.ignored || !p.issues.isEmpty

/-- The word that excludes a declaration. -/
def ignoreWord : String := "ignore"

/-- The kind word and the attribute payload of a text that has the marker. -/
def annotationParts? (marker raw : String) : Option (String × List Char) :=
  (Text.after? marker.toList (Text.trimChars raw.toList)).map fun body =>
    match Text.cutAt ',' body with
    | some (kind, payload) => (String.ofList (Text.trimChars kind), payload)
    | none => (String.ofList (Text.trimChars body), [])

/-- Take one annotation text into what is known so far. -/
def ParsedAnnotations.take (marker : String) (p : ParsedAnnotations) (raw : String) :
    ParsedAnnotations :=
  match annotationParts? marker raw with
  | none => p
  | some (word, payload) =>
    if word == ignoreWord then { p with ignored := true }
    else match DirectiveKind.ofName? word with
      | none => { p with issues := p.issues ++ [.unknownKind word] }
      | some kind =>
        let (attributes, issues) := Attribute.parse payload ({}, p.issues)
        match p.directive with
        | some earlier => { p with issues := issues ++ [.additional kind earlier.kind] }
        | none => { p with directive := some ⟨kind, attributes⟩, issues := issues }

/-- What the annotation texts of a declaration say under a marker. -/
def parseAnnotations (marker : String) (raw : List String) : ParsedAnnotations :=
  raw.foldl (·.take marker) {}

end ScriptExport
