import ScriptExport.Source.Location

/-!
# Diagnostics

A problem that was recorded and worked around. The analysis goes on after every one of them; whether a
diagnostic fails a run is decided by the command.
-/

namespace ScriptExport

/-- What went wrong. -/
inductive DiagnosticKind where
  /-- An export directive with a kind outside the vocabulary. -/
  | unknownDirective
  /-- An attribute that could not be read, or a kind on a declaration it cannot describe. -/
  | malformedAttribute
  /-- A type that could only be rendered as an identifier. -/
  | unresolvedType
  /-- A second declaration of an exported container instantiation. -/
  | duplicateContainer
  /-- A member that reaches a class more than once. -/
  | duplicateMember
  /-- Two containers with the same script name. -/
  | nameCollision
  /-- A record without a resolvable name. -/
  | invalidRecord
  /-- A getter and a setter that disagree on the value type. -/
  | propertyMismatch
  /-- An enumerator that could not be evaluated. -/
  | enumEvaluation
deriving DecidableEq, Repr

namespace DiagnosticKind

/-- The name shown in messages. -/
def label : DiagnosticKind → String
  | unknownDirective => "unknown-annotation"
  | malformedAttribute => "malformed-attribute"
  | unresolvedType => "unresolved-type"
  | duplicateContainer => "duplicate-container"
  | duplicateMember => "duplicate-member"
  | nameCollision => "name-collision"
  | invalidRecord => "invalid-record"
  | propertyMismatch => "property-mismatch"
  | enumEvaluation => "enum-evaluation"

/-- The name written in manifests. -/
def name : DiagnosticKind → String
  | unknownDirective => "unknown_annotation"
  | malformedAttribute => "malformed_attribute"
  | unresolvedType => "unresolved_type"
  | duplicateContainer => "duplicate_container"
  | duplicateMember => "duplicate_member"
  | nameCollision => "name_collision"
  | invalidRecord => "invalid_record"
  | propertyMismatch => "property_mismatch"
  | enumEvaluation => "enum_evaluation"

/-- All kinds. -/
def all : List DiagnosticKind :=
  [unknownDirective, malformedAttribute, unresolvedType, duplicateContainer, duplicateMember,
    nameCollision, invalidRecord, propertyMismatch, enumEvaluation]

/-- The kind with the given manifest name. -/
def ofName? (s : String) : Option DiagnosticKind :=
  all.find? (fun k => k.name == s)

end DiagnosticKind

/-- A recorded problem. -/
structure Diagnostic where
  kind : DiagnosticKind
  message : String
  location : Option Location := none
deriving DecidableEq, Repr

/-- The diagnostic on one line, after its location if it has one. -/
def Diagnostic.text (d : Diagnostic) : String :=
  let body := "[" ++ d.kind.label ++ "] " ++ d.message
  match d.location with
  | some l => l.text ++ ": " ++ body
  | none => body

end ScriptExport
