import ScriptExport.Source.Decl

/-!
# Analysis options

The settings of an analysis, and the rule by which declarations without a directive are passed over
before anything is made of them.
-/

namespace ScriptExport

/-- The settings of an analysis. -/
structure Options where
  /-- What an annotation text starts with if it is meant for this library. -/
  marker : String := "lua_export_"
  allowSpecializations : Bool := false
  /-- Declarations in files whose path starts with one of these are passed over. -/
  ignoredPaths : List String := []
  containers : ContainerRules := {}
deriving DecidableEq, Repr

/-- Whether a file lies under an ignored path; an empty path ignores nothing. -/
def Options.isIgnoredPath (o : Options) (file : String) : Bool :=
  o.ignoredPaths.any fun path => !path.isEmpty && Text.startsWith path file

/-- Why a declaration contributes nothing. -/
inductive SkipReason where
  | ignored
  | implicit
  | specialization
  | anonymous
  | ignoredPath
  | rejectedDirective
  | nonPublic
  | constructor
  | deleted
  | staticClass
deriving DecidableEq, Repr

/-- The name shown in event logs. -/
def SkipReason.name : SkipReason → String
  | ignored => "ignored"
  | implicit => "implicit"
  | specialization => "specialization"
  | anonymous => "anonymous"
  | ignoredPath => "ignored-path"
  | rejectedDirective => "rejected-annotation"
  | nonPublic => "non-public"
  | constructor => "constructor"
  | deleted => "deleted"
  | staticClass => "static-class"

/-- Whether the declaration is an instantiated template specialization. -/
def Decl.isSpecialization : Decl → Bool
  | record _ traits _ => traits.isSpecialization
  | _ => false

/-- Why a declaration is passed over before any record is built. An annotated declaration never is, and
inside an exported scope a declaration needs no name. -/
def Options.skipReason? (o : Options) (d : Decl) (annotated exportContext : Bool) :
    Option SkipReason :=
  if annotated then none
  else if d.header.implicit then some .implicit
  else if d.isSpecialization && !o.allowSpecializations then some .specialization
  else if Text.isBlankText d.name && !exportContext then some .anonymous
  else if d.location.any (fun l => o.isIgnoredPath l.file) then some .ignoredPath
  else none

end ScriptExport
