import ScriptExport.Text.Spelling

/-!
# Container families

Template instantiations are exported as vectors, maps or other containers. Which template names count
as a vector or a map is a setting.
-/

namespace ScriptExport

/-- The family of a container. -/
inductive ContainerKind where
  | vector
  | map
  | other
deriving DecidableEq, Repr

namespace ContainerKind

/-- The name written in manifests. -/
def name : ContainerKind → String
  | vector => "vector"
  | map => "map"
  | other => "other"

/-- The last word of a generated container name. -/
def suffix : ContainerKind → String
  | vector => "Vector"
  | map => "Map"
  | other => "Container"

/-- How many leading template arguments are element types, where the family fixes that. -/
def arity : ContainerKind → Option Nat
  | vector => some 1
  | map => some 2
  | other => none

/-- All families. -/
def all : List ContainerKind := [vector, map, other]

/-- The family with the given name. -/
def ofName? (s : String) : Option ContainerKind :=
  all.find? (fun k => k.name == s)

/-- A container read as the given family: the family with its element types, or `other` with all
arguments when there are too few of them. -/
def split {α : Type} (k : ContainerKind) (args : List α) : ContainerKind × List α :=
  match k.arity with
  | some n => if n ≤ args.length then (k, args.take n) else (other, args)
  | none => (other, args)

end ContainerKind

/-- The template names that are recognized as containers. -/
structure ContainerRules where
  vectorTemplates : List String := ["std::vector", "vector"]
  mapTemplates : List String := ["std::map", "std::unordered_map", "map", "unordered_map"]
deriving DecidableEq, Repr

/-- The family of a template name; a leading `::` and blanks around the name do not matter. -/
def ContainerRules.classify (rules : ContainerRules) (template : String) : Option ContainerKind :=
  let name := String.ofList (Text.dropColons (Text.trimChars template.toList))
  if rules.vectorTemplates.contains name then some .vector
  else if rules.mapTemplates.contains name then some .map
  else none

end ScriptExport
