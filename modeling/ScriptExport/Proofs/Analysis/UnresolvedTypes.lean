import ScriptExport.Proofs.Analysis.Origins
import ScriptExport.Proofs.Source.TypeRef

/-!
# Reports of unresolved types

The canonical text of a type hides what could not be spelled behind an identifier, so each such type has
to be reported. A text is marked as unresolved exactly if the type has, at some depth, a part without a
spelling (`TypeRef.resolved_eq_false_iff`). Every record shows types that were looked at before it was
made (`exists_makes_of_mem_records`), and for each of them that has such a part there is a diagnostic with
the name of the declaration and the text of the type.
-/

namespace ScriptExport

/-! ## Parts without a spelling -/

namespace TypeRef

/-- Whether the type itself has no spelling: it is unresolved, or its name has none. -/
def isUnspelled : TypeRef → Bool
  | unresolved _ => true
  | builtin name | named name | template name _ => (Text.spelling name).isEmpty
  | const _ | lvalueRef _ | rvalueRef _ | pointer _ | function .. => false

/-- A text is resolved if the type has a spelling and the texts of its parts are resolved. -/
theorem resolved_canonical (t : TypeRef) :
    t.canonical.resolved = (!t.isUnspelled && t.parts.all (·.canonical.resolved)) := by
  have hname : ∀ name, (nameText name).resolved = !(Text.spelling name).isEmpty := by
    intro name
    unfold nameText
    dsimp only
    cases (Text.spelling name).isEmpty <;> rfl
  cases t with
  | builtin name | named name => simp [canonical, parts, isUnspelled, hname]
  | template name args =>
    simp [canonical, parts, isUnspelled, hname, Bool.and_comm, Function.comp_def]
  | function ret params => simp [canonical, parts, isUnspelled, Function.comp_def]
  | const t | lvalueRef t | rvalueRef t | pointer t => simp [canonical, parts, isUnspelled]
  | unresolved spelling => simp [canonical, isUnspelled]

/-- A text is unresolved exactly if some part of the type, at any depth, has no spelling. -/
theorem resolved_eq_false_iff (t : TypeRef) :
    t.canonical.resolved = false ↔ ∃ s : TypeRef, s.PartOf t ∧ s.isUnspelled = true := by
  induction t using parts_induction with
  | step t ih =>
    rw [resolved_canonical, Bool.and_eq_false_iff, Bool.not_eq_false', List.all_eq_false]
    constructor
    · rintro (hself | ⟨part, hpart, hresolved⟩)
      · exact ⟨t, .refl t, hself⟩
      · obtain ⟨s, hs, hunspelled⟩ := (ih part hpart).mp (Bool.eq_false_iff.mpr hresolved)
        exact ⟨s, .inside hpart hs, hunspelled⟩
    · rintro ⟨s, hs, hunspelled⟩
      cases hs with
      | refl => exact .inl hunspelled
      | inside hpart hs =>
        exact .inr ⟨_, hpart, Bool.eq_false_iff.mp ((ih _ hpart).mpr ⟨s, hs, hunspelled⟩)⟩

end TypeRef

/-! ## Types in records -/

/-- The texts of types that a record shows. -/
def ExportRecord.typeTexts (r : ExportRecord) : List String :=
  r.returnType.toList ++ r.parameterTypes ++ r.valueType.toList ++ r.elementTypes

/-- The types that a declaration is written with: a constructor has no return type. -/
def Decl.writtenTypes : Decl → List TypeRef
  | .function _ c | .method _ c => c.returnType :: c.params.map (·.type)
  | .constructor _ c => c.params.map (·.type)
  | .field _ info => [info.type]
  | .var _ info => [info.type]
  | .typeAlias _ target => [target]
  | .nameSpace .. | .record .. | .destructor _ | .enumeration .. => []

namespace Analysis

section Shown

variable {ctx : Context} {d : Decl} {r : ExportRecord} {ts : List TypeRef}

theorem Context.Represents.writtenTypes (h : ctx.Represents d r ts) : d.writtenTypes ⊆ ts := by
  cases h with
  | nameSpace | classType | enumeration => exact List.nil_subset _
  | function | constructor | method | constantVar | propertyVar | constantField | propertyField =>
    exact List.Subset.refl _
  | callback => exact List.subset_append_right _ _
  | container => exact List.cons_subset.mpr ⟨List.mem_cons_self, List.nil_subset _⟩

theorem typeTexts_callableRecord (kind : ExportKind) (h : Header) (c : Callable)
    (directive : Option Directive) :
    (ctx.callableRecord kind h c directive).typeTexts =
      (callableTypes kind c).map (·.canonical.text) := by
  unfold ExportRecord.typeTexts Context.callableRecord Context.record callableTypes
  dsimp only
  split <;> simp [Function.comp_def]

/-- A record shows types that its declaration uses. -/
theorem Context.Represents.typeTexts (h : ctx.Represents d r ts) :
    r.typeTexts ⊆ ts.map (·.canonical.text) := by
  cases h with
  | nameSpace | classType | enumeration => exact List.nil_subset _
  | function ha hkind =>
    rw [typeTexts_callableRecord, hkind]
    split <;> exact List.Subset.refl _
  | constructor h c =>
    rw [typeTexts_callableRecord]
    exact List.Subset.refl _
  | method h c =>
    rw [typeTexts_callableRecord, callableTypes_methodKind]
    exact List.Subset.refl _
  | constantVar | propertyVar | constantField | propertyField => exact List.Subset.refl _
  | callback ha hsignature =>
    unfold ExportRecord.typeTexts Context.callbackRecord Context.record
    simp
  | container =>
    unfold ExportRecord.typeTexts Context.containerRecord Context.record
    simp

theorem typeTexts_propertyRecord (ctx : Context) (spec : PropertySpec) :
    (ctx.propertyRecord spec).typeTexts = spec.type?.toList.map (·.canonical.text) := by
  unfold ExportRecord.typeTexts Context.propertyRecord Context.record
  cases spec.type? <;> rfl

end Shown

/-- A record shows no other types than those that were looked at for it, and these are the ones that its
declaration is written with, or the one of a property. -/
theorem Visit.Makes.shown {v : Visit} {m : Option Decl} {r : ExportRecord} {h : Header}
    {ts : List TypeRef} (hmakes : v.Makes m r h ts) :
    r.location = h.location ∧ r.typeTexts ⊆ ts.map (·.canonical.text) ∧
      ((m.getD v.decl).header = h ∧ (m.getD v.decl).writtenTypes ⊆ ts ∨
        ∃ list ∈ v.memberLists, ∃ starter spec,
          PropertySpec.FormedFrom v.ctx.options.marker list starter spec ∧ spec.header = h ∧
            spec.type?.toList = ts) := by
  cases hmakes with
  | itself hr => exact ⟨hr.header_eq.2, hr.typeTexts, .inl ⟨rfl, hr.writtenTypes⟩⟩
  | binding hdecl ha he hannotated =>
    refine ⟨rfl, List.nil_subset _, .inl ⟨?_, ?_⟩⟩
    · rw [Option.getD_none, hdecl]
      rfl
    · rw [Option.getD_none, hdecl]
      exact List.nil_subset _
  | member hlist hm hkept hr => exact ⟨hr.header_eq.2, hr.typeTexts, .inl ⟨rfl, hr.writtenTypes⟩⟩
  | property hlist hformed =>
    refine ⟨rfl, ?_, .inr ⟨_, hlist, _, _, hformed, rfl, rfl⟩⟩
    rw [typeTexts_propertyRecord]
    exact List.Subset.refl _

end Analysis

open Analysis

/-- **No unresolved type goes unreported.** Every record of a result was made for a declaration, or for a
property that accessors form, and shows the types that this was written with. For each of these types that
has a part without a spelling, at any depth, there is a diagnostic that names the declaration and quotes
the text of the type. -/
theorem unresolved_types_are_reported (o : Options) (u : TranslationUnit) (h : u.check o = .ok ()) :
    ∃ result, analyze o u = .ok result ∧
      ∀ r ∈ result.records, ∃ p ∈ occurrences [] u.decls, ∃ v m header types,
        p.visit? (Context.ofUnit o u) = some v ∧ v.Makes m r header types ∧
        r.location = header.location ∧ r.typeTexts ⊆ types.map (·.canonical.text) ∧
        ((p.atMember m).decl.header = header ∧ (p.atMember m).decl.writtenTypes ⊆ types ∨
          ∃ list ∈ v.memberLists, ∃ starter spec,
            PropertySpec.FormedFrom o.marker list starter spec ∧ spec.header = header ∧
              spec.type?.toList = types) ∧
        ∀ t ∈ types, ∀ s : TypeRef, s.PartOf t → s.isUnspelled = true →
          { kind := .unresolvedType
            message := "type used by '" ++ displayName header.name ++ "' could not be resolved, using '"
              ++ t.canonical.text ++ "'"
            location := header.location } ∈ result.diagnostics := by
  refine ⟨_, analyze_of_check h, ?_⟩
  intro r hr
  obtain ⟨p, hp, v, m, header, types, hvisit, hmakes, hreports⟩ := exists_makes_of_mem_records hr
  obtain ⟨hlocation, htexts, hshown⟩ := hmakes.shown
  obtain rfl := Occurrence.of_visit? hvisit
  refine ⟨p, hp, _, m, header, types, hvisit, hmakes, hlocation, htexts, ?_, ?_⟩
  · dsimp only at hshown
    rw [options_within] at hshown
    cases m with
    | none => exact hshown
    | some m => exact hshown
  · intro t ht s hs hunspelled
    exact hreports t ht ((TypeRef.resolved_eq_false_iff t).mpr ⟨s, hs, hunspelled⟩)

/-- A parameter hides an unresolved type behind a pointer and a template argument. -/
def hiddenUnresolved : TypeRef :=
  .pointer (.template "std::vector" [.const (.unresolved "Lost<")])

/-- The unresolved argument of a resolved type is reported with it. -/
theorem unresolved_types_are_reported_in_argument :
    let u : TranslationUnit :=
      { filePath := "f.h"
        decls := [.function { name := "f", annotations := ["lua_export_function"] }
          { params := [{ type := hiddenUnresolved }] }] }
    u.check {} = .ok () ∧ (TypeRef.unresolved "Lost<").PartOf hiddenUnresolved ∧
    ∃ result, analyze {} u = .ok result ∧
      result.records.map (·.parameterTypes) = [[hiddenUnresolved.canonical.text]] ∧
      result.diagnostics.map (·.message) =
        ["type used by 'f' could not be resolved, using 'std::vector<Lost>*'"] ∧
      ∀ r ∈ result.records, ∃ p ∈ occurrences [] u.decls, ∃ v m header types,
        p.visit? (Context.ofUnit {} u) = some v ∧ v.Makes m r header types ∧
        ∀ t ∈ types, ∀ s : TypeRef, s.PartOf t → s.isUnspelled = true →
          ∃ d ∈ result.diagnostics, d.kind = .unresolvedType ∧ d.location = header.location := by
  intro u
  have haccepted : u.check {} = .ok () := TranslationUnit.check_default (by decide) rfl
  obtain ⟨result, hresult, hreported⟩ := unresolved_types_are_reported {} u haccepted
  refine ⟨haccepted, ?_, result, hresult, ?_, ?_, ?_⟩
  · exact .inside List.mem_cons_self (.inside List.mem_cons_self (.inside List.mem_cons_self (.refl _)))
  · rw [analyze_of_check haccepted] at hresult
    cases hresult
    decide +kernel
  · rw [analyze_of_check haccepted] at hresult
    cases hresult
    decide +kernel
  · intro r hr
    obtain ⟨p, hp, v, m, header, types, hvisit, hmakes, -, -, -, hdiagnostic⟩ := hreported r hr
    refine ⟨p, hp, v, m, header, types, hvisit, hmakes, ?_⟩
    intro t ht s hs hunspelled
    exact ⟨_, hdiagnostic t ht s hs hunspelled, rfl, rfl⟩

end ScriptExport
