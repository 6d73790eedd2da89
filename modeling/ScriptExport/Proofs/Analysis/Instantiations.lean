import ScriptExport.Proofs.Analysis.Exclusion
import ScriptExport.Proofs.Analysis.Redeclaration
import ScriptExport.Proofs.Source.TypeRef

/-!
# Instantiations up to qualifiers

The export of a container reads canonical texts, friendly names and the arguments of a template off the
aliased type, and nothing else. Qualifiers and references show in none of them, so aliases of types that
differ in these only are exported alike, state for state (`exportContainer_congr`). An instantiation without
an alias is known by its canonical text from the moment on that it has a record
(`mem_containers_of_records_ne`), and every later alias of a type with that text is a duplicate
(`exportContainer_of_mem`).
-/

namespace ScriptExport

namespace Analysis

/-! ## Aliases of plain types -/

section Plain

variable (ctx : Context) (h : Header) (a : Directive) (kind : ContainerKind) (ts : List TypeRef)
  (s : State)

theorem useType_plain (t : TypeRef) : s.useType h t.plain = s.useType h t := by
  unfold State.useType
  rw [TypeRef.canonical_plain]

theorem useTypes_map_plain : s.useTypes h (ts.map TypeRef.plain) = s.useTypes h ts := by
  unfold State.useTypes
  rw [List.foldl_map]
  simp only [useType_plain]

theorem containerRecord_map_plain (name : String) :
    ctx.containerRecord h a name kind (ts.map TypeRef.plain) = ctx.containerRecord h a name kind ts := by
  unfold Context.containerRecord
  rw [TypeRef.map_map_plain fun t _ => congrArg TypeText.text t.canonical_plain]

theorem containerName_map_plain (rules : ContainerRules) :
    Naming.containerName rules kind (ts.map TypeRef.plain) = Naming.containerName rules kind ts := by
  unfold Naming.containerName
  rw [TypeRef.map_map_plain fun t _ => Naming.friendlyName_plain rules t]

theorem containerShape_map_plain (expected : ContainerKind) (word : String) :
    containerShape h expected word kind (ts.map TypeRef.plain) =
      let shape := containerShape h expected word kind ts
      ((shape.1.1, shape.1.2.map TypeRef.plain), shape.2) := by
  unfold containerShape
  split
  · rw [ContainerKind.split_map]
  · split <;> rfl

theorem exportView_map_plain (name instantiation : String) :
    exportView ctx h a name kind (ts.map TypeRef.plain) instantiation s =
      exportView ctx h a name kind ts instantiation s := by
  unfold exportView
  rw [useTypes_map_plain, containerRecord_map_plain]

theorem exportInstantiation_map_plain (instantiation : String) :
    exportInstantiation ctx h a kind (ts.map TypeRef.plain) instantiation s =
      exportInstantiation ctx h a kind ts instantiation s := by
  unfold exportInstantiation
  simp only [useTypes_map_plain, containerRecord_map_plain, containerName_map_plain]

/-- Qualifiers of the target do not matter. -/
theorem exportContainer_plain (t : TypeRef) (expected : ContainerKind) :
    exportContainer ctx h t.plain a expected s = exportContainer ctx h t a expected s := by
  unfold exportContainer
  rw [TypeRef.container?_plain, TypeRef.canonical_plain]
  cases t.container? ctx.options.containers with
  | none => rfl
  | some p =>
    simp only [Option.map_some, containerShape_map_plain, useType_plain, exportView_map_plain,
      exportInstantiation_map_plain]

end Plain

/-- Aliases of types that are alike up to qualifiers are exported alike. -/
theorem exportContainer_congr {t u : TypeRef} (htu : t.plain = u.plain) (ctx : Context) (h : Header)
    (a : Directive) (expected : ContainerKind) (s : State) :
    exportContainer ctx h t a expected s = exportContainer ctx h u a expected s := by
  rw [← exportContainer_plain, htu, exportContainer_plain]

/-! ## Instantiations that are known -/

/-- The diagnostic of an alias of an instantiation that has a record. -/
def duplicateContainer (h : Header) (instantiation : String) : Diagnostic where
  kind := .duplicateContainer
  message := "container " ++ instantiation ++ " is already exported, '" ++ displayName h.name ++ "' dropped"
  location := h.location

section Known

variable {ctx : Context} {h : Header} {target : TypeRef} {a : Directive} (expected : ContainerKind)
  (s : State) (hcontainer : (target.container? ctx.options.containers).isSome = true)
  (halias : a.scriptAlias? = none)
include hcontainer halias

/-- Without an alias an instantiation is exported after reports and uses of types. -/
theorem exists_exportInstantiation : ∃ (t : State) (kind : ContainerKind) (elements : List TypeRef),
    s.Changes (fun _ => False) t ∧ exportContainer ctx h target a expected s =
      exportInstantiation ctx h a kind elements target.canonical.text t := by
  obtain ⟨⟨detected, arguments⟩, hsome⟩ := Option.isSome_iff_exists.mp hcontainer
  let shape := containerShape h expected a.kind.name detected arguments
  have hbegin : s.Changes (fun _ => False) ((s.reportAll shape.2).useType h target) :=
    (changes_reportAll s _).trans (changes_useType _ h target)
  refine ⟨_, shape.1.1, shape.1.2, hbegin, ?_⟩
  unfold exportContainer
  rw [hsome, halias]

/-- A known instantiation is reported and adds nothing. -/
theorem exportContainer_of_mem (hknown : target.canonical.text ∈ s.containers) :
    (exportContainer ctx h target a expected s).records = s.records ∧
      duplicateContainer h target.canonical.text ∈
        (exportContainer ctx h target a expected s).diagnostics.toList := by
  obtain ⟨t, kind, elements, hchanges, heq⟩ := exists_exportInstantiation expected s hcontainer halias
  have hsame := hchanges.sameResult
  rw [heq, exportInstantiation, if_pos (hsame.containers ▸ hknown)]
  refine ⟨hsame.records, ?_⟩
  simp [State.complain, State.report, State.log, State.note, duplicateContainer]

/-- An instantiation that adds a record becomes known. -/
theorem mem_containers_of_records_ne
    (hne : (exportContainer ctx h target a expected s).records ≠ s.records) :
    target.canonical.text ∈ (exportContainer ctx h target a expected s).containers := by
  obtain ⟨t, kind, elements, hchanges, heq⟩ := exists_exportInstantiation expected s hcontainer halias
  have hsame := hchanges.sameResult
  rw [heq, exportInstantiation] at hne ⊢
  by_cases hknown : target.canonical.text ∈ t.containers
  · rw [if_pos hknown] at hne ⊢
    exact hknown
  · rw [if_neg hknown] at hne ⊢
    have hused := (changes_uniqueContainerName (P := fun _ => False) t h
      (Naming.containerName ctx.options.containers kind elements) target.canonical.text).trans
        (changes_useTypes _ h elements)
    dsimp only at hne ⊢
    generalize State.useTypes h elements _ = offered at hne hused ⊢
    generalize ({ ctx.containerRecord h a _ kind elements with
      qualifiedName := target.canonical.text } : ExportRecord) = r at hne ⊢
    cases hadmits : offered.admits r with
    | true =>
      unfold State.emitContainer
      rw [if_pos hadmits]
      exact List.mem_cons_self
    | false =>
      refine absurd ?_ hne
      exact (sameResult_emitContainer hadmits _).records.trans
        (hused.sameResult.records.trans hsame.records)

end Known

/-! ## Visits -/

/-- The visit comes to an alias of a template instantiation that is to be exported as a container, without
an alias attribute. -/
structure Visit.Instantiates (v : Visit) (h : Header) (target : TypeRef) : Prop where
  decl : v.decl = .typeAlias h target
  directive : ∃ a, v.verdict.directive = some a ∧ (a.kind = .vector ∨ a.kind = .map) ∧
    a.scriptAlias? = none
  container : (target.container? v.ctx.options.containers).isSome = true

namespace Visit.Instantiates

variable {v : Visit} {h : Header} {target : TypeRef} (hv : v.Instantiates h target) (s : State)
include hv

theorem run_eq : ∃ a expected, a.scriptAlias? = none ∧
    v.run s = exportContainer v.ctx h target a expected (s.visit v.ctx v.decl) := by
  obtain ⟨hdecl, ⟨a, ha, hkind, halias⟩, -⟩ := hv
  obtain ⟨ctx, d⟩ := v
  subst hdecl
  have hdirective : (ctx.verdict (.typeAlias h target)).directive = some a := ha
  have hexport : Visit.run ⟨ctx, .typeAlias h target⟩ s =
      exportAlias ctx h target a (s.visit ctx (.typeAlias h target)) := by
    rw [Visit.run_leaf s fun _ _ => rfl, hdirective]
    rfl
  rw [hexport, exportAlias]
  rcases hkind with hkind | hkind
  · exact ⟨a, .vector, halias, by rw [hkind]⟩
  · exact ⟨a, .map, halias, by rw [hkind]⟩

theorem mem_containers (hne : (v.run s).records ≠ s.records) :
    target.canonical.text ∈ (v.run s).containers := by
  obtain ⟨a, expected, halias, hrun⟩ := hv.run_eq s
  have hvisit := (changes_visit (P := fun _ => False) s v.ctx v.decl).sameResult
  rw [hrun] at hne ⊢
  rw [← hvisit.records] at hne
  exact mem_containers_of_records_ne expected _ hv.container halias hne

theorem run_of_mem (hknown : target.canonical.text ∈ s.containers) :
    (v.run s).records = s.records ∧
      duplicateContainer h target.canonical.text ∈ (v.run s).diagnostics.toList := by
  obtain ⟨a, expected, halias, hrun⟩ := hv.run_eq s
  have hvisit := (changes_visit (P := fun _ => False) s v.ctx v.decl).sameResult
  rw [← hvisit.containers] at hknown
  rw [hrun, ← hvisit.records]
  exact exportContainer_of_mem expected _ hv.container halias hknown

end Visit.Instantiates

end Analysis

open Analysis

/-- **Qualifiers.** A type is read in the same way without its qualifiers and references, at any depth.
So aliases of types that differ in these only are exported as the same container in every state, and if
one of them has made a record in the analysis of a unit, without an alias attribute, every later one
makes none and is reported as a duplicate. -/
theorem qualifiers_tell_no_types_apart :
    (∀ (rules : ContainerRules) (t : TypeRef),
      (∀ part : TypeRef, part.PartOf t.plain → part.unqualified = part) ∧
      t.plain.SameReadings rules t) ∧
    (∀ (t u : TypeRef), t.plain = u.plain → ∀ ctx h a expected s,
      exportContainer ctx h t a expected s = exportContainer ctx h u a expected s) ∧
    ∀ (o : Options) (u : TranslationUnit), u.check o = .ok () →
      ∃ exports, analyze o u = .ok exports ∧
        ∀ before v between w after h t h' t',
          visits (Context.ofUnit o u) u.decls = before ++ v :: between ++ w :: after →
          v.Instantiates h t → w.Instantiates h' t' → t.plain = t'.plain →
          (v.run (runVisits before {})).records ≠ (runVisits before {}).records →
            let s := runVisits (before ++ v :: between) {}
            (w.run s).records = s.records ∧
              duplicateContainer h' t.canonical.text ∈ exports.diagnostics := by
  refine ⟨fun rules t => ⟨fun part => TypeRef.unqualified_of_partOf_plain, t.sameReadings_plain rules⟩,
    fun t u htu => exportContainer_congr htu, ?_⟩
  intro o u haccepted
  refine ⟨_, analyze_of_check haccepted, ?_⟩
  intro before v between w after h t h' t' hvisits hv hw hplain hne s
  have htext : t.canonical.text = t'.canonical.text := by
    rw [← t.canonical_plain, hplain, t'.canonical_plain]
  have hknown : t'.canonical.text ∈ s.containers := by
    have hlater := (changes_runVisits between (v.run (runVisits before {}))).extends.containers
    rw [← htext]
    show _ ∈ (runVisits (before ++ v :: between) {}).containers
    rw [runVisits_append, runVisits_cons]
    exact hlater (hv.mem_containers _ hne)
  obtain ⟨hrecords, hduplicate⟩ := hw.run_of_mem s hknown
  rw [htext]
  exact ⟨hrecords, (extends_of_split hvisits).diagnostics.subset hduplicate⟩

/-- A container of constant integers behind a reference is that of integers, also with a function between
the two aliases. -/
theorem qualifiers_tell_no_types_apart_nested :
    let ints : TypeRef := .template "std::vector" [.builtin "int"]
    let constants : TypeRef := .lvalueRef (.const (.template "std::vector" [.const (.builtin "int")]))
    let first : Header := { name := "Ints", annotations := ["lua_export_vector"] }
    let second : Header := { name := "Constants", annotations := ["lua_export_vector"] }
    let go := Decl.function { name := "go", annotations := ["lua_export_function"] } {}
    let u : TranslationUnit :=
      { filePath := "ints.h", decls := [.typeAlias first ints, go, .typeAlias second constants] }
    u.check {} = .ok () ∧ constants.plain = ints ∧ ∃ exports, analyze {} u = .ok exports ∧
      exports.records.map (fun r => (r.name, r.scriptName)) = [("Ints", "IntVector"), ("go", "go")] ∧
      duplicateContainer second "std::vector<int>" ∈ exports.diagnostics := by
  intro ints constants first second go u
  have haccepted : u.check {} = .ok () := TranslationUnit.check_default (by decide) rfl
  obtain ⟨exports, hexports, hlater⟩ := qualifiers_tell_no_types_apart.2.2 {} u haccepted
  let ctx := Context.ofUnit {} u
  have hfirst : Visit.Instantiates ⟨ctx, .typeAlias first ints⟩ first ints :=
    ⟨rfl, ⟨{ kind := .vector }, by decide, .inl rfl, rfl⟩, by decide⟩
  have hsecond : Visit.Instantiates ⟨ctx, .typeAlias second constants⟩ second constants :=
    ⟨rfl, ⟨{ kind := .vector }, by decide, .inl rfl, rfl⟩, by decide⟩
  have hrecord : (Visit.run ⟨ctx, .typeAlias first ints⟩ (runVisits [] {})).records ≠
      (runVisits [] {}).records := by
    intro heq
    have hsize := congrArg Array.size heq
    revert hsize
    decide
  refine ⟨haccepted, rfl, exports, hexports, ?_, ?_⟩
  · obtain rfl := Except.ok.inj ((analyze_of_check haccepted).symm.trans hexports)
    decide
  · exact (hlater [] _ [⟨ctx, go⟩] _ [] first ints second constants rfl hfirst hsecond rfl hrecord).2

end ScriptExport
