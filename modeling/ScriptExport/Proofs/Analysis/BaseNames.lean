import ScriptExport.Proofs.Analysis.Bindings
import ScriptExport.Proofs.Analysis.ClassMembers
import ScriptExport.Proofs.Analysis.NameLookup
import ScriptExport.Proofs.Text.Spelling

/-!
# Bases with simple names

A base list that gives a simple name, with no scope before it, is resolved from the outside and the
inside: a type of that name at the top level comes before all others, and only without one does the
innermost enclosing scope that has such a type decide (`simple_bases_mean_global_first`). The class shows
the type among its bases and is bound to it or takes over its members.
-/

namespace ScriptExport

namespace TypeIndex

/-- An unexported type that a public base means is entered, unless it is on the path. -/
theorem DepthFirst.mem_of_lookup? {index : TypeIndex} {path scope : List String} {bases : List Base}
    {l : List TypeEntry} (h : index.DepthFirst path scope bases l) {base : Base}
    (hbase : base ∈ bases) {e : TypeEntry} (he : index.Follows path scope base e) : e ∈ l := by
  induction h with
  | nil => cases hbase
  | pass closed rest ih =>
    rcases List.mem_cons.mp hbase with rfl | hbase
    · exact absurd he (closed e)
    · exact ih hbase he
  | enter follows above rest _ ih =>
    rcases List.mem_cons.mp hbase with rfl | hbase
    · rw [follows.unique he]
      exact List.mem_cons_self
    · exact List.mem_cons_of_mem _ (List.mem_append_right _ (ih hbase he))

end TypeIndex

namespace Analysis

namespace ClassVisit

/-- How a class takes a type for one of its bases: it shows the type under its qualified name, and
unless it is that type itself, it is bound to it if the type is exported and takes over its members if
not. -/
structure TakesAsBase (k : ClassVisit) (records : List ExportRecord) (base : Base) (e : TypeEntry) :
    Prop where
  shown : k.visit.ctx.baseName base = e.qualifiedName
  bound : e.annotated = true → e.qualifiedName ≠ k.record.qualifiedName →
    ∃ r ∈ records, r.kind = .inherit ∧
      r.qualifiedName = k.record.qualifiedName ++ " : " ++ e.qualifiedName
  flattened : e.annotated = false → e.qualifiedName ≠ k.record.qualifiedName →
    ∀ p ∈ places k.marker k.owner (.inherited e.qualifiedName) e.decl.children, k.TakesOver records p

variable (k : ClassVisit) {o : Options} {u : TranslationUnit}

theorem bases_eq : k.visit.decl.bases = k.traits.bases := by
  rw [k.decl_eq]
  rfl

/-- A public base that its name finds is taken as a base. -/
theorem takesAsBase (hk : k.visit ∈ visits (Context.ofUnit o u) u.decls) {base : Base}
    (hbase : base ∈ k.traits.bases) (hpublic : base.access.isPublic = true) {e : TypeEntry}
    (he : k.visit.ctx.index.lookup? base.name k.visit.ctx.scopes.path = some e) :
    k.TakesAsBase (finalState o u).records.toList base e where
  shown := by
    unfold Context.baseName
    rw [he]
  bound hannotated hne :=
    exists_binding_of_lookup? hk k.exportedClass?_visit (k.bases_eq ▸ hbase) hpublic he hannotated hne
  flattened hannotated hne p hp := by
    have hdepthFirst : k.visit.ctx.index.DepthFirst [k.owner.qualifiedName] k.visit.ctx.scopes.path
        k.traits.bases k.flattened := TypeIndex.depthFirst_iff.mpr rfl
    have hmem : e ∈ k.flattened := hdepthFirst.mem_of_lookup? hbase
      ⟨hpublic, he, hannotated, fun hmem => hne (List.mem_singleton.mp hmem)⟩
    exact k.takesOver hk (List.mem_append_right _ (List.mem_flatMap.mpr ⟨e, hmem, hp⟩))

end ClassVisit

end Analysis

open Analysis

/-- **Simple names in base lists.** In the result of an accepted unit each class record is that of an
exported class, and an exported class shows the public bases of its declaration in order. There, a
public base with a simple name is taken for the type of that name at the top level, whatever the scopes
around the class declare, and if there is none for the type that the innermost of those scopes
declares. -/
theorem simple_bases_mean_global_first (o : Options) (u : TranslationUnit)
    (haccepted : u.check o = .ok ()) :
    let index := TypeIndex.ofDecls o u.decls
    let walked := visits (Context.ofUnit o u) u.decls
    ∃ result, analyze o u = .ok result ∧
      (∀ c ∈ result.records, c.kind = .classType →
        ∃ k : ClassVisit, k.visit ∈ walked ∧ k.record = c) ∧
      ∀ k : ClassVisit, k.visit ∈ walked →
        k.record.baseTypes = (k.traits.bases.filter (·.access.isPublic)).map k.visit.ctx.baseName ∧
        ∀ base ∈ k.traits.bases, base.access.isPublic = true → Text.IsSimpleName base.name →
          (∀ e ∈ index.entries, e.qualifiedName = base.name →
            k.TakesAsBase result.records base e) ∧
          (index.Lacks base.name → ∀ e, index.Innermost k.visit.ctx.scopes.path base.name e →
            k.TakesAsBase result.records base e) := by
  intro index walked
  refine ⟨_, analyze_of_check haccepted, ?_, ?_⟩
  · intro c hc hkind
    rw [finalState_eq_runVisits] at hc
    obtain ⟨v, hv, hexported⟩ := exists_visit_of_class hc hkind
    obtain ⟨k, rfl, hrecord⟩ := ClassVisit.exists_of_exportedClass? hexported
    exact ⟨k, hv, hrecord⟩
  · intro k hk
    refine ⟨rfl, fun base hbase hpublic hsimple => ?_⟩
    have htakes : ∀ e, index.Means base.name k.visit.ctx.scopes.path e →
        k.TakesAsBase (finalState o u).records.toList base e := by
      intro e he
      refine k.takesAsBase hk hbase hpublic ?_
      rw [TypeIndex.lookup?_eq_some_iff (distinct_of_mem_visits hk),
        Text.spelling_of_isSimpleName hsimple, index_of_mem_visits hk]
      exact he
    exact ⟨fun e he hq => htakes e (.asWritten he hq),
      fun hlacks e he => htakes e (.enclosed hlacks he)⟩

/-- A class with two bases. Both names are declared in several of the scopes around it, but only the
first one at the top level too. -/
def doublyNamedBases : Decl :=
  .record { name := "D", annotations := ["lua_export_class"] }
    { bases := [{ name := "Base" }, { name := "Other" }] } []

/-- The class below two namespaces. -/
def doublyNamedUnit : TranslationUnit :=
  { filePath := "d.h"
    decls :=
      [.record { name := "Base" } {} [.method { name := "f" } {}],
       .nameSpace { name := "a" }
        [.record { name := "Base" } {} [.method { name := "g" } {}],
         .record { name := "Other" } {} [],
         .nameSpace { name := "b" } [.record { name := "Other" } {} [], doublyNamedBases]]] }

/-- The visit to the class. -/
def doublyNamedVisit : ClassVisit where
  visit := ⟨((Context.ofUnit {} doublyNamedUnit).enterNamespace { name := "a" } none).enterNamespace
    { name := "b" } none, doublyNamedBases⟩
  head := doublyNamedBases.header
  traits := { bases := doublyNamedBases.bases }
  members := doublyNamedBases.children
  directive := ⟨.classType, {}⟩
  decl_eq := rfl
  directive_eq := show doublyNamedBases.directive? "lua_export_" = _ by rfl
  usable := by decide

/-- The base that the top level declares hides the nearer one, and its member goes onto the class. -/
theorem simple_bases_mean_global_first_nested :
    doublyNamedUnit.check {} = .ok () ∧
    ∃ result, analyze {} doublyNamedUnit = .ok result ∧
      doublyNamedVisit.visit.ctx.scopes.path = ["a", "b"] ∧
      doublyNamedVisit.record.baseTypes = ["Base", "a::b::Other"] ∧
      ∃ r ∈ result.records, r.kind = .method ∧ r.qualifiedName = "a::b::D::f" := by
  have haccepted : doublyNamedUnit.check {} = .ok () :=
    TranslationUnit.check_of_checkDecls (by decide) (by decide) rfl
  refine ⟨haccepted, ?_⟩
  obtain ⟨result, hresult, -, hclass⟩ := simple_bases_mean_global_first {} doublyNamedUnit haccepted
  obtain ⟨hshown, hbases⟩ := hclass doublyNamedVisit (List.mem_of_getElem? (i := 6) rfl)
  obtain ⟨htop, -⟩ := hbases _ List.mem_cons_self rfl (by decide)
  obtain ⟨-, hinner⟩ := hbases _ (List.mem_cons_of_mem _ List.mem_cons_self) rfl (by decide)
  have hbase : doublyNamedVisit.visit.ctx.index.find? "Base" = some _ := rfl
  have hother : doublyNamedVisit.visit.ctx.index.find? "a::b::Other" = some _ := rfl
  have htakesBase := htop _ (TypeIndex.mem_of_find? hbase) rfl
  have htakesOther := hinner (TypeIndex.find?_eq_none_iff.mp rfl) _
    ⟨TypeIndex.mem_of_find? hother, ["a", "b"], by decide, by decide, rfl, fun longer hprefix hlt =>
      absurd hprefix.length_le (Nat.not_le.mpr hlt)⟩
  refine ⟨result, hresult, by rfl, ?_, ?_⟩
  · have hbaseName : doublyNamedVisit.visit.ctx.baseName { name := "Base" } = "Base" := htakesBase.shown
    have hotherName : doublyNamedVisit.visit.ctx.baseName { name := "Other" } = "a::b::Other" :=
      htakesOther.shown
    rw [hshown]
    show [doublyNamedVisit.visit.ctx.baseName _, doublyNamedVisit.visit.ctx.baseName _] = _
    rw [hbaseName, hotherName]
  · obtain ⟨i, hi, hoffers⟩ := htakesBase.flattened rfl (by decide +kernel) _ List.mem_cons_self
    have hdepthFirst : doublyNamedVisit.visit.ctx.index.DepthFirst
        [doublyNamedVisit.owner.qualifiedName] ["a", "b"] doublyNamedVisit.traits.bases _ :=
      .enter ⟨rfl, rfl, rfl, by decide⟩ (.nil _ _)
        (.enter ⟨rfl, rfl, rfl, by decide⟩ (.nil _ _) (.nil _ _))
    have hlength : doublyNamedVisit.allPlaces.length = 1 := by
      have hflattened : doublyNamedVisit.flattened = _ := (TypeIndex.depthFirst_iff.mp hdepthFirst).symm
      unfold ClassVisit.allPlaces
      rw [hflattened]
      rfl
    obtain rfl : i = 0 := by
      have := (List.getElem?_eq_some_iff.mp hi).1
      omega
    rcases hoffers {} _ rfl (by decide) with ⟨r, hr, hidentity⟩ | ⟨q, hq, -⟩
    · exact ⟨r, hr, congrArg Identity.kind hidentity,
        (congrArg Identity.qualifiedName hidentity).trans (by decide +kernel)⟩
    · cases hq

end ScriptExport
