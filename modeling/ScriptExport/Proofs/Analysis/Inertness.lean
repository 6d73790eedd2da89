import ScriptExport.Proofs.Analysis.Contents
import ScriptExport.Proofs.Analysis.ForwardDeclaration
import ScriptExport.Proofs.Analysis.Origins
import ScriptExport.Proofs.Analysis.Simulation
import ScriptExport.Proofs.Directive.Annotations

/-!
# Declarations that export nothing

A function, variable, enum or alias whose annotations give no kind that applies to it has no influence
on the rest of its unit: without it the records are the same, and the diagnostics lack exactly those
about its own annotations. The types of the unit are the same up to what is inside their members; the
walk makes the same visits but one (`exists_visits_nest`), which only reports
(`run_leaf_of_directive_none`); and further diagnostics before the others are carried along by every
later step (`simulation_inserted`).
-/

namespace ScriptExport

/-! ## Annotations without a kind -/

/-- The kind that an annotation text gives: the word after the marker, if it names one. -/
def annotationKind? (marker text : String) : Option DirectiveKind :=
  (annotationParts? marker text).bind fun parts => DirectiveKind.ofName? parts.1

theorem annotationKind?_eq (marker text : String) :
    annotationKind? marker text = (statedDirective? marker text).map (·.1) := by
  unfold annotationKind? statedDirective?
  rw [annotationParts?_eq]
  split
  · rw [Option.bind_some, Option.map_map]
    exact Option.map_id'.symm
  · rfl

/-- The kind of the directive that counts is given by one of the texts. -/
theorem exists_annotationKind?_of_directive {marker : String} {texts : List String} {a : Directive}
    (h : (parseAnnotations marker texts).directive = some a) :
    ∃ text ∈ texts, annotationKind? marker text = some a.kind := by
  rw [(meaning_parseAnnotations marker texts).directive_eq] at h
  obtain ⟨d, hd, rfl⟩ := Option.map_eq_some_iff.mp h
  obtain ⟨text, htext, hstated⟩ := List.mem_filterMap.mp (List.mem_of_head? hd)
  refine ⟨text, htext, ?_⟩
  rw [annotationKind?_eq, hstated]
  rfl

namespace Decl

/-- Whether the declaration stands by itself: a function, a variable, an enum or a type alias. -/
def isLeaf : Decl → Bool
  | function .. | var .. | enumeration .. | typeAlias .. => true
  | _ => false

/-- The diagnostics about the annotations of the declaration. -/
def problems (marker : String) (d : Decl) : List Diagnostic :=
  let parsed := parseAnnotations marker d.annotations
  Analysis.issueDiagnostics d.header parsed.issues
    ++ (parsed.directive.filter fun a => !a.kind.appliesTo d).toList.map
      fun a => Analysis.inapplicable a.kind d

/-- Without a kind that applies there is no directive. -/
theorem directive?_eq_none {marker : String} {d : Decl}
    (h : ∀ text ∈ d.annotations, ∀ kind, annotationKind? marker text = some kind →
      kind.appliesTo d = false) : d.directive? marker = none := by
  unfold directive?
  rw [Option.filter_eq_none_iff]
  intro a ha
  obtain ⟨text, htext, hkind⟩ := exists_annotationKind?_of_directive ha
  rw [h text htext a.kind hkind]
  exact Bool.false_ne_true

end Decl

/-! ## Lists inside scopes -/

/-- A namespace or a record with what stands before and after it. -/
structure ScopeFrame extends Frame where
  /-- What a record says beside its members. -/
  traits : Option RecordTraits := none

/-- The namespace or record with the given contents. -/
def ScopeFrame.decl (l : ScopeFrame) (ds : List Decl) : Decl :=
  match l.traits with
  | none => .nameSpace l.header ds
  | some traits => .record l.header traits ds

/-- The declarations around a list that stands in nested scopes, outermost first. -/
def nest : List ScopeFrame → List Decl → List Decl
  | [], ds => ds
  | l :: ls, ds => l.before ++ l.decl (nest ls ds) :: l.after

/-- Whether the contents of nested scopes are not visited. -/
def isShut (marker : String) (ls : List ScopeFrame) : Bool :=
  ls.any fun l => (l.decl []).isClosed marker

/-- Whether the innermost of nested scopes, if there is one, is a namespace. -/
def EndsInNamespace (ls : List ScopeFrame) : Prop :=
  ∀ l ∈ ls.getLast?, l.traits = none

variable {ls : List ScopeFrame}

theorem EndsInNamespace.tail {l : ScopeFrame} (h : EndsInNamespace (l :: ls)) :
    EndsInNamespace ls := by
  cases ls with
  | nil => intro l hl; cases hl
  | cons l' ls => exact fun k hk => h k (by rw [List.getLast?_cons_cons]; exact hk)

/-- The own part of a scope does not depend on what is below a namespace in it. -/
theorem EndsInNamespace.ownPart_eq {l : ScopeFrame} (h : EndsInNamespace (l :: ls))
    (ds es : List Decl) : (l.decl (nest ls ds)).ownPart = (l.decl (nest ls es)).ownPart := by
  unfold ScopeFrame.decl
  cases htraits : l.traits with
  | none => rfl
  | some traits =>
    cases ls with
    | nil =>
      have hnone : l.traits = none := h l rfl
      rw [hnone] at htraits
      cases htraits
    | cons l' ls =>
      have hshell : (l'.decl (nest ls ds)).shell = (l'.decl (nest ls es)).shell := by
        unfold ScopeFrame.decl
        cases l'.traits <;> rfl
      simp only [Decl.ownPart, Decl.withShells, nest, List.map_append, List.map_cons, hshell]

theorem isMemberOnly_scopeFrame (l : ScopeFrame) (ds : List Decl) : (l.decl ds).isMemberOnly = false := by
  unfold ScopeFrame.decl
  cases l.traits <;> rfl

theorem children_scopeFrame (l : ScopeFrame) (ds : List Decl) : (l.decl ds).children = ds := by
  unfold ScopeFrame.decl
  cases l.traits <;> rfl

theorem isClosed_scopeFrame (marker : String) (l : ScopeFrame) (ds : List Decl) :
    (l.decl ds).isClosed marker = (l.decl []).isClosed marker := by
  unfold ScopeFrame.decl
  cases l.traits <;> rfl

/-- A list inside scopes stays accepted if declarations are left out. -/
theorem Structure.checkDecls_nest {file : String} {ds es : List Decl} (hsub : es ⊆ ds)
    (ls : List ScopeFrame) {inRecord : Bool} {depth : Nat}
    (h : checkDecls file inRecord depth (nest ls ds) = .ok ()) :
    checkDecls file inRecord depth (nest ls es) = .ok () := by
  induction ls generalizing inRecord depth with
  | nil => exact checkDecls_eq_ok_iff.mpr fun d hd => checkDecls_eq_ok_iff.mp h d (hsub hd)
  | cons l ls ih =>
    refine checkDecls_replace h fun hscope => ?_
    unfold ScopeFrame.decl at hscope ⊢
    generalize l.traits = traits at hscope ⊢
    cases traits with
    | none =>
      obtain ⟨hdepth, hinner⟩ := checkDecl_nameSpace_eq_ok_iff.mp hscope
      exact checkDecl_nameSpace_eq_ok_iff.mpr ⟨hdepth, ih hinner⟩
    | some traits =>
      obtain ⟨hdepth, hinner⟩ := checkDecl_record_eq_ok_iff.mp hscope
      exact checkDecl_record_eq_ok_iff.mpr ⟨hdepth, ih hinner⟩

/-! ## Types -/

namespace TypeIndex

theorem entryOf?_withShells (o : Options) (scope : List String) (d : Decl) :
    (entryOf? o scope d).map (·.mapDecl Decl.withShells) = entryOf? o scope d.withShells := by
  cases d with
  | record h traits members =>
    unfold entryOf?
    dsimp only
    rw [apply_ite (Option.map _)]
    rfl
  | _ =>
    unfold entryOf?
    dsimp only
    rw [apply_ite (Option.map _)]
    rfl

theorem indexedOf_leaf {x : Decl} (hx : x.isLeaf = true) (o : Options) (scope : List String) :
    indexedOf o scope x = [] := by
  cases x <;> first | rfl | cases hx

/-- What a list inside scopes adds to the index, up to what is inside members. -/
theorem map_withShells_indexed_nest {o : Options} {ds es : List Decl}
    (h : ∀ scope, indexed o scope ds = indexed o scope es) (hls : EndsInNamespace ls)
    (scope : List String) : (indexed o scope (nest ls ds)).map (·.mapDecl Decl.withShells) =
      (indexed o scope (nest ls es)).map (·.mapDecl Decl.withShells) := by
  induction ls generalizing scope with
  | nil => rw [nest, nest, h]
  | cons l ls ih =>
    have hinner := ih hls.tail (scope ++ [scopeName l.header.name])
    have hown := hls.ownPart_eq ds es
    have hlevel : (indexedOf o scope (l.decl (nest ls ds))).map (·.mapDecl Decl.withShells) =
        (indexedOf o scope (l.decl (nest ls es))).map (·.mapDecl Decl.withShells) := by
      unfold ScopeFrame.decl at hown ⊢
      cases htraits : l.traits with
      | none => exact hinner
      | some traits =>
        rw [htraits] at hown
        simp only [indexedOf, List.map_append, hinner, ← Option.toList_map, entryOf?_withShells]
        rw [show (Decl.record l.header traits (nest ls ds)).withShells = _ from hown]
        rfl
    simp only [nest, indexed_append, indexed, List.map_append, hlevel]

end TypeIndex

/-! ## Visits -/

namespace Analysis

/-- The visits to a scope and its surroundings, up to what is inside their declarations. -/
theorem map_ownPart_visits_nest {l : ScopeFrame} (hls : EndsInNamespace (l :: ls)) (ctx : Context)
    (ds : List Decl) : (visits ctx (nest (l :: ls) ds)).map Visit.ownPart =
      (visits ctx l.before).map Visit.ownPart ++ [Visit.ownPart ⟨ctx, l.decl (nest ls [])⟩]
        ++ (if (l.decl []).isClosed ctx.options.marker then []
          else (visits (ctx.inside (l.decl (nest ls []))) (nest ls ds)).map Visit.ownPart)
        ++ (visits ctx l.after).map Visit.ownPart := by
  have hown := hls.ownPart_eq ds []
  have hinside : ctx.inside (l.decl (nest ls ds)) = ctx.inside (l.decl (nest ls [])) := by
    rw [← inside_ownPart, hown, inside_ownPart]
  have hlevel : Visit.ownPart ⟨ctx, l.decl (nest ls ds)⟩ =
      Visit.ownPart ⟨ctx, l.decl (nest ls [])⟩ := congrArg (Visit.mk ctx) hown
  rw [nest, visits_append, visits, isMemberOnly_scopeFrame, if_neg Bool.false_ne_true, visitsOf_eq_cons,
    isClosed_scopeFrame, children_scopeFrame, hinside, List.map_append, List.map_append, List.map_cons, hlevel,
    apply_ite (List.map Visit.ownPart)]
  simp only [List.map_nil, List.append_assoc, List.cons_append, List.nil_append]

/-- The walk through a list inside scopes without one of its leaves makes the same visits, up to what
is inside their declarations, but for the one to the leaf. -/
theorem exists_visits_nest {x : Decl} (hx : x.isLeaf = true) (pre post : List Decl)
    (hls : EndsInNamespace ls) (ctx : Context) :
    ∃ (before after : List Visit) (inner : Context), inner.options = ctx.options ∧
      (visits ctx (nest ls (pre ++ x :: post))).map Visit.ownPart =
        before ++ (if isShut ctx.options.marker ls then [] else [⟨inner, x⟩]) ++ after ∧
      (visits ctx (nest ls (pre ++ post))).map Visit.ownPart = before ++ after := by
  induction ls generalizing ctx with
  | nil =>
    have hvisits : visits ctx (x :: post) = ⟨ctx, x⟩ :: visits ctx post := by
      cases x <;> first | rfl | cases hx
    have hown : Visit.ownPart ⟨ctx, x⟩ = ⟨ctx, x⟩ := by
      cases x <;> first | rfl | cases hx
    refine ⟨(visits ctx pre).map Visit.ownPart, (visits ctx post).map Visit.ownPart, ctx, rfl, ?_, ?_⟩
    · rw [nest, visits_append, hvisits, List.map_append, List.map_cons, hown, List.append_assoc]
      rfl
    · rw [nest, visits_append, List.map_append]
  | cons l ls ih =>
    rw [map_ownPart_visits_nest hls, map_ownPart_visits_nest hls]
    generalize (visits ctx l.before).map Visit.ownPart
      ++ [Visit.ownPart ⟨ctx, l.decl (nest ls [])⟩] = outerBefore
    generalize (visits ctx l.after).map Visit.ownPart = outerAfter
    cases hclosed : (l.decl []).isClosed ctx.options.marker with
    | true =>
      have hshut : isShut ctx.options.marker (l :: ls) = true := by
        rw [isShut, List.any_cons, hclosed, Bool.true_or]
      refine ⟨outerBefore, outerAfter, ctx, rfl, ?_, ?_⟩
      · rw [hshut, if_pos rfl, if_pos rfl]
      · rw [if_pos rfl, List.append_nil]
    | false =>
      have hshut : isShut ctx.options.marker (l :: ls) = isShut ctx.options.marker ls := by
        rw [isShut, List.any_cons, hclosed, Bool.false_or]
        rfl
      have hinside : (ctx.inside (l.decl (nest ls []))).options = ctx.options := by
        obtain ⟨kind, placement, exported, henter⟩ := inside_eq_enter ctx (l.decl (nest ls []))
        rw [henter]
        rfl
      obtain ⟨before, after, inner, hoptions, hgiven, hreduced⟩ :=
        ih hls.tail (ctx.inside (l.decl (nest ls [])))
      rw [hinside] at hoptions hgiven
      refine ⟨outerBefore ++ before, after ++ outerAfter, inner, hoptions, ?_, ?_⟩
      · rw [if_neg Bool.false_ne_true, hgiven, hshut]
        simp only [List.append_assoc]
      · rw [if_neg Bool.false_ne_true, hreduced]
        simp only [List.append_assoc]

/-! ## Diagnostics -/

/-- Without a trace, reporting appends. -/
theorem reportAll_of_untraced {s : State} (hs : s.trace = none) (ds : List Diagnostic) :
    s.reportAll ds = { s with diagnostics := s.diagnostics ++ ds.toArray } := by
  induction ds generalizing s with
  | nil => simp [State.reportAll]
  | cons d ds ih =>
    have hreport : s.report d = { s with diagnostics := s.diagnostics.push d } := by
      unfold State.report State.log
      rw [State.note_eq_self hs]
    have htrace : (s.report d).trace = none := by
      rw [hreport]
      exact hs
    have hstep : s.reportAll (d :: ds) = (s.report d).reportAll ds := rfl
    rw [hstep, ih htrace, hreport]
    simp

/-- A leaf without a directive only has its own problems reported. -/
theorem run_leaf_of_directive_none {ctx : Context} {x : Decl} (hleaf : x.isLeaf = true)
    (hx : x.directive? ctx.options.marker = none) {s : State} (hs : s.trace = none) :
    (⟨ctx, x⟩ : Visit).run s =
      { s with diagnostics := s.diagnostics ++ (x.problems ctx.options.marker).toArray } := by
  have hrun : (⟨ctx, x⟩ : Visit).run s = s.visit ctx x := by
    rw [Visit.run_leaf s (by cases x <;> first | exact fun _ _ => rfl | cases hleaf),
      directive_verdict_eq, hx]
  have hlog : ∀ {s : State} e, s.trace = none → s.log e = s :=
    fun e hs => State.note_eq_self hs _
  have hreported : ∀ ds, (s.reportAll ds).trace = none := fun ds => by
    rw [reportAll_of_untraced hs]
    exact hs
  rw [hrun, ← reportAll_of_untraced hs]
  unfold State.visit Context.verdict Decl.problems
  dsimp only
  rw [hlog _ hs]
  unfold Decl.directive? at hx
  cases hparsed : (parseAnnotations ctx.options.marker x.annotations).directive with
  | some a =>
    have happlies : a.kind.appliesTo x = false := by simpa [hparsed] using hx
    simp only [happlies, Bool.false_eq_true, ↓reduceIte, Bool.not_false, Option.filter_some,
      Option.toList_some, List.map_cons, List.map_nil]
    unfold State.reportAll
    rw [List.foldl_append]
    rfl
  | none =>
    rw [Option.filter_none, Option.toList_none, List.map_nil, List.append_nil]
    dsimp only
    split
    · exact hlog _ (hreported _)
    · exact hlog _ (hreported _)
    · next hverdict =>
      -- a kind that does not apply comes from a directive only
      split at hverdict
      · cases hverdict
      · split at hverdict <;> cases hverdict
    · rfl

/-- `s` is `t` with a block of diagnostics after the first ones. -/
def State.Inserted (before block : List Diagnostic) (s t : State) : Prop :=
  ∃ after, t.diagnostics.toList = before ++ after ∧
    s = { t with diagnostics := (before ++ block ++ after).toArray }

/-- Further diagnostics are carried along and change nothing else. -/
theorem simulation_inserted (before block : List Diagnostic) :
    Simulation id (State.Inserted before block) where
  identities := by rintro _ t ⟨_, _, rfl⟩; rfl
  constants := by rintro _ t ⟨_, _, rfl⟩; rfl
  containers := by rintro _ t ⟨_, _, rfl⟩; rfl
  containerNames := by rintro _ t ⟨_, _, rfl⟩; rfl
  counter := by rintro _ t ⟨_, _, rfl⟩; rfl
  note := by rintro _ t step ⟨after, hafter, rfl⟩ _; exact ⟨after, hafter, rfl⟩
  report := by
    rintro _ t d ⟨after, hafter, rfl⟩
    refine ⟨after ++ [d], ?_, ?_⟩
    · simp [State.report, State.log, State.note, hafter]
    · simp [State.report, State.log, State.note]
  push := by rintro _ t r ⟨after, hafter, rfl⟩; exact ⟨after, hafter, rfl⟩
  update := by
    rintro _ t constants containers containerNames counter ⟨after, hafter, rfl⟩
    exact ⟨after, hafter, rfl⟩

/-- The states after visits with and without ones between them that only report. -/
theorem inserted_runVisits {before middle : List Visit} {block : List Diagnostic} {s : State}
    (after : List Visit) (h : runVisits middle (runVisits before s) = { runVisits before s with
      diagnostics := (runVisits before s).diagnostics ++ block.toArray }) :
    (runVisits (before ++ middle ++ after) s).Inserted (runVisits before s).diagnostics.toList block
      (runVisits (before ++ after) s) := by
  rw [runVisits_append, runVisits_append, runVisits_append, h]
  apply (simulation_inserted _ _).runVisits
  refine ⟨[], (List.append_nil _).symm, ?_⟩
  simp

/-- A walk through the reduced unit comes to the same state with the index of the given one. -/
theorem finalState_nest {o : Options} {file : String} {x : Decl} (hleaf : x.isLeaf = true)
    (pre post : List Decl) (hls : EndsInNamespace ls) :
    finalState o { filePath := file, decls := nest ls (pre ++ post) } =
      runVisits (visits (Context.ofUnit o { filePath := file, decls := nest ls (pre ++ x :: post) })
        (nest ls (pre ++ post))) {} := by
  let given : TranslationUnit := { filePath := file, decls := nest ls (pre ++ x :: post) }
  let reduced : TranslationUnit := { filePath := file, decls := nest ls (pre ++ post) }
  have hindexed : ∀ scope, TypeIndex.indexed o scope (pre ++ x :: post) =
      TypeIndex.indexed o scope (pre ++ post) := by
    intro scope
    rw [TypeIndex.indexed_append, TypeIndex.indexed_append, TypeIndex.indexed,
      TypeIndex.indexedOf_leaf hleaf, List.nil_append]
  have hindex : (Context.ofUnit o given).index.mapDecls Decl.withShells =
      (Context.ofUnit o reduced).index.mapDecls Decl.withShells := by
    show (TypeIndex.ofDecls o given.decls).mapDecls _ = (TypeIndex.ofDecls o reduced.decls).mapDecls _
    rw [TypeIndex.ofDecls_eq, TypeIndex.ofDecls_eq]
    refine congrArg TypeIndex.mk ?_
    rw [← TypeIndex.declareAll_mapDecl Decl.isEmpty_children_withShells,
      ← TypeIndex.declareAll_mapDecl Decl.isEmpty_children_withShells,
      TypeIndex.map_withShells_indexed_nest hindexed hls]
  have hvisits : ∀ v ∈ visits (Context.ofUnit o given) reduced.decls,
      Interchangeable v.ctx.index (Context.ofUnit o reduced).index (·.mapDecl Decl.withShells)
        (·.mapDecl Decl.withShells) := by
    intro v hv
    rw [index_of_mem_visits hv]
    exact interchangeable_of_withShells hindex
  have hctx : Context.ofUnit o reduced =
      (Context.ofUnit o given).withIndex (Context.ofUnit o reduced).index := rfl
  rw [finalState_eq_runVisits, hctx, visits_withIndex, runVisits_withIndex hvisits]

end Analysis

open Analysis in
/-- **Inert declarations.** A function, variable, enum or alias stands at the top level or directly in
a namespace, at any depth, and no annotation of it gives a kind that applies to it. Without it the unit
stays accepted and has the same records, and its diagnostics lack one block: those about the
annotations of the declaration, or none if a scope around it is not visited. -/
theorem analyze_without_inert (o : Options) (file : String) (levels : List ScopeFrame)
    (pre post : List Decl) (x : Decl) (hleaf : x.isLeaf = true) (hlevels : EndsInNamespace levels)
    (hinert : ∀ text ∈ x.annotations, ∀ kind, annotationKind? o.marker text = some kind →
      kind.appliesTo x = false)
    (haccepted : ({ filePath := file, decls := nest levels (pre ++ x :: post) } :
      TranslationUnit).check o = .ok ()) :
    ∃ given reduced before after,
      analyze o { filePath := file, decls := nest levels (pre ++ x :: post) } = .ok given ∧
      analyze o { filePath := file, decls := nest levels (pre ++ post) } = .ok reduced ∧
      reduced.records = given.records ∧
      given.diagnostics =
        before ++ (if isShut o.marker levels then [] else x.problems o.marker) ++ after ∧
      reduced.diagnostics = before ++ after := by
  have hsub : pre ++ post ⊆ pre ++ x :: post :=
    List.append_subset.mpr ⟨List.subset_append_left _ _,
      fun d hd => List.mem_append_right _ (List.mem_cons_of_mem _ hd)⟩
  have hreduced := TranslationUnit.check_withDecls haccepted
    (Structure.checkDecls_nest hsub levels (TranslationUnit.checkDecls_of_check haccepted))
  let ctx := Context.ofUnit o { filePath := file, decls := nest levels (pre ++ x :: post) }
  obtain ⟨before, after, inner, hoptions, hgivenVisits, hreducedVisits⟩ :=
    exists_visits_nest hleaf pre post hlevels ctx
  have hgivenState : finalState o { filePath := file, decls := nest levels (pre ++ x :: post) } =
      runVisits (before ++ (if isShut o.marker levels then [] else [⟨inner, x⟩]) ++ after) {} := by
    rw [finalState_eq_runVisits, ← runVisits_map_ownPart]
    exact congrArg (runVisits · {}) hgivenVisits
  have hreducedState : finalState o { filePath := file, decls := nest levels (pre ++ post) } =
      runVisits (before ++ after) {} := by
    rw [finalState_nest hleaf pre post hlevels, ← runVisits_map_ownPart]
    exact congrArg (runVisits · {}) hreducedVisits
  have hmiddle : runVisits (if isShut o.marker levels then [] else [⟨inner, x⟩])
      (runVisits before {}) = { runVisits before {} with
        diagnostics := (runVisits before {}).diagnostics
          ++ (if isShut o.marker levels then [] else x.problems o.marker).toArray } := by
    cases isShut o.marker levels with
    | true => simp
    | false =>
      have hmarker : inner.options.marker = o.marker := congrArg Options.marker hoptions
      have hdirective : x.directive? inner.options.marker = none := by
        rw [hmarker]
        exact Decl.directive?_eq_none hinert
      have htrace : (runVisits before {}).trace = none := (changes_runVisits _ _).trace_eq_none rfl
      have hrun := run_leaf_of_directive_none hleaf hdirective htrace
      rw [hmarker] at hrun
      exact hrun
  obtain ⟨rest, hrest, hgiven⟩ := inserted_runVisits after hmiddle
  rw [← hgivenState, ← hreducedState] at hgiven
  rw [← hreducedState] at hrest
  refine ⟨_, _, (runVisits before {}).diagnostics.toList, rest, analyze_of_check haccepted,
    analyze_of_check hreduced, ?_, ?_, hrest⟩
  · exact congrArg (·.records.toList) hgiven.symm
  · exact congrArg (·.diagnostics.toList) hgiven

/-- An enum that is annotated as a class and with an unknown kind, in a namespace below a class. -/
theorem analyze_without_inert_below_class :
    let x := Decl.enumeration
      { name := "Mode", annotations := ["lua_export_class", "lua_export_nonsense"] } {}
    let levels : List ScopeFrame :=
      [{ header := { name := "Hero", annotations := ["lua_export_class"] }, traits := some {} },
        { header := { name := "detail" } }]
    x.isLeaf = true ∧ EndsInNamespace levels ∧
    (∀ text ∈ x.annotations, ∀ kind, annotationKind? "lua_export_" text = some kind →
      kind.appliesTo x = false) ∧
    ({ filePath := "hero.h", decls := nest levels [x] } : TranslationUnit).check {} = .ok () ∧
    ∃ given reduced before block after,
      analyze {} { filePath := "hero.h", decls := nest levels [x] } = .ok given ∧
      analyze {} { filePath := "hero.h", decls := nest levels [] } = .ok reduced ∧
      reduced.records = given.records ∧ given.diagnostics = before ++ block ++ after ∧
      reduced.diagnostics = before ++ after ∧
      block.map (·.kind) = [.unknownDirective, .malformedAttribute] := by
  intro x levels
  have hlevels : EndsInNamespace levels := by
    intro l hl
    cases hl
    rfl
  have hinert : ∀ text ∈ x.annotations, ∀ kind, annotationKind? "lua_export_" text = some kind →
      kind.appliesTo x = false := by
    have hclass : annotationKind? "lua_export_" "lua_export_class" = some .classType := by rfl
    have hnonsense : annotationKind? "lua_export_" "lua_export_nonsense" = none := by rfl
    intro text htext kind hkind
    rcases List.mem_cons.mp htext with rfl | htext
    · rw [hclass] at hkind
      cases hkind
      rfl
    · rw [List.mem_singleton.mp htext, hnonsense] at hkind
      cases hkind
  have haccepted : ({ filePath := "hero.h", decls := nest levels [x] } :
      TranslationUnit).check {} = .ok () := TranslationUnit.check_default (by decide) rfl
  obtain ⟨given, reduced, before, after, hgiven, hreduced, hrecords, hdiagnostics, hrest⟩ :=
    analyze_without_inert {} "hero.h" levels [] [] x rfl hlevels hinert haccepted
  have hblock : ((if isShut "lua_export_" levels then [] else x.problems "lua_export_").map (·.kind)) =
      [.unknownDirective, .malformedAttribute] := by rfl
  exact ⟨rfl, hlevels, hinert, haccepted, given, reduced, before, _, after, hgiven, hreduced, hrecords,
    hdiagnostics, hrest, hblock⟩

end ScriptExport
