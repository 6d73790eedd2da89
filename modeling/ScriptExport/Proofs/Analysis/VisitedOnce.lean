import ScriptExport.Proofs.Analysis.Occurrences
import ScriptExport.Proofs.Analysis.Tracing

/-!
# Every declaration is visited once

The trace tells of each visit to a declaration, and the problems with its annotations are reported
there. A declaration is come to by the walk or, if it is a member, with its record; flattening reads
the members of bases again and again, but neither notes a visit nor reports their annotations. From one
state to a later one exactly the declarations `ds` are visited: `State.Meets`. A visit of the walk
meets its declaration and the own members of an open record (`Visit.meets`), so that a walk meets every
declaration below open scopes, each of them once: `perm_reached`.
-/

namespace ScriptExport

/-- The kind and the name of the declaration that an event tells of a visit to. -/
def Event.visit? : Event → Option (String × String)
  | visited kind name => some (kind, name)
  | _ => none

/-- The diagnostics of what is wrong with the annotations of a declaration. -/
def Decl.issueDiagnostics (marker : String) (d : Decl) : List Diagnostic :=
  Analysis.issueDiagnostics d.header (parseAnnotations marker d.annotations).issues

/-- The declarations that are noted where the walk comes to a declaration: in an open scope also the
members. -/
def Decl.noted (marker : String) (d : Decl) : List Decl :=
  d :: if d.isClosed marker then [] else d.children.filter (·.isMemberOnly)

/-- Whether a diagnostic can be that of an annotation of some declaration. -/
def Diagnostic.IsIssue (d : Diagnostic) : Prop :=
  ∃ (h : Header) (issue : DirectiveIssue), d ∈ Analysis.issueDiagnostics h [issue]

theorem DirectiveIssue.head?_message {issue : DirectiveIssue}
    (h : issue.kind = .malformedAttribute) : issue.message.toList.head? = some 'a' := by
  cases issue with
  | unknownKind word => cases h
  | _ => unfold DirectiveIssue.message; simp

namespace Diagnostic

/-- The diagnostics of annotations are known by their kind and the first letter of their text. -/
theorem IsIssue.kind_or_head {d : Diagnostic} (h : d.IsIssue) :
    d.kind = .unknownDirective ∨
      d.kind = .malformedAttribute ∧ d.message.toList.head? = some 'a' := by
  obtain ⟨head, issue, hd⟩ := h
  obtain rfl := List.mem_singleton.mp hd
  cases hkind : issue.kind with
  | unknownDirective => exact .inl hkind
  | malformedAttribute =>
    have hhead := DirectiveIssue.head?_message hkind
    exact .inr ⟨hkind, Text.head?_append (Text.head?_append (Text.head?_append hhead _) _) _⟩
  | _ => cases issue <;> cases hkind

theorem not_isIssue_of_kind {d : Diagnostic} (hkind : d.kind ≠ .unknownDirective)
    (hkind' : d.kind ≠ .malformedAttribute) : ¬ d.IsIssue := by
  intro h
  rcases h.kind_or_head with h | h
  · exact hkind h
  · exact hkind' h.1

theorem not_isIssue_of_head {d : Diagnostic} (hkind : d.kind ≠ .unknownDirective)
    {c : Char} (hhead : d.message.toList.head? = some c) (hc : c ≠ 'a') : ¬ d.IsIssue := by
  intro h
  rcases h.kind_or_head with h | h
  · exact hkind h
  · exact hc (Option.some.inj (hhead.symm.trans h.2))

end Diagnostic

variable {marker : String}

namespace Analysis

/-- The visits that the trace tells of. -/
def State.visited (s : State) : List (String × String) :=
  (eventsOf ((s.trace.map Array.toList).getD [])).filterMap Event.visit?

/-- From `s` to `t` exactly the declarations are visited, in order: the trace tells of them, if there
is one, and the problems with their annotations are reported once. -/
structure State.Meets (marker : String) (ds : List Decl) (s t : State) : Prop where
  traced : t.trace.isSome = s.trace.isSome
  visited : s.trace.isSome = true →
    t.visited = s.visited ++ ds.map fun d => (d.kindText, d.name)
  issues : ∀ d : Diagnostic, d.IsIssue → t.diagnostics.toList.count d =
    s.diagnostics.toList.count d + (ds.flatMap (·.issueDiagnostics marker)).count d

namespace State.Meets

variable {ds es : List Decl} {s t u : State}

theorem refl : s.Meets marker [] s :=
  ⟨rfl, fun _ => by simp, fun _ _ => by simp⟩

theorem trans (h : s.Meets marker ds t) (h' : t.Meets marker es u) :
    s.Meets marker (ds ++ es) u where
  traced := h'.traced.trans h.traced
  visited hs := by
    rw [h'.visited (h.traced.trans hs), h.visited hs, List.map_append, List.append_assoc]
  issues d hd := by
    rw [h'.issues d hd, h.issues d hd, List.flatMap_append, List.count_append]
    omega

/-- What meets no declaration may come after. -/
theorem andThen (h : s.Meets marker ds t) (h' : t.Meets marker [] u) : s.Meets marker ds u := by
  have hall := h.trans h'
  rwa [List.append_nil] at hall

/-- What meets no declaration may come before. -/
theorem after (h : s.Meets marker [] t) (h' : t.Meets marker ds u) : s.Meets marker ds u :=
  h.trans h'

theorem foldl {α : Type} {f : State → α → State} {g : α → List Decl} {l : List α}
    (hf : ∀ a ∈ l, ∀ s : State, s.Meets marker (g a) (f s a)) (s : State) :
    s.Meets marker (l.flatMap g) (l.foldl f s) := by
  induction l generalizing s with
  | nil => exact .refl
  | cons a l ih =>
    rw [List.flatMap_cons, List.foldl_cons]
    have hhead := hf a List.mem_cons_self s
    exact hhead.trans (ih (fun b hb => hf b (List.mem_cons_of_mem a hb)) _)

theorem foldl_nil {α : Type} {f : State → α → State} {l : List α}
    (hf : ∀ a ∈ l, ∀ s : State, s.Meets marker [] (f s a)) (s : State) :
    s.Meets marker [] (l.foldl f s) := by
  have hall := foldl (g := fun _ => []) hf s
  rwa [List.flatMap_eq_nil_iff.mpr fun _ _ => rfl] at hall

/-- An update that changes neither trace nor diagnostics. -/
theorem of_eq (htrace : t.trace = s.trace) (hdiagnostics : t.diagnostics = s.diagnostics) :
    s.Meets marker [] t where
  traced := by rw [htrace]
  visited _ := by simp [State.visited, htrace]
  issues d _ := by simp [hdiagnostics]

end State.Meets

/-! ## The operations on states -/

section Operations

variable (s : State)

/-- A note may tell of a visit. -/
theorem visited_note (step : TraceStep) (hs : s.trace.isSome = true) :
    (s.note step).visited = s.visited ++ (step.event?.bind Event.visit?).toList := by
  obtain ⟨trace, htrace⟩ := Option.isSome_iff_exists.mp hs
  have hevents : eventsOf (trace.push step).toList = eventsOf trace.toList ++ step.event?.toList := by
    cases step with
    | event e => exact eventsOf_push_event trace e
    | typeSeen text =>
      rw [eventsOf_push_typeSeen]
      simp [TraceStep.event?]
  have hvisit : step.event?.toList.filterMap Event.visit? =
      (step.event?.bind Event.visit?).toList := by
    cases step.event? with
    | none => rfl
    | some e => cases he : e.visit? <;> simp [he]
  unfold State.visited State.note
  simp only [htrace, Option.map_some, Option.getD_some, hevents, List.filterMap_append, hvisit]

theorem meets_note {step : TraceStep} (hstep : step.event?.bind Event.visit? = none) :
    s.Meets marker [] (s.note step) where
  traced := by simp [State.note]
  visited hs := by rw [visited_note s step hs, hstep]; rfl
  issues d _ := by simp [State.note]

theorem meets_skip (d : Decl) (reason : SkipReason) : s.Meets marker [] (s.skip d reason) :=
  meets_note s rfl

theorem meets_report {d : Diagnostic} (hd : ¬ d.IsIssue) : s.Meets marker [] (s.report d) where
  traced := by simp [State.report, State.log, State.note]
  visited hs := visited_note s (.event (.diagnosed d.kind.label d.message)) hs
  issues e he := by
    have hne : d ≠ e := fun heq => hd (heq ▸ he)
    simp [State.report, State.log, State.note, List.count_append, hne]

theorem meets_complain (h : Header) (kind : DiagnosticKind) (hkind : kind ≠ .unknownDirective)
    (hkind' : kind ≠ .malformedAttribute) (message : String) :
    s.Meets marker [] (s.complain h kind message) :=
  meets_report s (Diagnostic.not_isIssue_of_kind hkind hkind')

theorem meets_reportAll {ds : List Diagnostic} (hds : ∀ d ∈ ds, ¬ d.IsIssue) :
    s.Meets marker [] (s.reportAll ds) :=
  .foldl_nil (fun d hd s => meets_report s (hds d hd)) s

theorem meets_push (r : ExportRecord) : s.Meets marker [] (s.push r) := by
  have hlogged : s.Meets marker [] (s.log (.emitted r.kind.name r.qualifiedName)) :=
    meets_note s rfl
  exact hlogged.andThen (.of_eq rfl rfl)

theorem meets_emit (r : ExportRecord) : s.Meets marker [] (s.emit r) := by
  unfold State.emit
  split
  · exact meets_report s (Diagnostic.not_isIssue_of_kind nofun nofun)
  · split
    · exact .refl
    · exact meets_push s r

theorem meets_useType (h : Header) (t : TypeRef) : s.Meets marker [] (s.useType h t) := by
  unfold State.useType
  dsimp only
  split
  · exact meets_note s rfl
  · have hother : ¬ (State.unresolvedType h t.canonical.text).IsIssue :=
      Diagnostic.not_isIssue_of_kind nofun nofun
    exact (meets_report s hother).andThen (meets_note _ rfl)

theorem meets_useTypes (h : Header) (ts : List TypeRef) : s.Meets marker [] (s.useTypes h ts) :=
  .foldl_nil (fun t _ s => meets_useType s h t) s

theorem meets_withConstants (m : OrderedMap String Int64) :
    s.Meets marker [] { s with constants := m } :=
  .of_eq rfl rfl

theorem meets_bindConstant (name qualifiedName : String) (v : ConstantValue) :
    s.Meets marker [] (s.bindConstant name qualifiedName v) :=
  meets_withConstants s _

theorem meets_emitContainer (r : ExportRecord) (instantiation : Option String) :
    s.Meets marker [] (s.emitContainer r instantiation) := by
  unfold State.emitContainer
  split
  · exact (meets_emit s r).andThen (.of_eq rfl rfl)
  · exact meets_emit s r

theorem meets_uniqueContainerName (h : Header) (generated instantiation : String) :
    s.Meets marker [] (s.uniqueContainerName h generated instantiation).2 := by
  unfold State.uniqueContainerName
  split
  · have hcounter : s.Meets marker []
        { s with counter := (s.counter.freshName s.containerNames generated).2 } := .of_eq rfl rfl
    exact hcounter.andThen (meets_complain _ h .nameCollision nofun nofun _)
  · exact .refl

theorem meets_noteInherited (owner : Owner) (source : MemberSource) (member : String) :
    s.Meets marker [] (s.noteInherited owner source member) := by
  cases source with
  | own => exact .refl
  | inherited base => exact meets_note s rfl

/-! ### Visits -/

variable (ds : List Diagnostic)

/-- Reporting adds what is reported. -/
theorem count_reportAll (d : Diagnostic) :
    (s.reportAll ds).diagnostics.toList.count d = s.diagnostics.toList.count d + ds.count d := by
  induction ds generalizing s with
  | nil => rfl
  | cons e ds ih =>
    have hreport : (s.report e).diagnostics.toList = s.diagnostics.toList ++ [e] := by
      simp [State.report, State.log, State.note]
    show ((s.report e).reportAll ds).diagnostics.toList.count d = _
    rw [ih, hreport, List.count_append, List.count_cons (b := e) (l := ds), List.count_singleton]
    omega

theorem isSome_trace_report (d : Diagnostic) : (s.report d).trace.isSome = s.trace.isSome := by
  simp [State.report, State.log, State.note]

theorem isSome_trace_reportAll : (s.reportAll ds).trace.isSome = s.trace.isSome := by
  induction ds generalizing s with
  | nil => rfl
  | cons e ds ih => exact (ih (s.report e)).trans (isSome_trace_report s e)

theorem visited_reportAll (hs : s.trace.isSome = true) : (s.reportAll ds).visited = s.visited := by
  induction ds generalizing s with
  | nil => rfl
  | cons e ds ih =>
    have hvisited : (s.report e).visited = s.visited :=
      (visited_note s (.event (.diagnosed e.kind.label e.message)) hs).trans (List.append_nil _)
    exact (ih (s.report e) ((isSome_trace_report s e).trans hs)).trans hvisited

/-- Noting a declaration with the problems of its annotations. -/
theorem meets_visited (marker : String) (d : Decl) :
    s.Meets marker [d] ((s.log (.visited d.kindText d.name)).reportAll
      (issueDiagnostics d.header (parseAnnotations marker d.annotations).issues)) := by
  have htrace : (s.log (.visited d.kindText d.name)).trace.isSome = s.trace.isSome := by
    simp [State.log, State.note]
  constructor
  case traced => exact (isSome_trace_reportAll _ _).trans htrace
  case visited =>
    intro hs
    rw [visited_reportAll _ _ (htrace.trans hs)]
    exact visited_note s (.event (.visited d.kindText d.name)) hs
  case issues =>
    intro e _
    rw [count_reportAll]
    simp [State.log, State.note, Decl.issueDiagnostics]

theorem not_isIssue_inapplicable (kind : DirectiveKind) (d : Decl) :
    ¬ (inapplicable kind d).IsIssue := by
  refine Diagnostic.not_isIssue_of_head nofun (c := 'e') ?_ (by decide)
  unfold inapplicable
  simp

/-- A visit meets its declaration. -/
theorem meets_visit (ctx : Context) (d : Decl) :
    s.Meets ctx.options.marker [d] (s.visit ctx d) := by
  have hvisited := meets_visited s ctx.options.marker d
  unfold State.visit
  dsimp only
  split
  · exact hvisited.andThen (meets_skip _ _ _)
  · exact hvisited.andThen (meets_skip _ _ _)
  · exact hvisited.andThen (meets_report _ (not_isIssue_inapplicable _ d))
  · exact hvisited

theorem meets_visitMember (d : Decl) :
    s.Meets marker (if d.isMemberOnly then [d] else []) (s.visitMember marker d) := by
  unfold State.visitMember
  split
  · have hvisited := meets_visited s marker d
    dsimp only
    split
    · split
      · exact hvisited
      · exact hvisited.andThen (meets_report _ (not_isIssue_inapplicable _ d))
    · exact hvisited
  · exact .refl

end Operations

/-! ## Declarations without a scope, and members -/

section Builders

variable (s : State) (ctx : Context) (h : Header) (a : Directive)

theorem meets_exportFunction (c : Callable) : s.Meets marker [] (exportFunction ctx h c a s) := by
  unfold exportFunction
  split
  · exact meets_skip _ _ _
  · exact (meets_useTypes s h _).andThen (meets_emit _ _)

theorem meets_exportVariable (v : Variable) : s.Meets marker [] (exportVariable ctx h v a s) := by
  have hused : s.Meets marker [] (s.useType h v.type) := meets_useType s h v.type
  unfold exportVariable
  dsimp only
  split
  · exact (hused.andThen (meets_bindConstant _ _ _ _)).andThen (meets_emit _ _)
  · exact hused.andThen (meets_emit _ _)

theorem not_isIssue_of_mem_evaluateEnum (h : Header) (constants : OrderedMap String Int64)
    (cs : List EnumConstant) : ∀ d ∈ (evaluateEnum h constants cs).diagnostics, ¬ d.IsIssue := by
  have hstep : ∀ (p : EnumProgress) (c : EnumConstant),
      (∀ d ∈ p.diagnostics, ¬ d.IsIssue) →
      ∀ d ∈ (p.take h constants c).diagnostics, ¬ d.IsIssue := by
    intro p c hp d hd
    rcases List.mem_append.mp hd with hd | hd
    · exact hp d hd
    · have hd : d ∈ (p.valueOf h constants c).2 := hd
      unfold EnumProgress.valueOf at hd
      split at hd
      · cases hd
      · split at hd
        · cases hd
        · rw [List.mem_singleton.mp hd]
          exact Diagnostic.not_isIssue_of_kind nofun nofun
  have hfold : ∀ (cs : List EnumConstant) (p : EnumProgress),
      (∀ d ∈ p.diagnostics, ¬ d.IsIssue) →
      ∀ d ∈ (cs.foldl (EnumProgress.take h constants) p).diagnostics, ¬ d.IsIssue := by
    intro cs
    induction cs with
    | nil => exact fun p hp => hp
    | cons c cs ih => exact fun p hp => ih _ (hstep p c hp)
  exact hfold cs {} (List.forall_mem_nil _)

theorem meets_exportEnum (e : Enumeration) : s.Meets marker [] (exportEnum ctx h e a s) := by
  have hreported : s.Meets marker []
      (s.reportAll (evaluateEnum h s.constants e.enumerators).diagnostics) :=
    meets_reportAll s (not_isIssue_of_mem_evaluateEnum h s.constants e.enumerators)
  exact (hreported.andThen (meets_withConstants _ _)).andThen (meets_emit _ _)

theorem meets_exportCallback (target : TypeRef) :
    s.Meets marker [] (exportCallback ctx h target a s) := by
  unfold exportCallback
  split
  · refine meets_report s (Diagnostic.not_isIssue_of_head nofun (c := 'c') ?_ (by decide))
    simp
  · exact (meets_useTypes s h _).andThen (meets_emit _ _)

theorem meets_exportView (name : String) (kind : ContainerKind) (elements : List TypeRef)
    (instantiation : String) :
    s.Meets marker [] (exportView ctx h a name kind elements instantiation s) := by
  unfold exportView
  split
  · exact meets_complain s h .nameCollision nofun nofun _
  · exact (meets_useTypes s h elements).andThen (meets_emitContainer _ _ _)

theorem meets_exportInstantiation (kind : ContainerKind) (elements : List TypeRef)
    (instantiation : String) :
    s.Meets marker [] (exportInstantiation ctx h a kind elements instantiation s) := by
  unfold exportInstantiation
  split
  · exact meets_complain s h .duplicateContainer nofun nofun _
  · exact ((meets_uniqueContainerName s h _ _).andThen (meets_useTypes _ h elements)).andThen
      (meets_emitContainer _ _ _)

theorem not_isIssue_of_mem_containerShape (h : Header) (expected : ContainerKind) (word : String)
    (detected : ContainerKind) (elements : List TypeRef) :
    ∀ d ∈ (containerShape h expected word detected elements).2, ¬ d.IsIssue := by
  intro d hd
  unfold containerShape at hd
  split at hd
  · cases hd
  · split at hd
    · cases hd
    · obtain rfl := List.mem_singleton.mp hd
      refine Diagnostic.not_isIssue_of_head nofun (c := '\'') ?_ (by decide)
      simp

theorem meets_exportContainer (target : TypeRef) (expected : ContainerKind)
    (ha : a.kind = .vector ∨ a.kind = .map) :
    s.Meets marker [] (exportContainer ctx h target a expected s) := by
  unfold exportContainer
  split
  · rcases ha with ha | ha
    · refine meets_report s (Diagnostic.not_isIssue_of_head nofun (c := 'v') ?_ (by decide))
      simp [ha, DirectiveKind.name]
    · refine meets_report s (Diagnostic.not_isIssue_of_head nofun (c := 'm') ?_ (by decide))
      simp [ha, DirectiveKind.name]
  · next detected arguments _ =>
    have hshape : s.Meets marker []
        (s.reportAll (containerShape h expected a.kind.name detected arguments).2) :=
      meets_reportAll s (not_isIssue_of_mem_containerShape h expected a.kind.name detected arguments)
    have hbegin := hshape.andThen (meets_useType _ h target)
    dsimp only
    split
    · exact hbegin.andThen (meets_exportView _ ctx h a _ _ _ _)
    · exact hbegin.andThen (meets_exportInstantiation _ ctx h a _ _ _)

omit h in
/-- Exporting a leaf visits nothing else. -/
theorem meets_exportLeaf (d : Decl) : s.Meets marker [] (exportLeaf ctx d a s) := by
  cases d with
  | function h c => exact meets_exportFunction s ctx h a c
  | var h info => exact meets_exportVariable s ctx h a info
  | enumeration h info => exact meets_exportEnum s ctx h a info
  | typeAlias h target =>
    unfold exportLeaf exportAlias
    dsimp only
    split
    · exact meets_exportCallback s ctx h a target
    · next hkind => exact meets_exportContainer s ctx h a target _ (.inl hkind)
    · next hkind => exact meets_exportContainer s ctx h a target _ (.inr hkind)
    · exact .refl
  | _ => exact .refl

theorem not_isIssue_of_clash? {index : TypeIndex} {owner : Owner} {r : ExportRecord}
    {earlier later : MemberSource} :
    ∀ d ∈ (clash? index owner r earlier later).toList, ¬ d.IsIssue := by
  intro d hd
  unfold clash? at hd
  split at hd
  · split at hd
    · obtain rfl := List.mem_singleton.mp hd
      exact Diagnostic.not_isIssue_of_kind nofun nofun
    · cases hd
  · split at hd
    · obtain rfl := List.mem_singleton.mp hd
      exact Diagnostic.not_isIssue_of_kind nofun nofun
    · cases hd
  · cases hd

variable (x : Surface) (owner : Owner) (source : MemberSource)

theorem meets_add (r : ExportRecord) :
    x.state.Meets marker [] (x.add ctx owner source r).state := by
  unfold Surface.add
  split
  · exact meets_reportAll _ not_isIssue_of_clash?
  · exact (meets_noteInherited _ _ _ _).andThen (meets_emit _ _)

theorem meets_addField (info : Field) (directive : Option Directive) :
    x.state.Meets marker [] (x.addField ctx owner source h info directive).state := by
  have hused : x.state.Meets marker [] (x.onState (·.useType h info.type)).state :=
    meets_useType x.state h info.type
  unfold Surface.addField
  dsimp only
  split
  · have hbound : ∀ value, x.state.Meets marker []
        ((x.onState (·.useType h info.type)).onState (·.bindConstant h.name
          (ctx.constantFieldRecord h info value directive).qualifiedName value)).state :=
      fun value => hused.andThen (meets_bindConstant _ _ _ _)
    exact (hbound _).andThen (meets_add ctx _ owner source _)
  · exact hused.andThen (meets_add ctx _ owner source _)

/-- Filling a slot visits nothing. -/
theorem meets_addSlot (m : Member) (slot : Slot) :
    x.state.Meets marker [] (x.addSlot ctx owner source m slot).state := by
  cases slot with
  | absorbed => exact .refl
  | property spec =>
    have hused : x.state.Meets marker [] (x.onState (·.useTypes spec.header spec.type?.toList)).state :=
      meets_useTypes x.state _ _
    exact hused.andThen (meets_add ctx _ owner source _)
  | member =>
    show x.state.Meets marker [] (x.addMember ctx owner source m).state
    unfold Surface.addMember
    split
    · exact .refl
    · exact meets_skip _ _ _
    · next kind h c _ =>
      have hused : x.state.Meets marker [] (x.onState (·.useTypes h (callableTypes kind c))).state :=
        meets_useTypes x.state _ _
      exact hused.andThen (meets_add ctx _ owner source _)
    · exact meets_addField ctx _ x owner source _ _

end Builders

/-! ## Member lists and scopes -/

/-- The diagnostics of property planning concern no annotation texts. -/
theorem not_isIssue_of_mem_planProperties (owner : String) (members : List Member) :
    ∀ d ∈ (planProperties owner members).diagnostics, ¬ d.IsIssue := by
  have hadded : ∀ {ds : List Diagnostic} {new : Diagnostic}, (∀ d ∈ ds, ¬ d.IsIssue) →
      ¬ new.IsIssue → ∀ d ∈ ds ++ [new], ¬ d.IsIssue := fun hds hnew =>
    List.forall_mem_append.mpr ⟨hds, List.forall_mem_singleton.mpr hnew⟩
  have hform : ∀ (p : PropertyPlan) (i : Nat) (h : Header) (c : Callable) (a : Directive)
      (accessor : Accessor), (∀ d ∈ p.diagnostics, ¬ d.IsIssue) →
      ∀ d ∈ (p.form owner members i h c a accessor).diagnostics, ¬ d.IsIssue := by
    intro p i h c a accessor hp d hd
    unfold PropertyPlan.form at hd
    dsimp only at hd
    split at hd
    · exact hp d hd
    · split at hd <;> split at hd
      · exact hp d hd
      · refine hadded hp ?_ d hd
        exact Diagnostic.not_isIssue_of_kind nofun nofun
      · exact hp d hd
      · refine hadded hp ?_ d hd
        exact Diagnostic.not_isIssue_of_kind nofun nofun
  have htake : ∀ (p : PropertyPlan) (m : Member) (i : Nat), (∀ d ∈ p.diagnostics, ¬ d.IsIssue) →
      ∀ d ∈ (p.take owner members m i).diagnostics, ¬ d.IsIssue := by
    intro p m i hp d hd
    unfold PropertyPlan.take at hd
    split at hd
    · exact hp d hd
    · split at hd
      · split at hd
        · split at hd
          · refine hadded hp ?_ d hd
            refine Diagnostic.not_isIssue_of_head nofun (c := '\'') ?_ (by decide)
            simp
          · split at hd
            · refine hadded hp ?_ d hd
              exact Diagnostic.not_isIssue_of_kind nofun nofun
            · exact hform p i _ _ _ _ hp d hd
        · exact hp d hd
      · exact hp d hd
  have hfold : ∀ (l : List (Member × Nat)) (p : PropertyPlan), (∀ d ∈ p.diagnostics, ¬ d.IsIssue) →
      ∀ d ∈ (l.foldl (fun p x => p.take owner members x.1 x.2) p).diagnostics, ¬ d.IsIssue := by
    intro l
    induction l with
    | nil => exact fun p hp => hp
    | cons x l ih => exact fun p hp => ih _ (htake p x.1 x.2 hp)
  exact hfold members.zipIdx (.initial members) (List.forall_mem_nil _)

section Scopes

variable {ctx : Context} {owner : Owner}

theorem meets_foldl_addSlot (marker : String) (source : MemberSource) (l : List (Member × Slot))
    (x : Surface) : x.state.Meets marker []
      (l.foldl (fun x p => x.addSlot ctx owner source p.1 p.2) x).state := by
  induction l generalizing x with
  | nil => exact .refl
  | cons p l ih => exact (meets_addSlot ctx x owner source p.1 p.2).andThen (ih _)

theorem filter_eq_flatMap_singleton (ds : List Decl) :
    ds.filter (·.isMemberOnly) = ds.flatMap fun d => if d.isMemberOnly then [d] else [] := by
  induction ds with
  | nil => rfl
  | cons d ds ih => by_cases hd : d.isMemberOnly <;> simp [hd, ih]

/-- The own members of a type are visited with it. -/
theorem meets_exportMembers_own (ctx : Context) (owner : Owner)
    (hmarker : ctx.options.marker = marker) (decls : List Decl) (x : Surface) :
    x.state.Meets marker (decls.filter (·.isMemberOnly))
      (exportMembers ctx owner .own decls x).state := by
  subst hmarker
  have hnotes : x.state.Meets ctx.options.marker (decls.filter (·.isMemberOnly))
      (decls.foldl (fun s d => s.visitMember ctx.options.marker d) x.state) := by
    rw [filter_eq_flatMap_singleton]
    exact .foldl (fun d _ s => meets_visitMember s d) x.state
  have hplanned : x.state.Meets ctx.options.marker (decls.filter (·.isMemberOnly))
      (x.onState fun s => (decls.foldl (fun s d => s.visitMember ctx.options.marker d) s).reportAll
        (planProperties owner.qualifiedName (decls.map (markMember ctx.options.marker))).diagnostics
        ).state :=
    hnotes.andThen (meets_reportAll _ (not_isIssue_of_mem_planProperties _ _))
  exact hplanned.andThen (meets_foldl_addSlot _ .own _ _)

/-- The members that a type inherits are not visited again. -/
theorem meets_exportInherited (marker : String) (bases : List TypeEntry) (x : Surface) :
    x.state.Meets marker [] (exportInherited ctx owner bases x).state := by
  induction bases generalizing x with
  | nil => exact .refl
  | cons e bases ih =>
    have hbase : x.state.Meets marker []
        (exportMembers ctx owner (.inherited e.qualifiedName) e.decl.children x).state :=
      meets_foldl_addSlot _ (.inherited e.qualifiedName) _ x
    exact hbase.andThen (ih _)

/-- A class meets its own members. -/
theorem meets_exportClassMembers (h : Header) (traits : RecordTraits) (members : List Decl)
    (a : Directive) (s : State) :
    s.Meets ctx.options.marker (members.filter (·.isMemberOnly))
      (exportClassMembers ctx h traits members a s) := by
  unfold exportClassMembers classSurface
  dsimp only
  generalize ctx.index.ancestry _ _ _ = ancestry
  have hbound : s.Meets ctx.options.marker [] (s.bindBases (ctx.enterClass h a) h
      (ctx.classOwner h traits members a).qualifiedName (ancestry.filter (·.annotated))) :=
    .foldl_nil (fun e _ s => meets_emit s _) s
  have hown := meets_exportMembers_own (ctx.enterClass h a) (ctx.classOwner h traits members a)
    rfl members
  exact (hbound.after (hown { state := _ })).andThen (meets_exportInherited _ _ _)

theorem meets_exportExplicitMembers (h : Header) (members : List Decl) (s : State) :
    s.Meets ctx.options.marker (members.filter (·.isMemberOnly))
      (exportExplicitMembers ctx h members s) :=
  meets_exportMembers_own (ctx.enterRecord h) _ rfl members { state := s }

end Scopes

/-! ## Visits -/

theorem noted_of_ignored {ctx : Context} {d : Decl} (hd : ctx.verdict d = .ignored) :
    d.noted ctx.options.marker = [d] := by
  obtain ⟨hignored, hnone⟩ := verdict_eq_ignored_iff.mp hd
  unfold Decl.noted Decl.isClosed
  cases d with
  | nameSpace h decls => simp [hignored, hnone]
  | record h traits members => simp [hignored, hnone]
  | _ => rfl

theorem noted_leaf {d : Decl} (hd : d.children = []) : d.noted marker = [d] := by
  simp [Decl.noted, hd]

/-- With a record its members are noted if it opens a scope. -/
theorem noted_record (ctx : Context) (h : Header) (traits : RecordTraits) (members : List Decl) :
    (Decl.record h traits members).noted ctx.options.marker =
      .record h traits members ::
        if (⟨ctx, .record h traits members⟩ : Visit).inside?.isSome
        then members.filter (·.isMemberOnly) else [] := by
  rw [inside?_record]
  unfold Decl.noted
  cases (Decl.record h traits members).isClosed ctx.options.marker <;> rfl

/-- The declarations of an accepted namespace are no members. -/
def NamespaceAccepts : Decl → Prop
  | .nameSpace _ decls => decls.filter (·.isMemberOnly) = []
  | _ => True

theorem meets_contribute_leaf {ctx : Context} {d : Decl} {s t : State}
    (hvisit : s.Meets marker [d] t) (directive : Option Directive) :
    s.Meets marker [d] (match directive with
      | some a => exportLeaf ctx d a t
      | none => t) := by
  cases directive with
  | some a => exact hvisit.andThen (meets_exportLeaf t ctx a d)
  | none => exact hvisit

/-- A visit meets its declaration and, in an open record, the own members. -/
theorem Visit.meets (v : Visit) (hv : NamespaceAccepts v.decl) (s : State) :
    s.Meets v.ctx.options.marker (v.decl.noted v.ctx.options.marker) (v.run s) := by
  obtain ⟨ctx, d⟩ := v
  have hvisit : s.Meets ctx.options.marker [d] (s.visit ctx d) := meets_visit s ctx d
  unfold Visit.run
  dsimp only
  by_cases hignored : (⟨ctx, d⟩ : Visit).verdict = .ignored
  · rw [if_pos hignored, noted_of_ignored hignored]
    exact hvisit
  rw [if_neg hignored]
  cases d with
  | nameSpace h decls =>
    have hstray : decls.filter (·.isMemberOnly) = [] := hv
    have hnoted : (Decl.nameSpace h decls).noted ctx.options.marker = [.nameSpace h decls] := by
      simp [Decl.noted, Decl.children, hstray]
    rw [hnoted]
    cases (⟨ctx, .nameSpace h decls⟩ : Visit).verdict.directive with
    | some a => exact hvisit.andThen (meets_emit _ _)
    | none => exact hvisit
  | record h traits members =>
    rw [noted_record]
    unfold Visit.inside?
    rw [if_neg hignored]
    dsimp only
    cases (⟨ctx, .record h traits members⟩ : Visit).verdict.directive with
    | some a =>
      have hemitted := hvisit.andThen (meets_emit _ (ctx.classRecord h traits members a))
      unfold Visit.contribute
      dsimp only
      by_cases hvalid : (ctx.classRecord h traits members a).isValid = true
      · simp only [hvalid, ↓reduceIte, Option.isSome_some]
        exact hemitted.trans (meets_exportClassMembers h traits members a _)
      · simp only [hvalid, Bool.false_eq_true, ↓reduceIte, Option.isSome_none]
        exact hemitted
    | none => exact hvisit.trans (meets_exportExplicitMembers h members _)
  | _ =>
    rw [noted_leaf rfl]
    exact meets_contribute_leaf hvisit _

theorem meets_runVisits {vs : List Visit}
    (hvs : ∀ v ∈ vs, v.ctx.options.marker = marker ∧ NamespaceAccepts v.decl) (s : State) :
    s.Meets marker (vs.flatMap fun v => v.decl.noted marker) (runVisits vs s) := by
  refine .foldl (fun v hv s => ?_) s
  obtain ⟨rfl, haccepts⟩ := hvs v hv
  exact v.meets haccepts s

/-! ## Everything below open scopes -/

/-- What occurs below open scopes only. -/
def reached (marker : String) (ps : List Occurrence) : List Occurrence :=
  ps.filter fun p => !p.around.any (·.isClosed marker)

theorem reached_eq_nil_of_closed {d : Decl} {around : List Decl} (hd : d.isClosed marker = true)
    (ds : List Decl) : reached marker (occurrences (d :: around) ds) = [] := by
  unfold reached
  rw [List.filter_eq_nil_iff]
  intro p hp
  have hmem : d ∈ p.around := (suffix_of_mem_occurrences _ ds hp).subset List.mem_cons_self
  simp only [Bool.not_eq_true, Bool.not_eq_false', List.any_eq_true]
  exact ⟨d, hmem, hd⟩

section Open

variable {around : List Decl}

theorem reached_cons_of_open (hopen : around.any (·.isClosed marker) = false) (d : Decl)
    (ps : List Occurrence) :
    (reached marker (⟨around, d⟩ :: ps)).map (·.decl) = d :: (reached marker ps).map (·.decl) := by
  unfold reached
  rw [List.filter_cons_of_pos (by rw [hopen]; rfl)]
  rfl

/-- What occurs below open scopes are the members there and what the visits note. -/
theorem perm_reached (ctx : Context) (around : List Decl)
    (hopen : around.any (·.isClosed ctx.options.marker) = false) (ds : List Decl) :
    ((reached ctx.options.marker (occurrences around ds)).map (·.decl)).Perm
      (ds.filter (·.isMemberOnly) ++ (visits (ctx.within around) ds).flatMap
        fun v => v.decl.noted ctx.options.marker) := by
  induction ds using Decl.list_induction generalizing around with
  | nil => exact .refl _
  | cons d ds ihContents ih =>
    have hrest := ih around hopen
    rw [occurrences, visits]
    cases hd : d.isMemberOnly with
    | true =>
      -- a member has nothing inside it
      have hleaf : d.children = [] := by cases d <;> first | rfl | cases hd
      have hself : occurrencesOf around d = [⟨around, d⟩] := by
        rw [occurrencesOf_eq, hleaf]
        rfl
      rw [hself, List.cons_append, List.nil_append, reached_cons_of_open hopen,
        List.filter_cons_of_pos hd]
      exact hrest.cons d
    | false =>
      have hhead : ((reached ctx.options.marker (occurrencesOf around d)).map (·.decl)).Perm
          ((visitsOf (ctx.within around) d).flatMap
            fun v => v.decl.noted ctx.options.marker) := by
        rw [occurrencesOf_eq, reached_cons_of_open hopen, visitsOf_eq_cons, options_within,
          List.flatMap_cons]
        unfold Decl.noted
        cases hclosed : d.isClosed ctx.options.marker with
        | true =>
          rw [reached_eq_nil_of_closed hclosed]
          exact .refl _
        | false =>
          exact (ihContents (d :: around) (by rw [List.any_cons, hclosed, hopen]; rfl)).cons d
      rw [reached, List.filter_append, List.map_append, List.filter_cons_of_neg (by simp [hd])]
      simp only [Bool.false_eq_true, ↓reduceIte, List.flatMap_append]
      exact (hhead.append hrest).trans (List.perm_append_comm_assoc _ _ _)

end Open

/-! ## Accepted units -/

theorem filter_isMemberOnly_of_check {file : String} {depth : Nat} {ds : List Decl}
    (h : Structure.checkDecls file false depth ds = .ok ()) :
    ds.filter (·.isMemberOnly) = [] := by
  rw [List.filter_eq_nil_iff]
  intro d hd hmember
  have hcheck := Structure.checkDecls_eq_ok_iff.mp h d hd
  cases d with
  | nameSpace h decls => cases hmember
  | record h traits members => cases hmember
  | _ => simp_all [Structure.checkDecl, Decl.isMemberOnly]

/-- What the walk comes to in an accepted unit has been checked. -/
theorem descends_checked (file : String) (o : Options) :
    Descends fun ctx d => ctx.options = o ∧
      ∃ inRecord depth, Structure.checkDecl file inRecord depth d = .ok () := by
  intro v inner hv hinside d hd
  obtain ⟨hoptions, inRecord, depth, hcheck⟩ := hv
  refine ⟨(Visit.of_inside? hinside).2.1.trans hoptions, ?_⟩
  obtain ⟨ctx, e⟩ := v
  cases e with
  | nameSpace h decls =>
    rw [Structure.checkDecl] at hcheck
    split at hcheck
    · exact ⟨false, depth + 1, Structure.checkDecls_eq_ok_iff.mp hcheck d hd⟩
    · cases hcheck
  | record h traits members =>
    rw [Structure.checkDecl] at hcheck
    split at hcheck
    · exact ⟨true, depth + 1, Structure.checkDecls_eq_ok_iff.mp hcheck d hd⟩
    · cases hcheck
  | _ => cases hd

theorem namespaceAccepts_of_check {file : String} {inRecord : Bool} {depth : Nat} {d : Decl}
    (h : Structure.checkDecl file inRecord depth d = .ok ()) : NamespaceAccepts d := by
  cases d with
  | nameSpace head decls =>
    rw [Structure.checkDecl] at h
    split at h
    · exact filter_isMemberOnly_of_check h
    · cases h
  | _ => trivial

/-- The walk through an accepted unit meets what its visits note. -/
theorem meets_walk {o : Options} {u : TranslationUnit} (h : u.check o = .ok ()) (s : State) :
    s.Meets o.marker ((visits (Context.ofUnit o u) u.decls).flatMap fun v => v.decl.noted o.marker)
      (walk (Context.ofUnit o u) u.decls s) := by
  rw [walk_eq_runVisits]
  refine meets_runVisits (fun v hv => ?_) s
  have hchecked := Structure.checkDecls_eq_ok_iff.mp (TranslationUnit.checkDecls_of_check h)
  obtain ⟨hoptions, inRecord, depth, hcheck⟩ := of_mem_visits (descends_checked u.filePath o)
    (Context.ofUnit o u) u.decls (fun d hd => ⟨rfl, false, 0, hchecked d hd⟩) hv
  exact ⟨congrArg Options.marker hoptions, namespaceAccepts_of_check hcheck⟩

theorem visited_result (o : Options) (u : TranslationUnit) {s : State}
    (hs : walk (Context.ofUnit o u) u.decls (Surface.ofUnit true u).state = s)
    (htraced : s.trace.isSome = true) :
    (eventsOf ((run o true u).result u.filePath).trace).filterMap Event.visit? = s.visited := by
  obtain ⟨trace, htrace⟩ := Option.isSome_iff_exists.mp htraced
  rw [eventsOf_result o u (hs ▸ htrace), List.filterMap_append]
  unfold State.visited
  rw [htrace]
  simp [Event.visit?]

end Analysis

open Analysis

/-- The analysis of an accepted unit visits every declaration below open scopes once, members and
nested declarations included and however many classes take up the members of a base, and it visits
nothing else. What is wrong with the annotations of these declarations is reported once. -/
theorem visited_once (o : Options) (u : TranslationUnit) (h : u.check o = .ok ()) :
    let below := (occurrences [] u.decls).filter fun p => !p.around.any (·.isClosed o.marker)
    ∃ (result : AnalysisResult) (order : List Decl), analyzeTraced o true u = .ok result ∧
      order.Perm (below.map (·.decl)) ∧
      (result.trace.filterMap TraceStep.event?).filterMap Event.visit? =
        order.map (fun d => (d.kindText, d.name)) ∧
      ((result.trace.filterMap TraceStep.event?).filterMap Event.visit?).length = below.length ∧
      ∀ d : Diagnostic, d.IsIssue → result.exports.diagnostics.count d =
        (below.flatMap (·.decl.issueDiagnostics o.marker)).count d := by
  intro below
  have hmeets := meets_walk h (Surface.ofUnit true u).state
  have hperm : (below.map (·.decl)).Perm ((visits (Context.ofUnit o u) u.decls).flatMap
      fun v => v.decl.noted o.marker) := by
    have hall : (below.map (·.decl)).Perm _ :=
      perm_reached (Context.ofUnit o u) [] rfl u.decls
    rwa [filter_isMemberOnly_of_check (TranslationUnit.checkDecls_of_check h)] at hall
  have hvisited : (eventsOf ((run o true u).result u.filePath).trace).filterMap Event.visit? = _ :=
    (visited_result o u rfl hmeets.traced).trans (hmeets.visited rfl)
  refine ⟨(run o true u).result u.filePath, _, ?_, hperm.symm, hvisited, ?_, ?_⟩
  · unfold analyzeTraced
    rw [h]
    rfl
  · refine (congrArg List.length hvisited).trans ?_
    have hlength := hperm.length_eq
    rw [List.length_map] at hlength
    rw [hlength]
    exact List.length_map _
  · intro d hd
    have hcount := hmeets.issues d hd
    have hpermuted := ((hperm.flatMap_right (·.issueDiagnostics o.marker)).count_eq d).symm
    rw [List.flatMap_map] at hpermuted
    rw [← hpermuted]
    exact hcount.trans (Nat.zero_add _)

/-- Two classes take up a member of a base whose annotation is wrong; it is visited once. -/
theorem visited_once_flattened_base :
    let run := Decl.method { name := "run", annotations := ["lua_export_frob"] } {}
    let base := Decl.record { name := "Base" } {} [run]
    let derived := fun name => Decl.record { name := name, annotations := ["lua_export_class"] }
      { bases := [{ name := "Base" }] } []
    let hidden := Decl.nameSpace { name := "detail", annotations := ["lua_export_ignore"] } [base]
    let u : TranslationUnit :=
      { filePath := "hero.h", decls := [base, derived "Hero", derived "Foe", hidden] }
    let below := (occurrences [] u.decls).filter fun p => !p.around.any (·.isClosed "lua_export_")
    u.check {} = .ok () ∧ below.map (·.decl.name) = ["Base", "run", "Hero", "Foe", "detail"] ∧
      ∃ (result : AnalysisResult) (order : List Decl), analyzeTraced {} true u = .ok result ∧
        order.Perm (below.map (·.decl)) ∧
        (result.trace.filterMap TraceStep.event?).filterMap Event.visit? =
          order.map (fun d => (d.kindText, d.name)) ∧
        ((result.trace.filterMap TraceStep.event?).filterMap Event.visit?).length = below.length ∧
        ∀ d : Diagnostic, d.IsIssue → result.exports.diagnostics.count d =
          (below.flatMap (·.decl.issueDiagnostics "lua_export_")).count d := by
  intro run base derived hidden u below
  have haccepted : u.check {} = .ok () := TranslationUnit.check_default (by decide) rfl
  exact ⟨haccepted, by decide, visited_once {} u haccepted⟩

end ScriptExport
