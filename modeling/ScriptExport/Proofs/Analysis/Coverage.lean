import ScriptExport.Proofs.Analysis.Occurrences

/-!
# No annotated declaration is lost silently

There are many ways for an annotated declaration to stay without a record of its own: it has no name,
its alias or its instantiation is taken, its type is not of the annotated family, or its record
collapses into an equal one. Each of them leaves an equal record behind or says something at the place
of the declaration (`State.Answered`). What the walk does before and after the visit takes neither
back, so it is enough to look at the one visit that the declaration gets, and it gets one wherever it
stands below open scopes only.
-/

namespace ScriptExport

/-- The identity of the record that is built for an annotated declaration with the qualified name
`q`. A callback that is no function has none. -/
def Decl.identity? (q : String) (a : Directive) : Decl → Option Identity
  | .nameSpace .. => some ⟨if a.kind = .moduleScope then .moduleScope else .nameSpace, q, [], false⟩
  | .record .. => some ⟨.classType, q, [], false⟩
  | .function _ c =>
    some ⟨if a.kind = .operator then .operator else .function, q,
      c.params.map (·.type.canonical.text), c.isConst⟩
  | .var _ v =>
    some (if a.kind = .constant then ⟨.constant, q, [], true⟩ else ⟨.property, q, [], v.isConst⟩)
  | .enumeration .. => some ⟨.enumeration, q, [], false⟩
  | .typeAlias _ target =>
    if a.kind = .callback then
      target.signature?.map fun sig => ⟨.typeConverter, q, sig.2.map (·.canonical.text), false⟩
    else some ⟨.container, if a.scriptAlias?.isSome then q else target.canonical.text, [], false⟩
  | _ => none

variable {a : Directive}

theorem Decl.identity?_callback (q : String) (ha : a.kind = .callback) (h : Header)
    (target : TypeRef) : (Decl.typeAlias h target).identity? q a =
      target.signature?.map fun sig => ⟨.typeConverter, q, sig.2.map (·.canonical.text), false⟩ :=
  if_pos ha

theorem Decl.identity?_container (q : String) (ha : a.kind ≠ .callback) (h : Header)
    (target : TypeRef) : (Decl.typeAlias h target).identity? q a =
      some ⟨.container, if a.scriptAlias?.isSome then q else target.canonical.text, [], false⟩ :=
  if_neg ha

/-- Whether the declaration is a function that cannot be called. -/
def Decl.isDeletedFunction : Decl → Bool
  | .function _ c => c.isDeleted
  | _ => false

namespace Analysis

/-- From `s` to `t` a diagnostic at the place was appended. -/
def State.Diagnosed (place : Option Location) (s t : State) : Prop :=
  ∃ new : List Diagnostic, t.diagnostics.toList = s.diagnostics.toList ++ new ∧
    ∃ d ∈ new, d.location = place

/-- A record with the identity is there, or its absence was reported. -/
def State.Answered (i : Option Identity) (place : Option Location) (s t : State) : Prop :=
  (∃ j ∈ i, j ∈ t.identities) ∨ s.Diagnosed place t

section Answers

variable {P Q : ExportRecord → Prop} {i : Option Identity} {place : Option Location}
  {s t u : State}

theorem State.Diagnosed.widen {s' t' : State} (hs : s'.Changes P s) (h : s.Diagnosed place t)
    (ht : t.Changes Q t') : s'.Diagnosed place t' := by
  obtain ⟨new, hnew, d, hd, hplace⟩ := h
  obtain ⟨before, hbefore⟩ := hs.extends.diagnostics
  obtain ⟨after, hafter⟩ := ht.extends.diagnostics
  refine ⟨before ++ new ++ after, ?_, d, by simp [hd], hplace⟩
  rw [← hafter, hnew, ← hbefore]
  simp only [List.append_assoc]

/-- An answer stays one. -/
theorem State.Answered.after (h : s.Answered i place t) (ht : t.Changes P u) :
    s.Answered i place u := by
  rcases h with ⟨j, hj, hmem⟩ | h
  · exact .inl ⟨j, hj, ht.covers.identities hmem⟩
  · exact .inr (h.widen (.refl (P := P)) ht)

/-- What comes before an answer does not matter. -/
theorem State.Answered.before (h : t.Answered i place u) (hs : s.Changes P t) :
    s.Answered i place u := by
  rcases h with h | h
  · exact .inl h
  · exact .inr (h.widen hs (.refl (P := P)))

theorem diagnosed_report (s : State) (d : Diagnostic) : s.Diagnosed d.location (s.report d) :=
  ⟨[d], by simp [State.report, State.log, State.note], d, List.mem_singleton_self d, rfl⟩

theorem diagnosed_complain (s : State) (h : Header) (kind : DiagnosticKind) (message : String) :
    s.Diagnosed h.location (s.complain h kind message) :=
  diagnosed_report s { kind, message, location := h.location }

/-- An offered record is there afterwards, or it has no name and is reported. -/
theorem answered_emit (s : State) {r : ExportRecord} (hr : r.isValid = true → i = some r.identity) :
    s.Answered i r.location (s.emit r) := by
  cases hvalid : r.isValid with
  | true => exact .inl ⟨r.identity, hr hvalid, identity_mem_emit s hvalid⟩
  | false =>
    have hemit : s.emit r = s.report (State.invalidRecord r) := by simp [State.emit, hvalid]
    rw [hemit]
    exact .inr (diagnosed_report s (State.invalidRecord r))

theorem answered_emitContainer (s : State) {r : ExportRecord} (hkind : r.kind = .container)
    (instantiation : Option String)
    (hr : r.isValid = true → i = some r.identity) :
    s.Answered i r.location (s.emitContainer r instantiation) := by
  have hemit := answered_emit s hr
  unfold State.emitContainer
  split
  · exact hemit.after (.of_change (.register (P := fun _ => True) _ r trivial hkind
      instantiation))
  · exact hemit

end Answers

/-! ## The declarations -/

section Declarations

variable {ctx : Context} {h : Header} {q : String}
  (hq : Text.isBlankText h.name = false → ctx.scopes.qualifiedName h.name = q)

include hq

/-- A valid record of a named declaration has its qualified name. -/
theorem identity_of_isValid {r : ExportRecord} (hname : r.name = h.name)
    (hqualified : r.qualifiedName = ctx.scopes.qualifiedName h.name) (hr : r.isValid = true) :
    r.identity = ⟨r.kind, q, r.parameterTypes, r.isConst⟩ := by
  have hnamed := (ExportRecord.isValid_iff.mp hr).1
  rw [hname] at hnamed
  unfold ExportRecord.identity
  rw [hqualified, hq hnamed]

variable (s : State)

theorem answered_exportFunction {c : Callable} (a : Directive) (hc : c.isDeleted = false) :
    s.Answered ((Decl.function h c).identity? q a) h.location (exportFunction ctx h c a s) := by
  unfold exportFunction
  rw [if_neg (by simp [hc])]
  refine (answered_emit _ fun hr => ?_).before (changes_useTypes (P := fun _ => True) s h _)
  rw [identity_of_isValid hq rfl rfl hr]
  rfl

theorem answered_exportVariable (v : Variable) (a : Directive) :
    s.Answered ((Decl.var h v).identity? q a) h.location (exportVariable ctx h v a s) := by
  have huse := changes_useType (P := fun _ => True) s h v.type
  unfold exportVariable Decl.identity?
  dsimp only
  split
  · refine (answered_emit _ fun hr => ?_).before (huse.trans (changes_bindConstant _ _ _ _))
    rw [identity_of_isValid hq rfl rfl hr]
    rfl
  · refine (answered_emit _ fun hr => ?_).before huse
    rw [identity_of_isValid hq rfl rfl hr]
    rfl

theorem answered_exportEnum (e : Enumeration) (a : Directive) :
    s.Answered ((Decl.enumeration h e).identity? q a) h.location (exportEnum ctx h e a s) := by
  have hreport := changes_reportAll (P := fun _ => True) s
    (evaluateEnum h s.constants e.enumerators).diagnostics
  refine (answered_emit _ fun hr => ?_).before (hreport.trans (.of_change (.constants _ _)))
  rw [identity_of_isValid hq rfl rfl hr]
  rfl

theorem answered_exportCallback (target : TypeRef) (ha : a.kind = .callback) :
    s.Answered ((Decl.typeAlias h target).identity? q a) h.location
      (exportCallback ctx h target a s) := by
  rw [Decl.identity?_callback q ha]
  unfold exportCallback
  split
  · exact .inr (diagnosed_complain s h _ _)
  · next ret params hsignature =>
    refine (answered_emit _ fun hr => ?_).before (changes_useTypes (P := fun _ => True) s h _)
    rw [hsignature, identity_of_isValid hq rfl rfl hr]
    rfl

theorem answered_exportView (a : Directive) (name : String) (kind : ContainerKind)
    (elements : List TypeRef) (instantiation : String) :
    s.Answered (some ⟨.container, q, [], false⟩) h.location
      (exportView ctx h a name kind elements instantiation s) := by
  unfold exportView
  split
  · exact .inr (diagnosed_complain s h _ _)
  · refine (answered_emitContainer _ rfl none fun hr => ?_).before
      (changes_useTypes (P := fun _ => True) s h _)
    rw [identity_of_isValid hq rfl rfl hr]
    rfl

omit hq in
theorem answered_exportInstantiation (a : Directive) (kind : ContainerKind)
    (elements : List TypeRef) (instantiation : String) :
    s.Answered (some ⟨.container, instantiation, [], false⟩) h.location
      (exportInstantiation ctx h a kind elements instantiation s) := by
  unfold exportInstantiation
  split
  · exact .inr (diagnosed_complain s h _ _)
  · have hname := changes_uniqueContainerName (P := fun _ => True) s h
      (Naming.containerName ctx.options.containers kind elements) instantiation
    refine (answered_emitContainer _ rfl (some instantiation) fun _ => ?_).before
      (hname.trans (changes_useTypes _ h _))
    rfl

/-- A container alias is answered by a record or a diagnostic. -/
theorem answered_exportContainer (target : TypeRef) (ha : a.kind ≠ .callback)
    (expected : ContainerKind) : s.Answered ((Decl.typeAlias h target).identity? q a) h.location
      (exportContainer ctx h target a expected s) := by
  rw [Decl.identity?_container q ha]
  unfold exportContainer
  cases target.container? ctx.options.containers with
  | none => exact .inr (diagnosed_complain s h _ _)
  | some shape =>
    obtain ⟨detected, arguments⟩ := shape
    have hbefore := (changes_reportAll (P := fun _ => True) s
      (containerShape h expected a.kind.name detected arguments).2).trans
        (changes_useType _ h target)
    cases a.scriptAlias? with
    | some name => exact (answered_exportView hq _ a _ _ _ _).before hbefore
    | none => exact (answered_exportInstantiation _ a _ _ _).before hbefore

/-- An annotated alias is answered. -/
theorem answered_exportAlias (target : TypeRef) (ha : a.kind.appliesTo (.typeAlias h target) = true) :
    s.Answered ((Decl.typeAlias h target).identity? q a) h.location
      (exportAlias ctx h target a s) := by
  unfold exportAlias
  split
  · next hkind => exact answered_exportCallback hq s target hkind
  · next hkind => exact answered_exportContainer hq s target (by simp [hkind]) _
  · next hkind => exact answered_exportContainer hq s target (by simp [hkind]) _
  · next hcallback hvector hmap =>
    -- no other kind describes a type alias
    cases hkind : a.kind <;> simp_all [DirectiveKind.appliesTo]

end Declarations

/-- The visit to an annotated declaration answers it. -/
theorem Visit.answered {v : Visit} {q : String} (hverdict : v.verdict = .admitted (some a))
    (hmember : v.decl.isMemberOnly = false) (hdeleted : v.decl.isDeletedFunction = false)
    (hq : Text.isBlankText v.decl.name = false → v.ctx.scopes.qualifiedName v.decl.name = q)
    (s : State) : s.Answered (v.decl.identity? q a) v.decl.location (v.run s) := by
  have hvisit := changes_visit (P := fun _ => True) s v.ctx v.decl
  have hdirective : (v.ctx.verdict v.decl).directive = some a := congrArg Verdict.directive hverdict
  obtain ⟨-, happlies⟩ := directive_of_verdict hdirective
  have hrun : v.run s = contribute v.ctx (some a) v.decl (s.visit v.ctx v.decl) := by
    unfold Visit.run
    rw [hverdict]
    rfl
  rw [hrun]
  refine State.Answered.before ?_ hvisit
  generalize s.visit v.ctx v.decl = s
  obtain ⟨ctx, d⟩ := v
  cases d with
  | nameSpace h decls =>
    refine answered_emit s fun hr => ?_
    rw [identity_of_isValid hq rfl rfl hr]
    rfl
  | record h traits members =>
    have hemit : s.Answered ((Decl.record h traits members).identity? q a) h.location
        (s.emit (ctx.classRecord h traits members a)) := by
      refine answered_emit s fun hr => ?_
      rw [identity_of_isValid hq rfl rfl hr]
      rfl
    show s.Answered _ _ (if _ then _ else _)
    split
    · exact hemit.after (changes_exportClassMembers (P := fun _ => True) (fun _ _ => trivial) _ ctx h
        traits members a fun _ _ _ => trivial)
    · exact hemit
  | function h c => exact answered_exportFunction hq s a hdeleted
  | var h info => exact answered_exportVariable hq s info a
  | enumeration h info => exact answered_exportEnum hq s info a
  | typeAlias h target => exact answered_exportAlias hq s target happlies
  | method => cases hmember
  | constructor => cases hmember
  | destructor => cases hmember
  | field => cases hmember

/-- The walk over a unit, cut at the visit to an occurrence below open scopes. -/
theorem finalState_of_occurrence (o : Options) {u : TranslationUnit} {pre post : List Occurrence}
    {p : Occurrence} (hp : occurrences [] u.decls = pre ++ p :: post)
    (hmember : p.decl.isMemberOnly = false)
    (hopen : ∀ scope ∈ p.around, scope.isClosed o.marker = false) :
    let ctx := Context.ofUnit o u
    finalState o u =
      runVisits (post.filterMap (·.visit? ctx))
        ((⟨ctx.within p.around, p.decl⟩ : Visit).run
          (runVisits (pre.filterMap (·.visit? ctx)) {})) := by
  intro ctx
  have hvisit : p.visit? ctx = some ⟨ctx.within p.around, p.decl⟩ :=
    visit?_of_open (List.any_eq_false.mpr fun scope hscope => by simp [ctx, Context.ofUnit,
      hopen scope hscope]) hmember
  have hvisits : visits (ctx.within []) u.decls =
      (occurrences [] u.decls).filterMap (·.visit? ctx) := visits_eq_filterMap [] rfl u.decls
  rw [hp, List.filterMap_append, List.filterMap_cons_some hvisit] at hvisits
  rw [finalState_eq_runVisits]
  show runVisits (visits (ctx.within []) u.decls) {} = _
  rw [hvisits, runVisits_append, runVisits_cons]

end Analysis

open Analysis

/-- **No annotated declaration is lost silently.** In an accepted unit, let `p` be a declaration that
is no member, wherever it stands below open scopes only. If it has an applicable directive and is not
a deleted function, then the result has a record with the identity built for it, or a diagnostic at
its place was appended in the visit to it. -/
theorem annotated_recorded_or_diagnosed (o : Options) (u : TranslationUnit) (h : u.check o = .ok ())
    {pre post : List Occurrence} {p : Occurrence} {a : Directive}
    (hp : occurrences [] u.decls = pre ++ p :: post) (hmember : p.decl.isMemberOnly = false)
    (hopen : ∀ scope ∈ p.around, scope.isClosed o.marker = false)
    (hparsed : (parseAnnotations o.marker p.decl.annotations).directive = some a)
    (happlies : a.kind.appliesTo p.decl = true) (hdeleted : p.decl.isDeletedFunction = false) :
    let ctx := Context.ofUnit o u
    let before := runVisits (pre.filterMap (·.visit? ctx)) {}
    let after := (⟨ctx.within p.around, p.decl⟩ : Visit).run before
    finalState o u = runVisits (post.filterMap (·.visit? ctx)) after ∧
      ∃ result, analyze o u = .ok result ∧
        ((∃ r ∈ result.records, p.decl.identity? p.qualifiedName a = some r.identity) ∨
          ∃ new later, (∃ d ∈ new, d.location = p.decl.location) ∧
            after.diagnostics.toList = before.diagnostics.toList ++ new ∧
            result.diagnostics = after.diagnostics.toList ++ later) := by
  intro ctx before after
  have hfinal : finalState o u = runVisits (post.filterMap (·.visit? ctx)) after :=
    finalState_of_occurrence o hp hmember hopen
  refine ⟨hfinal, _, analyze_of_check h, ?_⟩
  have hlater : after.Changes (fun _ => True) (finalState o u) := hfinal ▸ changes_runVisits _ _
  have hmarker : (ctx.within p.around).options.marker = o.marker := by rw [options_within]; rfl
  have hverdict : (⟨ctx.within p.around, p.decl⟩ : Visit).verdict = .admitted (some a) :=
    directive_verdict (hmarker ▸ hparsed) happlies
  rcases Visit.answered hverdict hmember hdeleted (qualifiedName_around rfl) before with
    ⟨i, hi, hmem⟩ | ⟨new, hnew, hplace⟩
  · have hsound : (finalState o u).Sound :=
      (State.Sound.start false).of_changes (finalState_eq_runVisits o u ▸ changes_runVisits _ _)
    obtain ⟨r, hr, hidentity⟩ := (hsound.identities i).mp (hlater.covers.identities hmem)
    exact .inl ⟨r, hr, hidentity ▸ hi⟩
  · obtain ⟨later, hafter⟩ := hlater.extends.diagnostics
    exact .inr ⟨new, later, hplace, hnew, hafter.symm⟩

/-- The second of two aliases of one instantiation, inside a namespace without a name. -/
theorem annotated_recorded_or_diagnosed_same_instantiation :
    let ints := TypeRef.template "std::vector" [.builtin "int"]
    let first := Decl.typeAlias { name := "Ints", annotations := ["lua_export_vector"] } ints
    let second := Decl.typeAlias { name := "Numbers", annotations := ["lua_export_vector"] } ints
    let around := Decl.nameSpace {} [first, second]
    let u : TranslationUnit := { filePath := "ints.h", decls := [around] }
    ∃ result, analyze {} u = .ok result ∧
      ((∃ r ∈ result.records, r.identity = ⟨.container, "std::vector<int>", [], false⟩) ∨
        result.diagnostics ≠ []) := by
  intro ints first second around u
  have haccepted : u.check {} = .ok () := TranslationUnit.check_default (by decide) rfl
  have hp : occurrences [] u.decls =
      [⟨[], around⟩, ⟨[around], first⟩] ++ ⟨[around], second⟩ :: [] := rfl
  have hopen : ∀ scope ∈ [around], scope.isClosed "lua_export_" = false := by
    intro scope hscope
    rw [List.mem_singleton.mp hscope]
    decide
  have hparsed : (parseAnnotations "lua_export_" second.annotations).directive =
      some { kind := .vector } := by decide
  obtain ⟨-, result, hresult, hanswer⟩ :=
    annotated_recorded_or_diagnosed {} u haccepted hp rfl hopen hparsed rfl rfl
  refine ⟨result, hresult, ?_⟩
  rcases hanswer with ⟨r, hr, hidentity⟩ | ⟨new, later, ⟨d, hd, -⟩, hnew, hdiagnostics⟩
  · have hidentity' : some (⟨.container, "std::vector<int>", [], false⟩ : Identity) =
        some r.identity := hidentity
    exact .inl ⟨r, hr, (Option.some.inj hidentity').symm⟩
  · right
    rw [hdiagnostics, hnew]
    intro hnil
    simp_all

end ScriptExport
