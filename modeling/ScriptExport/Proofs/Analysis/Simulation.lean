import ScriptExport.Proofs.Analysis.Relocation

/-!
# Two walks side by side

What a walk does next depends on the identities, the constants, the containers with their names and
the counter of its state, but neither on the records and diagnostics themselves nor on the trace, and
locations are only handed on. So take a walk over some declarations and one over the moved declarations. A
relation between states that agree on the former, if notes, diagnostics and records keep it
(`Simulation`), is kept by every operation, in the order in which the walk is built from them, and by the
two walks (`Simulation.runVisits_relocate`). Comparisons of names, identities and member keys are the same
on both sides, and with them every choice that the walks make.
-/

namespace ScriptExport

/-- Whether the event tells of no record, no diagnostic and no end of a unit. -/
def Event.isSilent : Event → Bool
  | visited _ _ | skipped _ _ | inherited _ _ _ => true
  | _ => false

namespace Analysis

/-- Related states agree on what a walk reads, and what a walk does to the one and, with everything moved,
to the other keeps them related. -/
structure Simulation (f : Relocation) (R : State → State → Prop) : Prop where
  identities : ∀ {s t}, R s t → s.identities = t.identities
  constants : ∀ {s t}, R s t → s.constants = t.constants
  containers : ∀ {s t}, R s t → s.containers = t.containers
  containerNames : ∀ {s t}, R s t → s.containerNames = t.containerNames
  counter : ∀ {s t}, R s t → s.counter = t.counter
  note : ∀ {s t} {step : TraceStep}, R s t → (∀ e, step.event? = some e → e.isSilent = true) →
    R (s.note step) (t.note step)
  report : ∀ {s t} (d : Diagnostic), R s t → R (s.report d) (t.report (d.relocate f))
  push : ∀ {s t} (r : ExportRecord), R s t → R (s.push r) (t.push (r.relocate f))
  update : ∀ {s t} (constants : OrderedMap String Int64) (containers containerNames : List String)
    (counter : Counter), R s t →
    R { s with constants, containers, containerNames, counter }
      { t with constants, containers, containerNames, counter }

namespace Simulation

variable {f : Relocation} {R : State → State → Prop} (sim : Simulation f R) {s t : State}

/-! ## Operations -/

theorem foldl {α : Type} {g g' : State → α → State}
    (hg : ∀ a {s t : State}, R s t → R (g s a) (g' t a)) (l : List α) (h : R s t) :
    R (l.foldl g s) (l.foldl g' t) := by
  induction l generalizing s t with
  | nil => exact h
  | cons a l ih => exact ih (hg a h)

section Operations

include sim

variable (h : R s t)
include h

theorem silent {e : Event} (he : e.isSilent = true) : R (s.log e) (t.log e) :=
  sim.note h fun _ heq => Option.some.inj heq ▸ he

theorem reportAll (ds : List Diagnostic) :
    R (s.reportAll ds) (t.reportAll (ds.map (·.relocate f))) := by
  unfold State.reportAll
  rw [List.foldl_map]
  exact foldl (R := R) (fun d _ _ h => sim.report d h) ds h

theorem skip (d : Decl) (reason : SkipReason) :
    R (s.skip d reason) (t.skip (d.relocate f) reason) := by
  unfold State.skip
  rw [Decl.name_relocate]
  exact sim.silent h rfl

theorem emit (r : ExportRecord) : R (s.emit r) (t.emit (r.relocate f)) := by
  have hvalid : (r.relocate f).isValid = r.isValid := rfl
  have hidentity : (r.relocate f).identity = r.identity := rfl
  unfold State.emit
  rw [sim.identities h, hvalid, hidentity]
  split
  · exact sim.report (State.invalidRecord r) h
  · split
    · exact h
    · exact sim.push r h

theorem useType (head : Header) (ty : TypeRef) :
    R (s.useType head ty) (t.useType (head.relocate f) ty) := by
  unfold State.useType
  dsimp only
  split
  · exact sim.note h (by simp [TraceStep.event?])
  · exact sim.note (sim.report (State.unresolvedType head ty.canonical.text) h)
      (by simp [TraceStep.event?])

theorem useTypes (head : Header) (ts : List TypeRef) :
    R (s.useTypes head ts) (t.useTypes (head.relocate f) ts) :=
  foldl (R := R) (fun ty _ _ h => sim.useType h head ty) ts h

theorem withConstants (m : OrderedMap String Int64) :
    R { s with constants := m } { t with constants := m } := by
  rw [sim.containers h, sim.containerNames h, sim.counter h]
  exact sim.update m t.containers t.containerNames t.counter h

theorem bindConstant (name qualifiedName : String) (v : ConstantValue) :
    R (s.bindConstant name qualifiedName v) (t.bindConstant name qualifiedName v) := by
  unfold State.bindConstant
  rw [sim.constants h]
  exact sim.withConstants h _

/-- The visit of a declaration is noted and its annotations are judged. -/
theorem visited (d : Decl) (issues : List DirectiveIssue) :
    R ((s.log (.visited d.kindText d.name)).reportAll (issueDiagnostics d.header issues))
      ((t.log (.visited (d.relocate f).kindText (d.relocate f).name)).reportAll
        (issueDiagnostics (d.relocate f).header issues)) := by
  rw [Decl.kindText_relocate, Decl.name_relocate, Decl.header_relocate, issueDiagnostics_relocate]
  exact sim.reportAll (sim.silent h rfl) _

theorem visit {ctx : Context} (hf : f.Respects ctx.options) (d : Decl) :
    R (s.visit ctx d) (t.visit (ctx.relocate f) (d.relocate f)) := by
  have hvisited := sim.visited h d (parseAnnotations ctx.options.marker d.annotations).issues
  unfold State.visit
  rw [verdict_relocate hf, Decl.annotations_relocate]
  dsimp only [Context.relocate]
  split
  · exact sim.skip hvisited d .ignored
  · exact sim.skip hvisited d _
  · rw [inapplicable_relocate]
    exact sim.report _ hvisited
  · exact hvisited

theorem visitMember (marker : String) (d : Decl) :
    R (s.visitMember marker d) (t.visitMember marker (d.relocate f)) := by
  have hvisited := sim.visited h d (parseAnnotations marker d.annotations).issues
  unfold State.visitMember
  rw [Decl.isMemberOnly_relocate, Decl.annotations_relocate]
  split
  · dsimp only
    split
    · rw [Decl.appliesTo_relocate, inapplicable_relocate]
      split
      · exact hvisited
      · exact sim.report _ hvisited
    · exact hvisited
  · exact h

theorem noteInherited (owner : Owner) (source : MemberSource) (member : String) :
    R (s.noteInherited owner source member) (t.noteInherited owner source member) := by
  cases source with
  | own => exact h
  | inherited base => exact sim.silent h rfl

theorem emitContainer (r : ExportRecord) (instantiation : Option String) :
    R (s.emitContainer r instantiation) (t.emitContainer (r.relocate f) instantiation) := by
  have hemit := sim.emit h r
  have hadmits : s.admits r = t.admits (r.relocate f) := by
    unfold State.admits
    rw [sim.identities h]
    rfl
  unfold State.emitContainer
  rw [hadmits]
  split
  · dsimp only
    rw [sim.constants hemit, sim.containers hemit, sim.containerNames hemit, sim.counter hemit]
    exact sim.update _ _ _ _ hemit
  · exact hemit

theorem uniqueContainerName (head : Header) (generated instantiation : String) :
    (s.uniqueContainerName head generated instantiation).1 =
        (t.uniqueContainerName (head.relocate f) generated instantiation).1 ∧
      R (s.uniqueContainerName head generated instantiation).2
        (t.uniqueContainerName (head.relocate f) generated instantiation).2 := by
  unfold State.uniqueContainerName
  rw [sim.containerNames h, sim.counter h]
  split
  · refine ⟨rfl, sim.report _ ?_⟩
    rw [sim.constants h, sim.containers h]
    exact sim.update t.constants t.containers t.containerNames
      (t.counter.freshName t.containerNames generated).2 h
  · exact ⟨rfl, h⟩

/-! ## Declarations without a scope -/

variable (ctx : Context) (head : Header) (a : Directive)

theorem exportFunction (c : Callable) :
    R (exportFunction ctx head c a s)
      (exportFunction (ctx.relocate f) (head.relocate f) c a t) := by
  unfold Analysis.exportFunction
  split
  · exact sim.skip h (.function head c) _
  · exact sim.emit (sim.useTypes h head _) _

theorem exportVariable (v : Variable) :
    R (exportVariable ctx head v a s)
      (exportVariable (ctx.relocate f) (head.relocate f) v a t) := by
  have hused := sim.useType h head v.type
  unfold Analysis.exportVariable
  dsimp only
  split
  · rw [sim.constants hused]
    exact sim.emit (sim.bindConstant hused _ _ _) _
  · exact sim.emit hused _

theorem exportEnum (e : Enumeration) :
    R (exportEnum ctx head e a s) (exportEnum (ctx.relocate f) (head.relocate f) e a t) := by
  have hreported : ∀ ds, R (s.reportAll ds) (t.reportAll (ds.map (·.relocate f))) := sim.reportAll h
  unfold Analysis.exportEnum
  dsimp only
  rw [evaluateEnum_relocate, sim.constants h, sim.constants (hreported _)]
  exact sim.emit (sim.withConstants (hreported _) _) _

theorem exportCallback (target : TypeRef) :
    R (exportCallback ctx head target a s)
      (exportCallback (ctx.relocate f) (head.relocate f) target a t) := by
  unfold Analysis.exportCallback
  split
  · exact sim.report _ h
  · exact sim.emit (sim.useTypes h head _) _

theorem exportView (name : String) (kind : ContainerKind) (elements : List TypeRef)
    (instantiation : String) :
    R (exportView ctx head a name kind elements instantiation s)
      (exportView (ctx.relocate f) (head.relocate f) a name kind elements instantiation t) := by
  unfold Analysis.exportView
  rw [sim.containerNames h]
  split
  · exact sim.report _ h
  · exact sim.emitContainer (sim.useTypes h head elements) _ none

theorem exportInstantiation (kind : ContainerKind) (elements : List TypeRef)
    (instantiation : String) :
    R (exportInstantiation ctx head a kind elements instantiation s)
      (exportInstantiation (ctx.relocate f) (head.relocate f) a kind elements instantiation t) := by
  unfold Analysis.exportInstantiation
  rw [sim.containers h]
  split
  · exact sim.report _ h
  · obtain ⟨hname, hnamed⟩ := sim.uniqueContainerName h head
      (Naming.containerName ctx.options.containers kind elements) instantiation
    dsimp only
    rw [hname]
    exact sim.emitContainer (sim.useTypes hnamed head elements) _ _

theorem exportContainer (target : TypeRef) (expected : ContainerKind) :
    R (exportContainer ctx head target a expected s)
      (exportContainer (ctx.relocate f) (head.relocate f) target a expected t) := by
  have hoptions : (ctx.relocate f).options = ctx.options := rfl
  have hused := fun ds => sim.useType (sim.reportAll h ds) head target
  unfold Analysis.exportContainer
  rw [hoptions]
  split
  · exact sim.report _ h
  · rw [containerShape_relocate]
    dsimp only
    split
    · exact sim.exportView (hused _) ctx head a _ _ _ _
    · exact sim.exportInstantiation (hused _) ctx head a _ _ _

omit head in
/-- Leaves keep states related. -/
theorem exportLeaf (d : Decl) :
    R (exportLeaf ctx d a s) (exportLeaf (ctx.relocate f) (d.relocate f) a t) := by
  cases d with
  | function head c => exact sim.exportFunction h ctx head a c
  | var head info => exact sim.exportVariable h ctx head a info
  | enumeration head info => exact sim.exportEnum h ctx head a info
  | typeAlias head target =>
    show R (exportAlias ctx head target a s)
      (exportAlias (ctx.relocate f) (head.relocate f) target a t)
    unfold exportAlias
    split
    · exact sim.exportCallback h ctx head a target
    · exact sim.exportContainer h ctx head a target _
    · exact sim.exportContainer h ctx head a target _
    · exact h
  | _ => exact h

end Operations

/-! ## Members -/

/-- The states are related, and the same member keys are taken. -/
structure OnSurface (R : State → State → Prop) (x y : Surface) : Prop where
  state : R x.state y.state
  claimed : x.claimed = y.claimed

section Members

variable {x y : Surface} (h : OnSurface R x y)
include h

theorem OnSurface.onState {g g' : State → State} (hg : R (g x.state) (g' y.state)) :
    OnSurface R (x.onState g) (y.onState g') :=
  ⟨hg, h.claimed⟩

variable (ctx : Context) (owner : Owner) (source : MemberSource)
include sim

theorem add (r : ExportRecord) :
    OnSurface R (x.add ctx owner source r)
      (y.add (ctx.relocate f) owner source (r.relocate f)) := by
  have hkey : surfaceKey (r.relocate f) = surfaceKey r := rfl
  have hindex : (ctx.relocate f).index = ctx.index.relocate f := rfl
  unfold Surface.add
  rw [h.claimed, hkey]
  split
  · rw [hindex, clash?_relocate, Option.toList_map]
    exact h.onState (sim.reportAll h.state _)
  · exact ⟨sim.emit (sim.noteInherited h.state owner source r.name) r, rfl⟩

theorem addField (head : Header) (info : Field) (directive : Option Directive) :
    OnSurface R (x.addField ctx owner source head info directive)
      (y.addField (ctx.relocate f) owner source (head.relocate f) info directive) := by
  have hused : OnSurface R (x.onState (·.useType head info.type))
      (y.onState (·.useType (head.relocate f) info.type)) :=
    h.onState (sim.useType h.state head info.type)
  unfold Surface.addField
  dsimp only
  split
  · unfold Surface.addConstant
    dsimp only
    rw [sim.constants hused.state]
    exact sim.add (hused.onState (sim.bindConstant hused.state _ _ _)) ctx owner source _
  · exact sim.add hused ctx owner source _

/-- Slots keep surfaces related. -/
theorem addSlot (m : Member) (slot : Slot) :
    OnSurface R (x.addSlot ctx owner source m slot)
      (y.addSlot (ctx.relocate f) owner source (m.relocate f) (slot.relocate f)) := by
  cases slot with
  | absorbed => exact h
  | property spec =>
    exact sim.add (h.onState (sim.useTypes h.state spec.header spec.type?.toList)) ctx owner source
      (ctx.propertyRecord spec)
  | member =>
    show OnSurface R (x.addMember ctx owner source m)
      (y.addMember (ctx.relocate f) owner source (m.relocate f))
    unfold Surface.addMember
    rw [memberAction_relocate]
    cases memberAction owner source m with
    | nothing => exact h
    | skip reason => exact h.onState (sim.skip h.state m.decl reason)
    | callable kind head c =>
      exact sim.add (h.onState (sim.useTypes h.state head (callableTypes kind c))) ctx owner source
        (ctx.callableRecord kind head c m.mark.directive)
    | field head info => exact sim.addField h ctx owner source head info m.mark.directive

/-- Member lists keep surfaces related. -/
theorem exportMembers (decls : List Decl) :
    OnSurface R (exportMembers ctx owner source decls x)
      (exportMembers (ctx.relocate f) owner source (decls.map (·.relocate f)) y) := by
  have hmarks : (decls.map (·.relocate f)).map (markMember ctx.options.marker) =
      (decls.map (markMember ctx.options.marker)).map (·.relocate f) := by
    rw [List.map_map, List.map_map]
    exact List.map_congr_left fun d _ => markMember_relocate f ctx.options.marker d
  have hoptions : (ctx.relocate f).options = ctx.options := rfl
  unfold Analysis.exportMembers
  dsimp only
  rw [hoptions, hmarks, planProperties_relocate]
  generalize decls.map (markMember ctx.options.marker) = members
  generalize planProperties owner.qualifiedName members = plan
  have hslots : ∀ (l : List (Member × Slot)) {x y : Surface}, OnSurface R x y →
      OnSurface R (l.foldl (fun x p => x.addSlot ctx owner source p.1 p.2) x)
        ((l.map (Prod.map (·.relocate f) (·.relocate f))).foldl
          (fun y p => y.addSlot (ctx.relocate f) owner source p.1 p.2) y) := by
    intro l
    induction l with
    | nil => exact id
    | cons p l ih => exact fun h => ih (sim.addSlot h ctx owner source p.1 p.2)
  have hnotes : R
      ((decls.foldl (fun s d => s.visitMember ctx.options.marker d) x.state).reportAll
        plan.diagnostics)
      (((decls.map (·.relocate f)).foldl (fun s d => s.visitMember ctx.options.marker d)
        y.state).reportAll (plan.relocate f).diagnostics) := by
    rw [List.foldl_map]
    exact sim.reportAll (foldl (R := R) (fun d _ _ h => sim.visitMember h _ d) decls h.state) _
  change OnSurface R _ (((members.map (·.relocate f)).zip (plan.slots.map (·.relocate f))).foldl _ _)
  rw [List.zip_map]
  split
  · exact hslots _ h
  · exact hslots _ (h.onState hnotes)

omit source in
theorem exportInherited (bases : List TypeEntry) :
    OnSurface R (exportInherited ctx owner bases x)
      (exportInherited (ctx.relocate f) owner (bases.map (·.relocate f)) y) := by
  unfold Analysis.exportInherited
  induction bases generalizing x y with
  | nil => exact h
  | cons e bases ih =>
    refine ih ?_
    have hmembers := sim.exportMembers h ctx owner (.inherited e.qualifiedName) e.decl.children
    rw [← Decl.children_relocate] at hmembers
    exact hmembers

end Members

/-! ## The walk -/

section Walk

include sim

variable (h : R s t) (ctx : Context)
include h

/-- Classes keep states related. -/
theorem exportClassMembers (head : Header) (traits : RecordTraits) (members : List Decl)
    (a : Directive) :
    R (exportClassMembers ctx head traits members a s)
      (exportClassMembers (ctx.relocate f) (head.relocate f) traits (members.map (·.relocate f)) a
        t) := by
  have hinside : (ctx.relocate f).enterClass (head.relocate f) a = (ctx.enterClass head a).relocate f :=
    rfl
  have hbind : ∀ (inside : Context) (owner : String) (bases : List TypeEntry),
      R (s.bindBases inside head owner bases)
        (t.bindBases (inside.relocate f) (head.relocate f) owner (bases.map (·.relocate f))) := by
    intro inside owner bases
    unfold State.bindBases
    rw [List.foldl_map]
    exact foldl (R := R) (fun e _ _ h => sim.emit h (inside.inheritRecord head owner e)) bases h
  unfold Analysis.exportClassMembers classSurface
  dsimp only
  rw [classOwner_relocate, hinside, show (ctx.relocate f).index = ctx.index.relocate f from rfl,
    show (ctx.relocate f).scopes = ctx.scopes from rfl, TypeIndex.ancestry_relocate, List.filter_map,
    List.filter_map]
  refine (sim.exportInherited (sim.exportMembers ?_ (ctx.enterClass head a) _ .own members) _ _
    _).state
  exact ⟨hbind _ _ _, rfl⟩

theorem exportExplicitMembers (head : Header) (members : List Decl) :
    R (exportExplicitMembers ctx head members s)
      (exportExplicitMembers (ctx.relocate f) (head.relocate f) (members.map (·.relocate f)) t) :=
  (sim.exportMembers (x := { state := s }) (y := { state := t }) ⟨h, rfl⟩ (ctx.enterRecord head) _
    .own members).state

/-- Contributions keep states related. -/
theorem contribute (directive : Option Directive) (d : Decl) :
    R (Visit.contribute ctx directive d s)
      (Visit.contribute (ctx.relocate f) directive (d.relocate f) t) := by
  have hleaf := fun a => sim.exportLeaf h ctx a d
  cases d with
  | nameSpace head decls =>
    cases directive with
    | none => exact h
    | some a => exact sim.emit h (ctx.namespaceRecord head a)
  | record head traits members =>
    rw [Decl.relocate, Decl.relocateAll_eq_map]
    cases directive with
    | none => exact sim.exportExplicitMembers h ctx head members
    | some a =>
      have hvalid : ((ctx.classRecord head traits members a).relocate f).isValid =
        (ctx.classRecord head traits members a).isValid := rfl
      have hemit := sim.emit h (ctx.classRecord head traits members a)
      dsimp only [Visit.contribute]
      rw [classRecord_relocate, hvalid]
      split
      · exact sim.exportClassMembers hemit ctx head traits members a
      · exact hemit
  | _ =>
    cases directive with
    | none => exact h
    | some a => exact hleaf a

omit ctx in
theorem run {v : Visit} (hf : f.Respects v.ctx.options) : R (v.run s) ((v.relocate f).run t) := by
  have hvisit := sim.visit h hf v.decl
  unfold Visit.run
  rw [Visit.verdict_relocate hf]
  dsimp only [Visit.relocate]
  split
  · exact hvisit
  · exact sim.contribute hvisit v.ctx _ v.decl

omit ctx in
/-- Visits to declarations and to the moved ones keep states related. -/
theorem runVisits_relocate {vs : List Visit} (hf : ∀ v ∈ vs, f.Respects v.ctx.options) :
    R (runVisits vs s) (runVisits (vs.map (·.relocate f)) t) := by
  induction vs generalizing s t with
  | nil => exact h
  | cons v vs ih =>
    exact ih (sim.run h (hf v List.mem_cons_self)) fun w hw => hf w (List.mem_cons_of_mem v hw)

/-- Walks keep states related. -/
theorem walk_relocate (hf : f.Respects ctx.options) (ds : List Decl) :
    R (walk ctx ds s) (walk (ctx.relocate f) (ds.map (·.relocate f)) t) := by
  rw [walk_eq_runVisits, walk_eq_runVisits, visits_relocate ctx hf ds]
  refine sim.runVisits_relocate h fun v hv => ?_
  rw [options_of_mem_visits hv]
  exact hf

end Walk

/-! ## The same declarations -/

/-- Visits to the same declarations keep states related. -/
theorem runVisits (sim : Simulation id R) (vs : List Visit) (h : R s t) :
    R (runVisits vs s) (runVisits vs t) := by
  have hvisits := sim.runVisits_relocate h fun v (_ : v ∈ vs) _ => rfl
  simpa using hvisits

theorem walk (sim : Simulation id R) (ctx : Context) (ds : List Decl) (h : R s t) :
    R (walk ctx ds s) (walk ctx ds t) := by
  rw [walk_eq_runVisits, walk_eq_runVisits]
  exact sim.runVisits _ h

end Simulation

end Analysis

end ScriptExport
