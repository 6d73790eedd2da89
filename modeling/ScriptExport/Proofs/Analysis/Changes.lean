import Mathlib.Logic.Relation
import ScriptExport.Proofs.Analysis.Visits

/-!
# What an analysis can do to its state

Everything in an analysis is made of six changes of the state (`State.Change`): a note in the trace,
a diagnostic, a record that enters the result, and updates of the constants, of the counter and of
the container registry. Each operation is a sequence of them (`State.Changes`), and the records that
it may add are described by a predicate. A fact about whole runs then needs one case for each
change; the first such fact is `Extends`: records and diagnostics are only ever appended, and the
identities are those of the records.
-/

namespace ScriptExport

/-- Whether a record of the kind describes no type, no bases of one and no container. -/
def ExportKind.isPlain : ExportKind → Bool
  | classType | inherit | container => false
  | _ => true

variable {r : ExportRecord} {P : ExportRecord → Prop}

namespace Analysis

/-- One change of the state; a record that enters the result or the registry satisfies `P`. -/
inductive State.Change (P : ExportRecord → Prop) : State → State → Prop where
  | note (s : State) (step : TraceStep) : Change P s (s.note step)
  | report (s : State) (d : Diagnostic) : Change P s (s.report d)
  | push (s : State) (r : ExportRecord) (hP : P r) (admitted : s.admits r = true) :
    Change P s (s.push r)
  | constants (s : State) (m : OrderedMap String Int64) : Change P s { s with constants := m }
  | counter (s : State) (c : Counter) : Change P s { s with counter := c }
  | register (s : State) (r : ExportRecord) (hP : P r) (hkind : r.kind = .container)
    (instantiation : Option String) :
    Change P s
      { s with
        containers := instantiation.toList ++ s.containers
        containerNames := r.scriptName :: s.containerNames }

/-- A sequence of changes. -/
def State.Changes (P : ExportRecord → Prop) : State → State → Prop :=
  Relation.ReflTransGen (State.Change P)

namespace State.Changes

variable {Q : ExportRecord → Prop} {s t u : State}

@[refl] theorem refl : s.Changes P s := Relation.ReflTransGen.refl

theorem of_change (h : State.Change P s t) : s.Changes P t := Relation.ReflTransGen.single h

theorem trans (h : s.Changes P t) (h' : t.Changes P u) : s.Changes P u :=
  Relation.ReflTransGen.trans h h'

/-- More records may be allowed than are added. -/
theorem mono (hPQ : ∀ r, P r → Q r) (h : s.Changes P t) : s.Changes Q t := by
  refine Relation.ReflTransGen.mono ?_ _ _ h
  intro s t change
  cases change with
  | note step => exact .note s step
  | report d => exact .report s d
  | push r hP admitted => exact .push s r (hPQ r hP) admitted
  | constants m => exact .constants s m
  | counter c => exact .counter s c
  | register r hP hkind instantiation => exact .register s r (hPQ r hP) hkind instantiation

/-- What each step of a fold does, the fold does. -/
theorem foldl {α : Type} {f : State → α → State} {l : List α}
    (hf : ∀ s : State, ∀ a ∈ l, s.Changes P (f s a)) (s : State) : s.Changes P (l.foldl f s) := by
  induction l generalizing s with
  | nil => exact refl
  | cons a l ih =>
    rw [List.foldl_cons]
    have hhead : s.Changes P (f s a) := hf s a List.mem_cons_self
    have htail : (f s a).Changes P (l.foldl f (f s a)) :=
      ih (fun s b hb => hf s b (List.mem_cons_of_mem a hb)) (f s a)
    exact hhead.trans htail

end State.Changes

/-! ## The operations on states -/

section Operations

variable (s : State)

theorem changes_note (step : TraceStep) : s.Changes P (s.note step) :=
  .of_change (.note s step)

theorem changes_log (e : Event) : s.Changes P (s.log e) :=
  changes_note s (.event e)

theorem changes_skip (d : Decl) (reason : SkipReason) : s.Changes P (s.skip d reason) :=
  changes_log s _

theorem changes_report (d : Diagnostic) : s.Changes P (s.report d) :=
  .of_change (.report s d)

theorem changes_reportAll (ds : List Diagnostic) : s.Changes P (s.reportAll ds) :=
  State.Changes.foldl (fun s d _ => changes_report s d) s

/-- An offered record enters, collapses into one that is there, or is reported. -/
theorem changes_emit (hr : P r) : s.Changes P (s.emit r) := by
  unfold State.emit
  by_cases hv : r.isValid = true
  · by_cases hi : r.identity ∈ s.identities
    · simp only [hv, Bool.not_true, Bool.false_eq_true, ↓reduceIte, hi]
      exact .refl
    · simp only [hv, Bool.not_true, Bool.false_eq_true, ↓reduceIte, hi]
      exact .of_change (.push s r hr (by simp [State.admits, hv, hi]))
  · simp only [hv, Bool.not_false, ↓reduceIte]
    exact changes_report s _

theorem changes_useType (h : Header) (t : TypeRef) : s.Changes P (s.useType h t) := by
  unfold State.useType
  refine State.Changes.trans ?_ (changes_note _ _)
  split
  · exact .refl
  · exact changes_report s _

theorem changes_useTypes (h : Header) (ts : List TypeRef) : s.Changes P (s.useTypes h ts) :=
  State.Changes.foldl (fun s t _ => changes_useType s h t) s

theorem changes_bindConstant (name qualifiedName : String) (v : ConstantValue) :
    s.Changes P (s.bindConstant name qualifiedName v) :=
  .of_change (.constants s _)

theorem changes_uniqueContainerName (h : Header) (generated instantiation : String) :
    s.Changes P (s.uniqueContainerName h generated instantiation).2 := by
  unfold State.uniqueContainerName
  split
  · exact (State.Changes.of_change (.counter s _)).trans (changes_report _ _)
  · exact .refl

/-- A container that enters is registered. -/
theorem changes_emitContainer (hr : P r) (hkind : r.kind = .container)
    (instantiation : Option String) : s.Changes P (s.emitContainer r instantiation) := by
  unfold State.emitContainer
  split
  · exact (changes_emit s hr).trans (.of_change (.register _ r hr hkind instantiation))
  · exact changes_emit s hr

theorem changes_noteInherited (owner : Owner) (source : MemberSource) (member : String) :
    s.Changes P (s.noteInherited owner source member) := by
  cases source with
  | own => exact .refl
  | inherited base => exact changes_log s _

/-- Every declaration is noted, with the problems of its annotations. -/
theorem changes_visited (marker : String) (d : Decl) :
    s.Changes P ((s.log (.visited d.kindText d.name)).reportAll
      (issueDiagnostics d.header (parseAnnotations marker d.annotations).issues)) :=
  (changes_log s _).trans (changes_reportAll _ _)

theorem changes_visit (ctx : Context) (d : Decl) : s.Changes P (s.visit ctx d) := by
  unfold State.visit
  refine (changes_visited s ctx.options.marker d).trans ?_
  split
  · exact changes_skip _ _ _
  · exact changes_skip _ _ _
  · exact changes_report _ _
  · exact .refl

theorem changes_visitMember (marker : String) (d : Decl) :
    s.Changes P (s.visitMember marker d) := by
  unfold State.visitMember
  split
  · refine (changes_visited s marker d).trans ?_
    dsimp only
    split
    · split
      · exact .refl
      · exact changes_report _ _
    · exact .refl
  · exact .refl

end Operations

/-! ## Declarations without a scope, and members -/

section Builders

variable (hP : ∀ r : ExportRecord, r.kind.isPlain = true → P r)
  (hcontainer : ∀ r : ExportRecord, r.kind = .container → P r)

section Plain

include hP

theorem changes_exportFunction (s : State) (ctx : Context) (h : Header) (c : Callable)
    (a : Directive) : s.Changes P (exportFunction ctx h c a s) := by
  unfold exportFunction
  split
  · exact changes_skip _ _ _
  · refine (changes_useTypes s h _).trans (changes_emit _ (hP _ ?_))
    by_cases ho : a.kind = .operator <;> simp [ho, Context.callableRecord, Context.record,
      ExportKind.isPlain]

theorem changes_exportVariable (s : State) (ctx : Context) (h : Header) (v : Variable)
    (a : Directive) : s.Changes P (exportVariable ctx h v a s) := by
  unfold exportVariable
  dsimp only
  refine (changes_useType s h v.type).trans ?_
  split
  · exact (changes_bindConstant _ _ _ _).trans (changes_emit _ (hP _ rfl))
  · exact changes_emit _ (hP _ rfl)

theorem changes_exportEnum (s : State) (ctx : Context) (h : Header) (e : Enumeration)
    (a : Directive) : s.Changes P (exportEnum ctx h e a s) := by
  unfold exportEnum
  dsimp only
  exact ((changes_reportAll s _).trans (.of_change (.constants _ _))).trans
    (changes_emit _ (hP _ rfl))

theorem changes_exportCallback (s : State) (ctx : Context) (h : Header) (target : TypeRef)
    (a : Directive) : s.Changes P (exportCallback ctx h target a s) := by
  unfold exportCallback
  split
  · exact changes_report _ _
  · exact (changes_useTypes s h _).trans (changes_emit _ (hP _ rfl))

end Plain

section Containers

include hcontainer

theorem changes_exportView (s : State) (ctx : Context) (h : Header) (a : Directive) (name : String)
    (kind : ContainerKind) (elements : List TypeRef) (instantiation : String) :
    s.Changes P (exportView ctx h a name kind elements instantiation s) := by
  unfold exportView
  split
  · exact changes_report _ _
  · exact (changes_useTypes s h elements).trans (changes_emitContainer _ (hcontainer _ rfl) rfl none)

theorem changes_exportInstantiation (s : State) (ctx : Context) (h : Header) (a : Directive)
    (kind : ContainerKind) (elements : List TypeRef) (instantiation : String) :
    s.Changes P (exportInstantiation ctx h a kind elements instantiation s) := by
  unfold exportInstantiation
  split
  · exact changes_report _ _
  · dsimp only
    refine State.Changes.trans ?_ (changes_emitContainer _ (hcontainer _ rfl) rfl _)
    exact (changes_uniqueContainerName s h _ _).trans (changes_useTypes _ h elements)

theorem changes_exportContainer (s : State) (ctx : Context) (h : Header) (target : TypeRef)
    (a : Directive) (expected : ContainerKind) :
    s.Changes P (exportContainer ctx h target a expected s) := by
  unfold exportContainer
  split
  · exact changes_report _ _
  · dsimp only
    split
    · exact ((changes_reportAll s _).trans (changes_useType _ h target)).trans
        (changes_exportView hcontainer _ ctx h a _ _ _ _)
    · exact ((changes_reportAll s _).trans (changes_useType _ h target)).trans
        (changes_exportInstantiation hcontainer _ ctx h a _ _ _)

end Containers

include hP hcontainer in
/-- A leaf adds plain records and the record of its container. -/
theorem changes_exportLeaf (s : State) (ctx : Context) (d : Decl) (a : Directive) :
    s.Changes P (exportLeaf ctx d a s) := by
  unfold exportLeaf
  split
  · exact changes_exportFunction hP s ctx _ _ a
  · exact changes_exportVariable hP s ctx _ _ a
  · exact changes_exportEnum hP s ctx _ _ a
  · unfold exportAlias
    split
    · exact changes_exportCallback hP s ctx _ _ a
    · exact changes_exportContainer hcontainer s ctx _ _ a _
    · exact changes_exportContainer hcontainer s ctx _ _ a _
    · exact .refl
  · exact .refl

section Members

include hP

variable (x : Surface) (ctx : Context) (owner : Owner) (source : MemberSource)

theorem changes_add (hr : r.kind.isPlain = true) :
    x.state.Changes P (x.add ctx owner source r).state := by
  unfold Surface.add
  split
  · exact changes_reportAll _ _
  · exact (changes_noteInherited _ _ _ _).trans (changes_emit _ (hP r hr))

/-- A member is offered after something has been done to the state. -/
theorem changes_onState_add {f : State → State} (hf : x.state.Changes P (f x.state)) (ctx : Context)
    (owner : Owner) (source : MemberSource) (hr : r.kind.isPlain = true) :
    x.state.Changes P ((x.onState f).add ctx owner source r).state :=
  hf.trans (changes_add hP (x.onState f) ctx owner source hr)

theorem changes_addConstant (h : Header) (info : Field) (directive : Option Directive) :
    x.state.Changes P (x.addConstant ctx owner source h info directive).state := by
  unfold Surface.addConstant
  exact changes_onState_add hP x (changes_bindConstant _ _ _ _) ctx owner source rfl

theorem changes_addField (h : Header) (info : Field) (directive : Option Directive) :
    x.state.Changes P (x.addField ctx owner source h info directive).state := by
  have hused : x.state.Changes P (x.onState (·.useType h info.type)).state :=
    changes_useType x.state h info.type
  unfold Surface.addField
  dsimp only
  split
  · exact hused.trans (changes_addConstant hP _ ctx owner source h info directive)
  · exact hused.trans (changes_add hP _ ctx owner source rfl)

omit hP in
/-- A member that is exported as a callable has a callable kind. -/
theorem isCallable_of_memberAction {owner : Owner} {source : MemberSource} {m : Member}
    {kind : ExportKind} {h : Header} {c : Callable}
    (hm : memberAction owner source m = .callable kind h c) : kind.isCallable = true := by
  have hdeclared : ∀ explicit, declaredAction owner source explicit m.decl = .callable kind h c →
      kind.isCallable = true := by
    intro explicit hd
    unfold declaredAction at hd
    split at hd
    · split at hd
      · cases hd
      · cases hd
        rfl
    · split at hd
      · cases hd
      · split at hd
        · cases hd
        · cases hd
          unfold methodKind
          split
          · rfl
          · split <;> rfl
    · split at hd <;> cases hd
    · cases hd
  unfold memberAction at hm
  repeat' split at hm
  all_goals first
    | cases hm
    | exact hdeclared _ hm

omit hP in
/-- The records of callable members are plain. -/
theorem isPlain_of_memberAction {owner : Owner} {source : MemberSource} {m : Member}
    {kind : ExportKind} {h : Header} {c : Callable}
    (hm : memberAction owner source m = .callable kind h c) : kind.isPlain = true := by
  have hcallable := isCallable_of_memberAction hm
  cases kind <;> first | rfl | cases hcallable

/-- The members of a class add plain records. -/
theorem changes_addSlot (m : Member) (slot : Slot) :
    x.state.Changes P (x.addSlot ctx owner source m slot).state := by
  unfold Surface.addSlot
  split
  · exact .refl
  · exact changes_onState_add hP x (changes_useTypes _ _ _) ctx owner source rfl
  · unfold Surface.addMember
    split
    · exact .refl
    · exact changes_skip _ _ _
    · next hm =>
      exact changes_onState_add hP x (changes_useTypes _ _ _) ctx owner source
        (isPlain_of_memberAction hm)
    · exact changes_addField hP x ctx owner source _ _ _

/-- A member list adds plain records. -/
theorem changes_exportMembers (decls : List Decl) :
    x.state.Changes P (exportMembers ctx owner source decls x).state := by
  have hfold : ∀ (l : List (Member × Slot)) (x : Surface), x.state.Changes P
      (l.foldl (fun x p => x.addSlot ctx owner source p.1 p.2) x).state := by
    intro l
    induction l with
    | nil => intro x; exact .refl
    | cons p l ih => intro x; exact (changes_addSlot hP x ctx owner source p.1 p.2).trans (ih _)
  unfold exportMembers
  refine State.Changes.trans ?_ (hfold _ _)
  split
  · exact .refl
  · refine State.Changes.trans ?_ (changes_reportAll _ _)
    exact State.Changes.foldl (fun s d _ => changes_visitMember s _ d) x.state

theorem changes_exportExplicitMembers (s : State) (ctx : Context) (h : Header)
    (members : List Decl) : s.Changes P (exportExplicitMembers ctx h members s) :=
  changes_exportMembers hP { state := s } _ _ _ members

theorem changes_exportInherited (bases : List TypeEntry) :
    x.state.Changes P (exportInherited ctx owner bases x).state := by
  unfold exportInherited
  induction bases generalizing x with
  | nil => exact .refl
  | cons e bases ih => exact (changes_exportMembers hP x ctx owner _ e.decl.children).trans (ih _)

/-- Once a class is bound to its exported ancestors, it adds plain records. -/
theorem changes_exportClassMembers_of_bindBases (s : State) (ctx : Context) (h : Header)
    (traits : RecordTraits) (members : List Decl) (a : Directive) :
    (s.bindBases (ctx.enterClass h a) h (ctx.scopes.qualifiedName h.name)
      ((ctx.index.ancestry [ctx.scopes.qualifiedName h.name] ctx.scopes.path traits.bases).filter
        (·.annotated))).Changes P (exportClassMembers ctx h traits members a s) := by
  unfold exportClassMembers classSurface
  refine State.Changes.trans ?_ (changes_exportInherited hP _ _ _ _)
  exact changes_exportMembers hP { state := State.bindBases _ _ _ _ s } _ _ _ members

/-- A class adds the bindings to its exported ancestors and plain records. -/
theorem changes_exportClassMembers (s : State) (ctx : Context) (h : Header) (traits : RecordTraits)
    (members : List Decl) (a : Directive)
    (hinherit :
      ∀ e ∈ ctx.index.ancestry [ctx.scopes.qualifiedName h.name] ctx.scopes.path traits.bases,
        e.annotated = true →
          P ((ctx.enterClass h a).inheritRecord h (ctx.scopes.qualifiedName h.name) e)) :
    s.Changes P (exportClassMembers ctx h traits members a s) := by
  refine State.Changes.trans ?_
    (changes_exportClassMembers_of_bindBases hP s ctx h traits members a)
  refine State.Changes.foldl (fun s e he => changes_emit s ?_) s
  obtain ⟨hmem, hannotated⟩ := List.mem_filter.mp he
  exact hinherit e hmem hannotated

end Members

include hP hcontainer in
/-- A declaration adds the record of its class, the bindings of its class to exported ancestors if the
class has a name, the record of its container, and plain records. -/
theorem changes_contribute (s : State) (ctx : Context) (directive : Option Directive) (d : Decl)
    (hclass : ∀ {h traits members a}, d = .record h traits members → directive = some a →
      P (ctx.classRecord h traits members a))
    (hinherit : ∀ {h traits members a}, d = .record h traits members → directive = some a →
      (ctx.classRecord h traits members a).isValid = true →
      ∀ e ∈ ctx.index.ancestry [ctx.scopes.qualifiedName h.name] ctx.scopes.path traits.bases,
        e.annotated = true →
          P ((ctx.enterClass h a).inheritRecord h (ctx.scopes.qualifiedName h.name) e)) :
    s.Changes P (Visit.contribute ctx directive d s) := by
  cases d with
  | nameSpace h decls =>
    cases directive with
    | none => exact .refl
    | some a =>
      refine changes_emit s (hP _ ?_)
      by_cases hm : a.kind = .moduleScope <;>
        simp [hm, Context.namespaceRecord, Context.record, ExportKind.isPlain]
  | record h traits members =>
    cases directive with
    | none => exact changes_exportExplicitMembers hP s ctx h members
    | some a =>
      refine (changes_emit s (hclass rfl rfl)).trans ?_
      unfold Visit.contribute
      dsimp only
      split
      · next hvalid =>
        exact changes_exportClassMembers hP _ ctx h traits members a (hinherit rfl rfl hvalid)
      · exact .refl
  | _ =>
    cases directive with
    | none => exact .refl
    | some a =>
      simp only [Visit.contribute]
      exact changes_exportLeaf hP hcontainer s ctx _ a

end Builders

/-! ## Visits and walks -/

/-- A visit adds what its declaration contributes. -/
theorem Visit.changes_of_contribute {v : Visit} (s : State)
    (h : ∀ s : State, s.Changes P (contribute v.ctx v.verdict.directive v.decl s)) :
    s.Changes P (v.run s) := by
  unfold Visit.run
  refine (changes_visit s v.ctx v.decl).trans ?_
  dsimp only
  split
  · exact .refl
  · exact h _

theorem Visit.changes (v : Visit) (s : State) : s.Changes (fun _ => True) (v.run s) :=
  v.changes_of_contribute s fun s =>
    changes_contribute (fun _ _ => trivial) (fun _ _ => trivial) s v.ctx _ v.decl (fun _ _ => trivial)
      (fun _ _ _ _ _ _ => trivial)

/-- A run is made of changes. -/
theorem changes_runVisits (vs : List Visit) (s : State) :
    s.Changes (fun _ => True) (runVisits vs s) :=
  State.Changes.foldl (fun s v _ => v.changes s) s

/-! ## Results only grow -/

/-- `t` has what `s` has and more: the new records satisfy `P`. -/
structure State.Extends (P : ExportRecord → Prop) (s t : State) : Prop where
  records : ∃ new : List ExportRecord,
    t.records.toList = s.records.toList ++ new ∧
      t.identities = (new.map (·.identity)).reverse ++ s.identities ∧
      ∀ r ∈ new, P r ∧ r.isValid = true
  fresh : s.identities.Nodup → t.identities.Nodup
  diagnostics : s.diagnostics.toList <+: t.diagnostics.toList
  containers : s.containers ⊆ t.containers
  containerNames : s.containerNames ⊆ t.containerNames

namespace State.Extends

variable {s t u : State}

/-- States that differ in constants, counter, trace or later diagnostics only. -/
theorem of_eq (hr : t.records = s.records) (hi : t.identities = s.identities)
    (hd : s.diagnostics.toList <+: t.diagnostics.toList) (hc : s.containers ⊆ t.containers)
    (hn : s.containerNames ⊆ t.containerNames) : s.Extends P t where
  records := ⟨[], by rw [hr, List.append_nil], by rw [hi]; rfl, by simp⟩
  fresh := fun h => hi ▸ h
  diagnostics := hd
  containers := hc
  containerNames := hn

theorem refl : s.Extends P s :=
  of_eq rfl rfl (List.prefix_refl _) (List.Subset.refl _) (List.Subset.refl _)

theorem trans (h : s.Extends P t) (h' : t.Extends P u) : s.Extends P u := by
  obtain ⟨new, hrecords, hidentities, hnew⟩ := h.records
  obtain ⟨new', hrecords', hidentities', hnew'⟩ := h'.records
  refine ⟨⟨new ++ new', ?_, ?_, ?_⟩, h'.fresh ∘ h.fresh, h.diagnostics.trans h'.diagnostics,
    List.Subset.trans h.containers h'.containers,
    List.Subset.trans h.containerNames h'.containerNames⟩
  · rw [hrecords', hrecords, List.append_assoc]
  · rw [hidentities', hidentities, List.map_append, List.reverse_append, List.append_assoc]
  · intro r hr
    rcases List.mem_append.mp hr with hr | hr
    · exact hnew r hr
    · exact hnew' r hr

/-- One change extends the state. -/
theorem of_change (h : State.Change P s t) : s.Extends P t := by
  cases h with
  | note step =>
    exact of_eq rfl rfl (List.prefix_refl _) (List.Subset.refl _) (List.Subset.refl _)
  | report d =>
    refine of_eq rfl rfl ?_ (List.Subset.refl _) (List.Subset.refl _)
    exact ⟨[d], by simp [State.report, State.log, State.note]⟩
  | push r hP admitted =>
    obtain ⟨hvalid, hnew⟩ := Bool.and_eq_true_iff.mp admitted
    refine ⟨⟨[r], ?_, rfl, ?_⟩, ?_, List.prefix_refl _, List.Subset.refl _, List.Subset.refl _⟩
    · simp [State.push, State.log, State.note]
    · intro r' hr'
      rw [List.mem_singleton.mp hr']
      exact ⟨hP, hvalid⟩
    · intro hnodup
      exact List.nodup_cons.mpr ⟨of_decide_eq_true hnew, hnodup⟩
  | constants m =>
    exact of_eq rfl rfl (List.prefix_refl _) (List.Subset.refl _) (List.Subset.refl _)
  | counter c =>
    exact of_eq rfl rfl (List.prefix_refl _) (List.Subset.refl _) (List.Subset.refl _)
  | register r hP hkind instantiation =>
    exact of_eq rfl rfl (List.prefix_refl _) (List.subset_append_right _ _)
      (List.subset_cons_self _ _)

end State.Extends

/-- Changes extend the state. -/
theorem State.Changes.extends {s t : State} (h : s.Changes P t) : s.Extends P t := by
  induction h with
  | refl => exact .refl
  | tail _ change ih => exact ih.trans (.of_change change)

/-- An offered record that is of use leaves its identity behind, whether it enters or collapses. -/
theorem identity_mem_emit (s : State) (hr : r.isValid = true) :
    r.identity ∈ (s.emit r).identities := by
  unfold State.emit
  rw [hr]
  by_cases hi : r.identity ∈ s.identities
  · simp [hi]
  · simp [hi, State.push]

theorem State.note_eq_self {s : State} (hs : s.trace = none) (step : TraceStep) :
    s.note step = s := by
  unfold State.note
  rw [hs, Option.map_none, ← hs]

/-- A state that keeps no trace goes on without one. -/
theorem State.Changes.trace_eq_none {s t : State} (h : s.Changes P t) (hs : s.trace = none) :
    t.trace = none := by
  induction h with
  | refl => exact hs
  | tail _ change ih =>
    cases change with
    | note step => simp [State.note, ih]
    | report d => simp [State.report, State.log, State.note, ih]
    | push r hP _ => simp [State.push, State.log, State.note, ih]
    | constants m => exact ih
    | counter c => exact ih
    | register r hP _ _ => exact ih

/-! ## States that have what others have -/

/-- `t` has every identity, instantiation and container name of `s`. -/
structure State.Covers (t s : State) : Prop where
  identities : s.identities ⊆ t.identities
  containers : s.containers ⊆ t.containers
  containerNames : s.containerNames ⊆ t.containerNames

namespace State

variable {s t u : State}

theorem Covers.refl : s.Covers s :=
  ⟨List.Subset.refl _, List.Subset.refl _, List.Subset.refl _⟩

theorem Covers.trans (h : u.Covers t) (h' : t.Covers s) : u.Covers s :=
  ⟨List.Subset.trans h'.identities h.identities, List.Subset.trans h'.containers h.containers,
    List.Subset.trans h'.containerNames h.containerNames⟩

theorem Extends.covers (h : s.Extends P t) : t.Covers s := by
  obtain ⟨new, -, hidentities, -⟩ := h.records
  refine ⟨?_, h.containers, h.containerNames⟩
  rw [hidentities]
  exact List.subset_append_right _ _

/-- Nothing that a state has is lost. -/
theorem Changes.covers (h : s.Changes P t) : t.Covers s :=
  h.extends.covers

end State

/-! ## Changes that add no record -/

/-- The states have the same records and the same registries. -/
structure State.SameResult (s t : State) : Prop where
  records : s.records = t.records
  identities : s.identities = t.identities
  containers : s.containers = t.containers
  containerNames : s.containerNames = t.containerNames

namespace State

variable {s t u : State}

theorem SameResult.refl : s.SameResult s := ⟨rfl, rfl, rfl, rfl⟩

theorem SameResult.trans (h : s.SameResult t) (h' : t.SameResult u) : s.SameResult u :=
  ⟨h.records.trans h'.records, h.identities.trans h'.identities, h.containers.trans h'.containers,
    h.containerNames.trans h'.containerNames⟩

theorem SameResult.covers (h : s.SameResult t) : s.Covers t :=
  ⟨h.identities ▸ List.Subset.refl _, h.containers ▸ List.Subset.refl _,
    h.containerNames ▸ List.Subset.refl _⟩

/-- Changes that add no record leave the result alone. -/
theorem Changes.sameResult (h : s.Changes (fun _ => False) t) : t.SameResult s := by
  induction h with
  | refl => exact .refl
  | tail _ change ih =>
    refine SameResult.trans ?_ ih
    cases change with
    | note step => exact ⟨rfl, rfl, rfl, rfl⟩
    | report d => exact ⟨rfl, rfl, rfl, rfl⟩
    | push r hP _ => exact hP.elim
    | constants m => exact ⟨rfl, rfl, rfl, rfl⟩
    | counter c => exact ⟨rfl, rfl, rfl, rfl⟩
    | register r hP _ _ => exact hP.elim

end State

end Analysis

end ScriptExport
