import ScriptExport.Proofs.Analysis.Acceptance
import ScriptExport.Proofs.Analysis.Changes
import ScriptExport.Proofs.Analysis.IndexedTypes

/-!
# Redeclarations

A unit that is written twice has the records of the unit that is written once. The second half is
walked in a state that the first half has changed, so its constants may have other values, but every
record that it offers is dropped: the identity of a record does not depend on the state, a member
key goes to the same member in both halves, and a container that was exported finds its name or its
instantiation taken.

This is carried by `Absorbing`: a step on the state that has been made once changes no records when
it is made again in any state that has at least as much. Steps that grow and absorb compose, so a
walk absorbs since each of its visits does.
-/

namespace ScriptExport.Analysis

/-! ## Records that describe the same element -/

/-- Records that agree in all that keys, identities and validity depend on. -/
structure SameElement (r r' : ExportRecord) : Prop where
  kind : r.kind = r'.kind
  name : r.name = r'.name
  qualifiedName : r.qualifiedName = r'.qualifiedName
  parameterTypes : r.parameterTypes = r'.parameterTypes
  isConst : r.isConst = r'.isConst

namespace SameElement

theorem refl (r : ExportRecord) : SameElement r r := ⟨rfl, rfl, rfl, rfl, rfl⟩

variable {r r' : ExportRecord} (h : SameElement r r')
include h

theorem surfaceKey_eq : surfaceKey r = surfaceKey r' := by
  unfold surfaceKey ExportRecord.memberKey
  rw [h.kind, h.name, h.parameterTypes, h.isConst]

theorem identity_eq : r.identity = r'.identity := by
  unfold ExportRecord.identity
  rw [h.kind, h.qualifiedName, h.parameterTypes, h.isConst]

theorem isValid_eq : r.isValid = r'.isValid := by
  unfold ExportRecord.isValid
  rw [h.name, h.qualifiedName]

end SameElement

/-! ## Absorbing steps -/

/-- A step that only grows the state, and that changes no result when it is made again in a state
that has what it left behind. -/
structure Absorbing (f : State → State) : Prop where
  grows : ∀ s, (f s).Covers s
  settled : ∀ {s t}, t.Covers (f s) → (f t).SameResult t

namespace Absorbing

variable {f g : State → State}

theorem of_quiet (h : ∀ s : State, s.Changes (fun _ => False) (f s)) : Absorbing f :=
  ⟨fun s => (h s).covers, fun _ => (h _).sameResult⟩

theorem comp (hg : Absorbing g) (hf : Absorbing f) : Absorbing (fun s => g (f s)) where
  grows s := (hg.grows (f s)).trans (hf.grows s)
  settled {s t} h := by
    have hfirst : (f t).SameResult t := hf.settled (h.trans (hg.grows (f s)))
    have hsecond : (g (f t)).SameResult (f t) := hg.settled (hfirst.covers.trans h)
    exact hsecond.trans hfirst

theorem foldl {α : Type} {f : α → State → State} {l : List α} (h : ∀ a ∈ l, Absorbing (f a)) :
    Absorbing (fun s => l.foldl (fun s a => f a s) s) := by
  induction l with
  | nil => exact of_quiet fun _ => .refl
  | cons a l ih =>
    exact (ih fun b hb => h b (List.mem_cons_of_mem a hb)).comp (h a List.mem_cons_self)

end Absorbing

variable {r r' : ExportRecord}

/-- A record that was offered, or one like it, is not taken a second time. -/
theorem sameResult_emit {s t : State} (hr : SameElement r r') (h : t.Covers (s.emit r)) :
    (t.emit r').SameResult t := by
  unfold State.emit
  cases hv : r'.isValid with
  | false => exact (changes_report t _).sameResult
  | true =>
    have hmem : r.identity ∈ (s.emit r).identities := identity_mem_emit s (hr.isValid_eq.trans hv)
    have hin : r'.identity ∈ t.identities := hr.identity_eq ▸ h.identities hmem
    simp only [Bool.not_true, Bool.false_eq_true, ↓reduceIte, hin]
    exact .refl

/-- Offering a record of one element, whatever the state, after something that adds no record. -/
theorem absorbing_emit {g : State → State} {r : State → ExportRecord}
    (hg : ∀ s : State, s.Changes (fun _ => False) (g s))
    (hr : ∀ s t, SameElement (r s) (r t)) : Absorbing (fun s => (g s).emit (r s)) where
  grows s := ((changes_emit (P := fun _ => True) (g s) trivial).covers).trans (hg s).covers
  settled {s t} h :=
    (sameResult_emit (hr s t) ((hg t).covers.trans h)).trans (hg t).sameResult

/-! ## Declarations without a scope -/

section Leaves

variable (ctx : Context) (h : Header)

theorem absorbing_exportFunction (c : Callable) (a : Directive) :
    Absorbing (exportFunction ctx h c a) := by
  unfold exportFunction
  cases c.isDeleted with
  | true => exact .of_quiet fun s => changes_skip s _ _
  | false => exact absorbing_emit (fun s => changes_useTypes s h _) fun _ _ => .refl _

theorem absorbing_exportVariable (v : Variable) (a : Directive) :
    Absorbing (exportVariable ctx h v a) := by
  unfold exportVariable
  by_cases hk : a.kind = .constant
  · simp only [hk, ↓reduceIte]
    -- the value may be another one the second time
    refine absorbing_emit (fun s => ?_) fun _ _ => ⟨rfl, rfl, rfl, rfl, rfl⟩
    exact (changes_useType s h v.type).trans (changes_bindConstant _ _ _ _)
  · simp only [hk, ↓reduceIte]
    exact absorbing_emit (fun s => changes_useType s h v.type) fun _ _ => .refl _

theorem absorbing_exportEnum (e : Enumeration) (a : Directive) :
    Absorbing (exportEnum ctx h e a) := by
  unfold exportEnum
  refine absorbing_emit (fun s => ?_) fun _ _ => ⟨rfl, rfl, rfl, rfl, rfl⟩
  exact (changes_reportAll s _).trans (.of_change (.constants _ _))

theorem absorbing_exportCallback (target : TypeRef) (a : Directive) :
    Absorbing (exportCallback ctx h target a) := by
  unfold exportCallback
  cases target.signature? with
  | none => exact .of_quiet fun s => changes_report s _
  | some signature => exact absorbing_emit (fun s => changes_useTypes s h _) fun _ _ => .refl _

omit ctx h in
/-- Offering a container that is not admitted adds no record and takes no name. -/
theorem sameResult_emitContainer {s : State} (hr : s.admits r = false)
    (instantiation : Option String) : (s.emitContainer r instantiation).SameResult s := by
  unfold State.emitContainer
  rw [hr]
  unfold State.admits at hr
  unfold State.emit
  cases hv : r.isValid with
  | false => exact (changes_report s _).sameResult
  | true =>
    have hi : r.identity ∈ s.identities := by simpa [hv] using hr
    simp only [hi, ↓reduceIte]
    exact .refl

omit ctx h in
theorem scriptName_mem_emitContainer {s : State} (hr : s.admits r = true)
    (instantiation : Option String) :
    r.scriptName ∈ (s.emitContainer r instantiation).containerNames := by
  unfold State.emitContainer
  rw [if_pos hr]
  exact List.mem_cons_self

omit ctx h in
theorem instantiation_mem_emitContainer {s : State} (hr : s.admits r = true)
    {instantiation : String} :
    instantiation ∈ (s.emitContainer r (some instantiation)).containers := by
  unfold State.emitContainer
  rw [if_pos hr]
  exact List.mem_cons_self

omit ctx h in
/-- A record that is not admitted stays out of every state that has as much. -/
theorem admits_eq_false_of_covers {s t : State} (h : t.Covers s) (hr : s.admits r = false)
    (hsame : SameElement r r') : t.admits r' = false := by
  unfold State.admits at hr ⊢
  rw [← hsame.identity_eq, ← hsame.isValid_eq]
  cases hv : r.isValid with
  | false => rfl
  | true =>
    have hi : r.identity ∈ s.identities := by simpa [hv] using hr
    simp [h.identities hi]

omit ctx h in
/-- Offering a container unless its place is taken, where a container that enters the result takes
the place. A place is never given up. -/
theorem absorbing_offerContainer {taken : State → Prop} [DecidablePred taken]
    {complain g : State → State} {r : State → ExportRecord} {instantiation : Option String}
    (hkept : ∀ {s t}, t.Covers s → taken s → taken t)
    (htaken : ∀ s, (g s).admits (r s) = true → taken ((g s).emitContainer (r s) instantiation))
    (hcomplain : ∀ s : State, s.Changes (fun _ => False) (complain s))
    (hg : ∀ s : State, s.Changes (fun _ => False) (g s))
    (hkind : ∀ s, (r s).kind = .container) (hr : ∀ s t, SameElement (r s) (r t)) :
    Absorbing fun s =>
      if taken s then complain s else (g s).emitContainer (r s) instantiation := by
  have hemit : ∀ s, ((g s).emitContainer (r s) instantiation).Covers (g s) := fun s =>
    (changes_emitContainer (P := fun _ => True) (g s) trivial (hkind s) instantiation).covers
  constructor
  case grows =>
    intro s
    split
    · exact (hcomplain s).covers
    · exact (hemit s).trans (hg s).covers
  case settled =>
    intro s t hcov
    by_cases ht : taken t
    · rw [if_pos ht]
      exact (hcomplain t).sameResult
    · have hs : ¬ taken s := by
        intro hs
        rw [if_pos hs] at hcov
        exact ht (hkept (hcov.trans (hcomplain s).covers) hs)
      rw [if_neg hs] at hcov
      rw [if_neg ht]
      -- the place is still free, so the first offer was not admitted
      have hfirst : (g s).admits (r s) = false := by
        cases ha : (g s).admits (r s) with
        | false => rfl
        | true => exact (ht (hkept hcov (htaken s ha))).elim
      have hsecond : (g t).admits (r t) = false :=
        admits_eq_false_of_covers ((hg t).covers.trans (hcov.trans (hemit s))) hfirst (hr s t)
      exact (sameResult_emitContainer hsecond instantiation).trans (hg t).sameResult

theorem absorbing_exportView (a : Directive) (name : String) (kind : ContainerKind)
    (elements : List TypeRef) (instantiation : String) :
    Absorbing (exportView ctx h a name kind elements instantiation) := by
  unfold exportView
  refine absorbing_offerContainer (fun hcov hs => hcov.containerNames hs) ?_
    (fun s => changes_report s _) (fun s => changes_useTypes s h elements) (fun _ => rfl)
    fun _ _ => .refl _
  intro s ha
  exact scriptName_mem_emitContainer ha none

theorem absorbing_exportInstantiation (a : Directive) (kind : ContainerKind)
    (elements : List TypeRef) (instantiation : String) :
    Absorbing (exportInstantiation ctx h a kind elements instantiation) := by
  unfold exportInstantiation
  refine absorbing_offerContainer (fun hcov hs => hcov.containers hs) ?_
    (fun s => changes_report s _) (fun s => ?_) (fun _ => rfl)
    fun _ _ => ⟨rfl, rfl, rfl, rfl, rfl⟩
  · intro s ha
    exact instantiation_mem_emitContainer ha
  · exact (changes_uniqueContainerName s h _ _).trans (changes_useTypes _ h elements)

/-- A second export of a container adds nothing. -/
theorem absorbing_exportContainer (target : TypeRef) (a : Directive) (expected : ContainerKind) :
    Absorbing (exportContainer ctx h target a expected) := by
  unfold exportContainer
  cases target.container? ctx.options.containers with
  | none => exact .of_quiet fun s => changes_report s _
  | some found =>
    have hbegin : ∀ problems, Absorbing (fun s => (s.reportAll problems).useType h target) :=
      fun problems => .of_quiet fun s =>
        (changes_reportAll s problems).trans (changes_useType _ h target)
    cases a.scriptAlias? with
    | some name => exact (absorbing_exportView ctx h a _ _ _ _).comp (hbegin _)
    | none => exact (absorbing_exportInstantiation ctx h a _ _ _).comp (hbegin _)

omit h in
/-- A second export of a leaf adds nothing. -/
theorem absorbing_exportLeaf (d : Decl) (a : Directive) : Absorbing (exportLeaf ctx d a) := by
  cases d with
  | function h c => exact absorbing_exportFunction ctx h c a
  | var h info => exact absorbing_exportVariable ctx h info a
  | enumeration h info => exact absorbing_exportEnum ctx h info a
  | typeAlias h target =>
    show Absorbing (exportAlias ctx h target a)
    unfold exportAlias
    split
    · exact absorbing_exportCallback ctx h target a
    · exact absorbing_exportContainer ctx h target a _
    · exact absorbing_exportContainer ctx h target a _
    · exact .of_quiet fun _ => .refl
  | _ => exact .of_quiet fun _ => .refl

end Leaves

/-! ## Members -/

/-- A step on the members of a type. Which keys it takes depends on the keys that are taken only, so
a second class with the same members gives each key to the same member. -/
structure AbsorbingMembers (f : Surface → Surface) : Prop where
  claimed : ∀ {x y : Surface}, x.claimed = y.claimed → (f x).claimed = (f y).claimed
  grows : ∀ x, (f x).state.Covers x.state
  settled : ∀ {x y : Surface}, x.claimed = y.claimed → y.state.Covers (f x).state →
    (f y).state.SameResult y.state

namespace AbsorbingMembers

variable {f g : Surface → Surface}

theorem id : AbsorbingMembers (fun x => x) :=
  ⟨fun h => h, fun _ => .refl, fun _ _ => .refl⟩

theorem comp (hg : AbsorbingMembers g) (hf : AbsorbingMembers f) :
    AbsorbingMembers (fun x => g (f x)) where
  claimed h := hg.claimed (hf.claimed h)
  grows x := (hg.grows (f x)).trans (hf.grows x)
  settled {x y} hc h := by
    have hfirst : (f y).state.SameResult y.state := hf.settled hc (h.trans (hg.grows (f x)))
    have hsecond : (g (f y)).state.SameResult (f y).state :=
      hg.settled (hf.claimed hc) (hfirst.covers.trans h)
    exact hsecond.trans hfirst

theorem foldl {α : Type} {f : α → Surface → Surface} {l : List α}
    (h : ∀ a, AbsorbingMembers (f a)) :
    AbsorbingMembers (fun x => l.foldl (fun x a => f a x) x) := by
  induction l with
  | nil => exact id
  | cons a l ih => exact ih.comp (h a)

theorem onState {f : State → State} (hf : ∀ s : State, s.Changes (fun _ => False) (f s)) :
    AbsorbingMembers (Surface.onState f) :=
  ⟨fun h => h, fun x => (hf x.state).covers, fun {_ y} _ _ => (hf y.state).sameResult⟩

/-- The members of a type, seen as a step on the state. -/
theorem absorbing {g : State → State} (hf : AbsorbingMembers f) (hg : Absorbing g) :
    Absorbing (fun s => (f { state := g s }).state) where
  grows s := (hf.grows { state := g s }).trans (hg.grows s)
  settled {s t} h := by
    have hfirst : (g t).SameResult t := hg.settled (h.trans (hf.grows { state := g s }))
    have hsecond : (f { state := g t }).state.SameResult (g t) :=
      hf.settled (x := { state := g s }) (y := { state := g t }) rfl (hfirst.covers.trans h)
    exact hsecond.trans hfirst

end AbsorbingMembers

section Members

variable (ctx : Context) (owner : Owner) (source : MemberSource)

theorem claimed_add {x y : Surface} (hr : SameElement r r') (hc : x.claimed = y.claimed) :
    (x.add ctx owner source r).claimed = (y.add ctx owner source r').claimed := by
  unfold Surface.add
  rw [hc, hr.surfaceKey_eq]
  cases y.claimed.get? (surfaceKey r') with
  | none => rfl
  | some earlier => exact hc

theorem covers_add (x : Surface) (r : ExportRecord) :
    (x.add ctx owner source r).state.Covers x.state := by
  unfold Surface.add
  split
  · exact (changes_reportAll (P := fun _ => False) _ _).covers
  · exact ((changes_noteInherited _ _ _ _).trans
      (changes_emit (P := fun _ => True) _ trivial)).covers

/-- Offering a member a second time. -/
theorem sameResult_add {x y : Surface} (hr : SameElement r r') (hc : x.claimed = y.claimed)
    (h : y.state.Covers (x.add ctx owner source r).state) :
    (y.add ctx owner source r').state.SameResult y.state := by
  unfold Surface.add at h ⊢
  rw [hc, hr.surfaceKey_eq] at h
  cases hclaimed : y.claimed.get? (surfaceKey r') with
  | some earlier => exact (changes_reportAll _ _).sameResult
  | none =>
    rw [hclaimed] at h
    have hnoted := changes_noteInherited (P := fun _ => False) y.state owner source r'.name
    exact (sameResult_emit hr (hnoted.covers.trans h)).trans hnoted.sameResult

/-- Offering a member of one element, whatever the state, after something that adds no record. -/
theorem absorbingMembers_add {g : Surface → State → State} {r : Surface → ExportRecord}
    (hg : ∀ x (s : State), s.Changes (fun _ => False) (g x s))
    (hr : ∀ x y, SameElement (r x) (r y)) :
    AbsorbingMembers (fun x => (x.onState (g x)).add ctx owner source (r x)) where
  claimed {x y} hc := claimed_add ctx owner source (hr x y) hc
  grows x := (covers_add ctx owner source (x.onState (g x)) (r x)).trans (hg x x.state).covers
  settled {x y} hc h := by
    have hquiet := hg y y.state
    have hadd : ((y.onState (g y)).add ctx owner source (r y)).state.SameResult (g y y.state) :=
      sameResult_add ctx owner source (x := x.onState (g x)) (y := y.onState (g y)) (hr x y) hc
        (hquiet.covers.trans h)
    exact hadd.trans hquiet.sameResult

theorem absorbingMembers_addField (h : Header) (info : Field) (directive : Option Directive) :
    AbsorbingMembers (fun x => x.addField ctx owner source h info directive) := by
  have hused : AbsorbingMembers (Surface.onState (·.useType h info.type)) :=
    .onState fun s => changes_useType s h info.type
  unfold Surface.addField
  cases isConstantField directive info with
  | true =>
    refine AbsorbingMembers.comp (g := (·.addConstant ctx owner source h info directive)) ?_ hused
    exact absorbingMembers_add ctx owner source (fun _ s => changes_bindConstant s _ _ _)
      fun _ _ => ⟨rfl, rfl, rfl, rfl, rfl⟩
  | false =>
    exact absorbingMembers_add ctx owner source (fun _ s => changes_useType s h info.type)
      fun _ _ => .refl _

/-- A slot that is filled again adds nothing. -/
theorem absorbingMembers_addSlot (m : Member) (slot : Slot) :
    AbsorbingMembers (fun x => x.addSlot ctx owner source m slot) := by
  unfold Surface.addSlot
  cases slot with
  | absorbed => exact .id
  | property spec =>
    exact absorbingMembers_add ctx owner source (fun _ s => changes_useTypes s _ _)
      fun _ _ => .refl _
  | member =>
    dsimp only
    unfold Surface.addMember
    cases memberAction owner source m with
    | nothing => exact .id
    | skip reason => exact .onState fun s => changes_skip s m.decl reason
    | callable kind h c =>
      exact absorbingMembers_add ctx owner source (fun _ s => changes_useTypes s h _)
        fun _ _ => .refl _
    | field h info => exact absorbingMembers_addField ctx owner source h info m.mark.directive

/-- A member list that is exported again adds nothing. -/
theorem absorbingMembers_exportMembers (decls : List Decl) :
    AbsorbingMembers (exportMembers ctx owner source decls) := by
  unfold exportMembers
  dsimp only
  refine AbsorbingMembers.comp
    (g := fun x => List.foldl (fun x (p : Member × Slot) => x.addSlot ctx owner source p.1 p.2) x _)
    (.foldl fun p => absorbingMembers_addSlot ctx owner source p.1 p.2) ?_
  cases source with
  | inherited base => exact .id
  | own =>
    simp only [MemberSource.isInherited, Bool.false_eq_true, ↓reduceIte]
    refine AbsorbingMembers.onState fun s => ?_
    exact (State.Changes.foldl (fun s d _ => changes_visitMember s _ d) s).trans
      (changes_reportAll _ _)

end Members

theorem absorbing_exportExplicitMembers (ctx : Context) (h : Header) (members : List Decl) :
    Absorbing (exportExplicitMembers ctx h members) :=
  (absorbingMembers_exportMembers _ _ .own members).absorbing (.of_quiet fun _ => .refl)

theorem absorbing_exportClassMembers (ctx : Context) (h : Header) (traits : RecordTraits)
    (members : List Decl) (a : Directive) :
    Absorbing (exportClassMembers ctx h traits members a) := by
  have hbind : ∀ inner owner bases, Absorbing (State.bindBases inner h owner bases) :=
    fun inner owner bases => .foldl fun e _ =>
      absorbing_emit (fun _ => .refl) fun _ _ => .refl _
  have hinherited : ∀ inner owner bases, AbsorbingMembers (exportInherited inner owner bases) :=
    fun inner owner bases => .foldl fun e =>
      absorbingMembers_exportMembers inner owner (.inherited e.qualifiedName) e.decl.children
  unfold exportClassMembers classSurface
  dsimp only
  generalize ctx.index.ancestry _ _ _ = ancestry
  have hown := absorbingMembers_exportMembers (ctx.enterClass h a)
    (ctx.classOwner h traits members a) .own members
  exact ((hinherited _ _ (ancestry.filter fun e => !e.annotated)).comp hown).absorbing
    (hbind _ _ (ancestry.filter fun e => e.annotated))

/-! ## Walks -/

/-- A second contribution adds nothing. -/
theorem absorbing_contribute (ctx : Context) (directive : Option Directive) (d : Decl) :
    Absorbing (fun s => Visit.contribute ctx directive d s) := by
  cases d with
  | nameSpace h decls =>
    cases directive with
    | none => exact .of_quiet fun _ => .refl
    | some a => exact absorbing_emit (fun _ => .refl) fun _ _ => .refl _
  | record h traits members =>
    cases directive with
    | none => exact absorbing_exportExplicitMembers ctx h members
    | some a =>
      have hclass : Absorbing (fun s => s.emit (ctx.classRecord h traits members a)) :=
        absorbing_emit (fun _ => .refl) fun _ _ => .refl _
      unfold Visit.contribute
      dsimp only
      cases (ctx.classRecord h traits members a).isValid with
      | true => exact (absorbing_exportClassMembers ctx h traits members a).comp hclass
      | false => exact hclass
  | _ =>
    cases directive with
    | none => exact .of_quiet fun _ => .refl
    | some a =>
      simp only [Visit.contribute]
      exact absorbing_exportLeaf ctx _ a

/-- A second visit adds nothing. -/
theorem Visit.absorbing (v : Visit) : Absorbing v.run := by
  have hvisit : Absorbing (fun s => s.visit v.ctx v.decl) :=
    .of_quiet fun s => changes_visit s v.ctx v.decl
  unfold Visit.run
  by_cases hi : v.verdict = .ignored
  · simp only [hi, ↓reduceIte]
    exact hvisit
  · simp only [hi, ↓reduceIte]
    exact (absorbing_contribute v.ctx v.verdict.directive v.decl).comp hvisit

/-- Making the same visits again changes no records. -/
theorem absorbing_runVisits (vs : List Visit) : Absorbing (runVisits vs) :=
  .foldl fun v _ => v.absorbing

end ScriptExport.Analysis

namespace ScriptExport

open Analysis

/-- The walk through declarations that are written twice ends with the records of the first half,
and the diagnostics of the first half come first. -/
theorem finalState_twice (o : Options) (u : TranslationUnit) :
    (finalState o { u with decls := u.decls ++ u.decls }).records = (finalState o u).records ∧
      (finalState o u).diagnostics.toList <+:
        (finalState o { u with decls := u.decls ++ u.decls }).diagnostics.toList := by
  have hctx : Context.ofUnit o { u with decls := u.decls ++ u.decls } = Context.ofUnit o u := by
    unfold Context.ofUnit
    rw [TypeIndex.ofDecls_append_self]
  rw [finalState_eq_runVisits, finalState_eq_runVisits, hctx, visits_append, runVisits_append]
  constructor
  · exact ((absorbing_runVisits _).settled State.Covers.refl).records
  · exact (changes_runVisits _ _).extends.diagnostics

/-- **Redeclaration.** A unit with all its declarations written twice is accepted if the unit is,
and has the same records in the same order; only diagnostics may be added. -/
theorem analyze_twice (o : Options) (u : TranslationUnit) (h : u.check o = .ok ()) :
    ∃ once twice, analyze o u = .ok once ∧
      analyze o { u with decls := u.decls ++ u.decls } = .ok twice ∧
      twice.records = once.records ∧ once.diagnostics <+: twice.diagnostics := by
  have hdecls := u.checkDecls_of_check h
  have htwice : ({ u with decls := u.decls ++ u.decls } : TranslationUnit).check o = .ok () := by
    refine u.check_withDecls h (Structure.checkDecls_eq_ok_iff.mpr ?_)
    intro d hd
    have hmem : d ∈ u.decls := (List.mem_append.mp hd).elim (fun h => h) (fun h => h)
    exact Structure.checkDecls_eq_ok_iff.mp hdecls d hmem
  obtain ⟨hrecords, hdiagnostics⟩ := finalState_twice o u
  refine ⟨_, _, analyze_of_check h, analyze_of_check htwice, ?_, hdiagnostics⟩
  exact congrArg Array.toList hrecords

/-- A class that takes over the members of an unexported base, written twice. -/
theorem analyze_twice_inherited_members :
    let base := Decl.record { name := "Base" } {} [.method { name := "ping" } {}]
    let hero := Decl.record { name := "Hero", annotations := ["lua_export_class"] }
      { bases := [{ name := "Base" }] } [.field { name := "hp" } { type := .void }]
    ∃ once twice, analyze {} { filePath := "hero.h", decls := [base, hero] } = .ok once ∧
      analyze {} { filePath := "hero.h", decls := [base, hero, base, hero] } = .ok twice ∧
      twice.records = once.records ∧ once.diagnostics <+: twice.diagnostics :=
  analyze_twice {} _ rfl

end ScriptExport
