import ScriptExport.Proofs.Analysis.Acceptance
import ScriptExport.Proofs.Analysis.Outline

/-!
# Moving the declarations of a unit

A relocation gives the declarations of a unit other locations, each by the location that it had. The
tree keeps its shape, so a unit is accepted wherever its declarations stand (`check_relocate`), and
unless a declaration is moved into an ignored path or out of one, the type index holds the same
entries at their new places (`ofDecls_relocate`) and gives names the same meaning
(`TypeIndex.alike_relocate`). Everything that a walk computes from a declaration is computed from the
moved one with the new locations in it: the values of an enum, the plan of properties, what becomes of a
member, and the declarations that the walk comes to (`visits_relocate`).
-/

namespace ScriptExport

/-- Where declarations are moved to, by where they stood. -/
abbrev Relocation := Option Location → Option Location

/-- The relocation after which nothing has a location. -/
def Relocation.erase : Relocation :=
  fun _ => none

/-- Nothing is moved into an ignored path or out of one. -/
def Relocation.Respects (f : Relocation) (o : Options) : Prop :=
  ∀ l, (f l).any (fun l => o.isIgnoredPath l.file) = l.any (fun l => o.isIgnoredPath l.file)

theorem Relocation.respects_of_ignoredPaths_eq_nil (f : Relocation) {o : Options}
    (h : o.ignoredPaths = []) : f.Respects o := by
  have hnone : ∀ l : Option Location, l.any (fun l => o.isIgnoredPath l.file) = false := by
    intro l
    unfold Options.isIgnoredPath
    rw [h]
    cases l <;> rfl
  intro l
  rw [hnone, hnone]

/-! ## Declarations -/

/-- The header at its new place. -/
def Header.relocate (f : Relocation) (h : Header) : Header :=
  { h with location := f h.location }

namespace Decl

mutual

/-- The declaration with everything inside it at its new place. -/
def relocate (f : Relocation) : Decl → Decl
  | nameSpace h decls => nameSpace (h.relocate f) (relocateAll f decls)
  | record h traits members => record (h.relocate f) traits (relocateAll f members)
  | method h c => method (h.relocate f) c
  | constructor h c => constructor (h.relocate f) c
  | destructor h => destructor (h.relocate f)
  | function h c => function (h.relocate f) c
  | field h info => field (h.relocate f) info
  | var h info => var (h.relocate f) info
  | enumeration h info => enumeration (h.relocate f) info
  | typeAlias h target => typeAlias (h.relocate f) target

/-- A list with every declaration at its new place. -/
def relocateAll (f : Relocation) : List Decl → List Decl
  | [] => []
  | d :: ds => d.relocate f :: relocateAll f ds

end

theorem relocateAll_eq_map (f : Relocation) (ds : List Decl) :
    relocateAll f ds = ds.map (relocate f) := by
  induction ds with
  | nil => rfl
  | cons d ds ih => rw [relocateAll, ih, List.map_cons]

theorem relocateAll_id (ds : List Decl) : relocateAll id ds = ds := by
  induction ds using Decl.list_induction with
  | nil => rfl
  | cons d ds ihContents ih =>
    have hd : d.relocate id = d := by
      cases d with
      | nameSpace h decls => exact congrArg (nameSpace h) ihContents
      | record h traits members => exact congrArg (record h traits) ihContents
      | _ => rfl
    rw [relocateAll, hd, ih]

/-- The relocation that moves nothing changes nothing. -/
@[simp] theorem relocate_id (d : Decl) : d.relocate id = d :=
  (List.cons.inj (relocateAll_id [d])).1

section

variable (f : Relocation) (d : Decl)

@[simp] theorem header_relocate : (d.relocate f).header = d.header.relocate f := by
  cases d <;> rfl

@[simp] theorem name_relocate : (d.relocate f).name = d.name := by
  cases d <;> rfl

@[simp] theorem annotations_relocate : (d.relocate f).annotations = d.annotations := by
  cases d <;> rfl

@[simp] theorem location_relocate : (d.relocate f).location = f d.location := by
  cases d <;> rfl

@[simp] theorem kindText_relocate : (d.relocate f).kindText = d.kindText := by
  cases d <;> rfl

@[simp] theorem isMemberOnly_relocate : (d.relocate f).isMemberOnly = d.isMemberOnly := by
  cases d <;> rfl

@[simp] theorem bases_relocate : (d.relocate f).bases = d.bases := by
  cases d <;> rfl

@[simp] theorem isSpecialization_relocate :
    (d.relocate f).isSpecialization = d.isSpecialization := by
  cases d <;> rfl

@[simp] theorem children_relocate : (d.relocate f).children = d.children.map (relocate f) := by
  cases d with
  | nameSpace h decls => exact relocateAll_eq_map f decls
  | record h traits members => exact relocateAll_eq_map f members
  | _ => rfl

@[simp] theorem appliesTo_relocate (kind : DirectiveKind) :
    kind.appliesTo (d.relocate f) = kind.appliesTo d := by
  cases kind <;> cases d <;> rfl

end

end Decl

/-- The unit with all its declarations moved. -/
def TranslationUnit.relocate (f : Relocation) (u : TranslationUnit) : TranslationUnit :=
  { u with decls := u.decls.map (·.relocate f) }

/-! ## Acceptance -/

namespace Structure

/-- The structural check reads no locations. -/
theorem checkDecls_relocate (f : Relocation) (file : String) (inRecord : Bool) (depth : Nat)
    (ds : List Decl) :
    checkDecls file inRecord depth (ds.map (·.relocate f)) = checkDecls file inRecord depth ds := by
  induction ds using Decl.list_induction generalizing inRecord depth with
  | nil => rfl
  | cons d ds ihContents ih =>
    have hd : checkDecl file inRecord depth (d.relocate f) = checkDecl file inRecord depth d := by
      cases d with
      | nameSpace h decls =>
        dsimp only [Decl.children] at ihContents
        rw [Decl.relocate, Decl.relocateAll_eq_map, checkDecl, checkDecl, ihContents]
        rfl
      | record h traits members =>
        dsimp only [Decl.children] at ihContents
        rw [Decl.relocate, Decl.relocateAll_eq_map, checkDecl, checkDecl, ihContents]
        rfl
      | _ => rfl
    rw [List.map_cons, checkDecls, checkDecls, hd, ih]

end Structure

/-- Whether a unit is accepted does not depend on where its declarations stand. -/
theorem TranslationUnit.check_relocate (f : Relocation) (u : TranslationUnit) (o : Options) :
    (u.relocate f).check o = u.check o := by
  have hdecls := Structure.checkDecls_relocate f u.filePath false 0 u.decls
  unfold TranslationUnit.check
  rw [← hdecls]
  rfl

theorem Options.skipReason?_relocate {f : Relocation} {o : Options} (hf : f.Respects o) (d : Decl)
    (annotated exportContext : Bool) :
    o.skipReason? (d.relocate f) annotated exportContext =
      o.skipReason? d annotated exportContext := by
  unfold Options.skipReason?
  rw [Decl.header_relocate, Decl.isSpecialization_relocate, Decl.name_relocate,
    Decl.location_relocate, hf d.location]
  rfl

/-! ## The type index -/

/-- The entry of the moved declaration. -/
def TypeEntry.relocate (f : Relocation) (e : TypeEntry) : TypeEntry :=
  { e with decl := e.decl.relocate f }

namespace TypeIndex

/-- The index with every entry moved. -/
def relocate (f : Relocation) (index : TypeIndex) : TypeIndex :=
  ⟨index.entries.map (·.relocate f)⟩

section Building

variable {f : Relocation} {o : Options}

theorem entryOf?_relocate (hf : f.Respects o) (scope : List String) (d : Decl) :
    entryOf? o scope (d.relocate f) = (entryOf? o scope d).map (·.relocate f) := by
  unfold entryOf?
  simp only [Decl.annotations_relocate, Decl.name_relocate, Options.skipReason?_relocate hf]
  split
  · rfl
  · rfl

theorem addRecord_relocate (hf : f.Respects o) (scope : List String) (d : Decl)
    (index : TypeIndex) :
    addRecord o scope (d.relocate f) (index.relocate f) =
      (addRecord o scope d index).relocate f := by
  unfold addRecord
  rw [entryOf?_relocate hf]
  cases entryOf? o scope d with
  | none => rfl
  | some e =>
    have hempty : ∀ d : Decl, (d.relocate f).children.isEmpty = d.children.isEmpty := by
      intro d
      rw [Decl.children_relocate, List.isEmpty_map]
    exact congrArg TypeIndex.mk (declare_mapDecl hempty e index.entries)

/-- Types are indexed at their new places. -/
theorem addDecls_relocate (hf : f.Respects o) (scope : List String) (ds : List Decl)
    (index : TypeIndex) :
    addDecls o scope (ds.map (·.relocate f)) (index.relocate f) =
      (addDecls o scope ds index).relocate f := by
  induction ds using Decl.list_induction generalizing scope index with
  | nil => rfl
  | cons d ds ihContents ih =>
    have hd : addDecl o scope (d.relocate f) (index.relocate f) =
        (addDecl o scope d index).relocate f := by
      cases d with
      | nameSpace h decls =>
        rw [Decl.relocate, Decl.relocateAll_eq_map, addDecl, addDecl]
        exact ihContents _ index
      | record h traits members =>
        have hrecord := addRecord_relocate hf scope (.record h traits members) index
        rw [Decl.relocate, Decl.relocateAll_eq_map] at hrecord ⊢
        rw [addDecl, addDecl, hrecord]
        exact ihContents _ _
      | _ => rfl
    rw [List.map_cons, addDecls, addDecls, hd]
    exact ih scope _

theorem ofDecls_relocate (hf : f.Respects o) (ds : List Decl) :
    ofDecls o (ds.map (·.relocate f)) = (ofDecls o ds).relocate f :=
  addDecls_relocate hf [] ds {}

end Building

/-! ### Names and bases -/

/-- A relocated index gives every name the relocated meaning. -/
theorem alike_relocate (f : Relocation) (index : TypeIndex) :
    index.Alike (index.relocate f) (·.relocate f) id :=
  alike_mapDecls (fun d => d.name_relocate f) (fun d => d.bases_relocate f) index

theorem ancestry_relocate (f : Relocation) (index : TypeIndex) (path scope : List String)
    (bases : List Base) :
    (index.relocate f).ancestry path scope bases =
      (index.ancestry path scope bases).map (·.relocate f) :=
  ancestry_mapDecls (fun d => d.name_relocate f) (fun d => d.bases_relocate f) index path scope bases

end TypeIndex

/-! ## What a walk computes -/

/-- The diagnostic at its new place. -/
def Diagnostic.relocate (f : Relocation) (d : Diagnostic) : Diagnostic :=
  { d with location := f d.location }

@[simp] theorem Diagnostic.relocate_id (d : Diagnostic) : d.relocate id = d := rfl

/-- The record at its new place. -/
def ExportRecord.relocate (f : Relocation) (r : ExportRecord) : ExportRecord :=
  { r with location := f r.location }

namespace Analysis

variable (f : Relocation)

/-- The context with its types moved. -/
def Context.relocate (ctx : Context) : Context :=
  { ctx with index := ctx.index.relocate f }

theorem issueDiagnostics_relocate (h : Header) (issues : List DirectiveIssue) :
    issueDiagnostics (h.relocate f) issues = (issueDiagnostics h issues).map (·.relocate f) := by
  unfold issueDiagnostics
  rw [List.map_map]
  rfl

theorem inapplicable_relocate (kind : DirectiveKind) (d : Decl) :
    inapplicable kind (d.relocate f) = (inapplicable kind d).relocate f := by
  simp [inapplicable, Diagnostic.relocate]

/-! ### Enums and aliases -/

section Aliases

variable (h : Header)

/-- The progress with its diagnostics moved. -/
def EnumProgress.relocate (p : EnumProgress) : EnumProgress :=
  { p with diagnostics := p.diagnostics.map (·.relocate f) }

theorem EnumProgress.take_relocate (constants : OrderedMap String Int64) (p : EnumProgress)
    (c : EnumConstant) :
    (p.relocate f).take (h.relocate f) constants c = (p.take h constants c).relocate f := by
  have hvalue : (p.relocate f).valueOf (h.relocate f) constants c =
      ((p.valueOf h constants c).1, (p.valueOf h constants c).2.map (·.relocate f)) := by
    unfold EnumProgress.valueOf
    cases initializer? c.init with
    | none => rfl
    | some expr =>
      have hlookup : (p.relocate f).lookup constants = p.lookup constants := rfl
      dsimp only
      rw [hlookup]
      cases Constant.evaluate (p.lookup constants) expr <;> rfl
  unfold EnumProgress.take
  rw [hvalue]
  simp [EnumProgress.relocate]

theorem evaluateEnum_relocate (constants : OrderedMap String Int64) (cs : List EnumConstant) :
    evaluateEnum (h.relocate f) constants cs = (evaluateEnum h constants cs).relocate f := by
  change cs.foldl (EnumProgress.take (h.relocate f) constants) (EnumProgress.relocate f {}) = _
  exact List.foldl_hom (EnumProgress.relocate f) fun p c =>
    EnumProgress.take_relocate f h constants p c

theorem containerShape_relocate (expected : ContainerKind) (word : String)
    (detected : ContainerKind) (elements : List TypeRef) :
    containerShape (h.relocate f) expected word detected elements =
      ((containerShape h expected word detected elements).1,
        (containerShape h expected word detected elements).2.map (·.relocate f)) := by
  unfold containerShape
  split
  · rfl
  · split
    · rfl
    · rfl

end Aliases

/-! ### Properties -/

/-- The member at its new place. -/
def Member.relocate (m : Member) : Member :=
  { m with decl := m.decl.relocate f }

/-- The property at its new place. -/
def PropertySpec.relocate (spec : PropertySpec) : PropertySpec :=
  { spec with header := spec.header.relocate f }

/-- The slot with its property moved. -/
def Slot.relocate : Slot → Slot
  | member => member
  | absorbed => absorbed
  | property spec => property (spec.relocate f)

theorem Member.isPartner_relocate (m : Member) (isStatic : Bool) (a : Accessor) :
    (m.relocate f).isPartner isStatic a = m.isPartner isStatic a := by
  obtain ⟨d, mark⟩ := m
  cases d <;> rfl

namespace PropertyPlan

/-- The plan with its properties and diagnostics moved. -/
def relocate (p : PropertyPlan) : PropertyPlan :=
  { p with
    slots := p.slots.map (·.relocate f)
    diagnostics := p.diagnostics.map (·.relocate f) }

variable (p : PropertyPlan)

theorem isFree_relocate (i : Nat) : (p.relocate f).isFree i = p.isFree i := by
  have hslot : ∀ slot : Slot, (slot.relocate f).isMember = slot.isMember := by
    intro slot
    cases slot <;> rfl
  unfold isFree
  rw [List.getD_eq_getElem?_getD, List.getD_eq_getElem?_getD,
    show (p.relocate f).slots = p.slots.map (·.relocate f) from rfl, List.getElem?_map]
  cases p.slots[i]? with
  | none => rfl
  | some slot => exact hslot slot

/-- The search for the opposite accessor finds the moved one. -/
theorem partner?_relocate (members : List Member) (i : Nat) (isStatic : Bool) (a : Accessor) :
    (p.relocate f).partner? (members.map (·.relocate f)) i isStatic a =
      (p.partner? members i isStatic a).map fun q => (q.1, q.2.1.relocate f, q.2.2) := by
  unfold partner?
  rw [List.zipIdx_map, List.findSome?_map, List.map_findSome?]
  refine congrArg (List.findSome? · _) (funext fun q => ?_)
  obtain ⟨m, j⟩ := q
  simp only [Function.comp_apply, Prod.map_apply, id_eq, isFree_relocate,
    Member.isPartner_relocate]
  split
  · obtain ⟨d, mark⟩ := m
    cases d <;> rfl
  · rfl

theorem place_relocate (first : Nat) (other : Option Nat) (spec : PropertySpec) :
    (p.relocate f).place first other (spec.relocate f) = (p.place first other spec).relocate f := by
  cases other with
  | none => simp [place, relocate, Slot.relocate]
  | some j => simp [place, relocate, Slot.relocate]

/-- The same property is formed, at the new place. -/
theorem form_relocate (owner : String) (members : List Member) (i : Nat) (h : Header)
    (c : Callable) (directive : Directive) (a : Accessor) :
    (p.relocate f).form owner (members.map (·.relocate f)) i (h.relocate f) c directive a =
      (p.form owner members i h c directive a).relocate f := by
  have hname : ∀ h : Header, (h.relocate f).name = h.name := fun _ => rfl
  have hsingle : single (h.relocate f) c directive a = (single h c directive a).relocate f := rfl
  unfold form
  rw [partner?_relocate]
  cases p.partner? members i c.isStatic a with
  | none =>
    exact place_relocate f { p with formed := a.logicalName :: p.formed } i none
      (single h c directive a)
  | some found =>
    obtain ⟨j, other, otherCallable⟩ := found
    dsimp only [Option.map_some]
    rw [hname, hname]
    generalize (if a.role = .getter then (_, _) else (_, _)) = accessors
    obtain ⟨getter, setter⟩ := accessors
    dsimp only
    split
    · by_cases hij : i < j
      · simp only [hij, ↓reduceIte]
        exact place_relocate f { p with formed := a.logicalName :: p.formed } i (some j)
          { single h c directive a with
            getter := some getter
            setter := some setter
            access := directive.access?.getD .readWrite }
      · simp only [hij, ↓reduceIte]
        exact place_relocate f { p with formed := a.logicalName :: p.formed } j (some i)
          { single h c directive a with
            header := other
            getter := some getter
            setter := some setter
            access := directive.access?.getD .readWrite }
    · rw [hsingle, ← place_relocate]
      simp [relocate, Diagnostic.relocate, Header.relocate]

/-- A look at a moved member does what a look at the member does. -/
theorem take_relocate (owner : String) (members : List Member) (m : Member) (i : Nat) :
    (p.relocate f).take owner (members.map (·.relocate f)) (m.relocate f) i =
      (p.take owner members m i).relocate f := by
  have hfree := isFree_relocate f p i
  unfold take
  rw [hfree]
  by_cases hleft : (m.mark.isExcluded || !p.isFree i || p.unpaired.contains i) = true
  · rw [if_pos hleft]
    exact if_pos hleft
  · rw [if_neg hleft]
    refine (if_neg hleft).trans ?_
    obtain ⟨d, ⟨directive, ignored, rejected⟩⟩ := m
    cases d with
    | method h c =>
      cases directive with
      | none => rfl
      | some directive =>
        have haccessor : Accessor.of? (h.relocate f).name c = Accessor.of? h.name c := rfl
        dsimp only [Member.relocate, Decl.relocate]
        rw [haccessor]
        split
        · cases Accessor.of? h.name c with
          | none => simp [relocate, Diagnostic.relocate, Header.relocate]
          | some a =>
            by_cases hformed : a.logicalName ∈ p.formed
            · simp [hformed, relocate, Slot.relocate, Diagnostic.relocate, Header.relocate]
            · dsimp only
              rw [if_neg hformed, ← form_relocate]
              exact if_neg hformed
        · rfl
    | _ => rfl

end PropertyPlan

/-- Properties are planned alike. -/
theorem planProperties_relocate (owner : String) (members : List Member) :
    planProperties owner (members.map (·.relocate f)) =
      (planProperties owner members).relocate f := by
  have hstart : PropertyPlan.initial (members.map (·.relocate f)) =
      (PropertyPlan.initial members).relocate f := by
    simp [PropertyPlan.initial, PropertyPlan.relocate, Slot.relocate, Function.comp_def]
  unfold planProperties
  rw [List.zipIdx_map, List.foldl_map, hstart]
  exact List.foldl_hom (PropertyPlan.relocate f) fun p q => p.take_relocate f owner members q.1 q.2

/-! ### Members and classes -/

/-- The action on the moved member. -/
def MemberAction.relocate : MemberAction → MemberAction
  | nothing => nothing
  | skip reason => skip reason
  | callable kind h c => callable kind (h.relocate f) c
  | field h info => field (h.relocate f) info

theorem markMember_relocate (marker : String) (d : Decl) :
    markMember marker (d.relocate f) = (markMember marker d).relocate f := by
  unfold markMember
  rw [Decl.isMemberOnly_relocate]
  split
  · simp [Member.relocate]
  · rfl

theorem declaredAction_relocate (owner : Owner) (source : MemberSource) (explicit : Bool)
    (d : Decl) :
    declaredAction owner source explicit (d.relocate f) =
      (declaredAction owner source explicit d).relocate f := by
  cases d with
  | constructor h c =>
    simp only [Decl.relocate, declaredAction]
    split <;> rfl
  | method h c =>
    simp only [Decl.relocate, declaredAction]
    split
    · rfl
    · split <;> rfl
  | field h info =>
    simp only [Decl.relocate, declaredAction]
    split <;> rfl
  | _ => rfl

/-- Members are exported alike. -/
theorem memberAction_relocate (owner : Owner) (source : MemberSource) (m : Member) :
    memberAction owner source (m.relocate f) = (memberAction owner source m).relocate f := by
  have hdecl : (m.relocate f).decl = m.decl.relocate f := rfl
  have hmark : (m.relocate f).mark = m.mark := rfl
  unfold memberAction
  simp only [hdecl, hmark, Decl.isMemberOnly_relocate, Decl.header_relocate,
    declaredAction_relocate, apply_ite (MemberAction.relocate f)]
  rfl

/-- Clashes are reported at the new places. -/
theorem clash?_relocate (index : TypeIndex) (owner : Owner) (r : ExportRecord)
    (earlier later : MemberSource) :
    clash? (index.relocate f) owner (r.relocate f) earlier later =
      (clash? index owner r earlier later).map (·.relocate f) := by
  have hderives := (TypeIndex.alike_relocate f index).derivesFrom
  cases earlier with
  | own =>
    cases later with
    | own =>
      dsimp only [clash?, ExportRecord.relocate]
      split <;> rfl
    | inherited base => rfl
  | inherited first =>
    cases later with
    | own => rfl
    | inherited base =>
      dsimp only [clash?]
      rw [← hderives]
      split <;> rfl

section Classes

variable (ctx : Context) (h : Header) (traits : RecordTraits) (members : List Decl) (a : Directive)

theorem classKind_relocate (kind : DirectiveKind) (isAbstract : Bool) :
    ClassKind.of kind isAbstract (members.map (·.relocate f)) =
      ClassKind.of kind isAbstract members := by
  have hpure : isPureMethod ∘ Decl.relocate f = isPureMethod := by
    funext d
    cases d <;> rfl
  have hany : (members.map (·.relocate f)).any isPureMethod = members.any isPureMethod := by
    rw [List.any_map, hpure]
  unfold ClassKind.of
  rw [hany]

theorem baseName_relocate (base : Base) : (ctx.relocate f).baseName base = ctx.baseName base := by
  rw [Context.baseName_eq, Context.baseName_eq]
  exact congrArg (Option.getD · _)
    ((TypeIndex.alike_relocate f ctx.index).qualifiedName_lookup? base.name ctx.scopes.path)

theorem classRecord_relocate :
    (ctx.relocate f).classRecord (h.relocate f) traits (members.map (·.relocate f)) a =
      (ctx.classRecord h traits members a).relocate f := by
  unfold Context.classRecord
  rw [funext (baseName_relocate f ctx), classKind_relocate]
  rfl

theorem classOwner_relocate :
    (ctx.relocate f).classOwner (h.relocate f) traits (members.map (·.relocate f)) a =
      ctx.classOwner h traits members a := by
  unfold Context.classOwner
  rw [classKind_relocate]
  rfl

end Classes

/-! ### Visits -/

/-- The visit to the moved declaration. -/
def Visit.relocate (v : Visit) : Visit :=
  ⟨v.ctx.relocate f, v.decl.relocate f⟩

@[simp] theorem Visit.relocate_id (v : Visit) : v.relocate id = v := by
  have hindex : v.ctx.index.relocate id = v.ctx.index := by
    simp [TypeIndex.relocate, TypeEntry.relocate]
  simp [Visit.relocate, Context.relocate, hindex]

section Visits

variable {f}

/-- Directives apply alike. -/
theorem verdict_relocate {ctx : Context} (hf : f.Respects ctx.options) (d : Decl) :
    (ctx.relocate f).verdict (d.relocate f) = ctx.verdict d := by
  have hskip := Options.skipReason?_relocate hf d false ctx.scopes.inExport
  unfold Context.verdict
  rw [Decl.annotations_relocate]
  dsimp only [Context.relocate]
  rw [hskip]
  simp only [Decl.appliesTo_relocate]

theorem Visit.verdict_relocate {v : Visit} (hf : f.Respects v.ctx.options) :
    (v.relocate f).verdict = v.verdict :=
  Analysis.verdict_relocate hf v.decl

/-- The walk goes on into the same scopes. -/
theorem Visit.inside?_relocate {v : Visit} (hf : f.Respects v.ctx.options) :
    (v.relocate f).inside? = v.inside?.map (·.relocate f) := by
  unfold Visit.inside?
  rw [Visit.verdict_relocate hf]
  split
  · rfl
  · obtain ⟨ctx, d⟩ := v
    cases d with
    | nameSpace h decls => rfl
    | record h traits members =>
      have hvalid : ∀ a,
          ((ctx.relocate f).classRecord (h.relocate f) traits (members.map (·.relocate f)) a).isValid =
            (ctx.classRecord h traits members a).isValid := by
        intro a
        rw [classRecord_relocate]
        rfl
      dsimp only [Visit.relocate]
      rw [Decl.relocate, Decl.relocateAll_eq_map]
      dsimp only
      split
      · next a _ =>
        by_cases hclass : (ctx.classRecord h traits members a).isValid = true
        · rw [if_pos hclass]
          exact if_pos ((hvalid a).trans hclass)
        · rw [if_neg hclass]
          exact if_neg fun hmoved => hclass ((hvalid a).symm.trans hmoved)
      · rfl
    | _ => rfl

/-- A walk comes to the same declarations, wherever they stand. -/
theorem visits_relocate (ctx : Context) (hf : f.Respects ctx.options) (ds : List Decl) :
    visits (ctx.relocate f) (ds.map (·.relocate f)) = (visits ctx ds).map (·.relocate f) := by
  refine visits_map (Q := fun ctx => f.Respects ctx.options) ?_ ctx hf ds
  constructor
  case isMemberOnly => exact fun d => d.isMemberOnly_relocate f
  case children => exact fun d => d.children_relocate f
  case inside? => exact fun v hv => Visit.inside?_relocate hv
  case enters =>
    intro v inner hv hinside
    rw [(Visit.of_inside? hinside).2.1]
    exact hv

end Visits

end Analysis

end ScriptExport
