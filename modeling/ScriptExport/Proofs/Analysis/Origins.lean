import ScriptExport.Proofs.Analysis.Occurrences

/-!
# Where records come from

Every record of a result stands for something in the source. `Context.Represents` says what the record of
a declaration is and which types it shows, one case for each kind of declaration; `Visit.Makes` says which
records a visit can make: that of the declaration itself, those of the members that go onto it, the
properties that these members form, and the bindings to exported bases. What a record shows was looked at
before the record was made, so each of its types that could not be resolved has been reported
(`State.Explained`). Each elementary step keeps this, so it holds at the end of a walk.
-/

namespace ScriptExport

/-- The directive that counts for a declaration: the first valid one, if it can describe the
declaration. -/
def Decl.directive? (marker : String) (d : Decl) : Option Directive :=
  (parseAnnotations marker d.annotations).directive.filter (·.kind.appliesTo d)

/-- Whether a declaration is a member that is left out: it is marked, but no directive counts for it. -/
def Decl.isExcluded (marker : String) (d : Decl) : Bool :=
  d.isMemberOnly && (parseAnnotations marker d.annotations).isMarked && (d.directive? marker).isNone

variable {r : ExportRecord}

namespace Analysis

/-- The directive that counts is the one that applies. -/
theorem directive_verdict_eq (ctx : Context) (d : Decl) :
    (ctx.verdict d).directive = d.directive? ctx.options.marker := by
  unfold Context.verdict Decl.directive?
  dsimp only
  cases (parseAnnotations ctx.options.marker d.annotations).directive with
  | some a =>
    rw [Option.filter_some]
    dsimp only
    split <;> rfl
  | none =>
    dsimp only
    split
    · rfl
    · split <;> rfl

section Marks

variable {marker : String} {d : Decl}

theorem directive_markMember (hd : d.isMemberOnly = true) :
    (markMember marker d).mark.directive = d.directive? marker := by
  unfold markMember
  rw [if_pos hd]
  rfl

@[simp] theorem decl_markMember : (markMember marker d).decl = d := by
  unfold markMember
  split <;> rfl

/-- A mark leaves out what its declaration leaves out. -/
theorem isExcluded_markMember : (markMember marker d).mark.isExcluded = d.isExcluded marker := by
  unfold markMember Decl.isExcluded MemberMark.isExcluded
  cases hd : d.isMemberOnly with
  | false => rfl
  | true =>
    have hmarked : ∀ parsed : ParsedAnnotations, parsed.ignored = true → parsed.isMarked = true := by
      intro parsed h
      simp [ParsedAnnotations.isMarked, h]
    rw [if_pos rfl]
    dsimp only [Decl.directive?]
    cases hignored : (parseAnnotations marker d.annotations).ignored with
    | true => simp [hmarked _ hignored]
    | false => simp

theorem isExcluded_of_directive {a : Directive} (ha : d.directive? marker = some a) :
    d.isExcluded marker = false := by
  unfold Decl.isExcluded
  rw [ha]
  simp

end Marks

/-! ## The record of a declaration -/

/-- The record of an alias of a function type. -/
def Context.callbackRecord (ctx : Context) (h : Header) (target ret : TypeRef) (params : List TypeRef)
    (a : Directive) : ExportRecord :=
  { ctx.record .typeConverter h h.name (some a) with
    returnType := some ret.canonical.text
    parameterTypes := params.map (·.canonical.text)
    parameterNames := params.mapIdx fun i _ => "arg" ++ toString i
    valueType := some target.canonical.text }

/-- In the context the record stands for the declaration and shows the types. Under which name a
container goes and which value a constant has is not decided by the declaration alone. -/
inductive Context.Represents (ctx : Context) : Decl → ExportRecord → List TypeRef → Prop where
  | nameSpace {h : Header} {decls : List Decl} {a : Directive}
    (ha : (Decl.nameSpace h decls).directive? ctx.options.marker = some a) :
    ctx.Represents (.nameSpace h decls) (ctx.namespaceRecord h a) []
  | classType {h : Header} {traits : RecordTraits} {members : List Decl} {a : Directive}
    (ha : (Decl.record h traits members).directive? ctx.options.marker = some a) :
    ctx.Represents (.record h traits members) (ctx.classRecord h traits members a) []
  | function {h : Header} {c : Callable} {a : Directive} {kind : ExportKind}
    (ha : (Decl.function h c).directive? ctx.options.marker = some a)
    (hkind : kind = if a.kind = .operator then .operator else .function) :
    ctx.Represents (.function h c) (ctx.callableRecord kind h c (some a))
      (c.returnType :: c.params.map (·.type))
  | constructor (h : Header) (c : Callable) :
    ctx.Represents (.constructor h c)
      (ctx.callableRecord .constructor h c ((Decl.constructor h c).directive? ctx.options.marker))
      (c.params.map (·.type))
  | method (h : Header) (c : Callable) :
    ctx.Represents (.method h c)
      (ctx.callableRecord (methodKind h c) h c ((Decl.method h c).directive? ctx.options.marker))
      (c.returnType :: c.params.map (·.type))
  | constantVar {h : Header} {info : Variable} {a : Directive} (v : ConstantValue)
    (ha : (Decl.var h info).directive? ctx.options.marker = some a) :
    ctx.Represents (.var h info) (ctx.constantRecord h info.type v (some a)) [info.type]
  | propertyVar {h : Header} {info : Variable} {a : Directive}
    (ha : (Decl.var h info).directive? ctx.options.marker = some a) :
    ctx.Represents (.var h info) (ctx.variableRecord h info.type false info.isConst (some a))
      [info.type]
  | constantField (h : Header) (info : Field) (v : ConstantValue) :
    ctx.Represents (.field h info)
      (ctx.constantFieldRecord h info v ((Decl.field h info).directive? ctx.options.marker))
      [info.type]
  | propertyField (h : Header) (info : Field) :
    ctx.Represents (.field h info)
      (ctx.variableRecord h info.type info.isStatic info.isConst
        ((Decl.field h info).directive? ctx.options.marker))
      [info.type]
  | enumeration {h : Header} {info : Enumeration} {a : Directive} (enumerators : List Enumerator)
    (ha : (Decl.enumeration h info).directive? ctx.options.marker = some a) :
    ctx.Represents (.enumeration h info)
      { ctx.record .enumeration h h.name (some a) with enumerators } []
  | callback {h : Header} {target ret : TypeRef} {params : List TypeRef} {a : Directive}
    (ha : (Decl.typeAlias h target).directive? ctx.options.marker = some a)
    (hsignature : target.signature? = some (ret, params)) :
    ctx.Represents (.typeAlias h target) (ctx.callbackRecord h target ret params a)
      (ret :: params ++ [target])
  | container {h : Header} {target : TypeRef} {a : Directive} {qualifiedName : String}
    {detected kind : ContainerKind} {arguments elements : List TypeRef} (expected : ContainerKind)
    (scriptName : String) (ha : (Decl.typeAlias h target).directive? ctx.options.marker = some a)
    (hcontainer : target.container? ctx.options.containers = some (detected, arguments))
    (hshape : (containerShape h expected a.kind.name detected arguments).1 = (kind, elements))
    (hname : qualifiedName = ctx.scopes.qualifiedName h.name ∨
      qualifiedName = target.canonical.text) :
    ctx.Represents (.typeAlias h target)
      { ctx.containerRecord h a scriptName kind elements with qualifiedName } (target :: elements)

namespace Context.Represents

variable {ctx : Context} {d : Decl} {ts : List TypeRef}

/-- A record has the name and the place of its declaration. -/
theorem header_eq (h : ctx.Represents d r ts) : r.name = d.name ∧ r.location = d.location := by
  cases h <;> exact ⟨rfl, rfl⟩

/-- The scopes and the directive that counts give a record its owner, its namespace and its module. -/
theorem scopes_eq (h : ctx.Represents d r ts) : r.ownerType = ctx.scopes.owner?.getD "" ∧
    r.namespaceName = ctx.scopes.namespaceFor (d.directive? ctx.options.marker) ∧
    r.moduleName = ctx.scopes.moduleName := by
  cases h with
  | constructor | method | constantField | propertyField => exact ⟨rfl, rfl, rfl⟩
  | nameSpace ha | classType ha | function ha | constantVar _ ha | propertyVar ha | enumeration _ ha
  | callback ha | container _ _ ha =>
    rw [ha]
    exact ⟨rfl, rfl, rfl⟩

end Context.Represents

/-! ## Properties -/

/-- The property is formed by methods of the list that are not left out: `starter` asks for it and names
it, and the first of its accessors gives it its header. -/
structure PropertySpec.FormedFrom (marker : String) (list : List Decl) (starter : Decl)
    (spec : PropertySpec) : Prop where
  mem : starter ∈ list
  directive : starter.directive? marker = some spec.directive
  kind : spec.directive.kind = .property
  named : ∃ h c a, starter = .method h c ∧ Accessor.of? h.name c = some a ∧ spec.name = a.logicalName
  header : ∃ c, Decl.method spec.header c ∈ list ∧
    (Decl.method spec.header c).isExcluded marker = false
  accessors : ∀ x ∈ spec.getter.toList ++ spec.setter.toList, ∃ h c, Decl.method h c ∈ list ∧
    (Decl.method h c).isExcluded marker = false ∧ x = ⟨h.name, accessorType c⟩

/-- The property of an accessor with its partner. -/
theorem PropertySpec.FormedFrom.paired {marker : String} {list : List Decl} {starter : Decl}
    {spec : PropertySpec} (hspec : spec.FormedFrom marker list starter) {header : Header}
    (hheader : ∃ c, Decl.method header c ∈ list ∧ (Decl.method header c).isExcluded marker = false)
    {getter setter : AccessorMethod}
    (haccessors : ∀ x, x = getter ∨ x = setter → ∃ h c, Decl.method h c ∈ list ∧
      (Decl.method h c).isExcluded marker = false ∧ x = ⟨h.name, accessorType c⟩)
    (access : AccessMode) :
    { spec with header, getter := some getter, setter := some setter, access }.FormedFrom marker list
      starter :=
  { hspec with
    header := hheader
    accessors := fun x hx => haccessors x (by simpa using hx) }

/-- The properties of a plan are formed from a list. -/
def PropertyPlan.FormedFrom (marker : String) (list : List Decl) (p : PropertyPlan) : Prop :=
  ∀ spec, Slot.property spec ∈ p.slots → ∃ starter, spec.FormedFrom marker list starter

namespace PropertyPlan

variable {marker : String} {list : List Decl} {p : PropertyPlan}

theorem formedFrom_initial (members : List Member) : (initial members).FormedFrom marker list := by
  intro spec hspec
  obtain ⟨m, -, hm⟩ := List.mem_map.mp hspec
  cases hm

theorem FormedFrom.of_slots {q : PropertyPlan} (hp : p.FormedFrom marker list)
    (hslots : q.slots = p.slots) : q.FormedFrom marker list := by
  intro spec hspec
  rw [hslots] at hspec
  exact hp spec hspec

theorem FormedFrom.place (hp : p.FormedFrom marker list) {first : Nat} {other : Option Nat}
    {spec : PropertySpec} {starter : Decl} (hspec : spec.FormedFrom marker list starter) :
    (p.place first other spec).FormedFrom marker list := by
  intro spec' hmem
  rcases List.mem_or_eq_of_mem_set hmem with hmem | heq
  · cases other with
    | none => exact hp spec' hmem
    | some j =>
      rcases List.mem_or_eq_of_mem_set hmem with hmem | heq
      · exact hp spec' hmem
      · cases heq
  · cases heq
    exact ⟨starter, hspec⟩

/-- A partner is a method of the list that is not left out. -/
theorem of_partner? {i j : Nat} {isStatic : Bool} {a : Accessor} {h : Header} {c : Callable}
    (hfound : p.partner? (list.map (markMember marker)) i isStatic a = some (j, h, c)) :
    Decl.method h c ∈ list ∧ (Decl.method h c).isExcluded marker = false := by
  unfold partner? at hfound
  obtain ⟨⟨m, k⟩, hmem, hfound⟩ := List.exists_of_findSome?_eq_some hfound
  obtain ⟨d, hd, rfl⟩ := List.mem_map.mp (List.fst_mem_of_mem_zipIdx hmem)
  dsimp only at hfound
  split at hfound
  · next hpartner =>
    rw [decl_markMember] at hfound
    cases d with
    | method h' c' =>
      cases hfound
      refine ⟨hd, ?_⟩
      rw [← isExcluded_markMember]
      simp only [Member.isPartner, decl_markMember, Bool.and_eq_true, Bool.not_eq_true'] at hpartner
      exact hpartner.2.1.1.1.1.1
    | _ => cases hfound
  · cases hfound

section Form

variable {h : Header} {c : Callable} {directive : Directive} {a : Accessor}
  (hmem : Decl.method h c ∈ list)
  (hdirective : (Decl.method h c).directive? marker = some directive)
  (hkind : directive.kind = .property) (haccessor : Accessor.of? h.name c = some a)

include hmem hdirective hkind haccessor

theorem formedFrom_single : (single h c directive a).FormedFrom marker list (.method h c) where
  mem := hmem
  directive := hdirective
  kind := hkind
  named := ⟨h, c, a, rfl, haccessor, rfl⟩
  header := ⟨c, hmem, isExcluded_of_directive hdirective⟩
  accessors := by
    intro x hx
    refine ⟨h, c, hmem, isExcluded_of_directive hdirective, ?_⟩
    unfold single at hx
    cases hrole : a.role <;> simpa [hrole] using hx

/-- A new property is formed from methods of the list. -/
theorem FormedFrom.form (hp : p.FormedFrom marker list) (owner : String) (i : Nat) :
    (p.form owner (list.map (markMember marker)) i h c directive a).FormedFrom marker list := by
  have halone := formedFrom_single hmem hdirective hkind haccessor
  have hkept : (Decl.method h c).isExcluded marker = false := isExcluded_of_directive hdirective
  unfold PropertyPlan.form
  dsimp only
  split
  · refine FormedFrom.place ?_ halone
    exact hp.of_slots rfl
  · next j other otherCallable hpartner =>
    obtain ⟨hother, hotherKept⟩ := of_partner? hpartner
    generalize hpair : (if a.role = .getter then
        ((⟨h.name, accessorType c⟩, ⟨other.name, accessorType otherCallable⟩) :
          AccessorMethod × AccessorMethod)
      else (⟨other.name, accessorType otherCallable⟩, ⟨h.name, accessorType c⟩)) = pair
    have haccessors : ∀ x, x = pair.1 ∨ x = pair.2 → ∃ h c, Decl.method h c ∈ list ∧
        (Decl.method h c).isExcluded marker = false ∧ x = ⟨h.name, accessorType c⟩ := by
      intro x hx
      rw [← hpair] at hx
      split at hx
      · rcases hx with rfl | rfl
        · exact ⟨h, c, hmem, hkept, rfl⟩
        · exact ⟨other, otherCallable, hother, hotherKept, rfl⟩
      · rcases hx with rfl | rfl
        · exact ⟨other, otherCallable, hother, hotherKept, rfl⟩
        · exact ⟨h, c, hmem, hkept, rfl⟩
    split
    · -- the accessors agree on the type: the property stands at the place of the first one
      have hheader : ∃ c, Decl.method (if i < j then h else other) c ∈ list ∧
          (Decl.method (if i < j then h else other) c).isExcluded marker = false := by
        split
        · exact ⟨c, hmem, hkept⟩
        · exact ⟨otherCallable, hother, hotherKept⟩
      refine FormedFrom.place ?_ (halone.paired hheader haccessors _)
      exact hp.of_slots rfl
    · refine FormedFrom.place ?_ halone
      exact hp.of_slots rfl

end Form

/-- A look forms properties from methods of the list. -/
theorem FormedFrom.take (hp : p.FormedFrom marker list) (owner : String) {d : Decl} (hd : d ∈ list)
    (i : Nat) :
    (p.take owner (list.map (markMember marker)) (markMember marker d) i).FormedFrom marker list := by
  unfold PropertyPlan.take
  split
  · exact hp
  · rw [decl_markMember]
    split
    · next h c directive hdirective =>
      rw [directive_markMember rfl] at hdirective
      split
      · next hkind =>
        split
        · exact hp
        · next a haccessor =>
          split
          · intro spec hspec
            rcases List.mem_or_eq_of_mem_set hspec with hspec | heq
            · exact hp spec hspec
            · cases heq
          · exact hp.form hd hdirective hkind haccessor owner i
      · exact hp
    · exact hp

end PropertyPlan

/-- Planned properties are formed from the list that is planned. -/
theorem formedFrom_planProperties (marker owner : String) (list : List Decl) :
    (planProperties owner (list.map (markMember marker))).FormedFrom marker list := by
  unfold planProperties
  have hfold : ∀ (rest : List (Member × Nat)) (p : PropertyPlan), p.FormedFrom marker list →
      (∀ x ∈ rest, ∃ d ∈ list, x.1 = markMember marker d) →
      (rest.foldl (fun p x => p.take owner (list.map (markMember marker)) x.1 x.2) p).FormedFrom
        marker list := by
    intro rest
    induction rest with
    | nil => exact fun p hp _ => hp
    | cons x rest ih =>
      intro p hp hrest
      obtain ⟨hx, hrest⟩ := List.forall_mem_cons.mp hrest
      obtain ⟨d, hd, hmark⟩ := hx
      rw [List.foldl_cons, hmark]
      exact ih _ (hp.take owner hd x.2) hrest
  refine hfold _ _ (PropertyPlan.formedFrom_initial _) ?_
  intro x hx
  obtain ⟨d, hd, hmark⟩ := List.mem_map.mp (List.fst_mem_of_mem_zipIdx hx)
  exact ⟨d, hd, hmark.symm⟩

/-! ## Members -/

section Members

variable {marker : String} {owner : Owner} {source : MemberSource} {d : Decl} {h : Header}

/-- A member that contributes a record is not left out, and its declaration decides which one. -/
theorem declaredAction_of_memberAction {action : MemberAction}
    (haction : memberAction owner source (markMember marker d) = action) (hnothing : action ≠ .nothing)
    (hskip : ∀ reason, action ≠ .skip reason) :
    d.isMemberOnly = true ∧ d.isExcluded marker = false ∧
      ∃ explicit, declaredAction owner source explicit d = action := by
  rw [← isExcluded_markMember]
  unfold memberAction at haction
  rw [decl_markMember] at haction
  split at haction
  · exact (hnothing haction.symm).elim
  · next hmember =>
    have hmember : d.isMemberOnly = true := by simpa using hmember
    split at haction
    · exact (hskip _ haction.symm).elim
    · next hignored =>
      split at haction
      · exact (hskip _ haction.symm).elim
      · next hrejected =>
        have hkept : (markMember marker d).mark.isExcluded = false := by
          simp [MemberMark.isExcluded, hignored, hrejected]
        split at haction
        · exact ⟨hmember, hkept, true, haction⟩
        · split at haction
          · exact (hnothing haction.symm).elim
          · split at haction
            · exact (hskip _ haction.symm).elim
            · split at haction
              · exact (hskip _ haction.symm).elim
              · exact ⟨hmember, hkept, false, haction⟩

/-- A member is exported as a callable if it is one. -/
theorem callable_of_memberAction {kind : ExportKind} {c : Callable}
    (haction : memberAction owner source (markMember marker d) = .callable kind h c) :
    d.isMemberOnly = true ∧ d.isExcluded marker = false ∧
      (d = .constructor h c ∧ kind = .constructor ∨ d = .method h c ∧ kind = methodKind h c) := by
  obtain ⟨hmember, hkept, explicit, hdeclared⟩ :=
    declaredAction_of_memberAction haction (by simp) (by simp)
  refine ⟨hmember, hkept, ?_⟩
  unfold declaredAction at hdeclared
  split at hdeclared
  · split at hdeclared
    · cases hdeclared
    · cases hdeclared
      exact .inl ⟨rfl, rfl⟩
  · split at hdeclared
    · cases hdeclared
    · split at hdeclared
      · cases hdeclared
      · cases hdeclared
        exact .inr ⟨rfl, rfl⟩
  · split at hdeclared <;> cases hdeclared
  · cases hdeclared

/-- A member is exported as a field if it is one. -/
theorem field_of_memberAction {info : Field}
    (haction : memberAction owner source (markMember marker d) = .field h info) :
    d.isMemberOnly = true ∧ d.isExcluded marker = false ∧ d = .field h info := by
  obtain ⟨hmember, hkept, explicit, hdeclared⟩ :=
    declaredAction_of_memberAction haction (by simp) (by simp)
  refine ⟨hmember, hkept, ?_⟩
  unfold declaredAction at hdeclared
  split at hdeclared
  · split at hdeclared <;> cases hdeclared
  · split at hdeclared
    · cases hdeclared
    · split at hdeclared <;> cases hdeclared
  · split at hdeclared
    · cases hdeclared
    · cases hdeclared
      rfl
  · cases hdeclared

theorem callableTypes_methodKind (h : Header) (c : Callable) :
    callableTypes (methodKind h c) c = c.returnType :: c.params.map (·.type) := by
  unfold callableTypes methodKind
  split
  · rfl
  · split <;> rfl

end Members

/-! ## What a visit makes -/

/-- The lists of members that a visit goes through: those of the record and, if it is an exported class,
those of the bases that it takes the members of. -/
def Visit.memberLists (v : Visit) : List (List Decl) :=
  match v.decl with
  | .record h traits members =>
    members :: match v.decl.directive? v.ctx.options.marker with
      | some _ =>
        ((v.ctx.index.ancestry [v.ctx.scopes.qualifiedName h.name] v.ctx.scopes.path
          traits.bases).filter (fun e => !e.annotated)).map (·.decl.children)
      | none => []
  | _ => []

theorem Visit.memberLists_of_class {v : Visit} {h : Header} {traits : RecordTraits}
    {members : List Decl} {a : Directive} (hdecl : v.decl = .record h traits members)
    (ha : v.decl.directive? v.ctx.options.marker = some a) :
    v.memberLists = members :: ((v.ctx.index.ancestry [v.ctx.scopes.qualifiedName h.name]
      v.ctx.scopes.path traits.bases).filter (fun e => !e.annotated)).map (·.decl.children) := by
  unfold Visit.memberLists
  rw [ha, hdecl]

/-- The record that a visit can make, for the declaration itself or for one of its members, with the
header under which its types are looked at. -/
inductive Visit.Makes (v : Visit) : Option Decl → ExportRecord → Header → List TypeRef → Prop where
  | itself {r : ExportRecord} {ts : List TypeRef} (h : v.ctx.Represents v.decl r ts) :
    v.Makes none r v.decl.header ts
  | binding {h : Header} {traits : RecordTraits} {members : List Decl} {a : Directive} {e : TypeEntry}
    (hdecl : v.decl = .record h traits members)
    (ha : v.decl.directive? v.ctx.options.marker = some a)
    (he : e ∈ v.ctx.index.ancestry [v.ctx.scopes.qualifiedName h.name] v.ctx.scopes.path traits.bases)
    (hannotated : e.annotated = true) :
    v.Makes none
      ((v.ctx.enterClass h a).inheritRecord h (v.ctx.scopes.qualifiedName h.name) e) h []
  | member {list : List Decl} {m : Decl} {r : ExportRecord} {ts : List TypeRef}
    (hlist : list ∈ v.memberLists) (hm : m ∈ list)
    (hkept : m.isExcluded v.ctx.options.marker = false)
    (h : (v.ctx.inside v.decl).Represents m r ts) :
    v.Makes (some m) r m.header ts
  | property {list : List Decl} {m : Decl} {spec : PropertySpec} (hlist : list ∈ v.memberLists)
    (hformed : spec.FormedFrom v.ctx.options.marker list m) :
    v.Makes (some m) ((v.ctx.inside v.decl).propertyRecord spec) spec.header spec.type?.toList

/-! ## Explained states -/

/-- The types that could not be resolved have been reported under the header. -/
def State.Reports (s : State) (h : Header) (ts : List TypeRef) : Prop :=
  ∀ t ∈ ts, t.canonical.resolved = false →
    State.unresolvedType h t.canonical.text ∈ s.diagnostics.toList

/-- Every record comes from somewhere, and what it shows has been reported. -/
def State.Explained (O : ExportRecord → Header → List TypeRef → Prop) (s : State) : Prop :=
  ∀ r ∈ s.records.toList, ∃ h ts, O r h ts ∧ s.Reports h ts

namespace State

variable {O : ExportRecord → Header → List TypeRef → Prop} {P : ExportRecord → Prop} {s t : State}
  {h : Header} {ts us : List TypeRef}

/-- What was reported stays reported. -/
theorem Reports.of_changes (hs : s.Reports h ts) (hchanges : s.Changes P t) : t.Reports h ts :=
  fun t ht hresolved => hchanges.extends.diagnostics.subset (hs t ht hresolved)

theorem reports_nil : s.Reports h [] := by
  intro t ht
  cases ht

theorem Reports.append (hts : s.Reports h ts) (hus : s.Reports h us) : s.Reports h (ts ++ us) := by
  intro t ht
  rcases List.mem_append.mp ht with ht | ht
  · exact hts t ht
  · exact hus t ht

theorem reports_useType (s : State) (h : Header) (t : TypeRef) : (s.useType h t).Reports h [t] := by
  intro t' ht' hresolved
  obtain rfl := List.mem_singleton.mp ht'
  unfold useType
  dsimp only
  rw [if_neg (by simp [hresolved])]
  simp [report, log, note]

theorem reports_useTypes (s : State) (h : Header) (ts : List TypeRef) :
    (s.useTypes h ts).Reports h ts := by
  induction ts generalizing s with
  | nil => exact reports_nil
  | cons t ts ih =>
    have hhead : (s.useTypes h (t :: ts)).Reports h [t] :=
      (reports_useType s h t).of_changes (changes_useTypes (P := fun _ => False) (s.useType h t) h ts)
    exact hhead.append (ih (s.useType h t))

/-- Changes without new records keep a state explained. -/
theorem Explained.of_changes (hs : s.Explained O) (hchanges : s.Changes (fun _ => False) t) :
    t.Explained O := by
  intro r hr
  rw [hchanges.sameResult.records] at hr
  obtain ⟨h, ts, hO, hreports⟩ := hs r hr
  exact ⟨h, ts, hO, hreports.of_changes hchanges⟩

/-- A record whose types have been reported may be offered. -/
theorem Explained.emit (hs : s.Explained O) (hO : O r h ts) (hreports : s.Reports h ts) :
    (s.emit r).Explained O := by
  have hchanges : s.Changes (fun _ => True) (s.emit r) := changes_emit s trivial
  intro r' hr'
  have hcases : r' ∈ s.records.toList ∨ r' = r := by
    unfold State.emit at hr'
    split at hr'
    · exact .inl hr'
    · split at hr'
      · exact .inl hr'
      · simpa [State.push, State.log, State.note] using hr'
  rcases hcases with hr' | rfl
  · obtain ⟨h', ts', hO', hreports'⟩ := hs r' hr'
    exact ⟨h', ts', hO', hreports'.of_changes hchanges⟩
  · exact ⟨h, ts, hO, hreports.of_changes hchanges⟩

end State

/-! ## One step -/

/-- The step keeps states explained. -/
def Keeps (O : ExportRecord → Header → List TypeRef → Prop) (step : Step) : Prop :=
  ∀ x : Surface, x.state.Explained O → (step x).state.Explained O

section Steps

variable {O : ExportRecord → Header → List TypeRef → Prop}

theorem keeps_of_changes {f : State → State}
    (hf : ∀ s : State, s.Changes (fun _ => False) (f s)) :
    Keeps O (Surface.onState f) :=
  fun x hx => State.Explained.of_changes hx (hf x.state)

theorem keeps_emit {h : Header} (hr : O r h []) : Keeps O (Surface.onState (·.emit r)) :=
  fun _ hx => State.Explained.emit hx hr State.reports_nil

section Leaves

variable {ctx : Context} {h : Header} {a : Directive} {s : State}

theorem explained_exportFunction {c : Callable}
    (hO : ∀ r ts, ctx.Represents (.function h c) r ts → O r h ts)
    (ha : (Decl.function h c).directive? ctx.options.marker = some a) (hs : s.Explained O) :
    (exportFunction ctx h c a s).Explained O := by
  unfold exportFunction
  split
  · exact hs.of_changes (changes_skip _ _ _)
  · dsimp only
    have htypes : callableTypes (if a.kind = .operator then .operator else .function) c =
        c.returnType :: c.params.map (·.type) := by
      split <;> rfl
    rw [htypes]
    refine (hs.of_changes (changes_useTypes _ _ _)).emit ?_ (State.reports_useTypes _ _ _)
    exact hO _ _ (.function ha rfl)

theorem explained_exportVariable {info : Variable}
    (hO : ∀ r ts, ctx.Represents (.var h info) r ts → O r h ts)
    (ha : (Decl.var h info).directive? ctx.options.marker = some a) (hs : s.Explained O) :
    (exportVariable ctx h info a s).Explained O := by
  have hused := hs.of_changes (changes_useType s h info.type)
  have hreports := State.reports_useType s h info.type
  unfold exportVariable
  dsimp only
  split
  · have hbind := fun name qualifiedName v => changes_bindConstant (P := fun _ => False)
      (s.useType h info.type) name qualifiedName v
    exact (hused.of_changes (hbind _ _ _)).emit (hO _ _ (.constantVar _ ha))
      (hreports.of_changes (hbind _ _ _))
  · exact hused.emit (hO _ _ (.propertyVar ha)) hreports

theorem explained_exportEnum {info : Enumeration}
    (hO : ∀ r ts, ctx.Represents (.enumeration h info) r ts → O r h ts)
    (ha : (Decl.enumeration h info).directive? ctx.options.marker = some a) (hs : s.Explained O) :
    (exportEnum ctx h info a s).Explained O := by
  unfold exportEnum
  dsimp only
  refine State.Explained.emit ?_ (hO _ _ (.enumeration _ ha)) State.reports_nil
  exact (hs.of_changes (changes_reportAll s _)).of_changes (.of_change (.constants _ _))

variable {target : TypeRef} (hO : ∀ r ts, ctx.Represents (.typeAlias h target) r ts → O r h ts)
  (ha : (Decl.typeAlias h target).directive? ctx.options.marker = some a)
include hO ha

theorem explained_exportCallback (hs : s.Explained O) :
    (exportCallback ctx h target a s).Explained O := by
  unfold exportCallback
  split
  · exact hs.of_changes (changes_report _ _)
  · next ret params hsignature =>
    refine (hs.of_changes (changes_useTypes _ _ _)).emit ?_ (State.reports_useTypes _ _ _)
    exact hO _ _ (.callback ha hsignature)

omit ha hO in
/-- A container is offered after its element types have been looked at. -/
theorem explained_emitContainer {elements : List TypeRef} (hr : O r h (target :: elements))
    (hs : s.Explained O) (hreports : s.Reports h [target]) (instantiation : Option String) :
    ((s.useTypes h elements).emitContainer r instantiation).Explained O := by
  have hused := changes_useTypes (P := fun _ => False) s h elements
  have hemit : ((s.useTypes h elements).emit r).Explained O :=
    (hs.of_changes hused).emit hr
      ((hreports.of_changes hused).append (State.reports_useTypes s h elements))
  unfold State.emitContainer
  split
  · -- what is registered beside the record shows in no record and in no diagnostic
    exact hemit
  · exact hemit

/-- A container record comes from its alias. -/
theorem explained_exportContainer (expected : ContainerKind) (hs : s.Explained O) :
    (exportContainer ctx h target a expected s).Explained O := by
  unfold exportContainer
  split
  · exact hs.of_changes (changes_report _ _)
  · next detected arguments hcontainer =>
    dsimp only
    have hreported := changes_reportAll (P := fun _ => False) s
      (containerShape h expected a.kind.name detected arguments).2
    have hused := (hs.of_changes hreported).of_changes (changes_useType _ h target)
    have hreports := State.reports_useType
      (s.reportAll (containerShape h expected a.kind.name detected arguments).2) h target
    split
    · unfold exportView
      split
      · exact hused.of_changes (changes_report _ _)
      · refine explained_emitContainer (hO _ _ ?_) hused hreports _
        exact .container expected _ ha hcontainer rfl (.inl rfl)
    · unfold exportInstantiation
      split
      · exact hused.of_changes (changes_report _ _)
      · dsimp only
        have hnamed := fun generated instantiation => changes_uniqueContainerName (P := fun _ => False)
          ((s.reportAll (containerShape h expected a.kind.name detected arguments).2).useType h target)
          h generated instantiation
        refine explained_emitContainer (hO _ _ ?_) (hused.of_changes (hnamed _ _))
          (hreports.of_changes (hnamed _ _)) _
        exact .container expected _ ha hcontainer rfl (.inr rfl)

end Leaves

/-- What a leaf adds comes from it. -/
theorem explained_exportLeaf {ctx : Context} {d : Decl} {a : Directive}
    (hO : ∀ r ts, ctx.Represents d r ts → O r d.header ts)
    (ha : d.directive? ctx.options.marker = some a) {s : State} (hs : s.Explained O) :
    (exportLeaf ctx d a s).Explained O := by
  unfold exportLeaf
  split
  · exact explained_exportFunction hO ha hs
  · exact explained_exportVariable hO ha hs
  · exact explained_exportEnum hO ha hs
  · unfold exportAlias
    split
    · exact explained_exportCallback hO ha hs
    · exact explained_exportContainer hO ha _ hs
    · exact explained_exportContainer hO ha _ hs
    · exact hs
  · exact hs

section Lists

variable {ctx : Context} {owner : Owner} {source : MemberSource}

theorem explained_add {x : Surface} {h : Header} {ts : List TypeRef} (hr : O r h ts)
    (hx : x.state.Explained O) (hreports : x.state.Reports h ts) :
    (x.add ctx owner source r).state.Explained O := by
  unfold Surface.add
  split
  · exact hx.of_changes (changes_reportAll _ _)
  · have hnoted := changes_noteInherited (P := fun _ => False) x.state owner source r.name
    exact (hx.of_changes hnoted).emit hr (hreports.of_changes hnoted)

variable {list : List Decl}
  (hmember : ∀ m ∈ list, m.isExcluded ctx.options.marker = false →
    ∀ r ts, ctx.Represents m r ts → O r m.header ts)
  (hproperty : ∀ starter spec, spec.FormedFrom ctx.options.marker list starter →
    O (ctx.propertyRecord spec) spec.header spec.type?.toList)

include hmember in
/-- What a member adds comes from it. -/
theorem explained_addMember {d : Decl} (hd : d ∈ list) {x : Surface} (hx : x.state.Explained O) :
    (x.addMember ctx owner source (markMember ctx.options.marker d)).state.Explained O := by
  unfold Surface.addMember
  split
  · exact hx
  · exact hx.of_changes (changes_skip _ _ _)
  · next kind h c haction =>
    obtain ⟨honly, hkept, hdecl⟩ := callable_of_memberAction haction
    rw [directive_markMember honly]
    have hused := hx.of_changes (changes_useTypes x.state h (callableTypes kind c))
    refine explained_add ?_ hused (State.reports_useTypes _ _ _)
    rcases hdecl with ⟨rfl, rfl⟩ | ⟨rfl, rfl⟩
    · exact hmember _ hd hkept _ _ (.constructor h c)
    · rw [callableTypes_methodKind]
      exact hmember _ hd hkept _ _ (.method h c)
  · next h info haction =>
    obtain ⟨honly, hkept, rfl⟩ := field_of_memberAction haction
    rw [directive_markMember honly]
    have hused := hx.of_changes (changes_useType x.state h info.type)
    have hreports := State.reports_useType x.state h info.type
    unfold Surface.addField
    dsimp only
    split
    · have hbind := fun name qualifiedName v => changes_bindConstant (P := fun _ => False)
        (x.state.useType h info.type) name qualifiedName v
      exact explained_add (hmember _ hd hkept _ _ (.constantField h info _))
        (hused.of_changes (hbind _ _ _)) (hreports.of_changes (hbind _ _ _))
    · exact explained_add (hmember _ hd hkept _ _ (.propertyField h info)) hused hreports

include hmember hproperty in
/-- The steps of a member list keep records explained. -/
theorem keeps_memberSteps : ∀ step ∈ memberSteps ctx owner source list, Keeps O step := by
  intro step hstep
  unfold memberSteps at hstep
  rcases List.mem_append.mp hstep with hstep | hstep
  · split at hstep
    · cases hstep
    · rcases List.mem_append.mp hstep with hstep | hstep
      · obtain ⟨d, -, rfl⟩ := List.mem_map.mp hstep
        exact keeps_of_changes fun s => changes_visitMember s _ d
      · obtain ⟨d, -, rfl⟩ := List.mem_map.mp hstep
        exact keeps_of_changes fun s => changes_report s d
  · obtain ⟨⟨m, slot⟩, hplace, rfl⟩ := List.mem_map.mp hstep
    obtain ⟨hm, hslot⟩ := List.of_mem_zip hplace
    obtain ⟨d, hd, rfl⟩ := List.mem_map.mp hm
    intro x hx
    cases slot with
    | absorbed => exact hx
    | property spec =>
      obtain ⟨starter, hformed⟩ := formedFrom_planProperties _ _ _ spec hslot
      exact explained_add (hproperty starter spec hformed) (hx.of_changes (changes_useTypes _ _ _))
        (State.reports_useTypes _ _ _)
    | member => exact explained_addMember hmember hd hx

end Lists

end Steps

/-! ## Walks -/

section Visits

variable {O : ExportRecord → Header → List TypeRef → Prop} {v : Visit}
  (hO : ∀ m r h ts, v.Makes m r h ts → O r h ts)
include hO

/-- The steps that export one of the member lists of a visit. -/
theorem Visit.keeps_memberSteps {list : List Decl} (hlist : list ∈ v.memberLists) {inside : Context}
    (hinside : v.ctx.inside v.decl = inside) (owner : Owner) (source : MemberSource) :
    ∀ step ∈ memberSteps inside owner source list, Keeps O step := by
  obtain ⟨kind, placement, exported, henter⟩ := inside_eq_enter v.ctx v.decl
  have hmarker : inside.options.marker = v.ctx.options.marker := by
    rw [← hinside, henter]
    rfl
  refine Analysis.keeps_memberSteps ?_ ?_
  · intro m hm hkept r ts hr
    rw [hmarker] at hkept
    exact hO _ _ _ _ (.member hlist hm hkept (hinside ▸ hr))
  · intro starter spec hformed
    rw [hmarker] at hformed
    exact hinside ▸ hO _ _ _ _ (.property hlist hformed)

/-- The steps of a class keep records explained. -/
theorem Visit.keeps_classSteps {h : Header} {traits : RecordTraits} {members : List Decl} {a : Directive}
    (hdecl : v.decl = .record h traits members)
    (ha : v.decl.directive? v.ctx.options.marker = some a) :
    ∀ step ∈ classSteps v.ctx h traits members a, Keeps O step := by
  have hinside : v.ctx.inside v.decl = v.ctx.enterClass h a := by
    unfold Context.inside
    rw [directive_verdict_eq, ha, hdecl]
    rfl
  have hlists := Visit.memberLists_of_class hdecl ha
  intro step hstep
  unfold classSteps at hstep
  rcases List.mem_append.mp hstep with hstep | hstep
  · obtain ⟨e, he, rfl⟩ := List.mem_map.mp hstep
    obtain ⟨he, hannotated⟩ := List.mem_filter.mp he
    exact keeps_emit (hO _ _ _ _ (.binding hdecl ha he hannotated))
  · rcases List.mem_append.mp hstep with hstep | hstep
    · refine Visit.keeps_memberSteps hO ?_ hinside _ _ step hstep
      rw [hlists]
      exact List.mem_cons_self
    · obtain ⟨e, he, hstep⟩ := List.mem_flatMap.mp hstep
      refine Visit.keeps_memberSteps hO ?_ hinside _ _ step hstep
      rw [hlists]
      exact List.mem_cons_of_mem _ (List.mem_map_of_mem he)

/-- Each step of a visit offers what the visit can make. -/
theorem Visit.keeps_steps : ∀ step ∈ v.steps, Keeps O step := by
  intro step hstep
  unfold Visit.steps at hstep
  rcases List.mem_cons.mp hstep with rfl | hstep
  · exact keeps_of_changes fun s => changes_visit s v.ctx v.decl
  · split at hstep
    · cases hstep
    · have hitself : ∀ r ts, v.ctx.Represents v.decl r ts → O r v.decl.header ts :=
        fun r ts hr => hO _ _ _ _ (.itself hr)
      rw [show v.verdict.directive = v.decl.directive? v.ctx.options.marker from
        directive_verdict_eq v.ctx v.decl] at hstep
      cases ha : v.decl.directive? v.ctx.options.marker with
      | none =>
        rw [ha] at hstep
        cases hdecl : v.decl with
        | record h traits members =>
          have hinside : v.ctx.inside v.decl = v.ctx.enterRecord h := by
            unfold Context.inside
            rw [directive_verdict_eq, ha, hdecl]
            rfl
          rw [hdecl] at hstep
          rcases List.mem_cons.mp hstep with rfl | hstep
          · exact fun x hx => hx
          · refine Visit.keeps_memberSteps hO ?_ hinside _ _ step hstep
            unfold Visit.memberLists
            rw [hdecl]
            exact List.mem_cons_self
        | _ =>
          rw [hdecl] at hstep
          cases hstep
      | some a =>
        rw [ha] at hstep
        cases hdecl : v.decl with
        | nameSpace h decls =>
          rw [hdecl] at hstep hitself ha
          rw [List.mem_singleton.mp hstep]
          exact keeps_emit (hitself _ _ (.nameSpace ha))
        | record h traits members =>
          rw [hdecl] at hstep
          rcases List.mem_cons.mp hstep with rfl | hstep
          · rw [hdecl] at hitself ha
            exact keeps_emit (hitself _ _ (.classType ha))
          · split at hstep
            · rcases List.mem_cons.mp hstep with rfl | hstep
              · exact fun x hx => hx
              · exact Visit.keeps_classSteps hO hdecl ha step hstep
            · cases hstep
        | _ =>
          rw [hdecl] at hstep hitself ha
          rw [List.mem_singleton.mp hstep]
          exact fun x hx => explained_exportLeaf hitself ha hx

end Visits

/-- Every record of a walk was made by one of its visits, and its types have been reported. -/
theorem explained_runVisits {O : ExportRecord → Header → List TypeRef → Prop} {vs : List Visit}
    (hO : ∀ v ∈ vs, ∀ m r h ts, v.Makes m r h ts → O r h ts) {s : State} (hs : s.Explained O) :
    (runVisits vs s).Explained O := by
  induction vs generalizing s with
  | nil => exact hs
  | cons v vs ih =>
    obtain ⟨hv, hvs⟩ := List.forall_mem_cons.mp hO
    have hsteps : ∀ (steps : List Step) (x : Surface), (∀ step ∈ steps, Keeps O step) →
        x.state.Explained O → (runSteps steps x).state.Explained O := by
      intro steps
      induction steps with
      | nil => exact fun x _ hx => hx
      | cons step steps ih =>
        intro x hkeeps hx
        obtain ⟨hstep, hkeeps⟩ := List.forall_mem_cons.mp hkeeps
        exact ih (step x) hkeeps (hstep x hx)
    rw [runVisits_cons]
    refine ih hvs ?_
    have hrun := hsteps v.steps { state := s } (Visit.keeps_steps hv) hs
    rwa [v.runSteps_steps] at hrun

/-! ## Units -/

/-- The place of a member of the declaration, or of the declaration itself. -/
def Occurrence.atMember (p : Occurrence) : Option Decl → Occurrence
  | some m => ⟨p.decl :: p.around, m⟩
  | none => p

theorem Occurrence.of_visit? {ctx : Context} {p : Occurrence} {v : Visit}
    (h : p.visit? ctx = some v) : v = ⟨ctx.within p.around, p.decl⟩ := by
  unfold Occurrence.visit? at h
  split at h
  · cases h
  · exact (Option.some.inj h).symm

/-- Every record of a unit was made at a declaration that the walk comes to, and its types have been
reported. -/
theorem exists_makes_of_mem_records {o : Options} {u : TranslationUnit}
    (hr : r ∈ (finalState o u).records.toList) :
    ∃ p ∈ occurrences [] u.decls, ∃ v m h ts, p.visit? (Context.ofUnit o u) = some v ∧
      v.Makes m r h ts ∧ (finalState o u).Reports h ts := by
  let O := fun r h ts => ∃ v ∈ visits (Context.ofUnit o u) u.decls, ∃ m, v.Makes m r h ts
  have hstart : ({} : State).Explained O := by
    intro r hr
    cases hr
  have hexplained : (finalState o u).Explained O := by
    rw [finalState_eq_runVisits]
    exact explained_runVisits (fun v hv m r h ts hmakes => ⟨v, hv, m, hmakes⟩) hstart
  obtain ⟨h, ts, ⟨v, hv, m, hmakes⟩, hreports⟩ := hexplained r hr
  obtain ⟨p, hp, hvisit⟩ := mem_visits_iff.mp hv
  exact ⟨p, hp, v, m, h, ts, hvisit, hmakes, hreports⟩

end Analysis

end ScriptExport
