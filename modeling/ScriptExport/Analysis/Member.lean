import ScriptExport.Analysis.Callable
import ScriptExport.Analysis.Property
import ScriptExport.Analysis.Value

/-!
# Members of a class

How the members of a record reach a class. A class takes its own members first and then those of its
unexported bases; `memberAction` decides what a single member contributes, and `Surface.add` gives each
member key to the first member that asks for it.
-/

namespace ScriptExport.Analysis

/-- The modifier of an exported class. -/
inductive ClassKind where
  | plain
  | staticOnly
  | singleton
  | abstractClass
deriving DecidableEq, Repr

/-- Whether the declaration is a pure method. -/
def isPureMethod : Decl → Bool
  | .method _ c => c.isPure
  | _ => false

/-- The modifier that the directive states, or else the one that the declaration shows. -/
def ClassKind.of (kind : DirectiveKind) (isAbstract : Bool) (members : List Decl) : ClassKind :=
  match kind with
  | .staticClass => .staticOnly
  | .singleton => .singleton
  | .abstractClass => .abstractClass
  | _ => if isAbstract || members.any isPureMethod then .abstractClass else .plain

/-- The value of the attribute that shows the modifier. -/
def ClassKind.attribute? : ClassKind → Option String
  | plain => none
  | staticOnly => some "static_class"
  | singleton => some "singleton"
  | abstractClass => some "abstract_class"

/-- The type that members are exported onto. -/
structure Owner where
  qualifiedName : String
  classKind : ClassKind := .plain
  /-- Public members are exported without a directive of their own. -/
  auto : Bool := false
deriving DecidableEq, Repr

/-- Where a member was declared. -/
inductive MemberSource where
  | own
  /-- On the unexported base with this qualified name. -/
  | inherited (base : String)
deriving DecidableEq, Repr

/-- Whether the member comes from a base. -/
def MemberSource.isInherited : MemberSource → Bool
  | own => false
  | inherited _ => true

/-- The member of a record with what its annotations mean. Nested types are no members and are never
marked. -/
def markMember (marker : String) (d : Decl) : Member :=
  if d.isMemberOnly then
    let parsed := parseAnnotations marker d.annotations
    let directive := parsed.directive.filter (·.kind.appliesTo d)
    { decl := d
      mark :=
        { directive
          ignored := parsed.ignored && directive.isNone
          rejected := parsed.isMarked && !parsed.ignored && directive.isNone } }
  else { decl := d }

/-- The kind of record that a method makes. -/
def methodKind (h : Header) (c : Callable) : ExportKind :=
  if (Naming.operatorToken? h.name).isSome then .operator
  else if c.isStatic then .staticMethod
  else .method

/-- What a member that belongs to no property contributes. -/
inductive MemberAction where
  | nothing
  | skip (reason : SkipReason)
  | callable (kind : ExportKind) (h : Header) (c : Callable)
  | field (h : Header) (info : Field)

/-- What a member contributes that may be exported as far as its own header goes. -/
def declaredAction (owner : Owner) (source : MemberSource) (explicit : Bool) : Decl → MemberAction
  | .constructor h c =>
    if source.isInherited || c.isDeleted || owner.classKind ≠ .plain then .skip .constructor
    else .callable .constructor h c
  | .method h c =>
    if c.isDeleted then .skip .deleted
    else if owner.classKind = .staticOnly && !explicit && !c.isStatic then .skip .staticClass
    else .callable (methodKind h c) h c
  | .field h info =>
    if owner.classKind = .staticOnly && !explicit && !info.isStatic then .skip .staticClass
    else .field h info
  | _ => .nothing

/-- What a member contributes. Without a directive it must be public and written in the source, and
its owner must export its members by itself. -/
def memberAction (owner : Owner) (source : MemberSource) (m : Member) : MemberAction :=
  if !m.decl.isMemberOnly then .nothing
  else if m.mark.ignored then .skip .ignored
  else if m.mark.rejected then .skip .rejectedDirective
  else if m.mark.directive.isSome then declaredAction owner source true m.decl
  else if !owner.auto then .nothing
  else if m.decl.header.implicit then .skip .implicit
  else if !m.decl.header.access.isPublic then .skip .nonPublic
  else declaredAction owner source false m.decl

/-- Whether a data member is exported as a constant. -/
def isConstantField (directive : Option Directive) (info : Field) : Bool :=
  match directive with
  | some a => a.kind = .constant
  | none => info.isStatic && info.isConst

/-- The record of a data member that is exported as a constant. -/
def Context.constantFieldRecord (ctx : Context) (h : Header) (info : Field) (v : ConstantValue)
    (directive : Option Directive) : ExportRecord :=
  { ctx.constantRecord h info.type v directive with isStatic := info.isStatic }

/-- The members that a type has so far. -/
structure Surface where
  state : State
  /-- The member keys that are taken, and where their members come from. -/
  claimed : OrderedMap String MemberSource := {}
  /-- The members that took a key and were offered to the result, in order. -/
  offered : Array ExportRecord := #[]

/-- The key under which a member competes with others of its class. -/
def surfaceKey (r : ExportRecord) : String :=
  if r.kind = .property then "property " ++ r.name else r.memberKey

/-- What is wrong with a member whose key is taken. A member that another one hides is in order: an own
one hides any inherited one, and one of a derived base hides those of the bases above it. -/
def clash? (index : TypeIndex) (owner : Owner) (r : ExportRecord) :
    (earlier later : MemberSource) → Option Diagnostic
  | .own, .own =>
    if r.kind = .property then
      some
        { kind := .duplicateMember
          message := "property '" ++ r.name ++ "' of " ++ owner.qualifiedName
            ++ " is declared more than once"
          location := r.location }
    else none
  | .inherited earlier, .inherited base =>
    if earlier = base || !index.derivesFrom earlier base then
      some
        { kind := .duplicateMember
          message := "'" ++ surfaceKey r ++ "' reaches " ++ owner.qualifiedName
            ++ " through more than one base (" ++ earlier ++ " and " ++ base
            ++ "), later copy dropped"
          location := r.location }
    else none
  | _, _ => none

/-- Note that a member of a base goes onto a type; the own members of a type are not noted. -/
def State.noteInherited (owner : Owner) (source : MemberSource) (member : String) (s : State) :
    State :=
  match source with
  | .own => s
  | .inherited base => s.log (.inherited owner.qualifiedName base member)

namespace Surface

/-- Change the state only. -/
def onState (f : State → State) (surface : Surface) : Surface :=
  { surface with state := f surface.state }

/-- Offer a member to the type: the first one with its key is emitted, later ones are dropped. -/
def add (ctx : Context) (owner : Owner) (source : MemberSource) (r : ExportRecord)
    (surface : Surface) : Surface :=
  match surface.claimed.get? (surfaceKey r) with
  | some earlier => surface.onState (·.reportAll (clash? ctx.index owner r earlier source).toList)
  | none =>
    { state := (surface.state.noteInherited owner source r.name).emit r
      claimed := surface.claimed.insert (surfaceKey r) source
      offered := surface.offered.push r }

/-- Export a data member as a constant; its value is remembered even if the member is dropped. -/
def addConstant (ctx : Context) (owner : Owner) (source : MemberSource) (h : Header) (info : Field)
    (directive : Option Directive) (surface : Surface) : Surface :=
  let value := ConstantValue.ofInit surface.state.constants info.init
  let r := ctx.constantFieldRecord h info value directive
  (surface.onState (·.bindConstant h.name r.qualifiedName value)).add ctx owner source r

/-- Export a data member as a constant or as a property. -/
def addField (ctx : Context) (owner : Owner) (source : MemberSource) (h : Header) (info : Field)
    (directive : Option Directive) (surface : Surface) : Surface :=
  let surface := surface.onState (·.useType h info.type)
  if isConstantField directive info then surface.addConstant ctx owner source h info directive
  else
    surface.add ctx owner source
      (ctx.variableRecord h info.type info.isStatic info.isConst directive)

/-- Export a member that belongs to no property. -/
def addMember (ctx : Context) (owner : Owner) (source : MemberSource) (m : Member)
    (surface : Surface) : Surface :=
  match memberAction owner source m with
  | .nothing => surface
  | .skip reason => surface.onState (·.skip m.decl reason)
  | .callable kind h c =>
    (surface.onState (·.useTypes h (callableTypes kind c))).add ctx owner source
      (ctx.callableRecord kind h c m.mark.directive)
  | .field h info => surface.addField ctx owner source h info m.mark.directive

/-- Export what stands at one place of a member list. -/
def addSlot (ctx : Context) (owner : Owner) (source : MemberSource) (m : Member) (slot : Slot)
    (surface : Surface) : Surface :=
  match slot with
  | .absorbed => surface
  | .property spec =>
    (surface.onState (·.useTypes spec.header spec.type?.toList)).add ctx owner source
      (ctx.propertyRecord spec)
  | .member => surface.addMember ctx owner source m

end Surface

/-- Note the visit of an own member and report what is wrong with its annotations. -/
def State.visitMember (marker : String) (d : Decl) (s : State) : State :=
  if d.isMemberOnly then
    let parsed := parseAnnotations marker d.annotations
    let s := (s.log (.visited d.kindText d.name)).reportAll (issueDiagnostics d.header parsed.issues)
    match parsed.directive with
    | some a => if a.kind.appliesTo d then s else s.report (inapplicable a.kind d)
    | none => s
  else s

/-- Export a member list onto a type. Problems with the annotations of a list are reported where the
list is declared, not where it is inherited. -/
def exportMembers (ctx : Context) (owner : Owner) (source : MemberSource) (decls : List Decl)
    (surface : Surface) : Surface :=
  let members := decls.map (markMember ctx.options.marker)
  let plan := planProperties owner.qualifiedName members
  let surface :=
    if source.isInherited then surface
    else surface.onState fun s =>
      (decls.foldl (fun s d => s.visitMember ctx.options.marker d) s).reportAll plan.diagnostics
  (members.zip plan.slots).foldl (fun surface (m, slot) => surface.addSlot ctx owner source m slot)
    surface

end ScriptExport.Analysis
