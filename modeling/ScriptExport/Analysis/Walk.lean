import ScriptExport.Analysis.Alias
import ScriptExport.Analysis.Member

/-!
# The walk over a unit

One pre-order walk visits each declaration once. Namespaces and records are entered whether or not they
are exported, since annotated declarations inside them count; only a scope that is ignored, and a class
without a name, are left out with everything in them. The members of a record are handled with the
record, so the walk through its contents passes over them.
-/

namespace ScriptExport.Analysis

/-- What becomes of a visited declaration. -/
inductive Verdict where
  | ignored
  | skipped (reason : SkipReason)
  /-- Its directive has a kind that cannot describe it. -/
  | inapplicable (kind : DirectiveKind)
  | admitted (directive : Option Directive)
deriving DecidableEq

/-- The directive that counts for the declaration. -/
def Verdict.directive : Verdict → Option Directive
  | admitted a => a
  | _ => none

/-- Decide what becomes of a declaration in the current scope. -/
def Context.verdict (ctx : Context) (d : Decl) : Verdict :=
  let parsed := parseAnnotations ctx.options.marker d.annotations
  match parsed.directive with
  | some a => if a.kind.appliesTo d then .admitted (some a) else .inapplicable a.kind
  | none =>
    if parsed.ignored then .ignored
    else match ctx.options.skipReason? d false ctx.scopes.inExport with
      | some reason => .skipped reason
      | none => .admitted none

/-- Note the visit of a declaration, what is wrong with its annotations, and why it is left out. -/
def State.visit (ctx : Context) (d : Decl) (s : State) : State :=
  let parsed := parseAnnotations ctx.options.marker d.annotations
  let s := (s.log (.visited d.kindText d.name)).reportAll (issueDiagnostics d.header parsed.issues)
  match ctx.verdict d with
  | .ignored => s.skip d .ignored
  | .skipped reason => s.skip d reason
  | .inapplicable kind => s.report (Analysis.inapplicable kind d)
  | .admitted _ => s

/-- The kind of scope that a namespace opens. -/
def namespaceScope (directive : Option Directive) : ScopeKind :=
  if directive.any (fun a => a.kind = .moduleScope) then .moduleScope else .nameSpace

/-- The record of an exported namespace or module. -/
def Context.namespaceRecord (ctx : Context) (h : Header) (directive : Directive) : ExportRecord :=
  ctx.record (if directive.kind = .moduleScope then .moduleScope else .nameSpace) h h.name
    (some directive)

/-- The context inside a namespace. -/
def Context.enterNamespace (ctx : Context) (h : Header) (directive : Option Directive) : Context :=
  ctx.enter h.name (namespaceScope directive)
    (directive.map fun a => (ctx.namespaceRecord h a).scriptName) directive.isSome

/-- The attribute that shows the modifier of a class. -/
def classKindAttribute : String := "class_kind"

/-- The name under which a base is shown. -/
def Context.baseName (ctx : Context) (base : Base) : String :=
  match ctx.index.lookup? base.name ctx.scopes.path with
  | some e => e.qualifiedName
  | none => Text.spelling base.name

/-- The record of an exported class. An attribute for the modifier that the directive states itself is
kept. -/
def Context.classRecord (ctx : Context) (h : Header) (traits : RecordTraits) (members : List Decl)
    (directive : Directive) : ExportRecord :=
  let r := ctx.record .classType h h.name (some directive)
  { r with
    baseTypes := (traits.bases.filter (·.access.isPublic)).map ctx.baseName
    attributes := match (ClassKind.of directive.kind traits.isAbstract members).attribute? with
      | some value => r.attributes.insertIfNew classKindAttribute value
      | none => r.attributes }

/-- The record that binds a class to an exported base. -/
def Context.inheritRecord (ctx : Context) (h : Header) (owner : String) (e : TypeEntry) :
    ExportRecord :=
  { ctx.record .inherit h e.qualifiedName none with
    scriptName := e.scriptName
    qualifiedName := owner ++ " : " ++ e.qualifiedName
    ownerType := owner
    baseTypes := [e.qualifiedName] }

/-- The context inside an exported class; an explicit namespace of the class places its contents. -/
def Context.enterClass (ctx : Context) (h : Header) (directive : Directive) : Context :=
  ctx.enter h.name .record directive.scriptNamespace? true

/-- The context inside a record that is not exported. -/
def Context.enterRecord (ctx : Context) (h : Header) : Context :=
  ctx.enter h.name .record none false

/-- The type that the members of an exported class go onto. -/
def Context.classOwner (ctx : Context) (h : Header) (traits : RecordTraits) (members : List Decl)
    (directive : Directive) : Owner :=
  { qualifiedName := ctx.scopes.qualifiedName h.name
    classKind := ClassKind.of directive.kind traits.isAbstract members
    auto := true }

/-- Offer the bindings of a class to its exported bases. -/
def State.bindBases (ctx : Context) (h : Header) (owner : String) (bases : List TypeEntry)
    (s : State) : State :=
  bases.foldl (fun s e => s.emit (ctx.inheritRecord h owner e)) s

/-- Export the members of bases onto a class, base after base. -/
def exportInherited (ctx : Context) (owner : Owner) (bases : List TypeEntry) (surface : Surface) :
    Surface :=
  bases.foldl
    (fun surface e => exportMembers ctx owner (.inherited e.qualifiedName) e.decl.children surface)
    surface

/-- The bindings of a class and its members: those to exported bases, its own members, and the members
of the unexported bases. -/
def classSurface (ctx : Context) (h : Header) (traits : RecordTraits) (members : List Decl)
    (directive : Directive) (s : State) : Surface :=
  let inside := ctx.enterClass h directive
  let owner := ctx.classOwner h traits members directive
  let ancestry := ctx.index.ancestry [owner.qualifiedName] ctx.scopes.path traits.bases
  let s := s.bindBases inside h owner.qualifiedName (ancestry.filter (·.annotated))
  exportInherited inside owner (ancestry.filter (fun e => !e.annotated))
    (exportMembers inside owner .own members { state := s })

/-- Export the bindings of a class and its members. -/
def exportClassMembers (ctx : Context) (h : Header) (traits : RecordTraits) (members : List Decl)
    (directive : Directive) (s : State) : State :=
  (classSurface ctx h traits members directive s).state

/-- Export the annotated members of a record that is not exported itself. -/
def exportExplicitMembers (ctx : Context) (h : Header) (members : List Decl) (s : State) : State :=
  let inside := ctx.enterRecord h
  (exportMembers inside { qualifiedName := inside.scopes.owner?.getD "" } .own members
    { state := s }).state

/-- Export an annotated declaration that opens no scope. -/
def exportLeaf (ctx : Context) (d : Decl) (directive : Directive) (s : State) : State :=
  match d with
  | .function h c => exportFunction ctx h c directive s
  | .var h info => exportVariable ctx h info directive s
  | .enumeration h info => exportEnum ctx h info directive s
  | .typeAlias h target => exportAlias ctx h target directive s
  | _ => s

mutual

/-- Visit a declaration and everything inside it. -/
def visit (ctx : Context) : Decl → State → State
  | .nameSpace h decls, s =>
    let d := Decl.nameSpace h decls
    let verdict := ctx.verdict d
    let s := s.visit ctx d
    if verdict = .ignored then s
    else
      let s := match verdict.directive with
        | some a => s.emit (ctx.namespaceRecord h a)
        | none => s
      walk (ctx.enterNamespace h verdict.directive) decls s
  | .record h traits members, s =>
    let d := Decl.record h traits members
    let verdict := ctx.verdict d
    let s := s.visit ctx d
    if verdict = .ignored then s
    else match verdict.directive with
      | some a =>
        let r := ctx.classRecord h traits members a
        let s := s.emit r
        if r.isValid then
          walk (ctx.enterClass h a) members (exportClassMembers ctx h traits members a s)
        else s
      | none => walk (ctx.enterRecord h) members (exportExplicitMembers ctx h members s)
  | d, s =>
    let s := s.visit ctx d
    match (ctx.verdict d).directive with
    | some a => exportLeaf ctx d a s
    | none => s

/-- Visit declarations in order. Members are handled with their record and passed over here. -/
def walk (ctx : Context) : List Decl → State → State
  | [], s => s
  | d :: ds, s => walk ctx ds (if d.isMemberOnly then s else visit ctx d s)

end

end ScriptExport.Analysis
