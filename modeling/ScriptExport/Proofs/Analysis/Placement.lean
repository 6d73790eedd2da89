import ScriptExport.Proofs.Analysis.Flattening
import ScriptExport.Proofs.Analysis.Origins

/-!
# Where scripts find a record

The namespace and the module of a record are those of its place in the source. The walk hands the scopes
around a declaration down to it; a walk that keeps them on a stack, with a scope pushed before the contents
of a declaration are walked and popped afterwards, does the same and leaves the stack as it was
(`Walker.visit_eq`). What a stack of scopes says about namespace and module can be read off the enclosing
declarations (`scopes_within`), so no record depends on anything but its own annotation and the scopes
around it. A member that a class takes over from a base counts as declared in the class.
-/

namespace ScriptExport

/-! ## Placement by declarations -/

namespace Decl

/-- The script namespace that a scope gives to its contents: an exported namespace its script name, an
exported class its `namespace` attribute. -/
def placement? (marker : String) (d : Decl) : Option String :=
  (d.directive? marker).bind fun a =>
    match d with
    | .nameSpace h _ => some (Naming.scriptName h.name a.scriptAlias?)
    | _ => a.scriptNamespace?

/-- The name of the module that a scope is. -/
def moduleName? (marker : String) (d : Decl) : Option String :=
  (d.directive? marker).bind fun a =>
    match d with
    | .nameSpace h _ =>
      if a.kind = .moduleScope then some (Naming.scriptName h.name a.scriptAlias?) else none
    | _ => none

end Decl

namespace Analysis

namespace Occurrence

/-- The script namespace at the place of a declaration: the one that its own annotation asks for, else
that of the nearest scope around it that gives one. -/
def scriptNamespace (marker : String) (p : Occurrence) : String :=
  (((p.decl.directive? marker).bind (·.scriptNamespace?)).or
    (p.around.findSome? (·.placement? marker))).getD ""

/-- The script name of the nearest module around a declaration. -/
def scriptModule (marker : String) (p : Occurrence) : String :=
  (p.around.findSome? (·.moduleName? marker)).getD ""

end Occurrence

/-! ## Scopes of enclosing declarations -/

/-- A scope is placed as its directive says. -/
theorem scopes_inside (ctx : Context) (d : Decl) :
    ∃ s : Scope, (ctx.inside d).scopes = s :: ctx.scopes ∧
      s.placement = d.placement? ctx.options.marker ∧
      (if s.kind == .moduleScope then s.placement else none) = d.moduleName? ctx.options.marker := by
  unfold Context.inside Decl.placement? Decl.moduleName?
  rw [directive_verdict_eq]
  generalize d.directive? ctx.options.marker = directive
  cases d with
  | nameSpace h decls =>
    cases directive with
    | none => exact ⟨_, rfl, rfl, rfl⟩
    | some a =>
      refine ⟨_, rfl, rfl, ?_⟩
      by_cases ha : a.kind = .moduleScope
      · simp [ha, namespaceScope, Context.namespaceRecord, Context.record]
      · simp [ha, namespaceScope]
  | _ => cases directive <;> exact ⟨_, rfl, rfl, rfl⟩

/-- The scopes around a declaration place it where the declarations around it say. -/
theorem scopes_within {ctx : Context} (htop : ctx.scopes = []) (around : List Decl) :
    (ctx.within around).scopes.findSome? (·.placement) =
        around.findSome? (·.placement? ctx.options.marker) ∧
      (ctx.within around).scopes.findSome?
          (fun s => if s.kind == .moduleScope then s.placement else none) =
        around.findSome? (·.moduleName? ctx.options.marker) := by
  induction around with
  | nil =>
    rw [show (ctx.within []).scopes = ctx.scopes from rfl, htop]
    exact ⟨rfl, rfl⟩
  | cons d around ih =>
    obtain ⟨s, hscopes, hplacement, hmodule⟩ := scopes_inside (ctx.within around) d
    rw [options_within] at hplacement hmodule
    rw [show (ctx.within (d :: around)).scopes = _ from hscopes, List.findSome?_cons,
      List.findSome?_cons, List.findSome?_cons, List.findSome?_cons, hplacement, ih.1]
    rw [hplacement] at hmodule
    rw [hmodule, ih.2]
    exact ⟨rfl, rfl⟩

/-! ## A walk with a stack -/

/-- A walk that keeps the scopes on a stack, the innermost on top. -/
structure Walker where
  scopes : Scopes
  state : State

namespace Walker

/-- The context in the current scope; file, options and types are those of `env`. -/
def context (env : Context) (w : Walker) : Context :=
  { env with scopes := w.scopes }

/-- Change the state only. -/
def onState (f : State → State) (w : Walker) : Walker :=
  { w with state := f w.state }

/-- Enter a scope. -/
def push (name : String) (kind : ScopeKind) (placement : Option String) (exported : Bool)
    (w : Walker) : Walker :=
  { w with scopes := w.scopes.enter name kind placement exported }

/-- Leave the innermost scope. -/
def pop (w : Walker) : Walker :=
  { w with scopes := w.scopes.tail }

mutual

/-- Visit a declaration and everything inside it. A scope is pushed where its contents are walked: under
a namespace that is left out, under any other namespace, in an exported class and in any other record. An
ignored scope and a class without a usable name are left before anything is pushed. -/
def visit (env : Context) : Decl → Walker → Walker
  | .nameSpace h decls, w =>
    let d := Decl.nameSpace h decls
    let ctx := w.context env
    let w := w.onState (·.visit ctx d)
    match ctx.verdict d with
    | .ignored => w
    | .skipped _ => (walk env decls (w.push h.name .nameSpace none false)).pop
    | .inapplicable _ | .admitted none =>
      (walk env decls (w.push h.name .nameSpace none false)).pop
    | .admitted (some a) =>
      let r := ctx.namespaceRecord h a
      let kind := if a.kind = .moduleScope then .moduleScope else .nameSpace
      let w := w.onState (·.emit r)
      (walk env decls (w.push h.name kind (some r.scriptName) true)).pop
  | .record h traits members, w =>
    let d := Decl.record h traits members
    let ctx := w.context env
    let w := w.onState (·.visit ctx d)
    match ctx.verdict d with
    | .ignored => w
    | .admitted (some a) =>
      let r := ctx.classRecord h traits members a
      let w := w.onState (·.emit r)
      if !r.isValid then w
      else
        let w := w.push h.name .record a.scriptNamespace? true
        (walk env members (w.onState (exportClassMembers ctx h traits members a))).pop
    | .skipped _ | .inapplicable _ | .admitted none =>
      let w := w.push h.name .record none false
      let inside := w.context env
      let owner : Owner := { qualifiedName := inside.scopes.owner?.getD "" }
      let w := w.onState fun s => (exportMembers inside owner .own members { state := s }).state
      (walk env members w).pop
  | d, w =>
    let ctx := w.context env
    let w := w.onState (·.visit ctx d)
    match ctx.verdict d with
    | .admitted (some a) => w.onState (exportLeaf ctx d a)
    | _ => w

/-- Visit declarations in order. -/
def walk (env : Context) : List Decl → Walker → Walker
  | [], w => w
  | d :: ds, w => walk env ds (if d.isMemberOnly then w else visit env d w)

end

/-- A visit to a declaration whose contents are walked as they should be. -/
theorem visit_eq_of_contents (env : Context) (d : Decl)
    (hcontents : ∀ w : Walker, walk env d.children w =
      ⟨w.scopes, Analysis.walk (w.context env) d.children w.state⟩) (w : Walker) :
    visit env d w = ⟨w.scopes, Analysis.visit (w.context env) d w.state⟩ := by
  cases d with
  | nameSpace h decls =>
    have hcontents : ∀ w : Walker, walk env decls w =
      ⟨w.scopes, Analysis.walk (w.context env) decls w.state⟩ := hcontents
    rw [visit, Analysis.visit]
    dsimp only
    cases (w.context env).verdict (.nameSpace h decls) with
    | ignored => rfl
    | skipped reason =>
      rw [hcontents]
      rfl
    | inapplicable kind =>
      rw [hcontents]
      rfl
    | admitted directive =>
      cases directive with
      | none =>
        rw [hcontents]
        rfl
      | some a =>
        dsimp only
        rw [hcontents]
        unfold Context.enterNamespace namespaceScope
        simp only [Verdict.directive, Option.any_some, decide_eq_true_eq]
        rfl
  | record h traits members =>
    have hcontents : ∀ w : Walker, walk env members w =
      ⟨w.scopes, Analysis.walk (w.context env) members w.state⟩ := hcontents
    rw [visit, Analysis.visit]
    dsimp only
    cases (w.context env).verdict (.record h traits members) with
    | ignored => rfl
    | skipped reason =>
      rw [hcontents]
      rfl
    | inapplicable kind =>
      rw [hcontents]
      rfl
    | admitted directive =>
      cases directive with
      | none =>
        rw [hcontents]
        rfl
      | some a =>
        dsimp only [Verdict.directive]
        cases hvalid : ((w.context env).classRecord h traits members a).isValid with
        | false => rfl
        | true =>
          rw [hcontents]
          rfl
  | _ =>
    simp only [visit, Analysis.visit]
    generalize Context.verdict _ _ = verdict
    cases verdict with
    | admitted directive => cases directive <;> rfl
    | _ => rfl

/-- With a stack the walk does the same, and it leaves the stack as it found it. -/
theorem walk_eq (env : Context) (ds : List Decl) (w : Walker) :
    walk env ds w = ⟨w.scopes, Analysis.walk (w.context env) ds w.state⟩ := by
  induction ds using Decl.list_induction generalizing w with
  | nil => rw [walk, Analysis.walk]
  | cons d ds ihContents ih =>
    rw [walk, Analysis.walk, ih]
    cases hd : d.isMemberOnly with
    | true => rfl
    | false =>
      rw [if_neg Bool.false_ne_true, if_neg Bool.false_ne_true, visit_eq_of_contents env d ihContents]
      rfl

theorem visit_eq (env : Context) (d : Decl) (w : Walker) :
    visit env d w = ⟨w.scopes, Analysis.visit (w.context env) d w.state⟩ :=
  visit_eq_of_contents env d (walk_eq env d.children) w

end Walker

/-! ## Records -/

/-- What the scopes around a declaration say about a record is what its place says. -/
theorem scopes_eq_place {ctx : Context} (htop : ctx.scopes = []) (p : Occurrence) :
    (ctx.within p.around).scopes.namespaceFor (p.decl.directive? ctx.options.marker) =
        p.scriptNamespace ctx.options.marker ∧
      (ctx.within p.around).scopes.moduleName = p.scriptModule ctx.options.marker := by
  obtain ⟨hplacement, hmodule⟩ := scopes_within htop p.around
  unfold Scopes.namespaceFor Scopes.moduleName Occurrence.scriptNamespace Occurrence.scriptModule
  rw [hplacement, hmodule]
  refine ⟨?_, rfl⟩
  cases (p.decl.directive? ctx.options.marker).bind (·.scriptNamespace?) <;> rfl

theorem placed_of_represents {ctx : Context} (htop : ctx.scopes = []) (p : Occurrence)
    {r : ExportRecord} {ts : List TypeRef} (hr : (ctx.within p.around).Represents p.decl r ts) :
    r.namespaceName = p.scriptNamespace ctx.options.marker ∧
      r.moduleName = p.scriptModule ctx.options.marker := by
  obtain ⟨-, hnamespace, hmodule⟩ := hr.scopes_eq
  obtain ⟨hplace, hplace'⟩ := scopes_eq_place htop p
  rw [options_within] at hnamespace
  exact ⟨hnamespace.trans hplace, hmodule.trans hplace'⟩

/-- What a visit makes has the namespace and the module of its place. -/
theorem Visit.Makes.placed {ctx : Context} (htop : ctx.scopes = []) {p : Occurrence} {v : Visit}
    (hvisit : p.visit? ctx = some v) {m : Option Decl} {r : ExportRecord} {h : Header}
    {ts : List TypeRef} (hmakes : v.Makes m r h ts) :
    r.namespaceName = (p.atMember m).scriptNamespace ctx.options.marker ∧
      r.moduleName = (p.atMember m).scriptModule ctx.options.marker := by
  obtain rfl := Occurrence.of_visit? hvisit
  cases hmakes with
  | itself hr => exact placed_of_represents htop p hr
  | @member list m r ts hlist hm hkept hr =>
    exact placed_of_represents htop ⟨p.decl :: p.around, m⟩ hr
  | @property list m spec hlist hformed =>
    -- the annotation of the accessor that asks for the property is that of the property
    obtain ⟨hplace, hplace'⟩ := scopes_eq_place htop ⟨p.decl :: p.around, m⟩
    have hdirective := hformed.directive
    rw [options_within] at hdirective
    dsimp only at hplace
    rw [hdirective] at hplace
    exact ⟨hplace, hplace'⟩
  | @binding h traits members a e hdecl ha he hannotated =>
    -- a binding is made inside its class, and the class places it as its own annotation says
    obtain ⟨hplacement, hmodule⟩ := scopes_within htop p.around
    dsimp only at ha
    rw [options_within] at ha
    refine ⟨?_, congrArg (Option.getD · "") hmodule⟩
    unfold Occurrence.atMember Occurrence.scriptNamespace
    dsimp only
    rw [ha, ← hplacement]
    have hscope : ((ctx.within p.around).enterClass h a).scopes.findSome? (·.placement) =
        a.scriptNamespace?.or ((ctx.within p.around).scopes.findSome? (·.placement)) := by
      unfold Context.enterClass Context.enter Scopes.enter
      dsimp only
      rw [List.findSome?_cons]
      cases a.scriptNamespace? <;> rfl
    exact congrArg (Option.getD · "") hscope

end Analysis

open Analysis

/-- **Records are placed by the scopes around them.** A walk that keeps its scopes on a stack does what
the analysis does, and each of its visits leaves the stack as it found it. Every record of the result was
made at a declaration of the unit, and whatever a visit makes has the script namespace that its own
annotation asks for, else that of the nearest scope around it that gives one, and the nearest module
around it. A member of a base that goes onto a class has the class as the nearest scope around it. -/
theorem records_placed_by_scopes (o : Options) (u : TranslationUnit) (h : u.check o = .ok ()) :
    (∀ (env : Context) (d : Decl) (w : Walker), (Walker.visit env d w).scopes = w.scopes ∧
      (Walker.visit env d w).state = visit (w.context env) d w.state) ∧
    (∃ result, analyze o u = .ok result ∧
      result.records = (Walker.walk (Context.ofUnit o u) u.decls ⟨[], {}⟩).state.records.toList ∧
      ∀ r ∈ result.records, ∃ p ∈ occurrences [] u.decls, ∃ v m header types,
        p.visit? (Context.ofUnit o u) = some v ∧ v.Makes m r header types) ∧
    ∀ (p : Occurrence) (v : Visit) (m : Option Decl) (r : ExportRecord) (header : Header)
      (types : List TypeRef), p.visit? (Context.ofUnit o u) = some v → v.Makes m r header types →
        r.namespaceName = (p.atMember m).scriptNamespace o.marker ∧
        r.moduleName = (p.atMember m).scriptModule o.marker := by
  refine ⟨?_, ?_, ?_⟩
  · intro env d w
    rw [Walker.visit_eq]
    exact ⟨rfl, rfl⟩
  · refine ⟨_, analyze_of_check h, ?_, ?_⟩
    · rw [Walker.walk_eq]
      rfl
    · intro r hr
      obtain ⟨p, hp, v, m, header, types, hvisit, hmakes, -⟩ := exists_makes_of_mem_records hr
      exact ⟨p, hp, v, m, header, types, hvisit, hmakes⟩
  · intro p v m r header types hvisit hmakes
    exact hmakes.placed rfl hvisit

/-- A record that is not exported. -/
def plainBase : Decl :=
  .record { name := "Base" } {} [.method { name := "ping" } {}]

/-- A class that asks for a namespace and takes over the members of a base. -/
def placedHero : Decl :=
  .record { name := "Hero", annotations := ["lua_export_class,namespace=Game"] }
    { bases := [{ name := "Base" }] } []

/-- A module with the class. -/
def placedModule : Decl :=
  .nameSpace { name := "app", annotations := ["lua_export_module,alias=App"] } [placedHero]

/-- The module after the base. -/
def placedUnit : TranslationUnit :=
  { filePath := "hero.h", decls := [plainBase, placedModule] }

theorem memberLists_placedHero :
    (⟨(Context.ofUnit {} placedUnit).within [placedModule], placedHero⟩ : Visit).memberLists =
      [[], plainBase.children] := by
  have hflattened : (TypeIndex.ofDecls {} placedUnit.decls).DepthFirst ["app::Hero"] ["app"]
      [{ name := "Base" }] [⟨plainBase, "Base", "Base", false, []⟩] :=
    @TypeIndex.DepthFirst.enter _ _ _ _ _ ⟨plainBase, "Base", "Base", false, []⟩ [] []
      ⟨rfl, by rfl, rfl, by decide⟩ (.nil _ _) (.nil _ _)
  have hdirective : (placedHero.directive? "lua_export_").isSome = true := by decide
  obtain ⟨a, ha⟩ := Option.isSome_iff_exists.mp hdirective
  rw [Visit.memberLists_of_class rfl ha]
  exact congrArg (fun l : List TypeEntry => [] :: l.map (·.decl.children))
    (TypeIndex.depthFirst_iff.mp hflattened).symm

/-- A member of a base outside of the module goes with the class. -/
theorem records_placed_by_scopes_taken_over :
    placedUnit.check {} = .ok () ∧
    (∃ result, analyze {} placedUnit = .ok result ∧
      ∀ r ∈ result.records, ∃ p ∈ occurrences [] placedUnit.decls, ∃ m,
        r.namespaceName = (p.atMember m).scriptNamespace "lua_export_" ∧
        r.moduleName = (p.atMember m).scriptModule "lua_export_") ∧
    ∃ v m r header types,
      (⟨[placedModule], placedHero⟩ : Occurrence).visit? (Context.ofUnit {} placedUnit) = some v ∧
      m ∈ plainBase.children ∧ v.Makes (some m) r header types ∧
      r.qualifiedName = "app::Hero::ping" ∧ r.namespaceName = "Game" ∧ r.moduleName = "App" := by
  have haccepted : placedUnit.check {} = .ok () := TranslationUnit.check_default (by decide) rfl
  obtain ⟨-, ⟨result, hresult, -, hmade⟩, hplaced⟩ := records_placed_by_scopes {} placedUnit haccepted
  refine ⟨haccepted, ⟨result, hresult, ?_⟩, ?_⟩
  · intro r hr
    obtain ⟨p, hp, v, m, header, types, hvisit, hmakes⟩ := hmade r hr
    exact ⟨p, hp, m, hplaced p v m r header types hvisit hmakes⟩
  · have hvisit : (⟨[placedModule], placedHero⟩ : Occurrence).visit? (Context.ofUnit {} placedUnit) =
        some ⟨(Context.ofUnit {} placedUnit).within [placedModule], placedHero⟩ :=
      visit?_of_open (by decide) rfl
    have hlist : plainBase.children ∈ (⟨(Context.ofUnit {} placedUnit).within [placedModule],
        placedHero⟩ : Visit).memberLists := by
      rw [memberLists_placedHero]
      exact List.mem_cons_of_mem _ List.mem_cons_self
    have hmakes := Visit.Makes.member hlist List.mem_cons_self (by decide) (.method { name := "ping" } {})
    obtain ⟨hnamespace, hmodule⟩ := hplaced _ _ _ _ _ _ hvisit hmakes
    refine ⟨_, _, _, _, _, hvisit, List.mem_cons_self, hmakes, ?_, ?_, ?_⟩
    · rfl
    · rw [hnamespace]
      decide
    · rw [hmodule]
      decide

end ScriptExport
