import Mathlib.Data.List.Induction
import ScriptExport.Proofs.Analysis.Exclusion
import ScriptExport.Proofs.Constant.Parsing

/-!
# What the names in initializers mean

A walk keeps the constants that it has evaluated in one map, under their names and under their qualified
names. Written as lists, without the map: a walk makes definitions one after the other (`definitions`), and
a name means the latest definition that has it among its names (`meaning?`), whatever scope that one
stands in. `agrees_runVisits` says that the map is this view of the list. An initializer that is a single
name is looked up among the definitions so far and the earlier enumerators of the same enum, and once more
by the last segment of the name; the scope of the enum has no part in it.
-/

namespace ScriptExport.Analysis

/-! ## Definitions -/

/-- A constant or an enumerator that was evaluated, with the names that it can be called by. -/
structure Definition where
  names : List String
  value : Int64
deriving DecidableEq, Repr

/-- What a name means after definitions. -/
def meaning? (known : List Definition) (name : String) : Option Int64 :=
  (known.reverse.find? fun d => name ∈ d.names).map (·.value)

theorem meaning?_append (known more : List Definition) (name : String) :
    meaning? (known ++ more) name = (meaning? more name).or (meaning? known name) := by
  unfold meaning?
  rw [List.reverse_append, List.find?_append, Option.map_or]

theorem meaning?_singleton (d : Definition) (name : String) :
    meaning? [d] name = if name ∈ d.names then some d.value else none := by
  unfold meaning?
  by_cases h : name ∈ d.names
  · simp [h]
  · simp [h]

/-- The value of an initializer after definitions. -/
def evaluated? (known : List Definition) (init : Option String) : Option Int64 :=
  (initializer? init).bind fun text => (Constant.evaluate (meaning? known) text).toOption

/-- A constant is known by its name and by its qualified name, if it has a value. -/
def constantDefinitions (known : List Definition) (name qualifiedName : String) (init : Option String) :
    List Definition :=
  ((evaluated? known init).map fun v => ⟨[name, qualifiedName], v⟩).toList

/-- What the place defines. -/
def Place.definitions (ctx : Context) (owner : Owner) (known : List Definition) (p : Place) :
    List Definition :=
  match p.action owner with
  | .field h info =>
    if isConstantField p.member.mark.directive info then
      constantDefinitions known h.name (ctx.scopes.qualifiedName h.name) info.init
    else []
  | _ => []

/-- The definitions after places, those before them included. -/
def defineAll (ctx : Context) (owner : Owner) (known : List Definition) (ps : List Place) :
    List Definition :=
  ps.foldl (fun known p => known ++ p.definitions ctx owner known) known

/-- Inside its enum an enumerator is known by its name. -/
def ownDefinition (e : Enumerator) : Definition :=
  ⟨[e.name], e.value⟩

/-- The value of an enumerator without an initializer. -/
def nextAfter (own : List Enumerator) : Int64 :=
  (own.getLast?.map fun e => Constant.successor e.value).getD 0

/-- The value of an enumerator after earlier ones of its enum. -/
def enumeratorValue (known : List Definition) (own : List Enumerator) (c : EnumConstant) : Int64 :=
  (evaluated? (known ++ own.map ownDefinition) c.init).getD (nextAfter own)

/-- The enumerators of an enum with their values. -/
def enumerate (known : List Definition) (cs : List EnumConstant) : List Enumerator :=
  cs.foldl (fun own c => own ++ [⟨c.name, enumeratorValue known own c⟩]) []

/-- An enumerator is known behind the name of its enum, and by its own name if the enum is unscoped. -/
def enumeratorDefinition (qualifiedName : String) (isScoped : Bool) (e : Enumerator) : Definition :=
  ⟨(qualifiedName ++ "::" ++ e.name) :: if isScoped then [] else [e.name], e.value⟩

/-- The definitions after a declaration that is not ignored, those before it included. -/
def defineContents (ctx : Context) (directive : Option Directive) (known : List Definition) :
    Decl → List Definition
  | .record h traits members =>
    match directive with
    | some a =>
      let owner := ctx.classOwner h traits members a
      let ancestry := ctx.index.ancestry [owner.qualifiedName] ctx.scopes.path traits.bases
      if (ctx.classRecord h traits members a).isValid then
        defineAll (ctx.enterClass h a) owner known
          (classPlaces ctx.options.marker owner members (ancestry.filter fun e => !e.annotated))
      else known
    | none =>
      let inside := ctx.enterRecord h
      let owner : Owner := { qualifiedName := inside.scopes.owner?.getD "" }
      defineAll inside owner known (places ctx.options.marker owner .own members)
  | .var h info =>
    match directive with
    | some a =>
      if a.kind = .constant then
        known ++ constantDefinitions known h.name (ctx.scopes.qualifiedName h.name) info.init
      else known
    | none => known
  | .enumeration h e =>
    match directive with
    | some _ =>
      known ++ (enumerate known e.enumerators).map
        (enumeratorDefinition (ctx.scopes.qualifiedName h.name) e.isScoped)
    | none => known
  | _ => known

/-- The definitions after a visit, those before it included. -/
def Visit.define (v : Visit) (known : List Definition) : List Definition :=
  if v.verdict = .ignored then known
  else defineContents v.ctx v.verdict.directive known v.decl

/-- The definitions that visits make, in order. -/
def definitions (vs : List Visit) : List Definition :=
  vs.foldl (fun known v => v.define known) []

/-! ## The map is a view of the definitions -/

/-- The map gives each name its meaning. -/
def Agrees (constants : OrderedMap String Int64) (known : List Definition) : Prop :=
  ∀ name, constants.get? name = meaning? known name

section Agreement

variable {constants : OrderedMap String Int64} {known : List Definition}

theorem Agrees.lookup_eq (h : Agrees constants known) : constants.get? = meaning? known :=
  funext h

/-- A definition is put under all of its names. -/
theorem Agrees.concat (h : Agrees constants known) {more : OrderedMap String Int64} {d : Definition}
    (hmore : ∀ name, more.get? name = if name ∈ d.names then some d.value else constants.get? name) :
    Agrees more (known ++ [d]) := by
  intro name
  rw [hmore, meaning?_append, meaning?_singleton, h]
  by_cases hname : name ∈ d.names
  · simp [hname]
  · simp [hname]

/-- Binding a constant defines it. -/
theorem Agrees.bind (h : Agrees constants known) (name qualifiedName : String) (init : Option String) :
    Agrees ((ConstantValue.ofInit constants init).bind name qualifiedName constants)
      (known ++ constantDefinitions known name qualifiedName init) := by
  unfold ConstantValue.ofInit constantDefinitions evaluated?
  rw [h.lookup_eq]
  cases initializer? init with
  | none => simpa [ConstantValue.bind] using h
  | some text =>
    dsimp only [Option.bind_some]
    cases Constant.evaluate (meaning? known) text with
    | error e => simpa [ConstantValue.bind, Except.toOption] using h
    | ok v =>
      refine h.concat fun other => ?_
      dsimp only [ConstantValue.bind]
      rw [OrderedMap.get?_insert, OrderedMap.get?_insert]
      by_cases hqualified : other = qualifiedName
      · simp [hqualified]
      · simp [hqualified]

/-! ## Members -/

/-- A place defines what it binds. -/
theorem Agrees.learn (h : Agrees constants known) (ctx : Context) (owner : Owner) (p : Place) :
    Agrees (p.learn ctx owner constants) (known ++ p.definitions ctx owner known) := by
  unfold Place.learn Place.definitions
  cases p.action owner with
  | field head info =>
    cases hconstant : isConstantField p.member.mark.directive info with
    | true => simpa [hconstant] using h.bind head.name (ctx.scopes.qualifiedName head.name) info.init
    | false => simpa [hconstant] using h
  | _ => simpa using h

/-- The places of a class define their constants in order. -/
theorem Agrees.foldl_addSlot (ctx : Context) (owner : Owner) (ps : List Place) {x : Surface}
    (h : Agrees x.state.constants known) :
    Agrees (ps.foldl (fun x p => x.addSlot ctx owner p.source p.member p.slot) x).state.constants
      (defineAll ctx owner known ps) := by
  induction ps generalizing x known with
  | nil => exact h
  | cons p ps ih =>
    have hstep : (x.addSlot ctx owner p.source p.member p.slot).state.constants =
        p.learn ctx owner x.state.constants := by
      rw [addSlot_eq]
      split
      · exact p.constants_prepare ctx owner x
      · exact (Surface.constants_add _ _ _ _ _).trans (p.constants_prepare ctx owner x)
    refine ih ?_
    rw [hstep]
    exact h.learn ctx owner p

/-! ## Enums -/

/-- The progress has the values of its enumerators by name, and the value that comes next. -/
structure EnumProgress.Keeps (p : EnumProgress) : Prop where
  values : Agrees p.values (p.enumerators.map ownDefinition)
  next : p.next = nextAfter p.enumerators

/-- An initializer sees the earlier enumerators before all other definitions. -/
theorem EnumProgress.lookup_eq {p : EnumProgress} (hp : p.Keeps) (h : Agrees constants known) :
    p.lookup constants = meaning? (known ++ p.enumerators.map ownDefinition) := by
  funext name
  unfold EnumProgress.lookup
  rw [hp.values, h, meaning?_append]

/-- An enumerator has the value that the definitions give it. -/
theorem EnumProgress.valueOf_eq {p : EnumProgress} (hp : p.Keeps) (h : Agrees constants known)
    (head : Header) (c : EnumConstant) :
    (p.valueOf head constants c).1 = enumeratorValue known p.enumerators c := by
  unfold EnumProgress.valueOf enumeratorValue evaluated?
  rw [p.lookup_eq hp h, ← hp.next]
  cases initializer? c.init with
  | none => rfl
  | some text =>
    dsimp only [Option.bind_some]
    cases Constant.evaluate (meaning? (known ++ p.enumerators.map ownDefinition)) text <;> rfl

/-- One more enumerator keeps names and values in step. -/
theorem EnumProgress.Keeps.take {p : EnumProgress} (hp : p.Keeps) (head : Header)
    (constants : OrderedMap String Int64) (c : EnumConstant) : (p.take head constants c).Keeps := by
  unfold EnumProgress.take
  constructor
  · dsimp only
    rw [List.map_append]
    refine hp.values.concat fun name => ?_
    rw [OrderedMap.get?_insert]
    simp [ownDefinition]
  · simp [nextAfter]

/-- The enumerators of an enum have the values that the definitions before it give them. -/
theorem enumerators_evaluateEnum (h : Agrees constants known) (head : Header) (cs : List EnumConstant) :
    (evaluateEnum head constants cs).enumerators = enumerate known cs := by
  have hfold : ∀ p : EnumProgress, p.Keeps →
      (cs.foldl (EnumProgress.take head constants) p).enumerators =
        cs.foldl (fun own c => own ++ [⟨c.name, enumeratorValue known own c⟩]) p.enumerators := by
    induction cs with
    | nil => exact fun p _ => rfl
    | cons c cs ih =>
      intro p hp
      rw [List.foldl_cons, List.foldl_cons, ih _ (hp.take head constants c), ← p.valueOf_eq hp h head c]
      rfl
  exact hfold {} ⟨fun _ => rfl, rfl⟩

/-- Enumerators are put under all of their names, and the latest one of a name counts. -/
theorem get?_bindEnumerators (qualifiedName : String) (isScoped : Bool) (es : List Enumerator)
    (constants : OrderedMap String Int64) (name : String) :
    (bindEnumerators qualifiedName isScoped es constants).get? name =
      (meaning? (es.map (enumeratorDefinition qualifiedName isScoped)) name).or
        (constants.get? name) := by
  unfold bindEnumerators
  induction es generalizing constants with
  | nil => rfl
  | cons e es ih =>
    rw [List.foldl_cons, ih, List.map_cons, ← List.singleton_append, meaning?_append, Option.or_assoc]
    congr 1
    -- one enumerator
    rw [meaning?_singleton]
    by_cases hqualified : name = qualifiedName ++ "::" ++ e.name
    · cases isScoped <;> simp [hqualified, enumeratorDefinition, OrderedMap.get?_insert]
    · cases isScoped with
      | true => simp [hqualified, enumeratorDefinition, OrderedMap.get?_insert]
      | false =>
        by_cases hname : name = e.name
        · simp [hname, enumeratorDefinition]
        · simp [hqualified, hname, enumeratorDefinition, OrderedMap.get?_insert]

/-- An enum defines its enumerators. -/
theorem Agrees.bindEnumerators (h : Agrees constants known) (qualifiedName : String) (isScoped : Bool)
    (es : List Enumerator) : Agrees (Analysis.bindEnumerators qualifiedName isScoped es constants)
      (known ++ es.map (enumeratorDefinition qualifiedName isScoped)) := by
  intro name
  rw [get?_bindEnumerators, meaning?_append, h]

/-! ## Visits -/

@[simp] theorem State.constants_report (d : Diagnostic) (s : State) :
    (s.report d).constants = s.constants := rfl

theorem State.constants_emitContainer (r : ExportRecord) (instantiation : Option String) (s : State) :
    (s.emitContainer r instantiation).constants = s.constants := by
  unfold State.emitContainer
  split
  · exact State.constants_emit r s
  · exact State.constants_emit r s

theorem State.constants_uniqueContainerName (h : Header) (generated instantiation : String)
    (s : State) : (s.uniqueContainerName h generated instantiation).2.constants = s.constants := by
  unfold State.uniqueContainerName
  split <;> rfl

/-- Aliases define nothing. -/
theorem constants_exportAlias (ctx : Context) (h : Header) (target : TypeRef) (a : Directive)
    (s : State) : (exportAlias ctx h target a s).constants = s.constants := by
  have hcontainer : ∀ expected,
      (exportContainer ctx h target a expected s).constants = s.constants := by
    intro expected
    unfold exportContainer
    split
    · rfl
    · dsimp only
      split
      · unfold exportView
        split
        · simp [State.complain]
        · simp [State.constants_emitContainer]
      · unfold exportInstantiation
        split
        · simp [State.complain]
        · simp [State.constants_emitContainer, State.constants_uniqueContainerName]
  unfold exportAlias
  split
  · unfold exportCallback
    split
    · rfl
    · simp
  · exact hcontainer .vector
  · exact hcontainer .map
  · rfl

/-- A class defines the constants among its members. -/
theorem Agrees.exportClassMembers (ctx : Context) (head : Header) (traits : RecordTraits)
    (members : List Decl) (a : Directive) {s : State} (h : Agrees s.constants known) :
    let owner := ctx.classOwner head traits members a
    let ancestry := ctx.index.ancestry [owner.qualifiedName] ctx.scopes.path traits.bases
    Agrees (exportClassMembers ctx head traits members a s).constants
      (defineAll (ctx.enterClass head a) owner known
        (classPlaces ctx.options.marker owner members (ancestry.filter fun e => !e.annotated))) := by
  intro owner ancestry
  unfold Analysis.exportClassMembers
  rw [classSurface_eq]
  apply Agrees.foldl_addSlot
  rw [Surface.constants_noteMembers, State.constants_bindBases]
  exact h

theorem Agrees.exportExplicitMembers (ctx : Context) (head : Header) (members : List Decl) {s : State}
    (h : Agrees s.constants known) :
    let inside := ctx.enterRecord head
    let owner : Owner := { qualifiedName := inside.scopes.owner?.getD "" }
    Agrees (exportExplicitMembers ctx head members s).constants
      (defineAll inside owner known (places ctx.options.marker owner .own members)) := by
  intro inside owner
  unfold Analysis.exportExplicitMembers
  dsimp only
  rw [exportMembers_own]
  apply Agrees.foldl_addSlot
  rw [Surface.constants_noteMembers]
  exact h

theorem Agrees.exportVariable (ctx : Context) (head : Header) (info : Variable) (a : Directive)
    {s : State} (h : Agrees s.constants known) :
    Agrees (exportVariable ctx head info a s).constants
      (defineContents ctx (some a) known (.var head info)) := by
  unfold Analysis.exportVariable defineContents
  dsimp only
  split
  · rw [State.constants_emit]
    unfold State.bindConstant
    dsimp only
    rw [State.constants_useType]
    exact h.bind head.name _ info.init
  · rw [State.constants_emit, State.constants_useType]
    exact h

theorem Agrees.exportEnum (ctx : Context) (head : Header) (e : Enumeration) (a : Directive)
    {s : State} (h : Agrees s.constants known) :
    Agrees (exportEnum ctx head e a s).constants
      (defineContents ctx (some a) known (.enumeration head e)) := by
  unfold Analysis.exportEnum defineContents
  dsimp only
  rw [State.constants_emit, State.constants_reportAll, enumerators_evaluateEnum h]
  exact h.bindEnumerators _ _ _

/-- What a declaration contributes to the constants. -/
theorem Agrees.contribute (ctx : Context) (directive : Option Directive) (d : Decl) {s : State}
    (h : Agrees s.constants known) :
    Agrees (Visit.contribute ctx directive d s).constants (defineContents ctx directive known d) := by
  cases d with
  | nameSpace head decls =>
    cases directive with
    | none => exact h
    | some a =>
      unfold Visit.contribute
      dsimp only
      rw [State.constants_emit]
      exact h
  | record head traits members =>
    cases directive with
    | none => exact h.exportExplicitMembers ctx head members
    | some a =>
      have hemitted : Agrees (s.emit (ctx.classRecord head traits members a)).constants known := by
        rw [State.constants_emit]
        exact h
      unfold Visit.contribute defineContents
      dsimp only
      split
      · exact hemitted.exportClassMembers ctx head traits members a
      · exact hemitted
  | var head info =>
    cases directive with
    | none => exact h
    | some a => exact h.exportVariable ctx head info a
  | enumeration head e =>
    cases directive with
    | none => exact h
    | some a => exact h.exportEnum ctx head e a
  | function head c =>
    cases directive with
    | none => exact h
    | some a =>
      unfold Visit.contribute exportLeaf exportFunction
      dsimp only
      split
      · exact h
      · rw [State.constants_emit, State.constants_useTypes]
        exact h
  | typeAlias head target =>
    cases directive with
    | none => exact h
    | some a =>
      unfold Visit.contribute exportLeaf
      dsimp only
      rw [constants_exportAlias]
      exact h
  | _ => cases directive <;> exact h

/-- One visit. -/
theorem Agrees.run (v : Visit) {s : State} (h : Agrees s.constants known) :
    Agrees (v.run s).constants (v.define known) := by
  have hvisited : Agrees (s.visit v.ctx v.decl).constants known := by
    rw [State.constants_visit]
    exact h
  unfold Visit.run Visit.define
  dsimp only
  split
  · exact hvisited
  · exact hvisited.contribute v.ctx v.verdict.directive v.decl

end Agreement

/-- All visits: a name is known by the latest of the definitions made so far. -/
theorem agrees_runVisits (vs : List Visit) : Agrees (runVisits vs {}).constants (definitions vs) := by
  have hfold : ∀ (s : State) (known : List Definition), Agrees s.constants known →
      Agrees (runVisits vs s).constants (vs.foldl (fun known v => v.define known) known) := by
    induction vs with
    | nil => exact fun s known h => h
    | cons v vs ih => exact fun s known h => ih _ _ (h.run v)
  exact hfold {} [] fun _ => rfl

/-! ## Initializers that are names -/

/-- What a name in an initializer means: the name as it stands, or else its last segment. -/
def reference? (known : List Definition) (name : String) : Option Int64 :=
  (meaning? known name).or
    (if Text.hasColons name.toList then meaning? known (Text.lastSegment name) else none)

variable {name : String} {known : List Definition}

theorem toOption_evaluate_name (lookup : String → Option Int64) {text : String}
    (h : Constant.tokens text = .ok [.name name]) :
    (Constant.evaluate lookup text).toOption = (Constant.resolve lookup name).toOption := by
  have hrun : Constant.run lookup text .operand [] [.name name] =
      Constant.resolve lookup name >>= Constant.resume lookup text [] [] :=
    Constant.run_name lookup text (by decide) [] name
  unfold Constant.evaluate
  rw [h]
  refine (congrArg Except.toOption hrun).trans ?_
  cases Constant.resolve lookup name <;> rfl

/-- An initializer that is a name means what the name means. -/
theorem evaluated?_name (known : List Definition) {init : Option String} {text : String}
    (hinit : initializer? init = some text) (h : Constant.tokens text = .ok [.name name]) :
    evaluated? known init = reference? known name := by
  unfold evaluated? reference?
  rw [hinit, Option.bind_some, toOption_evaluate_name _ h]
  unfold Constant.resolve
  cases meaning? known name with
  | some v => rfl
  | none =>
    cases Text.hasColons name.toList with
    | true => cases meaning? known (Text.lastSegment name) <;> rfl
    | false => rfl

theorem meaning?_eq_none (h : ∀ d ∈ known, name ∉ d.names) : meaning? known name = none := by
  unfold meaning?
  rw [Option.map_eq_none_iff, List.find?_eq_none]
  intro d hd
  simpa using h d (List.mem_reverse.mp hd)

/-- A name means the latest definition with that name. -/
theorem meaning?_of_latest {earlier later : List Definition} {d : Definition}
    (hname : name ∈ d.names) (hlater : ∀ d' ∈ later, name ∉ d'.names) :
    meaning? (earlier ++ d :: later) name = some d.value := by
  rw [List.append_cons, meaning?_append, meaning?_append, meaning?_eq_none hlater,
    meaning?_singleton, if_pos hname]
  rfl

/-- A name means its latest definition. -/
theorem reference?_of_latest {earlier later : List Definition} {d : Definition}
    (hname : name ∈ d.names) (hlater : ∀ d' ∈ later, name ∉ d'.names) :
    reference? (earlier ++ d :: later) name = some d.value := by
  unfold reference?
  rw [meaning?_of_latest hname hlater]
  rfl

/-! ## The enumerators of an enum -/

/-- Each enumerator stands after those before it, with the value that they give it. -/
theorem enumerate_append_cons (known : List Definition) (pre : List EnumConstant) (c : EnumConstant)
    (post : List EnumConstant) : ∃ rest, enumerate known (pre ++ c :: post) =
      enumerate known pre ++ ⟨c.name, enumeratorValue known (enumerate known pre) c⟩ :: rest := by
  have hgrows : ∀ (cs : List EnumConstant) (own : List Enumerator), ∃ rest,
      cs.foldl (fun own c => own ++ [⟨c.name, enumeratorValue known own c⟩]) own = own ++ rest := by
    intro cs
    induction cs with
    | nil => exact fun own => ⟨[], (List.append_nil own).symm⟩
    | cons c cs ih =>
      intro own
      obtain ⟨rest, hrest⟩ := ih (own ++ [⟨c.name, enumeratorValue known own c⟩])
      exact ⟨_, hrest.trans (List.append_assoc ..)⟩
  unfold enumerate
  rw [List.foldl_append, List.foldl_cons]
  obtain ⟨rest, hrest⟩ := hgrows post _
  exact ⟨rest, hrest.trans (List.append_assoc ..)⟩

theorem map_name_enumerate (known : List Definition) (cs : List EnumConstant) :
    (enumerate known cs).map (·.name) = cs.map (·.name) := by
  induction cs using List.reverseRecOn with
  | nil => rfl
  | append_singleton cs c ih =>
    have hlast : enumerate known (cs ++ [c]) =
        enumerate known cs ++ [⟨c.name, enumeratorValue known (enumerate known cs) c⟩] :=
      List.foldl_append
    rw [hlast, List.map_append, List.map_append, ih]
    rfl

/-- The record of an enum. -/
def Context.enumRecord (ctx : Context) (h : Header) (a : Directive) (es : List Enumerator) :
    ExportRecord :=
  { ctx.record .enumeration h h.name (some a) with enumerators := es }

/-- An enum shows the values that the definitions before it give. -/
theorem exportEnum_eq (ctx : Context) (head : Header) (e : Enumeration) (a : Directive) {s : State}
    (h : Agrees s.constants known) (P : ExportRecord → Prop) :
    ∃ t, s.Changes P t ∧ exportEnum ctx head e a s =
      t.emit (ctx.enumRecord head a (enumerate known e.enumerators)) := by
  let reported := s.reportAll (evaluateEnum head s.constants e.enumerators).diagnostics
  let bound := bindEnumerators (ctx.scopes.qualifiedName head.name) e.isScoped
    (enumerate known e.enumerators) reported.constants
  refine ⟨{ reported with constants := bound }, ?_, ?_⟩
  · exact (changes_reportAll s _).trans (.of_change (.constants _ _))
  · unfold exportEnum
    dsimp only
    rw [enumerators_evaluateEnum h]
    rfl

/-- The visit to an enum leaves the record of the enum behind, unless its identity is taken. -/
theorem Visit.exists_record_of_enum {v : Visit} {head : Header} {e : Enumeration} {a : Directive}
    (hdecl : v.decl = .enumeration head e) (hdirective : v.verdict.directive = some a)
    (hhead : Text.isBlankText head.name = false) {s : State} (hs : s.Sound)
    (hknown : Agrees s.constants known) : ∃ r ∈ (v.run s).records.toList,
      r.identity = ⟨.enumeration, v.ctx.scopes.qualifiedName head.name, [], false⟩ ∧
      (r ∉ s.records.toList → r = v.ctx.enumRecord head a (enumerate known e.enumerators)) := by
  have hvalid : (v.ctx.enumRecord head a (enumerate known e.enumerators)).isValid = true := by
    rw [ExportRecord.isValid_iff]
    exact ⟨hhead, isBlankText_qualifiedName hhead _⟩
  have hkept : v.verdict ≠ .ignored := by
    intro hignored
    rw [hignored] at hdirective
    cases hdirective
  have hrun : v.run s = exportEnum v.ctx head e a (s.visit v.ctx v.decl) := by
    unfold Visit.run
    rw [if_neg hkept, hdirective, hdecl]
    rfl
  have hvisited : Agrees (s.visit v.ctx v.decl).constants known := by
    rw [State.constants_visit]
    exact hknown
  obtain ⟨t, hchanges, hemitted⟩ := exportEnum_eq v.ctx head e a hvisited
    (· = v.ctx.enumRecord head a (enumerate known e.enumerators))
  rw [hrun, hemitted]
  have hall := (changes_visit s v.ctx v.decl).trans (hchanges.trans (changes_emit t rfl))
  exact hs.exists_record hall (identity_mem_emit t hvalid)

end ScriptExport.Analysis

namespace ScriptExport

open Analysis

/-- **References mean the latest definition.** In the record of an exported enum the value of an
enumerator whose initializer is a single name is that of the latest definition that the name can mean,
bare or in full: one of the earlier enumerators of the enum, or else a constant or an enumerator that was
evaluated before in the walk, in whatever scope. If there is none, the last segment of the name is tried in
the same way, and if that means nothing either, the enumerator follows the one before it. So a definition
of the scope of the enum is found only if no later definition of another scope has the same name. -/
theorem enumerator_names_latest_definition (o : Options) (u : TranslationUnit)
    (h : u.check o = .ok ()) :
    ∃ result, analyze o u = .ok result ∧
      ∀ before v after head e a,
        visits (Context.ofUnit o u) u.decls = before ++ v :: after →
        v.decl = .enumeration head e → v.decl.directive? o.marker = some a →
        Text.isBlankText head.name = false →
        ∃ r ∈ result.records,
          r.identity = ⟨.enumeration, v.ctx.scopes.qualifiedName head.name, [], false⟩ ∧
          (r ∉ (runVisits before {}).records.toList →
            r.enumerators.map (·.name) = e.enumerators.map (·.name) ∧
            ∀ pre c post text name, e.enumerators = pre ++ c :: post →
              initializer? c.init = some text → Constant.tokens text = .ok [.name name] →
              let own := r.enumerators.take pre.length
              r.enumerators[pre.length]? = some ⟨c.name,
                (reference? (definitions before ++ own.map ownDefinition) name).getD (nextAfter own)⟩ ∧
              ∀ earlier d later, definitions before = earlier ++ d :: later → name ∈ d.names →
                (∀ d' ∈ later, name ∉ d'.names) → name ∉ pre.map (·.name) →
                r.enumerators[pre.length]? = some ⟨c.name, d.value⟩) := by
  refine ⟨_, analyze_of_check h, ?_⟩
  intro before v after head e a hvisits hdecl ha hhead
  have hdirective := directive_of_split hvisits ha
  obtain ⟨r, hr, hidentity, hrecord⟩ := Visit.exists_record_of_enum hdecl hdirective hhead
    (sound_runVisits before) (agrees_runVisits before)
  obtain ⟨new, hrecords, -⟩ := (extends_of_split hvisits).records
  refine ⟨r, hrecords ▸ List.mem_append_left new hr, hidentity, fun hnew => ?_⟩
  generalize definitions before = known at hrecord
  have henumerators : r.enumerators = enumerate known e.enumerators :=
    congrArg ExportRecord.enumerators (hrecord hnew)
  refine ⟨henumerators ▸ map_name_enumerate known e.enumerators, ?_⟩
  intro pre c post text name hsplit hinit htokens
  obtain ⟨rest, hrest⟩ := enumerate_append_cons known pre c post
  have hnames := map_name_enumerate known pre
  generalize enumerate known pre = own at hrest hnames
  have hlength : own.length = pre.length := by simpa using congrArg List.length hnames
  have hown : r.enumerators.take pre.length = own := by
    rw [henumerators, hsplit, hrest, List.take_left' hlength]
  have hvalue : r.enumerators[pre.length]? = some ⟨c.name,
      (reference? (known ++ own.map ownDefinition) name).getD (nextAfter own)⟩ := by
    rw [henumerators, hsplit, hrest, ← hlength, List.getElem?_append_right (Nat.le_refl _),
      Nat.sub_self, List.getElem?_cons_zero, enumeratorValue, evaluated?_name _ hinit htokens]
  dsimp only
  rw [hown]
  refine ⟨hvalue, ?_⟩
  intro earlier d later hknown hname hlater hother
  have hnone : ∀ d' ∈ later ++ own.map ownDefinition, name ∉ d'.names := by
    intro d' hd'
    rcases List.mem_append.mp hd' with hd' | hd'
    · exact hlater d' hd'
    · obtain ⟨e, he, rfl⟩ := List.mem_map.mp hd'
      intro heq
      exact hother (hnames ▸ List.mem_map.mpr ⟨e, he, (List.mem_singleton.mp heq).symm⟩)
  rw [hvalue, hknown, List.append_assoc, List.cons_append, reference?_of_latest hname hnone]
  rfl

/-- A namespace with a constant. -/
def constantScope (scope value : String) : Decl :=
  .nameSpace { name := scope } [.var { name := "N", annotations := ["lua_export_constant"] }
    { type := .builtin "int", isConst := true, init := some value }]

/-- An enum with an enumerator that refers to a constant. -/
def referringEnum : Decl :=
  .enumeration { name := "E", annotations := ["lua_export_enum"] }
    { enumerators := [{ name := "V", init := some "N" }] }

/-- Constants of the same name in two scopes, and the enum in the first of the scopes. -/
def scopesUnit : TranslationUnit :=
  { filePath := "d.h"
    decls := [constantScope "a" "1", constantScope "b" "2", .nameSpace { name := "a" } [referringEnum]] }

/-- The enumerator takes the value of the constant in the other scope. -/
theorem enumerator_names_latest_definition_of_other_scope :
    scopesUnit.check {} = .ok () ∧
    ∃ result, analyze {} scopesUnit = .ok result ∧
      ∃ r ∈ result.records, r.identity = ⟨.enumeration, "a::E", [], false⟩ ∧
        r.enumerators[0]? = some ⟨"V", 2⟩ := by
  have haccepted : scopesUnit.check {} = .ok () := TranslationUnit.check_default (by decide) rfl
  refine ⟨haccepted, ?_⟩
  obtain ⟨result, hresult, henum⟩ := enumerator_names_latest_definition {} scopesUnit haccepted
  refine ⟨result, hresult, ?_⟩
  have hvisits : visits (Context.ofUnit {} scopesUnit) scopesUnit.decls =
      (visits (Context.ofUnit {} scopesUnit) scopesUnit.decls).take 5
        ++ ⟨(Context.ofUnit {} scopesUnit).enterNamespace { name := "a" } none, referringEnum⟩
          :: [] := by rfl
  have hdirective : referringEnum.directive? "lua_export_" = some ⟨.enumeration, {}⟩ := by rfl
  obtain ⟨r, hr, hidentity, hvalues⟩ := henum _ _ _ _ _ _ hvisits rfl hdirective (by decide)
  refine ⟨r, hr, hidentity, ?_⟩
  have hnew : r ∉ (runVisits ((visits (Context.ofUnit {} scopesUnit) scopesUnit.decls).take 5)
      {}).records.toList := by
    have hkinds : (runVisits ((visits (Context.ofUnit {} scopesUnit) scopesUnit.decls).take 5)
        {}).records.toList.map (·.kind) = [.constant, .constant] := by rfl
    intro hmem
    have hkind : r.kind ∈ [.constant, .constant] := hkinds ▸ List.mem_map_of_mem hmem
    rw [(Identity.mk.inj hidentity).1] at hkind
    simp at hkind
  have hdefinitions : definitions ((visits (Context.ofUnit {} scopesUnit) scopesUnit.decls).take 5) =
      [⟨["N", "a::N"], 1⟩] ++ ⟨["N", "b::N"], 2⟩ :: [] := by rfl
  obtain ⟨-, hreferences⟩ := hvalues hnew
  have htokens : Constant.tokens "N" = .ok [.name "N"] := by rfl
  exact (hreferences [] { name := "V", init := some "N" } [] "N" "N" rfl (by rfl) htokens).2 _ _ _
    hdefinitions (by simp) (by simp) (by simp)

end ScriptExport
