import ScriptExport.Proofs.Analysis.Visits

/-!
# The steps of a walk

A visit is one step on the state, but it may hand many records to the result: a class binds its bases,
takes its own members and then those of its unexported bases. Which operations these are, and in which
order, depends on the declarations only and not on the state. So a walk is a list of elementary steps
(`walkSteps`), and the points of a walk are what its beginnings lead to: `runSteps_walkSteps`. A fact
about every point of a walk then needs one lemma for each kind of step.
-/

namespace ScriptExport.Analysis

/-- An elementary operation of a walk, on the members of the type at hand and the state. -/
abbrev Step := Surface → Surface

/-- Make steps one after the other. -/
def runSteps (steps : List Step) (x : Surface) : Surface :=
  steps.foldl (fun x step => step x) x

@[simp] theorem runSteps_nil (x : Surface) : runSteps [] x = x := rfl

@[simp] theorem runSteps_cons (step : Step) (steps : List Step) (x : Surface) :
    runSteps (step :: steps) x = runSteps steps (step x) := rfl

/-- Steps are made one after the other. -/
theorem runSteps_append (steps more : List Step) (x : Surface) :
    runSteps (steps ++ more) x = runSteps more (runSteps steps x) := by
  unfold runSteps
  exact List.foldl_append

/-- A type without members, in the state at hand. -/
def Surface.restart (x : Surface) : Surface :=
  { state := x.state }

/-- The steps that export a member list onto a type. -/
def memberSteps (ctx : Context) (owner : Owner) (source : MemberSource) (decls : List Decl) :
    List Step :=
  let members := decls.map (markMember ctx.options.marker)
  let plan := planProperties owner.qualifiedName members
  let notes : List Step :=
    if source.isInherited then []
    else decls.map (fun d => Surface.onState (·.visitMember ctx.options.marker d))
      ++ plan.diagnostics.map fun d => Surface.onState (·.report d)
  notes ++ (members.zip plan.slots).map fun p x => x.addSlot ctx owner source p.1 p.2

/-- The steps of an exported class after its own record: its bindings to exported bases, its own
members and the members of its unexported bases. -/
def classSteps (ctx : Context) (h : Header) (traits : RecordTraits) (members : List Decl)
    (directive : Directive) : List Step :=
  let inside := ctx.enterClass h directive
  let owner := ctx.classOwner h traits members directive
  let ancestry := ctx.index.ancestry [owner.qualifiedName] ctx.scopes.path traits.bases
  (ancestry.filter (·.annotated)).map
      (fun e => Surface.onState (·.emit (inside.inheritRecord h owner.qualifiedName e)))
    ++ (memberSteps inside owner .own members
    ++ (ancestry.filter (fun e => !e.annotated)).flatMap fun e =>
      memberSteps inside owner (.inherited e.qualifiedName) e.decl.children)

/-- The steps that a declaration which is not ignored contributes by itself. -/
def contributedSteps (ctx : Context) (directive : Option Directive) : Decl → List Step
  | .nameSpace h _ =>
    match directive with
    | some a => [Surface.onState (·.emit (ctx.namespaceRecord h a))]
    | none => []
  | .record h traits members =>
    match directive with
    | some a =>
      let r := ctx.classRecord h traits members a
      Surface.onState (·.emit r)
        :: if r.isValid then Surface.restart :: classSteps ctx h traits members a else []
    | none =>
      let inside := ctx.enterRecord h
      Surface.restart
        :: memberSteps inside { qualifiedName := inside.scopes.owner?.getD "" } .own members
  | d =>
    match directive with
    | some a => [Surface.onState (exportLeaf ctx d a)]
    | none => []

/-- The steps of a visit. -/
def Visit.steps (v : Visit) : List Step :=
  Surface.onState (·.visit v.ctx v.decl)
    :: if v.verdict = .ignored then [] else contributedSteps v.ctx v.verdict.directive v.decl

/-- The steps of a walk through declarations. -/
def walkSteps (ctx : Context) (ds : List Decl) : List Step :=
  (visits ctx ds).flatMap Visit.steps

/-! ## Steps make up what they stand for -/

theorem runSteps_map_onState {α : Type} (f : α → State → State) (l : List α) (x : Surface) :
    runSteps (l.map fun a => Surface.onState (f a)) x =
      x.onState fun s => l.foldl (fun s a => f a s) s := by
  induction l generalizing x with
  | nil => rfl
  | cons a l ih => rw [List.map_cons, runSteps_cons, ih]; rfl

variable {step : Step} (ctx : Context)

/-- The steps of a member list are its export. -/
theorem runSteps_memberSteps (owner : Owner) (source : MemberSource) (decls : List Decl)
    (x : Surface) :
    runSteps (memberSteps ctx owner source decls) x = exportMembers ctx owner source decls x := by
  unfold memberSteps exportMembers
  dsimp only
  rw [runSteps_append]
  have hslots : ∀ (l : List (Member × Slot)) (x : Surface),
      runSteps (l.map fun p x => x.addSlot ctx owner source p.1 p.2) x =
        l.foldl (fun x p => x.addSlot ctx owner source p.1 p.2) x := by
    intro l x
    unfold runSteps
    exact List.foldl_map
  rw [hslots]
  cases source with
  | inherited base => rfl
  | own =>
    simp only [MemberSource.isInherited, Bool.false_eq_true, ↓reduceIte]
    rw [runSteps_append, runSteps_map_onState, runSteps_map_onState]
    rfl

/-- The steps of a class are its export. -/
theorem runSteps_classSteps (h : Header) (traits : RecordTraits) (members : List Decl)
    (a : Directive) (s : State) :
    (runSteps (classSteps ctx h traits members a) { state := s }).state =
      exportClassMembers ctx h traits members a s := by
  unfold classSteps exportClassMembers classSurface
  dsimp only
  rw [runSteps_append, runSteps_append, runSteps_map_onState, runSteps_memberSteps]
  have hinherited : ∀ (inner : Context) (owner : Owner) (bases : List TypeEntry) (x : Surface),
      runSteps (bases.flatMap fun e =>
        memberSteps inner owner (.inherited e.qualifiedName) e.decl.children) x =
          exportInherited inner owner bases x := by
    intro inner owner bases
    induction bases with
    | nil => intro x; rfl
    | cons e bases ih =>
      intro x
      rw [List.flatMap_cons, runSteps_append, runSteps_memberSteps, ih]
      rfl
  rw [hinherited]
  rfl

/-- The steps of a declaration are what it contributes. -/
theorem runSteps_contributedSteps (directive : Option Directive) (d : Decl) (x : Surface) :
    (runSteps (contributedSteps ctx directive d) x).state =
      Visit.contribute ctx directive d x.state := by
  cases d with
  | nameSpace h decls => cases directive <;> rfl
  | record h traits members =>
    cases directive with
    | none =>
      unfold contributedSteps Visit.contribute exportExplicitMembers
      rw [runSteps_cons, runSteps_memberSteps]
      rfl
    | some a =>
      unfold contributedSteps Visit.contribute
      dsimp only
      rw [runSteps_cons]
      split
      · rw [runSteps_cons]
        exact runSteps_classSteps ctx h traits members a _
      · rfl
  | _ => cases directive <;> rfl

theorem Visit.runSteps_steps (v : Visit) (x : Surface) :
    (runSteps v.steps x).state = v.run x.state := by
  unfold Visit.steps Visit.run
  rw [runSteps_cons]
  dsimp only
  split
  · rfl
  · exact runSteps_contributedSteps _ _ _ _

/-- The steps of a walk lead to the state after the walk. -/
theorem runSteps_walkSteps (ds : List Decl) (x : Surface) :
    (runSteps (walkSteps ctx ds) x).state = walk ctx ds x.state := by
  rw [walk_eq_runVisits]
  unfold walkSteps
  induction visits ctx ds generalizing x with
  | nil => rfl
  | cons v vs ih =>
    rw [List.flatMap_cons, runSteps_append, ih, runVisits_cons, v.runSteps_steps]

/-! ## What every step keeps -/

/-- What has to be shown of the steps of `vs` one kind at a time. -/
structure StepCases (vs : List Visit) (Q : Step → Prop) : Prop where
  visit : ∀ v ∈ vs, Q (Surface.onState (·.visit v.ctx v.decl))
  visitMember : ∀ marker d, Q (Surface.onState (·.visitMember marker d))
  report : ∀ d, Q (Surface.onState (·.report d))
  emit : ∀ r : ExportRecord, r.kind ≠ .container → Q (Surface.onState (·.emit r))
  leaf : ∀ v ∈ vs, ∀ a, v.verdict.directive = some a →
    Q (Surface.onState (exportLeaf v.ctx v.decl a))
  restart : Q Surface.restart
  slot : ∀ ctx owner source m slot, Q (·.addSlot ctx owner source m slot)

namespace StepCases

variable {vs : List Visit} {Q : Step → Prop} (hQ : StepCases vs Q)
include hQ

theorem of_mem_memberSteps {ctx : Context} {owner : Owner} {source : MemberSource}
    {decls : List Decl} (h : step ∈ memberSteps ctx owner source decls) : Q step := by
  unfold memberSteps at h
  rcases List.mem_append.mp h with h | h
  · split at h
    · cases h
    · rcases List.mem_append.mp h with h | h
      · obtain ⟨d, -, rfl⟩ := List.mem_map.mp h
        exact hQ.visitMember _ d
      · obtain ⟨d, -, rfl⟩ := List.mem_map.mp h
        exact hQ.report d
  · obtain ⟨p, -, rfl⟩ := List.mem_map.mp h
    exact hQ.slot ctx owner source p.1 p.2

theorem of_mem_classSteps {ctx : Context} {h : Header} {traits : RecordTraits} {members : List Decl}
    {a : Directive} (hs : step ∈ classSteps ctx h traits members a) : Q step := by
  unfold classSteps at hs
  rcases List.mem_append.mp hs with hs | hs
  · obtain ⟨e, -, rfl⟩ := List.mem_map.mp hs
    exact hQ.emit _ (by simp [Context.inheritRecord, Context.record])
  · rcases List.mem_append.mp hs with hs | hs
    · exact hQ.of_mem_memberSteps hs
    · obtain ⟨e, -, hs⟩ := List.mem_flatMap.mp hs
      exact hQ.of_mem_memberSteps hs

theorem of_mem_contributedSteps {v : Visit} (hv : v ∈ vs)
    (h : step ∈ contributedSteps v.ctx v.verdict.directive v.decl) : Q step := by
  have hleaf := hQ.leaf v hv
  generalize v.verdict.directive = directive at h hleaf
  generalize v.decl = d at h hleaf
  cases d with
  | nameSpace head decls =>
    cases directive with
    | none => cases h
    | some a =>
      rw [List.mem_singleton.mp h]
      refine hQ.emit _ ?_
      by_cases hm : a.kind = .moduleScope <;> simp [hm, Context.namespaceRecord, Context.record]
  | record head traits members =>
    cases directive with
    | none =>
      rcases List.mem_cons.mp h with rfl | h
      · exact hQ.restart
      · exact hQ.of_mem_memberSteps h
    | some a =>
      rcases List.mem_cons.mp h with rfl | h
      · exact hQ.emit _ (by simp [Context.classRecord, Context.record])
      · split at h
        · rcases List.mem_cons.mp h with rfl | h
          · exact hQ.restart
          · exact hQ.of_mem_classSteps h
        · cases h
  | _ =>
    cases directive with
    | none => cases h
    | some a => rw [List.mem_singleton.mp h]; exact hleaf a rfl

end StepCases

theorem StepCases.of_mem_steps {vs : List Visit} {Q : Step → Prop} (hQ : StepCases vs Q) {v : Visit}
    (hv : v ∈ vs) (h : step ∈ v.steps) : Q step := by
  unfold Visit.steps at h
  rcases List.mem_cons.mp h with rfl | h
  · exact hQ.visit v hv
  · split at h
    · cases h
    · exact hQ.of_mem_contributedSteps hv h

/-- The cases cover the steps of a walk. -/
theorem StepCases.of_mem_walkSteps {ctx : Context} {ds : List Decl} {Q : Step → Prop}
    (hQ : StepCases (visits ctx ds) Q) (h : step ∈ walkSteps ctx ds) : Q step := by
  obtain ⟨v, hv, h⟩ := List.mem_flatMap.mp h
  exact hQ.of_mem_steps hv h

end ScriptExport.Analysis
