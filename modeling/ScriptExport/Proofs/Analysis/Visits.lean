import ScriptExport.Analysis.Run

/-!
# The visits of a walk

The walk is recursive, but what it does at a declaration is over before the contents of the
declaration are visited. So a walk is the list of its visits in order (`visits`), each of which is
one step on the state (`Visit.run`): `walk_eq_runVisits`. What every step keeps, a whole walk keeps,
and no proof about a walk has to go through the tree again.
-/

namespace ScriptExport.Analysis

/-- A declaration and the context in which the walk comes to it. -/
structure Visit where
  ctx : Context
  decl : Decl

namespace Visit

/-- What becomes of the visited declaration. -/
def verdict (v : Visit) : Verdict :=
  v.ctx.verdict v.decl

/-- What a declaration that is not ignored contributes by itself, without what is inside it. -/
def contribute (ctx : Context) (directive : Option Directive) : Decl → State → State
  | .nameSpace h _, s =>
    match directive with
    | some a => s.emit (ctx.namespaceRecord h a)
    | none => s
  | .record h traits members, s =>
    match directive with
    | some a =>
      let r := ctx.classRecord h traits members a
      let s := s.emit r
      if r.isValid then exportClassMembers ctx h traits members a s else s
    | none => exportExplicitMembers ctx h members s
  | d, s =>
    match directive with
    | some a => exportLeaf ctx d a s
    | none => s

/-- The step that a visit makes. -/
def run (v : Visit) (s : State) : State :=
  let s := s.visit v.ctx v.decl
  if v.verdict = .ignored then s else contribute v.ctx v.verdict.directive v.decl s

/-- The context in which the contents of the declaration are visited, if they are: an ignored scope
and a class without a name are left out with everything in them. -/
def inside? (v : Visit) : Option Context :=
  if v.verdict = .ignored then none
  else match v.decl with
    | .nameSpace h _ => some (v.ctx.enterNamespace h v.verdict.directive)
    | .record h traits members =>
      match v.verdict.directive with
      | some a =>
        if (v.ctx.classRecord h traits members a).isValid then some (v.ctx.enterClass h a) else none
      | none => some (v.ctx.enterRecord h)
    | _ => none

end Visit

mutual

/-- The visits of a walk to a declaration and to everything inside it, in order. -/
def visitsOf (ctx : Context) : Decl → List Visit
  | .nameSpace h decls =>
    let v : Visit := ⟨ctx, .nameSpace h decls⟩
    v :: match v.inside? with
      | some inner => visits inner decls
      | none => []
  | .record h traits members =>
    let v : Visit := ⟨ctx, .record h traits members⟩
    v :: match v.inside? with
      | some inner => visits inner members
      | none => []
  | d => [⟨ctx, d⟩]

/-- The visits of a walk through declarations. -/
def visits (ctx : Context) : List Decl → List Visit
  | [] => []
  | d :: ds => (if d.isMemberOnly then [] else visitsOf ctx d) ++ visits ctx ds

end

/-- Make visits one after the other. -/
def runVisits (vs : List Visit) (s : State) : State :=
  vs.foldl (fun s v => v.run s) s

@[simp] theorem runVisits_nil (s : State) : runVisits [] s = s := rfl

@[simp] theorem runVisits_cons (v : Visit) (vs : List Visit) (s : State) :
    runVisits (v :: vs) s = runVisits vs (v.run s) := rfl

theorem runVisits_append (vs ws : List Visit) (s : State) :
    runVisits (vs ++ ws) s = runVisits ws (runVisits vs s) := by
  unfold runVisits
  exact List.foldl_append

/-- Lists are visited one after the other. -/
theorem visits_append (ctx : Context) (ds es : List Decl) :
    visits ctx (ds ++ es) = visits ctx ds ++ visits ctx es := by
  induction ds with
  | nil => rfl
  | cons d ds ih => simp only [List.cons_append, visits, ih, List.append_assoc]

/-- A visit to a declaration that opens no scope exports it if it has a directive. -/
theorem Visit.run_leaf {ctx : Context} {d : Decl} (s : State)
    (hd : ∀ directive s, contribute ctx directive d s =
      match directive with
      | some a => exportLeaf ctx d a s
      | none => s) :
    (⟨ctx, d⟩ : Visit).run s =
      match (ctx.verdict d).directive with
      | some a => exportLeaf ctx d a (s.visit ctx d)
      | none => s.visit ctx d := by
  unfold Visit.run Visit.verdict
  by_cases hi : ctx.verdict d = .ignored
  · simp only [hi, ↓reduceIte, Verdict.directive]
  · simp only [hi, ↓reduceIte]
    exact hd _ _

/-- A walk makes its visits. -/
theorem walk_eq_runVisits (ctx : Context) (ds : List Decl) (s : State) :
    walk ctx ds s = runVisits (visits ctx ds) s := by
  induction ds using Decl.list_induction generalizing ctx s with
  | nil => rw [walk, visits, runVisits_nil]
  | cons d ds ihContents ih =>
    have hd : visit ctx d s = runVisits (visitsOf ctx d) s := by
      cases d with
      | nameSpace h decls =>
        rw [visit, visitsOf, runVisits_cons]
        unfold Visit.inside? Visit.run Visit.verdict
        by_cases hi : ctx.verdict (.nameSpace h decls) = .ignored
        · simp only [hi, ↓reduceIte, runVisits_nil]
        · simp only [hi, ↓reduceIte]
          exact ihContents _ _
      | record h traits members =>
        rw [visit, visitsOf, runVisits_cons]
        unfold Visit.inside? Visit.run Visit.verdict
        by_cases hi : ctx.verdict (.record h traits members) = .ignored
        · simp only [hi, ↓reduceIte, runVisits_nil]
        · simp only [hi, ↓reduceIte]
          cases (ctx.verdict (.record h traits members)).directive with
          | none => exact ihContents _ _
          | some a =>
            by_cases hv : (ctx.classRecord h traits members a).isValid = true
            · simp only [hv, ↓reduceIte, Visit.contribute]
              exact ihContents _ _
            · simp only [hv, Bool.false_eq_true, ↓reduceIte, Visit.contribute, runVisits_nil]
      | _ => exact (Visit.run_leaf s fun _ _ => rfl).symm
    rw [walk, visits, runVisits_append, ih]
    split
    · rfl
    · rw [hd]

/-! ## What holds at every visit -/

/-- A declaration is visited before what is inside it. -/
theorem visitsOf_eq (ctx : Context) (d : Decl) :
    visitsOf ctx d = ⟨ctx, d⟩ :: match (⟨ctx, d⟩ : Visit).inside? with
      | some inner => visits inner d.children
      | none => [] := by
  cases d with
  | nameSpace h decls => rw [visitsOf]; rfl
  | record h traits members => rw [visitsOf]; rfl
  | _ =>
    unfold Visit.inside?
    split <;> rfl

theorem mem_visitsOf_iff {ctx : Context} {d : Decl} {v : Visit} :
    v ∈ visitsOf ctx d ↔ v = ⟨ctx, d⟩ ∨
      ∃ inner, (⟨ctx, d⟩ : Visit).inside? = some inner ∧ v ∈ visits inner d.children := by
  rw [visitsOf_eq, List.mem_cons]
  cases (⟨ctx, d⟩ : Visit).inside? with
  | none => simp
  | some inner => simp

/-- What holds of a scope holds of its contents, where the walk goes on to them. -/
def Descends (Q : Context → Decl → Prop) : Prop :=
  ∀ (v : Visit) inner, Q v.ctx v.decl → v.inside? = some inner → ∀ d ∈ v.decl.children, Q inner d

/-- What holds of the declarations of a walk and descends holds at every visit. -/
theorem of_mem_visits {Q : Context → Decl → Prop} (hQ : Descends Q) {v : Visit} (ctx : Context)
    (ds : List Decl) (hds : ∀ d ∈ ds, Q ctx d) (hv : v ∈ visits ctx ds) : Q v.ctx v.decl := by
  induction ds using Decl.list_induction generalizing ctx with
  | nil => cases hv
  | cons d ds ihContents ih =>
    obtain ⟨hd, hds⟩ := List.forall_mem_cons.mp hds
    rw [visits] at hv
    rcases List.mem_append.mp hv with hv | hv
    · split at hv
      · cases hv
      · rcases mem_visitsOf_iff.mp hv with rfl | ⟨inner, hinner, hv⟩
        · exact hd
        · exact ihContents inner (hQ _ inner hd hinner) hv
    · exact ih ctx hds hv

/-- The contents of a scope are visited with the file, the options and the index of the scope, and
one name further down. -/
theorem Visit.of_inside? {v : Visit} {inner : Context} (h : v.inside? = some inner) :
    inner.filePath = v.ctx.filePath ∧ inner.options = v.ctx.options ∧ inner.index = v.ctx.index ∧
      ∃ kind placement exported,
        inner.scopes = v.ctx.scopes.enter v.decl.name kind placement exported := by
  unfold Visit.inside? at h
  split at h
  · cases h
  · split at h
    · next h' decls hdecl => cases h; exact ⟨rfl, rfl, rfl, _, _, _, by rw [hdecl]; rfl⟩
    · next h' traits members hdecl =>
      split at h
      · split at h
        · cases h; exact ⟨rfl, rfl, rfl, _, _, _, by rw [hdecl]; rfl⟩
        · cases h
      · cases h; exact ⟨rfl, rfl, rfl, _, _, _, by rw [hdecl]; rfl⟩
    · cases h

/-- All visits of a walk have its index. -/
theorem index_of_mem_visits {ctx : Context} {ds : List Decl} {v : Visit} (hv : v ∈ visits ctx ds) :
    v.ctx.index = ctx.index := by
  refine of_mem_visits (Q := fun inner _ => inner.index = ctx.index) ?_ ctx ds (fun _ _ => rfl) hv
  intro v inner hindex hinside d _
  exact (Visit.of_inside? hinside).2.2.1.trans hindex

/-- All visits of a walk have its options. -/
theorem options_of_mem_visits {ctx : Context} {ds : List Decl} {v : Visit}
    (hv : v ∈ visits ctx ds) : v.ctx.options = ctx.options := by
  refine of_mem_visits (Q := fun inner _ => inner.options = ctx.options) ?_ ctx ds
    (fun _ _ => rfl) hv
  intro v inner hoptions hinside d _
  exact (Visit.of_inside? hinside).2.1.trans hoptions

/-! ## Walks through changed declarations -/

/-- The visit in a changed context to a changed declaration. -/
def Visit.map (g : Context → Context) (φ : Decl → Decl) (v : Visit) : Visit :=
  ⟨g v.ctx, φ v.decl⟩

/-- A change of contexts and declarations that a walk in contexts with `Q` takes part in. -/
structure Tracks (Q : Context → Prop) (g : Context → Context) (φ : Decl → Decl) : Prop where
  isMemberOnly : ∀ d, (φ d).isMemberOnly = d.isMemberOnly
  children : ∀ d, (φ d).children = d.children.map φ
  inside? : ∀ v : Visit, Q v.ctx → (v.map g φ).inside? = v.inside?.map g
  enters : ∀ (v : Visit) inner, Q v.ctx → v.inside? = some inner → Q inner

/-- The walk comes to the changed declarations, in the changed contexts. -/
theorem visits_map {Q : Context → Prop} {g : Context → Context} {φ : Decl → Decl}
    (h : Tracks Q g φ) (ctx : Context) (hctx : Q ctx) (ds : List Decl) :
    visits (g ctx) (ds.map φ) = (visits ctx ds).map (Visit.map g φ) := by
  induction ds using Decl.list_induction generalizing ctx with
  | nil => rfl
  | cons d ds ihContents ih =>
    have hinside := h.inside? ⟨ctx, d⟩ hctx
    rw [List.map_cons, visits, visits, List.map_append, ih ctx hctx, h.isMemberOnly]
    split
    · rfl
    · rw [visitsOf_eq, visitsOf_eq, h.children,
        show (⟨g ctx, φ d⟩ : Visit).inside? = _ from hinside]
      cases hinner : (⟨ctx, d⟩ : Visit).inside? with
      | none => rfl
      | some inner =>
        dsimp only [Option.map_some]
        rw [ihContents inner (h.enters _ inner hctx hinner)]
        rfl

end ScriptExport.Analysis
