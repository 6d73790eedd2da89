import Mathlib.Data.List.Perm.Basic
import ScriptExport.Proofs.Analysis.IndexedTypes
import ScriptExport.Proofs.Analysis.Visits

/-!
# What the walk reads of the type index

Of an indexed type the walk reads its names, whether it is exported, its scope, its bases and its
members, but neither where it was declared nor its place in the index. Two indexes that agree on
this (`SameTypes`) give every name the same meaning and every class the same ancestry, so a walk
cannot tell them apart (`walk_withIndex`). The searches for bases read less than that: they take the
same way through any two indexes in which names mean types that look alike (`Alike`).
-/

namespace ScriptExport

/-- What the walk reads of an indexed type. -/
structure TypeOutline where
  qualifiedName : String
  scriptName : String
  annotated : Bool
  scope : List String
  /-- The declared simple name. -/
  name : String
  bases : List Base
  members : List Decl

/-- What names and base lists can tell of a type. -/
def TypeEntry.outline (e : TypeEntry) : TypeOutline :=
  { qualifiedName := e.qualifiedName
    scriptName := e.scriptName
    annotated := e.annotated
    scope := e.scope
    name := e.decl.name
    bases := e.decl.bases
    members := e.decl.children }

/-- The entry of the same type with a changed declaration. -/
def TypeEntry.mapDecl (φ : Decl → Decl) (e : TypeEntry) : TypeEntry :=
  { e with decl := φ e.decl }

variable {index other : TypeIndex} {β : Type} {view view' : TypeEntry → β}

namespace TypeIndex

/-- The indexes hold types of the same names with the same outlines. -/
def SameTypes (index other : TypeIndex) : Prop :=
  ∀ q, (index.find? q).map (·.outline) = (other.find? q).map (·.outline)

/-! ## Names -/

theorem mem_outlines_iff (hd : index.Distinct) (t : TypeOutline) :
    t ∈ index.entries.map (·.outline) ↔
      (index.find? t.qualifiedName).map (·.outline) = some t := by
  constructor
  · intro h
    obtain ⟨e, he, rfl⟩ := List.mem_map.mp h
    rw [show e.outline.qualifiedName = e.qualifiedName from rfl, find?_eq_some_of_mem hd he]
    rfl
  · intro h
    obtain ⟨e, hfind, rfl⟩ := Option.map_eq_some_iff.mp h
    exact List.mem_map_of_mem (mem_of_find? hfind)

/-- Indexes with the same types list them in some order. -/
theorem SameTypes.perm (h : index.SameTypes other) (hd : index.Distinct) (hd' : other.Distinct) :
    (index.entries.map (·.outline)).Perm (other.entries.map (·.outline)) := by
  have hnodup : ∀ {index : TypeIndex}, index.Distinct → (index.entries.map (·.outline)).Nodup :=
    fun hd => List.Nodup.of_map (·.qualifiedName) (by rw [List.map_map]; exact hd)
  rw [List.perm_ext_iff_of_nodup (hnodup hd) (hnodup hd')]
  intro t
  rw [mem_outlines_iff hd, mem_outlines_iff hd', h t.qualifiedName]

/-- The only element of a list. -/
def only? {α : Type} : List α → Option α
  | [a] => some a
  | _ => none

theorem only?_perm {α : Type} {l l' : List α} (h : l.Perm l') : only? l = only? l' := by
  match l, l', h.length_eq with
  | [], [], _ => rfl
  | [a], [b], _ => rw [List.singleton_perm_singleton.mp h]
  | _ :: _ :: _, _ :: _ :: _, _ => rfl

theorem only?_map {α : Type} (f : α → β) (l : List α) : only? (l.map f) = (only? l).map f := by
  match l with
  | [] => rfl
  | [_] => rfl
  | _ :: _ :: _ => rfl

theorem unique?_eq_only? (index : TypeIndex) (simpleName : String) :
    index.unique? simpleName = only? (index.entries.filter (fun e => e.decl.name == simpleName)) := by
  unfold unique?
  generalize index.entries.filter (fun e => e.decl.name == simpleName) = found
  match found with
  | [] => rfl
  | [_] => rfl
  | _ :: _ :: _ => rfl

theorem map_outline_unique? (index : TypeIndex) (simpleName : String) :
    (index.unique? simpleName).map (·.outline) =
      only? ((index.entries.map (·.outline)).filter (fun t => t.name == simpleName)) := by
  have hfilter : (index.entries.map (·.outline)).filter (fun t => t.name == simpleName) =
      (index.entries.filter (fun e => e.decl.name == simpleName)).map (·.outline) := List.filter_map
  rw [hfilter, unique?_eq_only?, only?_map]

/-- A spelled name means the same type in both indexes. -/
theorem SameTypes.lookup? (h : index.SameTypes other) (hd : index.Distinct) (hd' : other.Distinct)
    (name : String) (scope : List String) :
    (index.lookup? name scope).map (·.outline) = (other.lookup? name scope).map (·.outline) := by
  unfold TypeIndex.lookup?
  simp only [Option.map_or, List.map_findSome?]
  rw [h (Text.spelling name), map_outline_unique?, map_outline_unique?,
    only?_perm ((h.perm hd hd').filter _)]
  congr 2
  exact congrArg (List.findSome? · _) (funext fun path => h _)

/-! ## Ancestry -/

/-- The types that a base leads to: none if it is on the path already, and nothing above an exported
one. -/
def entered (index : TypeIndex) (path : List String) : Option TypeEntry → List TypeEntry
  | none => []
  | some e =>
    if e.qualifiedName ∈ path then []
    else if e.annotated then [e]
    else e :: index.ancestry (e.qualifiedName :: path) e.scope e.decl.bases

theorem ancestry_nil (index : TypeIndex) (path scope : List String) :
    index.ancestry path scope [] = [] := by
  rw [ancestry]

/-- The ancestry goes base by base, each with what is above it. -/
theorem ancestry_cons (index : TypeIndex) (path scope : List String) (base : Base)
    (bases : List Base) :
    index.ancestry path scope (base :: bases) =
      (if base.access.isPublic then index.entered path (index.lookup? base.name scope) else [])
        ++ index.ancestry path scope bases := by
  rw [ancestry]
  split
  · unfold entered
    split
    · next hnone => simp [hnone]
    · next e hsome =>
      rw [hsome]
      dsimp only
      split
      · rfl
      · split
        · rfl
        · simp
  · rfl

/-- The indexes give every name a meaning that looks the same, and entries that look the same have
what the searches for bases read. -/
structure Alike {β : Type} (index other : TypeIndex) (view view' : TypeEntry → β) : Prop where
  find? : ∀ q, (index.find? q).map view = (other.find? q).map view'
  lookup? : ∀ name scope,
    (index.lookup? name scope).map view = (other.lookup? name scope).map view'
  reads : ∀ {e e'}, view e = view' e' → e'.qualifiedName = e.qualifiedName ∧
    e'.annotated = e.annotated ∧ e'.scope = e.scope ∧ e'.decl.bases = e.decl.bases

namespace Alike

variable (h : index.Alike other view view')
include h

theorem exists_lookup? {name : String} {scope : List String} {e : TypeEntry}
    (he : index.lookup? name scope = some e) :
    ∃ e', other.lookup? name scope = some e' ∧ view' e' = view e :=
  Option.map_eq_some_iff.mp ((h.lookup? name scope).symm.trans (congrArg _ he))

theorem qualifiedName_lookup? (name : String) (scope : List String) :
    (other.lookup? name scope).map (·.qualifiedName) =
      (index.lookup? name scope).map (·.qualifiedName) := by
  cases hlookup : index.lookup? name scope with
  | none =>
    have hother := h.lookup? name scope
    rw [hlookup] at hother
    rw [Option.map_eq_none_iff.mp hother.symm]
  | some e =>
    obtain ⟨e', hlookup', heq⟩ := h.exists_lookup? hlookup
    rw [hlookup']
    exact congrArg some (h.reads heq.symm).1

/-- Alike indexes have alike ancestries. -/
theorem ancestry (path scope : List String) (bases : List Base) :
    (index.ancestry path scope bases).map view = (other.ancestry path scope bases).map view' := by
  fun_induction TypeIndex.ancestry index path scope bases with
  | case1 => rw [ancestry_nil]; rfl
  | case2 path scope base bases hpublic hlookup ih =>
    have hother := h.lookup? base.name scope
    rw [hlookup] at hother
    rw [ancestry_cons, if_pos hpublic, Option.map_eq_none_iff.mp hother.symm]
    exact ih
  | case3 path scope base bases hpublic e hlookup hpath ih =>
    obtain ⟨e', hlookup', heq⟩ := h.exists_lookup? hlookup
    obtain ⟨hq, -, -, -⟩ := h.reads heq.symm
    rw [ancestry_cons, if_pos hpublic, hlookup', entered, hq, if_pos hpath]
    exact ih
  | case4 path scope base bases hpublic e hlookup hpath hannotated ih =>
    obtain ⟨e', hlookup', heq⟩ := h.exists_lookup? hlookup
    obtain ⟨hq, ha, -, -⟩ := h.reads heq.symm
    rw [ancestry_cons, if_pos hpublic, hlookup', entered, hq, if_neg hpath, ha, if_pos hannotated,
      List.map_cons, List.singleton_append, List.map_cons, heq, ih]
  | case5 path scope base bases hpublic e hlookup hpath hannotated ihAbove ih =>
    obtain ⟨e', hlookup', heq⟩ := h.exists_lookup? hlookup
    obtain ⟨hq, ha, hs, hb⟩ := h.reads heq.symm
    rw [ancestry_cons, if_pos hpublic, hlookup', entered, hq, if_neg hpath, ha, if_neg hannotated,
      hs, hb, List.map_cons, List.map_append, List.cons_append, List.map_cons, List.map_append, heq,
      ihAbove, ih]
  | case6 path scope base bases hprivate ih =>
    rw [ancestry_cons, if_neg hprivate]
    exact ih

theorem parents {e e' : TypeEntry} (he : view e = view' e') :
    other.parents e' = index.parents e := by
  obtain ⟨-, -, hs, hb⟩ := h.reads he
  unfold TypeIndex.parents
  rw [hs, hb]
  exact List.filterMap_congr fun base _ => h.qualifiedName_lookup? base.name e.scope

end Alike

/-! ## Derivation -/

theorem reaches_cons (index : TypeIndex) (base name : String) (seen pending : List String) :
    index.reaches base seen (name :: pending) =
      if name ∈ seen then index.reaches base seen pending
      else match index.find? name with
        | none => index.reaches base seen pending
        | some e =>
          if base ∈ index.parents e then true
          else index.reaches base (e.qualifiedName :: seen) (index.parents e ++ pending) := by
  rw [reaches]
  split
  · rfl
  · split
    · next hnone => rw [hnone]
    · next e hsome => rw [hsome]

/-- Alike indexes reach the same types. -/
theorem Alike.reaches (h : index.Alike other view view') (base : String)
    (seen pending : List String) :
    index.reaches base seen pending = other.reaches base seen pending := by
  fun_induction TypeIndex.reaches index base seen pending with
  | case1 => rw [TypeIndex.reaches]
  | case2 seen name pending hs ih => rw [reaches_cons, if_pos hs, ih]
  | case3 seen name pending hs hfind ih =>
    have hother := h.find? name
    rw [hfind] at hother
    rw [reaches_cons, if_neg hs, Option.map_eq_none_iff.mp hother.symm]
    exact ih
  | case4 seen name pending hs e hfind above hmem =>
    obtain ⟨e', hfind', heq⟩ :=
      Option.map_eq_some_iff.mp ((h.find? name).symm.trans (congrArg _ hfind))
    rw [reaches_cons, if_neg hs, hfind']
    dsimp only
    rw [h.parents heq.symm, if_pos hmem]
  | case5 seen name pending hs e hfind above hmem ih =>
    obtain ⟨e', hfind', heq⟩ :=
      Option.map_eq_some_iff.mp ((h.find? name).symm.trans (congrArg _ hfind))
    rw [reaches_cons, if_neg hs, hfind']
    dsimp only
    rw [h.parents heq.symm, if_neg hmem, (h.reads heq.symm).1]
    exact ih

theorem Alike.derivesFrom (h : index.Alike other view view') :
    index.derivesFrom = other.derivesFrom :=
  funext fun derived => funext fun base => h.reaches base [] [derived]

/-- Indexes with the same types are alike. -/
theorem SameTypes.alike (h : index.SameTypes other) (hd : index.Distinct) (hd' : other.Distinct) :
    index.Alike other (·.outline) (·.outline) where
  find? := h
  lookup? := h.lookup? hd hd'
  reads heq := ⟨(congrArg TypeOutline.qualifiedName heq).symm,
    (congrArg TypeOutline.annotated heq).symm, (congrArg TypeOutline.scope heq).symm,
    (congrArg TypeOutline.bases heq).symm⟩

/-! ## Changed declarations -/

/-- The index of the same types with changed declarations. -/
def mapDecls (φ : Decl → Decl) (index : TypeIndex) : TypeIndex :=
  ⟨index.entries.map (·.mapDecl φ)⟩

section Change

variable {φ : Decl → Decl}

/-- Declarations can be mapped before or after they are indexed. -/
theorem declare_mapDecl (hempty : ∀ d, (φ d).children.isEmpty = d.children.isEmpty) (e : TypeEntry)
    (es : List TypeEntry) :
    declare (e.mapDecl φ) (es.map (·.mapDecl φ)) = (declare e es).map (·.mapDecl φ) := by
  have hredeclare : ∀ e' : TypeEntry, (e'.mapDecl φ).redeclare (φ e.decl) e.annotated =
      (e'.redeclare e.decl e.annotated).mapDecl φ := by
    intro e'
    unfold TypeEntry.redeclare TypeEntry.mapDecl
    simp only [hempty]
    split
    · rfl
    · rfl
  induction es with
  | nil => rfl
  | cons e' es ih =>
    rw [List.map_cons, declare, declare, ih]
    by_cases hq : e'.qualifiedName = e.qualifiedName
    · rw [if_pos hq, List.map_cons, ← hredeclare]
      exact if_pos hq
    · rw [if_neg hq]
      exact if_neg hq

theorem declareAll_mapDecl (hempty : ∀ d, (φ d).children.isEmpty = d.children.isEmpty)
    (es known : List TypeEntry) :
    declareAll (es.map (·.mapDecl φ)) (known.map (·.mapDecl φ)) =
      (declareAll es known).map (·.mapDecl φ) := by
  induction es generalizing known with
  | nil => rfl
  | cons e es ih =>
    have hstep : ∀ (e : TypeEntry) (es known : List TypeEntry),
        declareAll (e :: es) known = declareAll es (declare e known) := fun _ _ _ => rfl
    rw [List.map_cons, hstep, hstep, declare_mapDecl hempty]
    exact ih _

theorem unique?_mapDecls (hname : ∀ d, (φ d).name = d.name) (index : TypeIndex)
    (simpleName : String) :
    (index.mapDecls φ).unique? simpleName = (index.unique? simpleName).map (·.mapDecl φ) := by
  have hnames : (fun e : TypeEntry => e.decl.name == simpleName) ∘ TypeEntry.mapDecl φ =
      fun e => e.decl.name == simpleName :=
    funext fun e => congrArg (· == simpleName) (hname e.decl)
  unfold unique? mapDecls
  rw [List.filter_map, hnames]
  generalize index.entries.filter (fun e => e.decl.name == simpleName) = found
  match found with
  | [] => rfl
  | [e] => rfl
  | _ :: _ :: _ => rfl

variable (hname : ∀ d, (φ d).name = d.name) (hbases : ∀ d, (φ d).bases = d.bases)
include hname hbases

/-- Declarations that keep their names and bases give every name the changed meaning. -/
theorem alike_mapDecls (index : TypeIndex) :
    index.Alike (index.mapDecls φ) (·.mapDecl φ) id := by
  have hfind : ∀ q, (index.mapDecls φ).find? q = (index.find? q).map (·.mapDecl φ) :=
    fun q => List.find?_map
  constructor
  case find? =>
    intro q
    rw [hfind, Option.map_id, id]
  case lookup? =>
    intro name scope
    rw [Option.map_id, id]
    unfold TypeIndex.lookup?
    simp only [hfind, unique?_mapDecls hname, Option.map_or, List.map_findSome?]
    rfl
  case reads =>
    rintro e _ rfl
    exact ⟨rfl, rfl, rfl, hbases e.decl⟩

theorem ancestry_mapDecls (index : TypeIndex) (path scope : List String) (bases : List Base) :
    (index.mapDecls φ).ancestry path scope bases =
      (index.ancestry path scope bases).map (·.mapDecl φ) := by
  have h := (alike_mapDecls hname hbases index).ancestry path scope bases
  rw [List.map_id] at h
  exact h.symm

end Change

end TypeIndex

/-- A loop that takes entries which look the same alike takes the same steps through lists that look
the same. -/
theorem foldl_eq_of_map_eq {α : Type} {f : α → TypeEntry → α}
    (hf : ∀ a e e', view e = view' e' → f a e = f a e') {l l' : List TypeEntry}
    (h : l.map view = l'.map view') (a : α) : l.foldl f a = l'.foldl f a := by
  induction l generalizing l' a with
  | nil =>
    rw [List.map_nil] at h
    rw [List.map_eq_nil_iff.mp h.symm]
  | cons e l ih =>
    cases l' with
    | nil => cases h
    | cons e' l' =>
      obtain ⟨he, hl⟩ := List.cons.inj h
      rw [List.foldl_cons, List.foldl_cons, hf a e e' he]
      exact ih hl _

theorem map_filter_eq_of_map_eq {p : TypeEntry → Bool}
    (hp : ∀ {e e'}, view e = view' e' → p e' = p e) {l l' : List TypeEntry}
    (h : l.map view = l'.map view') : (l.filter p).map view = (l'.filter p).map view' := by
  induction l generalizing l' with
  | nil =>
    rw [List.map_nil] at h
    rw [List.map_eq_nil_iff.mp h.symm]
    rfl
  | cons e l ih =>
    cases l' with
    | nil => cases h
    | cons e' l' =>
      obtain ⟨he, hl⟩ := List.cons.inj h
      rw [List.filter_cons, List.filter_cons, hp he]
      split
      · rw [List.map_cons, List.map_cons, he, ih hl]
      · exact ih hl

namespace Analysis

/-! ## Walks with another index -/

/-- The context with another index. -/
def Context.withIndex (ctx : Context) (index : TypeIndex) : Context :=
  { ctx with index }

section Members

variable {ctx : Context}

theorem clash?_eq_of_derivesFrom_eq (h : index.derivesFrom = other.derivesFrom) (owner : Owner)
    (r : ExportRecord) (earlier later : MemberSource) :
    clash? index owner r earlier later = clash? other owner r earlier later := by
  cases earlier <;> cases later <;> simp only [clash?, h]

variable (h : ctx.index.derivesFrom = index.derivesFrom)
include h

theorem add_withIndex (owner : Owner) (source : MemberSource) (r : ExportRecord) (x : Surface) :
    x.add (ctx.withIndex index) owner source r = x.add ctx owner source r := by
  unfold Surface.add
  cases x.claimed.get? (surfaceKey r) with
  | none => rfl
  | some earlier =>
    exact congrArg (fun clash : Option Diagnostic => x.onState (·.reportAll clash.toList))
      (clash?_eq_of_derivesFrom_eq h owner r earlier source).symm

theorem addSlot_withIndex (owner : Owner) (source : MemberSource) (m : Member) (slot : Slot)
    (x : Surface) :
    x.addSlot (ctx.withIndex index) owner source m slot = x.addSlot ctx owner source m slot := by
  unfold Surface.addSlot
  cases slot with
  | absorbed => rfl
  | property spec => exact add_withIndex h ..
  | member =>
    dsimp only [Surface.addMember]
    cases memberAction owner source m with
    | nothing => rfl
    | skip reason => rfl
    | callable kind head c => exact add_withIndex h ..
    | field head info =>
      dsimp only [Surface.addField, Surface.addConstant]
      cases isConstantField m.mark.directive info with
      | true => exact add_withIndex h ..
      | false => exact add_withIndex h ..

theorem exportMembers_withIndex (owner : Owner) (source : MemberSource) (decls : List Decl)
    (x : Surface) : exportMembers (ctx.withIndex index) owner source decls x =
      exportMembers ctx owner source decls x := by
  unfold exportMembers
  simp only [addSlot_withIndex h]
  rfl

end Members

/-- The member lists go onto every type alike. -/
def SameMembers (ds es : List Decl) : Prop :=
  ∀ ctx owner source x, exportMembers ctx owner source ds x = exportMembers ctx owner source es x

/-- The indexes give every name a meaning that looks the same, and types that look the same have the
same script name and the same members. -/
structure Interchangeable {β : Type} (index other : TypeIndex) (view view' : TypeEntry → β) : Prop
    extends index.Alike other view view' where
  scriptName : ∀ {e e'}, view e = view' e' → e'.scriptName = e.scriptName
  members : ∀ {e e'}, view e = view' e' → SameMembers e'.decl.children e.decl.children

theorem exportLeaf_withIndex (ctx : Context) (index : TypeIndex) (d : Decl) (a : Directive)
    (s : State) : exportLeaf (ctx.withIndex index) d a s = exportLeaf ctx d a s := by
  cases d with
  | function h c => rfl
  | var h info => rfl
  | enumeration h info => rfl
  | typeAlias h target => rfl
  | _ => rfl

theorem Context.baseName_eq (ctx : Context) (base : Base) :
    ctx.baseName base = ((ctx.index.lookup? base.name ctx.scopes.path).map (·.qualifiedName)).getD
      (Text.spelling base.name) := by
  unfold Context.baseName
  cases ctx.index.lookup? base.name ctx.scopes.path <;> rfl

section Walk

variable {ctx : Context} (h : Interchangeable ctx.index index view view')
include h

theorem exportInherited_withIndex (inside : Context) (hinside : inside.index = ctx.index)
    (owner : Owner) {bases bases' : List TypeEntry} (hbases : bases.map view = bases'.map view')
    (x : Surface) :
    exportInherited (inside.withIndex index) owner bases' x = exportInherited inside owner bases x := by
  have hderives : inside.index.derivesFrom = index.derivesFrom := by
    rw [hinside]
    exact h.derivesFrom
  unfold exportInherited
  simp only [exportMembers_withIndex hderives]
  refine (foldl_eq_of_map_eq (fun x e e' he => ?_) hbases x).symm
  rw [(h.reads he).1, h.members he]

theorem bindBases_withIndex (inside : Context) (head : Header) (owner : String)
    {bases bases' : List TypeEntry} (hbases : bases.map view = bases'.map view') (s : State) :
    s.bindBases (inside.withIndex index) head owner bases' = s.bindBases inside head owner bases := by
  refine (foldl_eq_of_map_eq (fun s e e' he => ?_) hbases s).symm
  unfold Context.inheritRecord
  rw [(h.reads he).1, h.scriptName he]

theorem baseName_withIndex (base : Base) :
    (ctx.withIndex index).baseName base = ctx.baseName base := by
  have hname := h.qualifiedName_lookup? base.name ctx.scopes.path
  rw [Context.baseName_eq, Context.baseName_eq]
  exact congrArg (Option.getD · _) hname

theorem classRecord_withIndex (head : Header) (traits : RecordTraits) (members : List Decl)
    (a : Directive) : (ctx.withIndex index).classRecord head traits members a =
      ctx.classRecord head traits members a := by
  unfold Context.classRecord
  rw [funext (baseName_withIndex h)]
  rfl

/-- A class exports the same under an interchangeable index. -/
theorem exportClassMembers_withIndex (head : Header) (traits : RecordTraits) (members : List Decl)
    (a : Directive) (s : State) :
    exportClassMembers (ctx.withIndex index) head traits members a s =
      exportClassMembers ctx head traits members a s := by
  let inside := ctx.enterClass head a
  let owner := ctx.classOwner head traits members a
  have hderives : inside.index.derivesFrom = index.derivesFrom := h.derivesFrom
  have hancestry := h.ancestry [owner.qualifiedName] ctx.scopes.path traits.bases
  have hexported := map_filter_eq_of_map_eq (fun he => (h.reads he).2.1) hancestry
  have hflattened := map_filter_eq_of_map_eq
    (fun he => congrArg Bool.not (h.reads he).2.1) hancestry
  have hown : ∀ x, exportMembers (inside.withIndex index) owner .own members x =
      exportMembers inside owner .own members x :=
    exportMembers_withIndex hderives owner .own members
  have hbound := bindBases_withIndex h inside head owner.qualifiedName hexported s
  refine congrArg Surface.state ((exportInherited_withIndex h inside rfl owner hflattened _).trans ?_)
  refine congrArg (exportInherited inside owner _) ((hown _).trans ?_)
  exact congrArg (fun s => exportMembers inside owner .own members { state := s }) hbound

theorem exportExplicitMembers_withIndex (head : Header) (members : List Decl) (s : State) :
    exportExplicitMembers (ctx.withIndex index) head members s =
      exportExplicitMembers ctx head members s := by
  have hderives : (ctx.enterRecord head).index.derivesFrom = index.derivesFrom := h.derivesFrom
  exact congrArg Surface.state (exportMembers_withIndex hderives _ .own members _)

theorem contribute_withIndex (directive : Option Directive) (d : Decl) (s : State) :
    Visit.contribute (ctx.withIndex index) directive d s = Visit.contribute ctx directive d s := by
  cases d with
  | record head traits members =>
    cases directive with
    | none => exact exportExplicitMembers_withIndex h head members s
    | some a =>
      simp only [Visit.contribute, classRecord_withIndex h, exportClassMembers_withIndex h]
  | nameSpace head decls => cases directive <;> rfl
  | _ =>
    cases directive with
    | none => rfl
    | some a =>
      simp only [Visit.contribute]
      exact exportLeaf_withIndex ctx index _ a s

end Walk

/-- The visit with another index. -/
def Visit.withIndex (index : TypeIndex) (v : Visit) : Visit :=
  ⟨v.ctx.withIndex index, v.decl⟩

/-- A visit runs the same under an interchangeable index. -/
theorem Visit.run_withIndex {v : Visit} (h : Interchangeable v.ctx.index index view view')
    (s : State) : (v.withIndex index).run s = v.run s := by
  have hcontribute := contribute_withIndex h v.verdict.directive v.decl (s.visit v.ctx v.decl)
  unfold Visit.run
  by_cases hi : v.verdict = .ignored
  · have hi' : (v.withIndex index).verdict = .ignored := hi
    rw [if_pos hi, if_pos hi']
    rfl
  · have hi' : ¬ (v.withIndex index).verdict = .ignored := hi
    rw [if_neg hi, if_neg hi']
    exact hcontribute

theorem Visit.inside?_withIndex (v : Visit) (index : TypeIndex) :
    (v.withIndex index).inside? = v.inside?.map (·.withIndex index) := by
  obtain ⟨ctx, d⟩ := v
  unfold Visit.inside?
  have hverdict : Visit.verdict (Visit.withIndex index ⟨ctx, d⟩) = Visit.verdict ⟨ctx, d⟩ := rfl
  rw [hverdict]
  by_cases hi : Visit.verdict ⟨ctx, d⟩ = .ignored
  · simp only [hi, ↓reduceIte, Option.map_none]
  · simp only [hi, ↓reduceIte]
    cases d with
    | nameSpace h decls => rfl
    | record h traits members =>
      cases (Visit.verdict ⟨ctx, .record h traits members⟩).directive with
      | none => rfl
      | some a =>
        dsimp only
        cases hvalid : (ctx.classRecord h traits members a).isValid with
        | true => exact if_pos hvalid
        | false => exact if_neg fun htrue => Bool.false_ne_true (hvalid.symm.trans htrue)
    | _ => rfl

/-- A walk with another index comes to the same declarations. -/
theorem visits_withIndex (ctx : Context) (index : TypeIndex) (ds : List Decl) :
    visits (ctx.withIndex index) ds = (visits ctx ds).map (·.withIndex index) := by
  have htracks : Tracks (fun _ => True) (·.withIndex index) id :=
    { isMemberOnly := fun _ => rfl
      children := fun d => d.children.map_id.symm
      inside? := fun v _ => v.inside?_withIndex index
      enters := fun _ _ _ _ => trivial }
  have hvisits := visits_map htracks ctx trivial ds
  rw [List.map_id] at hvisits
  exact hvisits

/-- A walk cannot tell interchangeable indexes apart. -/
theorem runVisits_withIndex {vs : List Visit}
    (h : ∀ v ∈ vs, Interchangeable v.ctx.index index view view') (s : State) :
    runVisits (vs.map (·.withIndex index)) s = runVisits vs s := by
  induction vs generalizing s with
  | nil => rfl
  | cons v vs ih =>
    rw [List.map_cons, runVisits_cons, runVisits_cons, Visit.run_withIndex (h v List.mem_cons_self)]
    exact ih (fun w hw => h w (List.mem_cons_of_mem v hw)) _

theorem interchangeable_of_sameTypes (h : index.SameTypes other) (hd : index.Distinct)
    (hd' : other.Distinct) : Interchangeable index other (·.outline) (·.outline) where
  toAlike := h.alike hd hd'
  scriptName heq := (congrArg TypeOutline.scriptName heq).symm
  members {e e'} heq := by
    have hmembers : e.decl.children = e'.decl.children := congrArg TypeOutline.members heq
    rw [hmembers]
    exact fun _ _ _ _ => rfl

/-- A walk cannot tell indexes with the same types apart. -/
theorem walk_withIndex {ctx : Context} (h : ctx.index.SameTypes index) (hd : ctx.index.Distinct)
    (hd' : index.Distinct) (ds : List Decl) (s : State) :
    walk (ctx.withIndex index) ds s = walk ctx ds s := by
  have hvisits : ∀ v ∈ visits ctx ds,
      Interchangeable v.ctx.index index (·.outline) (·.outline) := by
    intro v hv
    rw [index_of_mem_visits hv]
    exact interchangeable_of_sameTypes h hd hd'
  rw [walk_eq_runVisits, walk_eq_runVisits, visits_withIndex]
  exact runVisits_withIndex hvisits s

end Analysis

end ScriptExport
