import ScriptExport.Proofs.Analysis.Changes

/-!
# The members of an exported class

A class offers its own members and then those of its unexported public bases, and the first member
with a key wins. Seen from outside this is a filter: list the bases depth first (`DepthFirst`), list
what every place in every member list would offer by itself (`candidates`), and keep the first
candidate for each key. `classSurface` does it in one pass, with a map of the keys that are taken.
-/

namespace ScriptExport

/-! ## Depth first through the bases -/

variable {index : TypeIndex} {path scope : List String} {x : Surface} {r : ExportRecord}

namespace TypeIndex

/-- Whether a base that is named in `scope` is followed into the type `e`: it is public, its name
means `e` there, and `e` is neither exported nor on the path from the class down to here. -/
def Follows (index : TypeIndex) (path scope : List String) (base : Base) (e : TypeEntry) : Prop :=
  base.access.isPublic = true ∧ index.lookup? base.name scope = some e ∧ e.annotated = false ∧
    e.qualifiedName ∉ path

/-- The types that a base list reaches, depth first in the order of the lists. The bases of a type
are looked up from the scope of that type. -/
inductive DepthFirst (index : TypeIndex) :
    (path scope : List String) → List Base → List TypeEntry → Prop where
  | nil (path scope : List String) : DepthFirst index path scope [] []
  | pass {path scope : List String} {base : Base} {bases : List Base} {outer : List TypeEntry}
    (closed : ∀ e, ¬ index.Follows path scope base e)
    (rest : DepthFirst index path scope bases outer) :
    DepthFirst index path scope (base :: bases) outer
  | enter {path scope : List String} {base : Base} {bases : List Base} {e : TypeEntry}
    {inner outer : List TypeEntry} (follows : index.Follows path scope base e)
    (above : DepthFirst index (e.qualifiedName :: path) e.scope e.decl.bases inner)
    (rest : DepthFirst index path scope bases outer) :
    DepthFirst index path scope (base :: bases) (e :: (inner ++ outer))

theorem Follows.unique {base : Base} {e e' : TypeEntry} (h : index.Follows path scope base e)
    (h' : index.Follows path scope base e') : e = e' :=
  Option.some.inj (h.2.1.symm.trans h'.2.1)

/-- The traversal visits one list of types. -/
theorem DepthFirst.unique {bases : List Base} {l l' : List TypeEntry}
    (h : index.DepthFirst path scope bases l) (h' : index.DepthFirst path scope bases l') :
    l = l' := by
  induction h generalizing l' with
  | nil => cases h'; rfl
  | pass closed rest ih =>
    cases h' with
    | pass _ rest' => exact ih rest'
    | enter follows _ _ => exact (closed _ follows).elim
  | enter follows above rest ihAbove ihRest =>
    cases h' with
    | pass closed _ => exact (closed _ follows).elim
    | enter follows' above' rest' =>
      cases follows.unique follows'
      rw [ihAbove above', ihRest rest']

theorem DepthFirst.annotated_eq_false {bases : List Base} {l : List TypeEntry}
    (h : index.DepthFirst path scope bases l) : ∀ e ∈ l, e.annotated = false := by
  induction h with
  | nil => simp
  | pass _ _ ih => exact ih
  | enter follows _ _ ihAbove ihRest =>
    intro e he
    rcases List.mem_cons.mp he with rfl | he
    · exact follows.2.2.1
    · exact (List.mem_append.mp he).elim (ihAbove e) (ihRest e)

/-- The unexported types of the ancestry are the types that are reached depth first. -/
theorem depthFirst_ancestry (index : TypeIndex) (path scope : List String) (bases : List Base) :
    index.DepthFirst path scope bases
      ((index.ancestry path scope bases).filter (fun e => !e.annotated)) := by
  fun_induction ancestry index path scope bases with
  | case1 => exact .nil _ _
  | case2 path scope base bases hpublic hlookup ih =>
    refine .pass (fun e h => ?_) ih
    cases hlookup.symm.trans h.2.1
  | case3 path scope base bases hpublic e hlookup hpath ih =>
    refine .pass (fun e' h => ?_) ih
    cases hlookup.symm.trans h.2.1
    exact h.2.2.2 hpath
  | case4 path scope base bases hpublic e hlookup hpath hannotated ih =>
    rw [List.filter_cons_of_neg (by simp [hannotated])]
    refine .pass (fun e' h => ?_) ih
    cases hlookup.symm.trans h.2.1
    exact absurd (hannotated.symm.trans h.2.2.1) (by decide)
  | case5 path scope base bases hpublic e hlookup hpath hannotated ihAbove ih =>
    have hfalse : e.annotated = false := by simpa using hannotated
    rw [List.filter_cons_of_pos (by simp [hfalse]), List.filter_append]
    exact .enter ⟨hpublic, hlookup, hfalse, hpath⟩ ihAbove ih
  | case6 path scope base bases hprivate ih => exact .pass (fun e h => hprivate h.1) ih

/-- The traversal visits the unannotated part of the ancestry. -/
theorem depthFirst_iff {bases : List Base} {l : List TypeEntry} :
    index.DepthFirst path scope bases l ↔
      l = (index.ancestry path scope bases).filter (fun e => !e.annotated) :=
  ⟨fun h => h.unique (depthFirst_ancestry index path scope bases),
    fun h => h ▸ depthFirst_ancestry index path scope bases⟩

end TypeIndex

namespace Analysis

/-! ## What the places of member lists offer -/

/-- A place in a member list that goes onto a type. -/
structure Place where
  source : MemberSource
  member : Member
  slot : Slot

/-- The places of a member list. -/
def places (marker : String) (owner : Owner) (source : MemberSource) (decls : List Decl) :
    List Place :=
  let members := decls.map (markMember marker)
  (members.zip (planProperties owner.qualifiedName members).slots).map fun p => ⟨source, p.1, p.2⟩

/-- The places of a class: its own members and those of the bases that are flattened onto it. -/
def classPlaces (marker : String) (owner : Owner) (members : List Decl)
    (flattened : List TypeEntry) : List Place :=
  places marker owner .own members
    ++ flattened.flatMap fun e => places marker owner (.inherited e.qualifiedName) e.decl.children

namespace Place

/-- What the member at the place contributes; a part of a property is no member of its own. -/
def action (owner : Owner) (p : Place) : MemberAction :=
  match p.slot with
  | .member => memberAction owner p.source p.member
  | _ => .nothing

/-- The record that the place offers, given the constants that are known before it. -/
def candidate? (ctx : Context) (owner : Owner) (constants : OrderedMap String Int64) (p : Place) :
    Option ExportRecord :=
  match p.slot, p.action owner with
  | .property spec, _ => some (ctx.propertyRecord spec)
  | _, .callable kind h c => some (ctx.callableRecord kind h c p.member.mark.directive)
  | _, .field h info =>
    if isConstantField p.member.mark.directive info then
      some (ctx.constantFieldRecord h info (.ofInit constants info.init) p.member.mark.directive)
    else some (ctx.variableRecord h info.type info.isStatic info.isConst p.member.mark.directive)
  | _, _ => none

/-- The constants that are known after the place; whether its record is kept does not matter. -/
def learn (ctx : Context) (owner : Owner) (constants : OrderedMap String Int64) (p : Place) :
    OrderedMap String Int64 :=
  match p.action owner with
  | .field h info =>
    if isConstantField p.member.mark.directive info then
      (ConstantValue.ofInit constants info.init).bind h.name (ctx.scopes.qualifiedName h.name)
        constants
    else constants
  | _ => constants

end Place

/-- The records that places offer, in order. -/
def candidates (ctx : Context) (owner : Owner) (constants : OrderedMap String Int64) :
    List Place → List ExportRecord
  | [] => []
  | p :: ps =>
    (p.candidate? ctx owner constants).toList
      ++ candidates ctx owner (p.learn ctx owner constants) ps

/-- The constants that are known after places. -/
def learnAll (ctx : Context) (owner : Owner) (constants : OrderedMap String Int64)
    (ps : List Place) : OrderedMap String Int64 :=
  ps.foldl (fun known p => p.learn ctx owner known) constants

variable (ctx : Context) (owner : Owner) (marker : String) (h : Header)

/-- Later places know the constants that the earlier ones learned. -/
theorem candidates_append (constants : OrderedMap String Int64) (ps qs : List Place) :
    candidates ctx owner constants (ps ++ qs) =
      candidates ctx owner constants ps
        ++ candidates ctx owner (learnAll ctx owner constants ps) qs := by
  induction ps generalizing constants with
  | nil => rfl
  | cons p ps ih =>
    rw [List.cons_append, candidates, ih, candidates, List.append_assoc]
    rfl

/-- The first of the records with each member key. -/
def firstOfEachKey (rs : List ExportRecord) : List ExportRecord :=
  rs.eraseDupsBy (fun r earlier => surfaceKey r == surfaceKey earlier)

theorem firstOfEachKey_cons (r : ExportRecord) (rs : List ExportRecord) :
    firstOfEachKey (r :: rs) =
      r :: firstOfEachKey (rs.filter (fun r' => surfaceKey r' != surfaceKey r)) := by
  unfold firstOfEachKey
  rw [List.eraseDupsBy_cons]
  congr 3
  funext r'
  cases h : surfaceKey r' == surfaceKey r <;> simp_all [bne]

theorem mem_of_mem_firstOfEachKey {r : ExportRecord} : (rs : List ExportRecord) →
    r ∈ firstOfEachKey rs → r ∈ rs
  | [], h => h
  | first :: rs, h => by
    rw [firstOfEachKey_cons] at h
    rcases List.mem_cons.mp h with rfl | h
    · exact List.mem_cons_self
    · have hkept := mem_of_mem_firstOfEachKey _ h
      exact List.mem_cons_of_mem first (List.mem_filter.mp hkept).1
termination_by rs => rs.length
decreasing_by exact Nat.lt_succ_of_le (List.length_filter_le _ _)

/-- No key is left twice. -/
theorem nodup_firstOfEachKey : (rs : List ExportRecord) →
    ((firstOfEachKey rs).map surfaceKey).Nodup
  | [] => List.nodup_nil
  | first :: rs => by
    rw [firstOfEachKey_cons, List.map_cons]
    refine List.nodup_cons.mpr ⟨?_, nodup_firstOfEachKey _⟩
    intro hmem
    obtain ⟨r, hr, hkey⟩ := List.mem_map.mp hmem
    have hkept := (List.mem_filter.mp (mem_of_mem_firstOfEachKey _ hr)).2
    simp [hkey] at hkept
termination_by rs => rs.length
decreasing_by exact Nat.lt_succ_of_le (List.length_filter_le _ _)

/-! ## Constants on the way -/

@[simp] theorem State.constants_reportAll (ds : List Diagnostic) (s : State) :
    (s.reportAll ds).constants = s.constants := by
  unfold State.reportAll
  induction ds generalizing s with
  | nil => rfl
  | cons d ds ih => exact ih (s.report d)

@[simp] theorem State.constants_emit (r : ExportRecord) (s : State) :
    (s.emit r).constants = s.constants := by
  unfold State.emit
  split
  · rfl
  · split <;> rfl

@[simp] theorem State.constants_useType (t : TypeRef) (s : State) :
    (s.useType h t).constants = s.constants := by
  unfold State.useType
  dsimp only [State.note]
  split <;> rfl

@[simp] theorem State.constants_useTypes (ts : List TypeRef) (s : State) :
    (s.useTypes h ts).constants = s.constants := by
  unfold State.useTypes
  induction ts generalizing s with
  | nil => rfl
  | cons t ts ih => exact (ih (s.useType h t)).trans (s.constants_useType h t)

@[simp] theorem State.constants_noteInherited (source : MemberSource) (member : String) (s : State) :
    (s.noteInherited owner source member).constants = s.constants := by
  cases source <;> rfl

@[simp] theorem State.constants_visitMember (d : Decl) (s : State) :
    (s.visitMember marker d).constants = s.constants := by
  unfold State.visitMember
  split
  · dsimp only
    have hreported : ((s.log (.visited d.kindText d.name)).reportAll
        (issueDiagnostics d.header (parseAnnotations marker d.annotations).issues)).constants
          = s.constants := State.constants_reportAll _ _
    split
    · split
      · exact hreported
      · exact hreported
    · exact hreported
  · rfl

@[simp] theorem State.constants_visit (d : Decl) (s : State) :
    (s.visit ctx d).constants = s.constants := by
  unfold State.visit
  dsimp only
  have hreported : ((s.log (.visited d.kindText d.name)).reportAll
      (issueDiagnostics d.header (parseAnnotations ctx.options.marker d.annotations).issues)).constants
        = s.constants := State.constants_reportAll _ _
  split
  · exact hreported
  · exact hreported
  · exact hreported
  · exact hreported

@[simp] theorem State.constants_bindBases (owner : String) (bases : List TypeEntry) (s : State) :
    (s.bindBases ctx h owner bases).constants = s.constants := by
  unfold State.bindBases
  induction bases generalizing s with
  | nil => rfl
  | cons e bases ih => exact (ih _).trans (s.constants_emit _)

theorem Surface.constants_add (source : MemberSource) (r : ExportRecord) (x : Surface) :
    (x.add ctx owner source r).state.constants = x.state.constants := by
  unfold Surface.add
  split <;> simp [Surface.onState]

/-! ## One place -/

/-- From `x` to `z` no member was offered. -/
structure Surface.Quiet (x z : Surface) : Prop where
  claimed : z.claimed = x.claimed
  offered : z.offered = x.offered
  result : z.state.SameResult x.state

theorem Surface.Quiet.refl (x : Surface) : x.Quiet x := ⟨rfl, rfl, .refl⟩

theorem Surface.Quiet.trans {z w : Surface} (h : x.Quiet z) (h' : z.Quiet w) : x.Quiet w :=
  ⟨h'.claimed.trans h.claimed, h'.offered.trans h.offered, h'.result.trans h.result⟩

theorem Surface.Quiet.onState {f : State → State} (h : x.state.Changes (fun _ => False) (f x.state))
    : x.Quiet (x.onState f) :=
  ⟨rfl, rfl, h.sameResult⟩

/-- What happens at the place before its record is offered: types are noted, a constant is learned, or
it is noted that there is nothing to offer. -/
def Place.prepare (ctx : Context) (owner : Owner) (p : Place) (x : Surface) : Surface :=
  match p.slot, p.action owner with
  | .property spec, _ => x.onState (·.useTypes spec.header spec.type?.toList)
  | _, .skip reason => x.onState (·.skip p.member.decl reason)
  | _, .callable kind h c => x.onState (·.useTypes h (callableTypes kind c))
  | _, .field h info =>
    let x := x.onState (·.useType h info.type)
    if isConstantField p.member.mark.directive info then
      x.onState (·.bindConstant h.name (ctx.scopes.qualifiedName h.name)
        (.ofInit x.state.constants info.init))
    else x
  | _, .nothing => x

/-- Preparing a place adds no record. -/
theorem Place.quiet_prepare (p : Place) (x : Surface) : x.Quiet (p.prepare ctx owner x) := by
  unfold Place.prepare
  split
  · exact .onState (changes_useTypes _ _ _)
  · exact .onState (changes_skip _ _ _)
  · exact .onState (changes_useTypes _ _ _)
  · dsimp only
    split
    · exact (Surface.Quiet.onState (changes_useType _ _ _)).trans
        (.onState (changes_bindConstant _ _ _ _))
    · exact .onState (changes_useType _ _ _)
  · exact .refl x

/-- Preparing a place binds its constant. -/
theorem Place.constants_prepare (p : Place) (x : Surface) :
    (p.prepare ctx owner x).state.constants = p.learn ctx owner x.state.constants := by
  obtain ⟨source, m, slot⟩ := p
  unfold Place.prepare Place.learn Place.action
  cases slot with
  | absorbed => rfl
  | property spec => exact State.constants_useTypes _ _ _
  | member =>
    dsimp only
    cases memberAction owner source m with
    | nothing => rfl
    | skip reason => rfl
    | callable kind h c => exact State.constants_useTypes _ _ _
    | field h info =>
      cases hconstant : isConstantField m.mark.directive info with
      | false => simp [Surface.onState, hconstant]
      | true => simp [Surface.onState, hconstant, State.bindConstant]

/-- A place learns its constant and then offers its candidate. -/
theorem addSlot_eq (p : Place) (x : Surface) : x.addSlot ctx owner p.source p.member p.slot =
      match p.candidate? ctx owner x.state.constants with
      | none => p.prepare ctx owner x
      | some r => (p.prepare ctx owner x).add ctx owner p.source r := by
  obtain ⟨source, m, slot⟩ := p
  unfold Surface.addSlot Place.prepare Place.candidate? Place.action
  cases slot with
  | absorbed => rfl
  | property spec => rfl
  | member =>
    dsimp only [Surface.addMember]
    cases memberAction owner source m with
    | nothing => rfl
    | skip reason => rfl
    | callable kind h c => rfl
    | field h info =>
      have hk : (x.onState (·.useType h info.type)).state.constants = x.state.constants :=
        State.constants_useType _ _ _
      dsimp only [Surface.addField]
      cases isConstantField m.mark.directive info with
      | false => rfl
      | true =>
        simp only [↓reduceIte, Surface.addConstant, hk]
        rfl

/-! ## All places -/

theorem State.SameResult.emit {s t : State} (h : s.SameResult t) (r : ExportRecord) :
    (s.emit r).SameResult (t.emit r) := by
  unfold State.emit
  rw [h.identities]
  split
  · exact ⟨h.records, h.identities, h.containers, h.containerNames⟩
  · split
    · exact h
    · exact ⟨congrArg (·.push r) h.records, congrArg (r.identity :: ·) h.identities, h.containers,
        h.containerNames⟩

theorem State.SameResult.foldl_emit {s t : State} (h : s.SameResult t) (rs : List ExportRecord) :
    (rs.foldl (fun s r => s.emit r) s).SameResult (rs.foldl (fun s r => s.emit r) t) := by
  induction rs generalizing s t with
  | nil => exact h
  | cons r rs ih => exact ih (h.emit r)

/-- The candidates whose key a surface has not given away. -/
def Surface.unclaimed (x : Surface) (rs : List ExportRecord) : List ExportRecord :=
  rs.filter fun r => (x.claimed.get? (surfaceKey r)).isNone

theorem Surface.unclaimed_eq_of_quiet {z : Surface} (h : x.Quiet z) :
    z.unclaimed = x.unclaimed := by
  unfold Surface.unclaimed
  rw [h.claimed]

/-- A key that is taken adds nothing. -/
theorem Surface.quiet_add_of_claimed {earlier : MemberSource}
    (h : x.claimed.get? (surfaceKey r) = some earlier) (ctx : Context) (owner : Owner)
    (source : MemberSource) : x.Quiet (x.add ctx owner source r) := by
  unfold Surface.add
  rw [h]
  exact .onState (changes_reportAll _ _)

/-- What is left to claim after a record has taken its key. -/
theorem Surface.unclaimed_add (h : x.claimed.get? (surfaceKey r) = none) (ctx : Context)
    (owner : Owner) (source : MemberSource) (rs : List ExportRecord) :
    (x.add ctx owner source r).unclaimed rs =
      (x.unclaimed rs).filter (fun r' => surfaceKey r' != surfaceKey r) := by
  unfold Surface.unclaimed Surface.add
  rw [h, List.filter_filter]
  refine List.filter_congr fun r' _ => ?_
  dsimp only
  rw [OrderedMap.get?_insert]
  by_cases hkey : surfaceKey r' = surfaceKey r
  · simp [hkey]
  · simp [hkey]

/-- A member whose key is free is offered. -/
theorem Surface.offered_add_of_free (h : x.claimed.get? (surfaceKey r) = none) (ctx : Context)
    (owner : Owner) (source : MemberSource) :
    (x.add ctx owner source r).offered = x.offered.push r ∧
      (x.add ctx owner source r).state.SameResult (x.state.emit r) := by
  unfold Surface.add
  rw [h]
  have hnoted := changes_noteInherited (P := fun _ => False) x.state owner source r.name
  exact ⟨rfl, hnoted.sameResult.emit r⟩

/-- What places add to a surface: the first candidate for each key that is still free. -/
theorem offered_foldl_addSlot (ps : List Place) (x : Surface) :
    let y := ps.foldl (fun x p => x.addSlot ctx owner p.source p.member p.slot) x
    let new := firstOfEachKey (x.unclaimed (candidates ctx owner x.state.constants ps))
    y.offered.toList = x.offered.toList ++ new ∧
      y.state.SameResult (new.foldl (fun s r => s.emit r) x.state) := by
  induction ps generalizing x with
  | nil => exact ⟨(List.append_nil _).symm, .refl⟩
  | cons p ps ih =>
    have hquiet := p.quiet_prepare ctx owner x
    have hlearned := p.constants_prepare ctx owner x
    rw [List.foldl_cons, addSlot_eq]
    generalize p.prepare ctx owner x = z at hquiet hlearned
    unfold candidates
    -- the rest of the places, if this one adds nothing
    have hrest : ∀ w, x.Quiet w → w.state.constants = p.learn ctx owner x.state.constants →
        let y := ps.foldl (fun x p => x.addSlot ctx owner p.source p.member p.slot) w
        let new := firstOfEachKey
          (x.unclaimed (candidates ctx owner (p.learn ctx owner x.state.constants) ps))
        y.offered.toList = x.offered.toList ++ new ∧
          y.state.SameResult (new.foldl (fun s r => s.emit r) x.state) := by
      intro w hw hk
      obtain ⟨hoffered, hresult⟩ := ih w
      rw [hk, Surface.unclaimed_eq_of_quiet hw] at hoffered hresult
      rw [hw.offered] at hoffered
      exact ⟨hoffered, hresult.trans (hw.result.foldl_emit _)⟩
    cases p.candidate? ctx owner x.state.constants with
    | none => exact hrest z hquiet hlearned
    | some r =>
      have hk := (z.constants_add ctx owner p.source r).trans hlearned
      cases hclaimed : z.claimed.get? (surfaceKey r) with
      | some earlier =>
        have hadd := Surface.quiet_add_of_claimed hclaimed ctx owner p.source
        have hdropped : ∀ rs, x.unclaimed (r :: rs) = x.unclaimed rs := fun rs =>
          List.filter_cons_of_neg (by simp [← hquiet.claimed, hclaimed])
        rw [Option.toList_some, List.singleton_append, hdropped]
        exact hrest _ (hquiet.trans hadd) hk
      | none =>
        have hkept : ∀ rs, x.unclaimed (r :: rs) = r :: x.unclaimed rs := fun rs =>
          List.filter_cons_of_pos (by simp [← hquiet.claimed, hclaimed])
        obtain ⟨hpushed, hemitted⟩ := Surface.offered_add_of_free hclaimed ctx owner p.source
        obtain ⟨hoffered, hresult⟩ := ih (z.add ctx owner p.source r)
        rw [hk, Surface.unclaimed_add hclaimed, Surface.unclaimed_eq_of_quiet hquiet]
          at hoffered hresult
        rw [Option.toList_some, List.singleton_append, hkept, firstOfEachKey_cons]
        refine ⟨?_, hresult.trans ((hemitted.trans (hquiet.result.emit r)).foldl_emit _)⟩
        rw [hoffered, hpushed, hquiet.offered, Array.toList_push, List.append_assoc,
          List.singleton_append]

/-! ## Classes -/

theorem State.constants_foldl_visitMember (decls : List Decl) (s : State) :
    (decls.foldl (fun s d => s.visitMember marker d) s).constants = s.constants := by
  induction decls generalizing s with
  | nil => rfl
  | cons d decls ih => exact (ih _).trans (s.constants_visitMember marker d)

/-- What happens before the places of a member list are gone through: the own members of a type are
noted, and their problems are reported. -/
def Surface.noteMembers (marker : String) (owner : Owner) (decls : List Decl) (x : Surface) : Surface :=
  x.onState fun s => (decls.foldl (fun s d => s.visitMember marker d) s).reportAll
    (planProperties owner.qualifiedName (decls.map (markMember marker))).diagnostics

theorem Surface.quiet_noteMembers (owner : Owner) (decls : List Decl) (x : Surface) :
    x.Quiet (x.noteMembers marker owner decls) :=
  .onState ((State.Changes.foldl (fun s d _ => changes_visitMember s _ d) _).trans
    (changes_reportAll _ _))

theorem Surface.constants_noteMembers (owner : Owner) (decls : List Decl) (x : Surface) :
    (x.noteMembers marker owner decls).state.constants = x.state.constants :=
  (State.constants_reportAll _ _).trans (State.constants_foldl_visitMember _ _ _)

/-- Own members are exported place by place. -/
theorem exportMembers_own (decls : List Decl) (x : Surface) : exportMembers ctx owner .own decls x =
      (places ctx.options.marker owner .own decls).foldl
        (fun x p => x.addSlot ctx owner p.source p.member p.slot)
        (x.noteMembers ctx.options.marker owner decls) := by
  unfold exportMembers places
  simp only [List.foldl_map]
  rfl

/-- Inherited members are exported place after place. -/
theorem exportInherited_eq (bases : List TypeEntry) (x : Surface) :
    exportInherited ctx owner bases x =
      (bases.flatMap fun e =>
        places ctx.options.marker owner (.inherited e.qualifiedName) e.decl.children).foldl
          (fun x p => x.addSlot ctx owner p.source p.member p.slot) x := by
  unfold exportInherited
  rw [List.foldl_flatMap]
  congr 1
  funext x e
  simp only [exportMembers, places, List.foldl_map, MemberSource.isInherited, ↓reduceIte]

/-- Candidates are members of the type that is entered. -/
theorem owner_of_candidate? {ctx : Context} {owner : Owner} {constants : OrderedMap String Int64}
    {p : Place} (h : p.candidate? ctx owner constants = some r) :
    r.ownerType = ctx.scopes.owner?.getD "" ∧
      r.qualifiedName = ctx.scopes.qualifiedName r.name := by
  unfold Place.candidate? at h
  split at h
  · cases h; exact ⟨rfl, rfl⟩
  · cases h; exact ⟨rfl, rfl⟩
  · split at h
    · cases h; exact ⟨rfl, rfl⟩
    · cases h; exact ⟨rfl, rfl⟩
  · cases h

theorem owner_of_mem_candidates {ctx : Context} {owner : Owner}
    {constants : OrderedMap String Int64} {ps : List Place}
    (h : r ∈ candidates ctx owner constants ps) : r.ownerType = ctx.scopes.owner?.getD "" ∧
      r.qualifiedName = ctx.scopes.qualifiedName r.name := by
  induction ps generalizing constants with
  | nil => cases h
  | cons p ps ih =>
    rcases List.mem_append.mp h with h | h
    · exact owner_of_candidate? (Option.mem_toList.mp h)
    · exact ih h

theorem qualifiedName_enterClass {h : Header} (hname : Text.isBlankText h.name = false)
    (a : Directive) : (ctx.enterClass h a).scopes.owner? = some (ctx.scopes.qualifiedName h.name) ∧
      ∀ name, (ctx.enterClass h a).scopes.qualifiedName name =
        match Text.trimmed? name with
        | some name => ctx.scopes.qualifiedName h.name ++ "::" ++ name
        | none => "" := by
  have hscope : ctx.scopes.within (scopeName h.name) = ctx.scopes.qualifiedName h.name := by
    simp [scopeName, Scopes.qualifiedName, Text.trimmed?, hname]
  refine ⟨congrArg some hscope, fun name => ?_⟩
  rw [← hscope]
  rfl

/-- A class notes its own members and then goes through its places. -/
theorem classSurface_eq (traits : RecordTraits) (members : List Decl) (a : Directive) (s : State) :
    let inside := ctx.enterClass h a
    let owner := ctx.classOwner h traits members a
    let ancestry := ctx.index.ancestry [owner.qualifiedName] ctx.scopes.path traits.bases
    classSurface ctx h traits members a s =
      (classPlaces ctx.options.marker owner members (ancestry.filter (fun e => !e.annotated))).foldl
        (fun x p => x.addSlot inside owner p.source p.member p.slot)
        (Surface.noteMembers ctx.options.marker owner members
          { state := s.bindBases inside h owner.qualifiedName (ancestry.filter (·.annotated)) }) := by
  intro inside owner ancestry
  unfold classPlaces
  rw [List.foldl_append]
  exact (exportInherited_eq _ _ _ _).trans (congrArg (List.foldl _ · _) (exportMembers_own _ _ _ _))

/-- What a class offers and what becomes of it, with the ancestry that the class is given. -/
theorem offered_classSurface (traits : RecordTraits) (members : List Decl) (a : Directive)
    (s : State) : let inside := ctx.enterClass h a
    let owner := ctx.classOwner h traits members a
    let ancestry := ctx.index.ancestry [owner.qualifiedName] ctx.scopes.path traits.bases
    let offered := firstOfEachKey (candidates inside owner s.constants
      (classPlaces ctx.options.marker owner members (ancestry.filter (fun e => !e.annotated))))
    (classSurface ctx h traits members a s).offered.toList = offered ∧
      (classSurface ctx h traits members a s).state.SameResult
        (offered.foldl (fun s r => s.emit r)
          (s.bindBases inside h owner.qualifiedName (ancestry.filter (·.annotated)))) := by
  intro inside owner ancestry offered
  let bound := s.bindBases inside h owner.qualifiedName (ancestry.filter (·.annotated))
  let z := Surface.noteMembers ctx.options.marker owner members { state := bound }
  have hquiet : Surface.Quiet { state := bound } z := Surface.quiet_noteMembers _ _ _ _
  have hconstants : z.state.constants = s.constants :=
    (Surface.constants_noteMembers _ _ _ _).trans (State.constants_bindBases _ _ _ _ _)
  have hfree : ∀ rs, z.unclaimed rs = rs := fun rs => by
    rw [Surface.unclaimed_eq_of_quiet hquiet]
    exact List.filter_eq_self.mpr fun _ _ => rfl
  obtain ⟨hoffered, hresult⟩ := offered_foldl_addSlot inside owner
    (classPlaces ctx.options.marker owner members (ancestry.filter (fun e => !e.annotated))) z
  rw [hconstants, hfree] at hoffered hresult
  rw [classSurface_eq]
  refine ⟨?_, hresult.trans (hquiet.result.foldl_emit _)⟩
  rw [hoffered, hquiet.offered]
  rfl

/-- **The members of a class.** A class with a usable name hands to the result, in order, the first
candidate for each member key: its own members come first, then those of the unexported public
bases, depth first. All of them belong to the class, and blanks around a name do not count in the
qualified name. -/
theorem classSurface_eq_firstOfEachKey (ctx : Context) (h : Header) (traits : RecordTraits)
    (members : List Decl) (a : Directive) (s : State)
    (hvalid : (ctx.classRecord h traits members a).isValid = true) :
    let inside := ctx.enterClass h a
    let owner := ctx.classOwner h traits members a
    let offered := (classSurface ctx h traits members a s).offered.toList
    let ancestry := ctx.index.ancestry [owner.qualifiedName] ctx.scopes.path traits.bases
    ∃ flattened,
      (∀ l, ctx.index.DepthFirst [owner.qualifiedName] ctx.scopes.path traits.bases l ↔
        l = flattened) ∧
      offered = firstOfEachKey (candidates inside owner s.constants
        (classPlaces ctx.options.marker owner members flattened)) ∧
      (exportClassMembers ctx h traits members a s).SameResult
        (offered.foldl (fun s r => s.emit r)
          (s.bindBases inside h owner.qualifiedName (ancestry.filter (·.annotated)))) ∧
      (∀ r ∈ offered, r.ownerType = owner.qualifiedName ∧
        r.qualifiedName = match Text.trimmed? r.name with
          | some name => owner.qualifiedName ++ "::" ++ name
          | none => "") ∧
      (offered.map surfaceKey).Nodup ∧
      ∀ e ∈ flattened, e.annotated = false := by
  intro inside owner offered ancestry
  have hname : Text.isBlankText h.name = false := (ExportRecord.isValid_iff.mp hvalid).1
  obtain ⟨hoffered, hresult⟩ := offered_classSurface ctx h traits members a s
  obtain ⟨howner, hqualified⟩ := qualifiedName_enterClass ctx hname a
  refine ⟨ancestry.filter (fun e => !e.annotated), fun l => TypeIndex.depthFirst_iff, hoffered, ?_,
    ?_, ?_, (TypeIndex.depthFirst_ancestry _ _ _ _).annotated_eq_false⟩
  · rw [← hoffered] at hresult
    exact hresult
  · intro r hr
    have hmem : r ∈ offered := hr
    rw [show offered = _ from hoffered] at hmem
    obtain ⟨hr, hq⟩ := owner_of_mem_candidates (mem_of_mem_firstOfEachKey _ hmem)
    rw [howner] at hr
    exact ⟨hr, hq.trans (hqualified r.name)⟩
  · rw [show offered = _ from hoffered]
    exact nodup_firstOfEachKey _

/-- A member that a class reaches through both sides of a diamond goes onto it once. -/
theorem classSurface_diamond :
    let index := TypeIndex.ofDecls {} [
      .record { name := "Root" } {} [.method { name := "ping" } {}],
      .record { name := "Left" } { bases := [{ name := "Root" }] } [],
      .record { name := "Right" } { bases := [{ name := "Root" }] }
        [.field { name := "x" } { type := .void }]]
    let ctx : Context := { filePath := "d.h", options := {}, index }
    let traits : RecordTraits := { bases := [{ name := "Left" }, { name := "Right" }] }
    (ctx.classRecord { name := "D" } traits [] ⟨.classType, {}⟩).isValid = true ∧
      (classSurface ctx { name := "D" } traits [] ⟨.classType, {}⟩ {}).offered.toList.map
        (·.qualifiedName) = ["D::ping", "D::x"] := by
  intro index ctx traits
  have hvalid : (ctx.classRecord { name := "D" } traits [] ⟨.classType, {}⟩).isValid = true := by
    decide +kernel
  refine ⟨hvalid, ?_⟩
  obtain ⟨flattened, hflattened, hoffered, -⟩ :=
    classSurface_eq_firstOfEachKey ctx { name := "D" } traits [] ⟨.classType, {}⟩ {} hvalid
  have hdiamond : index.DepthFirst ["D"] [] traits.bases _ :=
    .enter ⟨rfl, rfl, rfl, by decide⟩
      (.enter ⟨rfl, rfl, rfl, by decide⟩ (.nil _ _) (.nil _ _))
      (.enter ⟨rfl, rfl, rfl, by decide⟩
        (.enter ⟨rfl, rfl, rfl, by decide⟩ (.nil _ _) (.nil _ _))
        (.nil _ _))
  rw [← (hflattened _).mp hdiamond] at hoffered
  rw [hoffered]
  decide

/-- A qualified name is not always the name behind the class: the blank in front of a member's name
is part of the name and not of the qualified name. -/
theorem qualifiedName_ne_append_name :
    let ctx : Context := { filePath := "d.h", options := {}, index := {} }
    let surface := classSurface ctx { name := "D" } {} [.field { name := " x" } { type := .void }]
      ⟨.classType, {}⟩ {}
    (ctx.classRecord { name := "D" } {} [.field { name := " x" } { type := .void }]
      ⟨.classType, {}⟩).isValid = true ∧
    ¬ ∀ r ∈ surface.offered.toList, r.qualifiedName = "D" ++ "::" ++ r.name := by
  refine ⟨rfl, ?_⟩
  rw [(offered_classSurface _ _ _ _ _ _).1]
  dsimp only
  rw [TypeIndex.ancestry]
  decide

end Analysis

end ScriptExport
