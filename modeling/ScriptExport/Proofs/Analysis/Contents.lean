import ScriptExport.Proofs.Analysis.Occurrences

/-!
# What a visit reads of a declaration

A visit is over before the contents of its declaration are visited, and it reads little of them: of
a namespace nothing that is inside it, and of a record not what is inside its members, since nested
types are no members and are passed over (`exportMembers_map_shell`). So declarations with the same own
part (`Decl.ownPart`) are visited alike (`Visit.run_ownPart`), and index entries of records with the
same shells of members are interchangeable (`interchangeable_of_withShells`).
-/

namespace ScriptExport

namespace Decl

/-- The declaration without what is inside it. -/
def shell : Decl → Decl
  | nameSpace h _ => nameSpace h []
  | record h traits _ => record h traits []
  | d => d

/-- A record with the shells of its members. -/
def withShells : Decl → Decl
  | record h traits members => record h traits (members.map shell)
  | d => d

/-- What a visit reads of a declaration. -/
def ownPart : Decl → Decl
  | nameSpace h _ => nameSpace h []
  | d => d.withShells

theorem name_withShells (d : Decl) : d.withShells.name = d.name := by
  cases d <;> rfl

theorem bases_withShells (d : Decl) : d.withShells.bases = d.bases := by
  cases d <;> rfl

theorem isEmpty_children_withShells (d : Decl) :
    d.withShells.children.isEmpty = d.children.isEmpty := by
  cases d with
  | record h traits members => exact List.isEmpty_map
  | _ => rfl

theorem map_shell_children_withShells (d : Decl) :
    d.withShells.children.map shell = d.children.map shell := by
  have hshell : shell ∘ shell = shell := by
    funext d
    cases d <;> rfl
  cases d with
  | record h traits members =>
    show (members.map shell).map shell = members.map shell
    rw [List.map_map, hshell]
  | _ => rfl

end Decl

namespace Analysis

/-! ## Members -/

section Members

/-- The member with the shell of its declaration. -/
def Member.shell (m : Member) : Member :=
  { m with decl := m.decl.shell }

theorem markMember_shell (marker : String) (d : Decl) :
    markMember marker d.shell = (markMember marker d).shell := by
  cases d <;> rfl

theorem PropertyPlan.partner?_map_shell (p : PropertyPlan) (members : List Member) (i : Nat)
    (isStatic : Bool) (a : Accessor) :
    p.partner? (members.map Member.shell) i isStatic a = p.partner? members i isStatic a := by
  unfold PropertyPlan.partner?
  rw [List.zipIdx_map, List.findSome?_map]
  refine congrArg (List.findSome? · _) (funext fun mj => ?_)
  obtain ⟨⟨d, mark⟩, j⟩ := mj
  cases d <;> rfl

/-- A look at a shell does what a look at the member does. -/
theorem PropertyPlan.take_shell (owner : String) (members : List Member) (p : PropertyPlan)
    (m : Member) (i : Nat) :
    p.take owner (members.map Member.shell) m.shell i = p.take owner members m i := by
  have hform : ∀ h c directive a, p.form owner (members.map Member.shell) i h c directive a =
      p.form owner members i h c directive a := by
    intro h c directive a
    unfold PropertyPlan.form
    rw [p.partner?_map_shell]
  obtain ⟨d, mark⟩ := m
  unfold PropertyPlan.take
  simp only [hform]
  cases d <;> rfl

/-- Nested types take no part in properties. -/
theorem planProperties_map_shell (owner : String) (members : List Member) :
    planProperties owner (members.map Member.shell) = planProperties owner members := by
  unfold planProperties PropertyPlan.initial
  rw [List.zipIdx_map, List.foldl_map, List.map_map]
  refine congrArg (List.foldl · _ _) (funext fun p => funext fun mi => ?_)
  exact p.take_shell owner members mi.1 mi.2

/-- A slot is filled alike for a member and for its shell. -/
theorem addSlot_shell (ctx : Context) (owner : Owner) (source : MemberSource) (m : Member)
    (slot : Slot) (x : Surface) :
    x.addSlot ctx owner source m.shell slot = x.addSlot ctx owner source m slot := by
  obtain ⟨d, mark⟩ := m
  cases slot with
  | absorbed => rfl
  | property spec => rfl
  | member => cases d <;> rfl

theorem visitMember_shell (marker : String) (d : Decl) (s : State) :
    s.visitMember marker d.shell = s.visitMember marker d := by
  cases d <;> rfl

/-- What is inside the members of a list plays no part when the list goes onto a type. -/
theorem exportMembers_map_shell (ctx : Context) (owner : Owner) (source : MemberSource)
    (decls : List Decl) (x : Surface) :
    exportMembers ctx owner source (decls.map Decl.shell) x =
      exportMembers ctx owner source decls x := by
  have hmembers : (decls.map Decl.shell).map (markMember ctx.options.marker) =
      (decls.map (markMember ctx.options.marker)).map Member.shell := by
    rw [List.map_map, List.map_map]
    exact List.map_congr_left fun d _ => markMember_shell _ d
  unfold exportMembers
  rw [hmembers]
  dsimp only
  rw [planProperties_map_shell, List.zip_map_left, List.foldl_map]
  simp only [List.foldl_map, visitMember_shell]
  refine congrArg (List.foldl · _ _) (funext fun x => funext fun ms => ?_)
  exact addSlot_shell ctx owner source ms.1 ms.2 x

theorem sameMembers_of_map_shell {ds es : List Decl} (h : ds.map Decl.shell = es.map Decl.shell) :
    SameMembers ds es := by
  intro ctx owner source x
  rw [← exportMembers_map_shell, h, exportMembers_map_shell]

theorem sameMembers_of_withShells {d e : Decl} (h : d.withShells = e.withShells) :
    SameMembers d.children e.children := by
  apply sameMembers_of_map_shell
  rw [← d.map_shell_children_withShells, h, e.map_shell_children_withShells]

theorem classKind_map_shell (kind : DirectiveKind) (isAbstract : Bool) (members : List Decl) :
    ClassKind.of kind isAbstract (members.map Decl.shell) = ClassKind.of kind isAbstract members := by
  have hpure : isPureMethod ∘ Decl.shell = isPureMethod := by
    funext d
    cases d <;> rfl
  unfold ClassKind.of
  rw [List.any_map, hpure]

end Members

/-! ## Visits -/

section Visits

variable (ctx : Context) (h : Header) (traits : RecordTraits) (members : List Decl)

theorem classRecord_map_shell (a : Directive) :
    ctx.classRecord h traits (members.map Decl.shell) a = ctx.classRecord h traits members a := by
  unfold Context.classRecord
  rw [classKind_map_shell]

/-- A class exports the same for the shells of its members. -/
theorem exportClassMembers_map_shell (a : Directive) (s : State) :
    exportClassMembers ctx h traits (members.map Decl.shell) a s =
      exportClassMembers ctx h traits members a s := by
  unfold exportClassMembers classSurface Context.classOwner
  rw [classKind_map_shell]
  dsimp only
  rw [exportMembers_map_shell]

theorem exportExplicitMembers_map_shell (s : State) :
    exportExplicitMembers ctx h (members.map Decl.shell) s = exportExplicitMembers ctx h members s := by
  unfold exportExplicitMembers
  dsimp only
  rw [exportMembers_map_shell]

end Visits

/-- The visit to the own part of its declaration. -/
def Visit.ownPart (v : Visit) : Visit :=
  ⟨v.ctx, v.decl.ownPart⟩

/-- A visit reads the own part of its declaration only. -/
theorem Visit.run_ownPart (v : Visit) (s : State) : v.ownPart.run s = v.run s := by
  obtain ⟨ctx, d⟩ := v
  cases d with
  | nameSpace h decls => rfl
  | record h traits members =>
    have hverdict : Visit.verdict ⟨ctx, .record h traits (members.map Decl.shell)⟩ =
        Visit.verdict ⟨ctx, .record h traits members⟩ := rfl
    have hvisit : s.visit ctx (.record h traits (members.map Decl.shell)) =
        s.visit ctx (.record h traits members) := rfl
    show Visit.run ⟨ctx, .record h traits (members.map Decl.shell)⟩ s = _
    unfold Visit.run
    rw [hverdict]
    dsimp only
    rw [hvisit]
    split
    · rfl
    · cases (Visit.verdict ⟨ctx, .record h traits members⟩).directive with
      | none => exact exportExplicitMembers_map_shell ctx h members _
      | some a =>
        simp only [contribute, classRecord_map_shell, exportClassMembers_map_shell]
  | _ => rfl

theorem runVisits_map_ownPart (vs : List Visit) (s : State) :
    runVisits (vs.map Visit.ownPart) s = runVisits vs s := by
  induction vs generalizing s with
  | nil => rfl
  | cons v vs ih => rw [List.map_cons, runVisits_cons, runVisits_cons, v.run_ownPart, ih]

theorem inside_ownPart (ctx : Context) (d : Decl) : ctx.inside d.ownPart = ctx.inside d := by
  cases d <;> rfl

/-! ## Entries -/

/-- Indexes that agree up to what is inside the members of their types are interchangeable. -/
theorem interchangeable_of_withShells {index other : TypeIndex}
    (h : index.mapDecls Decl.withShells = other.mapDecls Decl.withShells) :
    Interchangeable index other (·.mapDecl Decl.withShells) (·.mapDecl Decl.withShells) := by
  have hindex := TypeIndex.alike_mapDecls Decl.name_withShells Decl.bases_withShells index
  have hother := TypeIndex.alike_mapDecls Decl.name_withShells Decl.bases_withShells other
  have hdecl : ∀ {e e' : TypeEntry}, e.mapDecl Decl.withShells = e'.mapDecl Decl.withShells →
      e.decl.withShells = e'.decl.withShells := fun heq => congrArg TypeEntry.decl heq
  constructor
  case toAlike =>
    constructor
    case find? =>
      intro q
      rw [hindex.find?, h, ← hother.find?]
    case lookup? =>
      intro name scope
      rw [hindex.lookup?, h, ← hother.lookup?]
    case reads =>
      intro e e' heq
      refine ⟨(congrArg TypeEntry.qualifiedName heq).symm, (congrArg TypeEntry.annotated heq).symm,
        (congrArg TypeEntry.scope heq).symm, ?_⟩
      rw [← Decl.bases_withShells, ← hdecl heq, Decl.bases_withShells]
  case scriptName => exact fun heq => (congrArg TypeEntry.scriptName heq).symm
  case members => exact fun heq => sameMembers_of_withShells (hdecl heq).symm

end Analysis

end ScriptExport
