import ScriptExport.Proofs.Analysis.AutoExport
import ScriptExport.Proofs.Analysis.ClassMembers

/-!
# Methods that ask for a record

A method that is annotated as a function or an operator asks for a record of its own. It gets one unless
a property takes it up as the accessor opposite to the one that asks for the property
(`action_or_accessor`). The record of the property then stands for it, but names it only if the access
of the property lets scripts use it: the access that the other accessor states can leave the method
without any record that names it.
-/

namespace ScriptExport

namespace Analysis

/-- The record shows the method as an accessor. -/
def ShowsAccessor (r : ExportRecord) (method : String) : Prop :=
  r.getter = some method ∨ r.setter = some method

/-- A property shows an accessor if scripts can use it. -/
theorem showsAccessor_propertyRecord_iff {ctx : Context} {spec : PropertySpec} {method : String} :
    ShowsAccessor (ctx.propertyRecord spec) method ↔
      spec.getter.map (·.name) = some method ∧ spec.access.isReadable = true ∨
      spec.setter.map (·.name) = some method ∧ spec.access.isWritable = true := by
  unfold ShowsAccessor Context.propertyRecord
  dsimp only
  cases spec.access.isReadable <;> cases spec.access.isWritable <;> simp

/-- An annotated member is exported explicitly. -/
theorem memberAction_of_directive {marker : String} {d : Decl} {b : Directive}
    (hmember : d.isMemberOnly = true) (hb : d.directive? marker = some b) (owner : Owner)
    (source : MemberSource) :
    memberAction owner source (markMember marker d) = declaredAction owner source true d := by
  have hkept : (markMember marker d).mark.isExcluded = false := by
    rw [isExcluded_markMember, isExcluded_of_directive hb]
  obtain ⟨hignored, hrejected⟩ := Bool.or_eq_false_iff.mp hkept
  unfold memberAction
  rw [decl_markMember, directive_markMember hmember, hmember, hignored, hrejected, hb]
  rfl

/-- A method with a directive is callable if it is present. -/
theorem memberAction_method {marker : String} {h : Header} {c : Callable} {b : Directive}
    (hb : (Decl.method h c).directive? marker = some b) (hpresent : c.isDeleted = false)
    (owner : Owner) (source : MemberSource) :
    memberAction owner source (markMember marker (.method h c)) = .callable (methodKind h c) h c := by
  rw [memberAction_of_directive rfl hb, declaredAction, hpresent, if_neg Bool.false_ne_true,
    Bool.not_true, Bool.and_false, Bool.false_and, if_neg Bool.false_ne_true]

namespace ClassVisit

variable (k : ClassVisit)

/-- The method is an accessor of the property at the own place `j`, which another member than the one at
place `i` asks for. -/
structure IsAccessor (i : Nat) (h : Header) (j : Nat) (spec : PropertySpec) : Prop where
  place : ∃ m, k.own[j]? = some ⟨.own, m, .property spec⟩
  role : spec.getter.map (·.name) = some h.name ∨ spec.setter.map (·.name) = some h.name
  asked : ∃ s d, s ≠ i ∧ k.members[s]? = some d ∧ d.directive? k.marker = some spec.directive ∧
    spec.directive.kind = .property

/-- The member list with its marks. -/
def marked : List Member :=
  k.members.map (markMember k.marker)

theorem getElem?_marked {i : Nat} {m : Member} (hm : k.marked[i]? = some m) :
    ∃ d, k.members[i]? = some d ∧ markMember k.marker d = m := by
  unfold marked at hm
  rw [List.getElem?_map] at hm
  exact Option.map_eq_some_iff.mp hm

/-- A request for a property is the directive of its declaration. -/
theorem directive?_of_propertyDirective? {d : Decl} {a : Directive}
    (h : (markMember k.marker d).propertyDirective? = some a) :
    d.directive? k.marker = some a ∧ a.kind = .property := by
  obtain ⟨hdirective, hkind⟩ := Option.filter_eq_some_iff.mp h
  refine ⟨?_, of_decide_eq_true hkind⟩
  cases hmember : d.isMemberOnly with
  | true => rwa [directive_markMember hmember] at hdirective
  | false =>
    unfold markMember at hdirective
    rw [hmember, if_neg Bool.false_ne_true] at hdirective
    cases hdirective

section Accessors

variable {k} {planned : List PlannedProperty} {n : Nat}
  (hplan : PropertyPlan.Explains k.marked n planned
    (planProperties k.owner.qualifiedName k.marked))
  {f : PlannedProperty} (hf : f ∈ planned)
include hplan hf

theorem getElem?_own_of_planned : ∃ m, k.own[f.place]? = some ⟨.own, m, .property f.spec⟩ := by
  have hslot := (hplan.property f.place f.spec).mpr ⟨f, hf, rfl, rfl⟩
  obtain ⟨m, _, _, _, hat, -⟩ := (hplan.made f hf).accessorAt (hplan.made f hf).place.1
  obtain ⟨d, hd, rfl⟩ := k.getElem?_marked hat.place
  exact ⟨_, getElem?_places hd hslot⟩

theorem asked_of_planned : ∃ d, k.members[f.starter]? = some d ∧
    d.directive? k.marker = some f.spec.directive ∧ f.spec.directive.kind = .property := by
  obtain ⟨m, hm, hasks⟩ := Option.bind_eq_some_iff.mp (hplan.made f hf).directive
  obtain ⟨d, hd, rfl⟩ := k.getElem?_marked hm
  exact ⟨d, hd, k.directive?_of_propertyDirective? hasks⟩

/-- A property shows its accessors by name. -/
theorem name_of_mem_accessors {i : Nat} (hi : i ∈ f.accessors) {h : Header} {c : Callable}
    (hmethod : k.members[i]? = some (.method h c)) :
    f.spec.getter.map (·.name) = some h.name ∨ f.spec.setter.map (·.name) = some h.name := by
  have hname : ∀ {role x}, f.spec.HasAccessor k.marked role i x → x.name = h.name := by
    rintro role x ⟨m, h', c', a, hat, -, -, -, rfl⟩
    obtain ⟨d, hd, rfl⟩ := k.getElem?_marked hat.place
    cases hmethod.symm.trans hd
    have hdecl := hat.decl
    rw [decl_markMember] at hdecl
    cases hdecl
    rfl
  rcases PlannedProperty.mem_accessors.mp hi with hgetter | hsetter
  · obtain ⟨x, hx, hat⟩ := exists_of_rel_some (hgetter ▸ (hplan.made f hf).getter)
    exact .inl (by rw [hx, Option.map_some, hname hat])
  · obtain ⟨x, hx, hat⟩ := exists_of_rel_some (hsetter ▸ (hplan.made f hf).setter)
    exact .inr (by rw [hx, Option.map_some, hname hat])

/-- A method that asks for something else is taken up as an accessor. -/
theorem isAccessor_of_mem_accessors {i : Nat} (hi : i ∈ f.accessors) {h : Header} {c : Callable}
    {b : Directive} (hmethod : k.members[i]? = some (.method h c))
    (hb : (Decl.method h c).directive? k.marker = some b) (hkind : b.kind ≠ .property) :
    k.IsAccessor i h f.place f.spec where
  place := getElem?_own_of_planned hplan hf
  role := name_of_mem_accessors hplan hf hi hmethod
  asked := by
    obtain ⟨d, hd, hasks, hproperty⟩ := asked_of_planned hplan hf
    refine ⟨f.starter, d, ?_, hd, hasks, hproperty⟩
    rintro rfl
    cases hmethod.symm.trans hd
    cases hb.symm.trans hasks
    exact hkind hproperty

end Accessors

/-- An annotated method that asks for no property is callable or an accessor. -/
theorem action_or_accessor {i : Nat} {h : Header} {c : Callable} {b : Directive}
    (hmethod : k.members[i]? = some (.method h c)) (hpresent : c.isDeleted = false)
    (hb : (Decl.method h c).directive? k.marker = some b) (hkind : b.kind ≠ .property) :
    (∃ place, k.own[i]? = some place ∧ place.action k.owner = .callable (methodKind h c) h c) ∨
      ∃ j spec, k.IsAccessor i h j spec := by
  obtain ⟨planned, hplan⟩ := explains_planProperties k.owner.qualifiedName k.marked
  have haccessor : ∀ f ∈ planned, i ∈ f.accessors → ∃ j spec, k.IsAccessor i h j spec :=
    fun f hf hi => ⟨_, _, isAccessor_of_mem_accessors hplan hf hi hmethod hb hkind⟩
  obtain ⟨slot, hslot⟩ : ∃ slot,
      (planProperties k.owner.qualifiedName k.marked).slots[i]? = some slot := by
    have hi := (List.getElem?_eq_some_iff.mp hmethod).1
    refine ⟨_, List.getElem?_eq_getElem ?_⟩
    rw [hplan.length, marked, List.length_map]
    exact hi
  cases slot with
  | member =>
    exact .inl ⟨_, getElem?_places hmethod hslot, memberAction_method hb hpresent _ _⟩
  | property spec =>
    obtain ⟨f, hf, rfl, -⟩ := (hplan.property i spec).mp hslot
    exact .inr (haccessor f hf (hplan.made f hf).place.1)
  | absorbed =>
    rcases hplan.absorbed i hslot with ⟨f, hf, hi⟩ | ⟨m, _, _, _, hat, hasks, -⟩
    · exact .inr (haccessor f hf hi)
    · -- only a member that asks for a property can repeat one
      obtain ⟨d, hd, rfl⟩ := k.getElem?_marked hat.place
      cases hmethod.symm.trans hd
      obtain ⟨a, ha⟩ := Option.isSome_iff_exists.mp hasks
      obtain ⟨hdirective, hproperty⟩ := k.directive?_of_propertyDirective? ha
      cases hb.symm.trans hdirective
      exact absurd hproperty hkind

end ClassVisit

end Analysis

open Analysis

/-- **Annotated methods.** In an accepted unit, take a method among the own members of an exported class
that is annotated as a function or an operator, is not deleted and has a usable name. Either no property
takes it up: then the result has a callable with its qualified name, parameter types and constness,
unless an earlier own member that declares something else takes its key. Or it is an accessor of a
property that another member asks for: then the record of the property is in the result unless something
bars it, belongs to the class, and shows the method exactly if it is the getter and can be read or the
setter and can be written. -/
theorem annotated_method_recorded_or_taken_up (o : Options) (u : TranslationUnit)
    (haccepted : u.check o = .ok ()) :
    ∃ result, analyze o u = .ok result ∧
      ∀ (k : ClassVisit) before after,
        visits (Context.ofUnit o u) u.decls = before ++ k.visit :: after →
      ∀ (i : Nat) h c b, k.members[i]? = some (.method h c) → c.isDeleted = false →
        Text.isBlankText h.name = false → (Decl.method h c).directive? o.marker = some b →
        b.kind = .function ∨ b.kind = .operator →
        (∃ place, k.own[i]? = some place ∧ place.action k.owner = .callable (methodKind h c) h c ∧
          (k.HasCallable result.records h c ∨
            ∃ q ∈ k.own.take i, q.key? k.inside k.owner = place.key? k.inside k.owner ∧
              ¬ k.Redeclares q h c)) ∨
        ∃ j spec, k.IsAccessor i h j spec ∧
          let r := k.inside.propertyRecord spec
          (Text.isBlankText spec.name = false →
            r ∈ result.records ∨ k.Bars (runVisits before {}) j r) ∧
          r.kind = .property ∧ r.ownerType = k.owner.qualifiedName ∧
          (ShowsAccessor r h.name ↔
            spec.getter.map (·.name) = some h.name ∧ spec.access.isReadable = true ∨
            spec.setter.map (·.name) = some h.name ∧ spec.access.isWritable = true) := by
  refine ⟨_, analyze_of_check haccepted, ?_⟩
  intro k before after hvisits i h c b hmethod hpresent hname hb hkind
  rw [← marker_of_split hvisits] at hb
  have hother : b.kind ≠ .property := by
    rcases hkind with hkind | hkind <;> rw [hkind] <;> decide
  rcases k.action_or_accessor hmethod hpresent hb hother with ⟨place, hplace, haction⟩ | ⟨j, spec, hspec⟩
  · exact .inl ⟨place, hplace, haction,
      k.hasCallable_or_taken (mem_visits_of_split hvisits) hplace haction hname⟩
  · obtain ⟨m, hplace⟩ := hspec.place
    refine .inr ⟨j, spec, hspec, ?_, rfl, ?_, showsAccessor_propertyRecord_iff⟩
    · exact fun hspecName => k.mem_records_or_bars hvisits hplace (fun _ => rfl) hspecName
    · exact k.owner_inside

/-- A class with a property that scripts can only read, its setter, and a method besides. -/
def readOnlyLevel : Decl :=
  .record { name := "D", annotations := ["lua_export_class"] } {}
    [.method { name := "getLevel", annotations := ["lua_export_property,access=readonly"] }
      { returnType := .builtin "int" },
     .method { name := "setLevel", annotations := ["lua_export_function"] }
      { params := [{ name := "v", type := .builtin "int" }] },
     .method { name := "reset", annotations := ["lua_export_function"] } {}]

/-- A unit with this class alone. -/
def readOnlyUnit : TranslationUnit :=
  { filePath := "d.h", decls := [readOnlyLevel] }

/-- The visit to the class. -/
def readOnlyVisit : ClassVisit where
  visit := ⟨Context.ofUnit {} readOnlyUnit, readOnlyLevel⟩
  head := readOnlyLevel.header
  traits := {}
  members := readOnlyLevel.children
  directive := ⟨.classType, {}⟩
  decl_eq := rfl
  directive_eq := show readOnlyLevel.directive? "lua_export_" = _ by rfl
  usable := by decide

/-- The method has a record, and the setter belongs to a property that does not show it. -/
theorem annotated_method_recorded_or_taken_up_read_only :
    readOnlyUnit.check {} = .ok () ∧
    ∃ result, analyze {} readOnlyUnit = .ok result ∧
      (∃ r ∈ result.records, r.kind.isCallable = true ∧ r.qualifiedName = "D::reset") ∧
      ∃ spec : PropertySpec, spec.name = "level" ∧ spec.setter.map (·.name) = some "setLevel" ∧
        ¬ ShowsAccessor (readOnlyVisit.inside.propertyRecord spec) "setLevel" := by
  have haccepted : readOnlyUnit.check {} = .ok () :=
    TranslationUnit.check_of_checkDecls (by decide) (by decide) rfl
  refine ⟨haccepted, ?_⟩
  obtain ⟨result, hresult, hclass⟩ :=
    annotated_method_recorded_or_taken_up {} readOnlyUnit haccepted
  refine ⟨result, hresult, ?_⟩
  have hmethods := hclass readOnlyVisit [] [] rfl
  obtain ⟨level, hslots, hname, hgetter, hsetter, haccess⟩ : ∃ level : PropertySpec,
      readOnlyVisit.own.map (·.slot) = [.property level, .absorbed, .member] ∧
      level.name = "level" ∧ level.getter.map (·.name) = some "getLevel" ∧
        level.setter.map (·.name) = some "setLevel" ∧ level.access = .readOnly :=
    ⟨_, rfl, by decide +kernel⟩
  have hspec : ∀ {i h j spec}, readOnlyVisit.IsAccessor i h j spec → spec = level := by
    intro i h j spec haccessor
    obtain ⟨m, hplace⟩ := haccessor.place
    have hmem := List.mem_map_of_mem (f := (·.slot)) (List.mem_of_getElem? hplace)
    rw [hslots] at hmem
    simpa using hmem
  have hkeys : readOnlyVisit.own.map (·.key? readOnlyVisit.inside readOnlyVisit.owner) =
      [some "property level", none, some "reset()"] := by decide +kernel
  refine ⟨?_, level, hname, hsetter, ?_⟩
  · rcases hmethods 2 _ _ _ rfl rfl (by decide) (by rfl) (.inl rfl) with
      ⟨place, hplace, -, hkept⟩ | ⟨j, spec, haccessor, -⟩
    · have hkey : place.key? readOnlyVisit.inside readOnlyVisit.owner = some "reset()" := by
        have hat := congrArg (Option.map (·.key? readOnlyVisit.inside readOnlyVisit.owner)) hplace
        rw [← List.getElem?_map, hkeys] at hat
        exact (Option.some.inj hat).symm
      obtain ⟨r, hr, hcallable, hqualified, -⟩ := hkept.resolve_right (by
        rintro ⟨q, hq, hqkey, -⟩
        have hmem := List.mem_map_of_mem
          (f := (·.key? readOnlyVisit.inside readOnlyVisit.owner)) hq
        rw [List.map_take, hkeys, hqkey, hkey] at hmem
        exact absurd hmem (by decide))
      refine ⟨r, hr, hcallable, hqualified.trans ?_⟩
      decide +kernel
    · have hrole := haccessor.role
      rw [hspec haccessor, hgetter, hsetter] at hrole
      exact absurd hrole (by decide)
  · rcases hmethods 1 _ _ _ rfl rfl (by decide) (by rfl) (.inl rfl) with
      ⟨place, hplace, haction, -⟩ | ⟨j, spec, haccessor, -, -, -, hshown⟩
    · have hslot : place.slot = .absorbed := by
        have hat := congrArg (Option.map (·.slot)) hplace
        rw [← List.getElem?_map, hslots] at hat
        exact (Option.some.inj hat).symm
      unfold Place.action at haction
      rw [hslot] at haction
      cases haction
    · rw [hspec haccessor] at hshown
      refine hshown.not.mpr ?_
      rw [hgetter, hsetter, haccess]
      decide

end ScriptExport
