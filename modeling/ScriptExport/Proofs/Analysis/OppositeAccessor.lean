import ScriptExport.Proofs.Analysis.Origins
import ScriptExport.Proofs.Analysis.PropertyPartition

/-!
# The opposite accessor

A member list in which one method asks for a property, by a name with a head. All other looks pass, so
the plan is what the one look makes of a plan without properties (`planProperties_of_only_asking`). The
search for the opposite accessor goes by name, signature and staticness and stops at the first member
that fits (`isPartner_markMember_iff`); only then are the types compared. So an accessor of the right
type is found if none of another type stands before it.
-/

namespace ScriptExport

namespace Analysis

/-! ## One look decides -/

namespace PropertyPlan

variable {members : List Member} {p : PropertyPlan} {i : Nat} {m : Member} {h : Header}
  {c : Callable} {directive : Directive} {a : Accessor}

/-- A look at a member that is no method asking for a property changes nothing. -/
theorem take_of_not_asking (hasks : ∀ h c, m.decl = .method h c → m.propertyDirective? = none)
    (owner : String) : p.take owner members m i = p := by
  unfold take
  split
  · rfl
  · split
    · next h c directive hdecl hdirective =>
      have hkind : directive.kind ≠ .property := by
        intro hkind
        have hnone := hasks h c hdecl
        simp [Member.propertyDirective?, hdirective, hkind] at hnone
      rw [if_neg hkind]
    · rfl

/-- A look at the first accessor that asks for a property forms the property. -/
theorem take_initial (hat : AccessorAt members i m h c a)
    (hasks : m.propertyDirective? = some directive) (owner : String) :
    (initial members).take owner members m i =
      (initial members).form owner members i h c directive a := by
  have hfree : (initial members).isFree i = true := by
    rw [isFree_iff (List.length_map _) hat.place]
    exact slots_initial_of_place hat.place
  have hlooked : (m.mark.isExcluded || !(initial members).isFree i ||
      (initial members).unpaired.contains i) = false := by
    rw [hat.kept, hfree]
    rfl
  obtain ⟨hdirective, hkind⟩ := Option.filter_eq_some_iff.mp hasks
  have hfresh : a.logicalName ∉ (initial members).formed := List.not_mem_nil
  unfold take
  simp only [hlooked, Bool.false_eq_true, ↓reduceIte, hat.decl, hdirective, of_decide_eq_true hkind,
    hat.accessor, hfresh]

end PropertyPlan

/-- If one method asks for a property, the plan is what the look at it makes of the empty plan. -/
theorem planProperties_of_only_asking {members : List Member} {i : Nat} {m : Member} {h : Header}
    {c : Callable} {directive : Directive} {a : Accessor} (hat : AccessorAt members i m h c a)
    (hasks : m.propertyDirective? = some directive)
    (honly : ∀ (k : Nat) (m : Member) (h : Header) (c : Callable), members[k]? = some m →
      m.decl = .method h c → m.propertyDirective?.isSome = true → k = i) (owner : String) :
    planProperties owner members =
      (PropertyPlan.initial members).form owner members i h c directive a := by
  have hlooks := planProperties_induction
    (motive := fun n p => p = if i < n then
      (PropertyPlan.initial members).form owner members i h c directive a else .initial members)
    owner members (if_neg (Nat.not_lt_zero i)).symm ?_
  · rw [hlooks, if_pos (List.getElem?_eq_some_iff.mp hat.place).1]
  · intro k m' p hm' hp
    by_cases hki : k = i
    · subst hki
      obtain rfl := Option.some.inj (hm'.symm.trans hat.place)
      rw [if_neg (Nat.lt_irrefl k)] at hp
      rw [hp, if_pos (Nat.lt_succ_self k)]
      exact PropertyPlan.take_initial hat hasks owner
    · -- every other look passes, before the one that counts and after it
      have hpassed : ∀ h c, m'.decl = .method h c → m'.propertyDirective? = none := by
        intro h c hdecl
        refine Option.not_isSome_iff_eq_none.mp fun hsome => hki ?_
        exact honly k m' h c hm' hdecl hsome
      have hiff : i < k + 1 ↔ i < k := by omega
      rw [PropertyPlan.take_of_not_asking hpassed, hp]
      simp only [hiff]

section Declared

variable {marker : String} {decls : List Decl} {i : Nat} {h : Header} {c : Callable}
  {directive : Directive} {a : Accessor} (hi : decls[i]? = some (.method h c))
  (hdirective : (Decl.method h c).directive? marker = some directive)
  (haccessor : Accessor.of? h.name c = some a)

include hi hdirective haccessor

theorem accessorAt_map_markMember :
    AccessorAt (decls.map (markMember marker)) i (markMember marker (.method h c)) h c a where
  place := by
    rw [List.getElem?_map, hi]
    rfl
  decl := decl_markMember
  kept := by
    rw [isExcluded_markMember]
    exact isExcluded_of_directive hdirective
  accessor := haccessor

theorem planProperties_map_of_only_asking (hkind : directive.kind = .property)
    (honly : ∀ k h' c' a, decls[k]? = some (.method h' c') →
      (Decl.method h' c').directive? marker = some a → a.kind = .property → k = i) (owner : String) :
    planProperties owner (decls.map (markMember marker)) =
      (PropertyPlan.initial (decls.map (markMember marker))).form owner
        (decls.map (markMember marker)) i h c directive a := by
  have hasks : (markMember marker (.method h c)).propertyDirective? = some directive := by
    unfold Member.propertyDirective?
    rw [directive_markMember rfl, hdirective]
    simp [hkind]
  refine planProperties_of_only_asking (accessorAt_map_markMember hi hdirective haccessor) hasks ?_
    owner
  intro k m h' c' hk hdecl hsome
  rw [List.getElem?_map] at hk
  obtain ⟨d, hd, rfl⟩ := Option.map_eq_some_iff.mp hk
  rw [decl_markMember] at hdecl
  subst hdecl
  obtain ⟨a', ha'⟩ := Option.isSome_iff_exists.mp hsome
  obtain ⟨ha', hkind'⟩ := Option.filter_eq_some_iff.mp ha'
  rw [directive_markMember rfl] at ha'
  exact honly k h' c' a' hd ha' (of_decide_eq_true hkind')

end Declared

/-! ## Opposite accessors -/

/-- The method can be the opposite of an accessor whose name is a head and `rest`: it is neither left out
nor deleted, it is public or annotated, and it has a head and the signature of the opposite role. -/
structure IsOpposite (marker : String) (role : Naming.Role) (rest : String) (isStatic : Bool)
    (h : Header) (c : Callable) : Prop where
  kept : (Decl.method h c).isExcluded marker = false
  shown : h.access.isPublic = true ∨ ((Decl.method h c).directive? marker).isSome = true
  present : c.isDeleted = false
  isStatic : c.isStatic = isStatic
  name : ∃ head role', (head, role') ∈ Naming.accessorHeads ∧ role' ≠ role ∧ h.name = head ++ rest
  signature : ∃ role', Accessor.roleOf? c = some role' ∧ role' ≠ role

/-- The list has such a method at the place `k`. -/
def OppositeAt (marker : String) (role : Naming.Role) (rest : String) (isStatic : Bool)
    (decls : List Decl) (k : Nat) (c : Callable) : Prop :=
  ∃ h, decls[k]? = some (.method h c) ∧ IsOpposite marker role rest isStatic h c

/-- Two accessors are of the same type. -/
def TypesAgree (c c' : Callable) : Prop :=
  (accessorType c).canonical.text = (accessorType c').canonical.text

section Opposite

variable {marker head rest : String} {a : Accessor} {cs : List Char}
  (hhead : (head, a.role) ∈ Naming.accessorHeads)
  (hrest : Naming.logicalName? rest.toList = some cs)
  (hpartners : a.partners = Accessor.partnersOf a.role (head ++ rest))

include hhead hrest hpartners

/-- What fits a name with a head is an opposite accessor. -/
theorem isPartner_markMember_iff {h : Header} {c : Callable} {isStatic : Bool} :
    (markMember marker (.method h c)).isPartner isStatic a = true ↔
      IsOpposite marker a.role rest isStatic h c := by
  have hdirective : (markMember marker (.method h c)).mark.directive =
      (Decl.method h c).directive? marker := directive_markMember rfl
  rw [Member.isPartner_iff, hdirective, isExcluded_markMember, decl_markMember, hpartners]
  constructor
  · rintro ⟨h', c', b, hdecl, hkept, hb, hrole, hname, hshown, hpresent, hstatic⟩
    obtain ⟨rfl, rfl⟩ := Decl.method.inj hdecl
    exact
      { kept := hkept
        shown := hshown
        present := hpresent
        isStatic := hstatic
        name := (Accessor.mem_partnersOf_append hhead).mp hname
        signature := ⟨b.role, (Accessor.of?_eq_some_iff.mp hb).1, hrole⟩ }
  · intro hopposite
    obtain ⟨head', role', hhead', hne, hname⟩ := hopposite.name
    obtain ⟨role'', hsignature, hne'⟩ := hopposite.signature
    -- there are two roles only, so head and signature agree
    obtain rfl : role'' = role' := (Naming.role_ne_iff hne).mp hne'
    have haccessor : Naming.accessor? h.name = some (role'', String.ofList cs) := by
      rw [hname, Naming.accessor?_append hhead', hrest]
      rfl
    refine ⟨h, c, ⟨role'', String.ofList cs, Accessor.partnersOf role'' h.name⟩, rfl, hopposite.kept,
      Accessor.of?_eq_some_iff.mpr ⟨hsignature, .inl ⟨haccessor, rfl⟩⟩, hne, ?_, hopposite.shown,
      hopposite.present, hopposite.isStatic⟩
    exact (Accessor.mem_partnersOf_append hhead).mpr ⟨head', role'', hhead', hne, hname⟩

/-- At the start, every opposite accessor is free. -/
theorem offers_initial_iff {decls : List Decl} {i : Nat} {h : Header} {c : Callable}
    (hi : decls[i]? = some (.method h c)) (hsignature : Accessor.roleOf? c = some a.role)
    {isStatic : Bool} {k : Nat} :
    (PropertyPlan.initial (decls.map (markMember marker))).Offers (decls.map (markMember marker)) i
      isStatic a k ↔ ∃ c', OppositeAt marker a.role rest isStatic decls k c' := by
  constructor
  · rintro ⟨-, -, m, hm, hpartner⟩
    rw [List.getElem?_map] at hm
    obtain ⟨d, hd, rfl⟩ := Option.map_eq_some_iff.mp hm
    obtain ⟨h', c', -, hdecl, -⟩ := Member.isPartner_iff.mp hpartner
    rw [decl_markMember] at hdecl
    subst hdecl
    exact ⟨c', h', hd, (isPartner_markMember_iff hhead hrest hpartners).mp hpartner⟩
  · rintro ⟨c', h', hk, hopposite⟩
    have hm : (decls.map (markMember marker))[k]? = some (markMember marker (.method h' c')) := by
      rw [List.getElem?_map, hk]
      rfl
    refine ⟨?_, ?_, _, hm, (isPartner_markMember_iff hhead hrest hpartners).mpr hopposite⟩
    · rintro rfl
      obtain ⟨rfl, rfl⟩ := Decl.method.inj (Option.some.inj (hi.symm.trans hk))
      obtain ⟨role', hsignature', hne⟩ := hopposite.signature
      exact hne (Option.some.inj (hsignature'.symm.trans hsignature))
    · rw [PropertyPlan.isFree_iff (List.length_map _) hm]
      exact PropertyPlan.slots_initial_of_place hm

end Opposite

/-- A plan that got its first property has no other one. -/
theorem PlannedProperty.PutInto.property_iff {members : List Member} {f : PlannedProperty}
    {slots : List Slot} (hput : f.PutInto (PropertyPlan.initial members).slots slots) (k : Nat)
    (spec : PropertySpec) :
    slots[k]? = some (.property spec) ↔ k = f.place ∧ spec = f.spec := by
  have hinitial : (PropertyPlan.initial members).slots[k]? ≠ some (.property spec) :=
    PropertyPlan.slots_initial_ne members k (by simp)
  rw [hput.getElem?]
  split
  · next hplace => simp [hplace, eq_comm]
  · next hplace =>
    split
    · simp [hplace]
    · simp [hplace, hinitial]

/-! ## The first one counts -/

/-- **The opposite accessor.** One method of the list asks for a property; it has a name with a head and the
signature of that head, and it states no access. Then the list makes one property. If the list has an
opposite accessor of the same type and none of another type stands before it, scripts can read and write
the property, and no mismatch is reported. But if the first opposite accessor is of another type, a
mismatch is reported and the property has one accessor, whatever stands behind it. -/
theorem opposite_accessor_found (ctx : Context) (marker owner : String) (decls : List Decl) {i : Nat}
    {h : Header} {c : Callable} {directive : Directive} {head rest : String} {role : Naming.Role}
    (hi : decls[i]? = some (.method h c))
    (hdirective : (Decl.method h c).directive? marker = some directive)
    (hkind : directive.kind = .property) (haccess : directive.access? = none)
    (honly : ∀ k h' c' a, decls[k]? = some (.method h' c') →
      (Decl.method h' c').directive? marker = some a → a.kind = .property → k = i)
    (hname : h.name = head ++ rest) (hhead : (head, role) ∈ Naming.accessorHeads)
    (hrest : (Naming.logicalName? rest.toList).isSome = true)
    (hsignature : Accessor.roleOf? c = some role) :
    let plan := planProperties owner (decls.map (markMember marker))
    ∃ (place : Nat) (spec : PropertySpec),
      (∀ k spec', plan.slots[k]? = some (.property spec') ↔ k = place ∧ spec' = spec) ∧
      (∀ j c', OppositeAt marker role rest c.isStatic decls j c' → TypesAgree c c' →
        (∀ k < j, ∀ c'', OppositeAt marker role rest c.isStatic decls k c'' → TypesAgree c c'') →
        (ctx.propertyRecord spec).access = .readWrite ∧
          ∀ d ∈ plan.diagnostics, d.kind ≠ .propertyMismatch) ∧
      ∀ j c', OppositeAt marker role rest c.isStatic decls j c' → ¬ TypesAgree c c' →
        (∀ k < j, ∀ c'', ¬ OppositeAt marker role rest c.isStatic decls k c'') →
        (ctx.propertyRecord spec).access ≠ .readWrite ∧
          ∃ d ∈ plan.diagnostics, d.kind = .propertyMismatch := by
  intro plan
  obtain ⟨cs, hrest⟩ := Option.isSome_iff_exists.mp hrest
  let members := decls.map (markMember marker)
  let a : Accessor := ⟨role, String.ofList cs, Accessor.partnersOf role h.name⟩
  have haccessor : Accessor.of? h.name c = some a := by
    refine Accessor.of?_eq_some_iff.mpr ⟨hsignature, .inl ⟨?_, rfl⟩⟩
    rw [hname, Naming.accessor?_append hhead, hrest]
    rfl
  have hplan : plan = (PropertyPlan.initial members).form owner members i h c directive a :=
    planProperties_map_of_only_asking hi hdirective haccessor hkind honly owner
  have hoffers : ∀ k, (PropertyPlan.initial members).Offers members i c.isStatic a k ↔
      ∃ c', OppositeAt marker role rest c.isStatic decls k c' :=
    fun _ => offers_initial_iff hhead hrest (hname ▸ rfl) hi hsignature
  have hfree : (PropertyPlan.initial members).slots[i]? = some .member :=
    PropertyPlan.slots_initial_of_place (accessorAt_map_markMember hi hdirective haccessor).place
  rw [hplan]
  cases hfound : (PropertyPlan.initial members).partner? members i c.isStatic a with
  | none =>
    have hnone : ∀ k c', ¬ OppositeAt marker role rest c.isStatic decls k c' := fun k c' hopposite =>
      PropertyPlan.not_offers_of_partner? hfound k ((hoffers k).mpr ⟨c', hopposite⟩)
    rw [PropertyPlan.form_of_partner?_none hfound]
    exact ⟨_, _, (PropertyPlan.putInto_plannedAlone hfree).property_iff,
      fun j c' hopposite => (hnone j c' hopposite).elim,
      fun j c' hopposite => (hnone j c' hopposite).elim⟩
  | some found =>
    obtain ⟨j, h', c'⟩ := found
    obtain ⟨⟨m', hm', hdecl'⟩, hoffered, hfirst⟩ := PropertyPlan.offers_of_partner? hfound
    obtain ⟨d', hd', rfl⟩ := Option.map_eq_some_iff.mp (List.getElem?_map ▸ hm')
    rw [decl_markMember] at hdecl'
    subst hdecl'
    -- what stands at the place that was found
    have hat_found : ∀ c'', OppositeAt marker role rest c.isStatic decls j c'' → c'' = c' := by
      rintro c'' ⟨h'', hk, -⟩
      exact (Decl.method.inj (Option.some.inj (hk.symm.trans hd'))).2
    have hbefore : ∀ k c'', OppositeAt marker role rest c.isStatic decls k c'' → j ≤ k :=
      fun k c'' hopposite => Nat.le_of_not_lt fun hlt => hfirst k hlt ((hoffers k).mpr ⟨c'', hopposite⟩)
    obtain ⟨c'', hopposite⟩ := (hoffers j).mp hoffered
    obtain rfl := hat_found c'' hopposite
    by_cases hagrees : TypesAgree c c''
    · rw [PropertyPlan.form_of_agree hfound hagrees]
      refine ⟨_, _, (PropertyPlan.putInto_plannedPair hfree
        (PropertyPlan.slots_initial_of_place hm')).property_iff, fun _ _ _ _ _ => ⟨?_, ?_⟩, ?_⟩
      · change directive.access?.getD .readWrite = .readWrite
        rw [haccess]
        rfl
      · exact fun d hd => (List.not_mem_nil hd).elim
      · intro k c' hk hdisagrees hnone
        have hkj : k = j := Nat.le_antisymm (Nat.le_of_not_lt fun hlt => hnone j hlt c'' hopposite)
          (hbefore k c' hk)
        subst hkj
        exact (hdisagrees (hat_found c' hk ▸ hagrees)).elim
    · obtain ⟨d, hd, hform⟩ := @PropertyPlan.form_of_disagree members _ i h c directive a j h' c''
        hfound hagrees owner
      rw [hform]
      refine ⟨_, _, (PropertyPlan.putInto_plannedAlone hfree).property_iff, ?_,
        fun _ _ _ _ _ => ⟨?_, d, List.mem_append_right _ (List.mem_singleton_self d), hd⟩⟩
      · intro k c' hk hagrees' hall
        rcases Nat.lt_or_eq_of_le (hbefore k c' hk) with hlt | rfl
        · exact (hagrees (hall j hlt c'' hopposite)).elim
        · exact (hagrees (hat_found c' hk ▸ hagrees')).elim
      · change directive.access?.getD (accessorAccess (role = .getter) (role = .setter)) ≠ .readWrite
        rw [haccess]
        cases role <;> decide

/-- A getter that asks for its property between two overloads of its setter. -/
def overloadedSetters : List Decl :=
  [.method { name := "setLevel" } { params := [{ type := .builtin "int" }] },
    .method { name := "getLevel", annotations := ["lua_export_property"] }
      { returnType := .builtin "int" },
    .method { name := "setLevel" } { params := [{ type := .builtin "char" }] }]

/-- The overload with the type of the getter comes first, so it is the setter. -/
theorem opposite_accessor_found_among_overloads :
    let ctx : Context := { filePath := "d.h", options := {}, index := {} }
    let plan := planProperties "D" (overloadedSetters.map (markMember "lua_export_"))
    ∃ (place : Nat) (spec : PropertySpec), plan.slots[place]? = some (.property spec) ∧
      (ctx.propertyRecord spec).access = .readWrite ∧
      ∀ d ∈ plan.diagnostics, d.kind ≠ .propertyMismatch := by
  intro ctx plan
  have honly : ∀ (k : Nat) h c a, overloadedSetters[k]? = some (.method h c) →
      (Decl.method h c).directive? "lua_export_" = some a → a.kind = .property → k = 1 := by
    intro k h c a hk ha _
    match k with
    | 0 | 2 =>
      cases hk
      cases ha
    | 1 => rfl
    | k + 3 => cases hk
  obtain ⟨place, spec, hproperty, hfound, -⟩ :=
    @opposite_accessor_found ctx "lua_export_" "D" overloadedSetters 1 _ _ _ "get" "Level" .getter rfl
      (by rfl) rfl (by rfl) honly (by rfl) (by decide) (by rfl) (by rfl)
  have hsetter : IsOpposite "lua_export_" .getter "Level" false { name := "setLevel" }
      { params := [{ type := .builtin "int" }] } :=
    { kept := by rfl
      shown := .inl rfl
      present := rfl
      isStatic := rfl
      name := ⟨"set", .setter, by decide, by decide, by rfl⟩
      signature := ⟨.setter, rfl, by decide⟩ }
  obtain ⟨haccess, hclean⟩ := hfound 0 _ ⟨_, rfl, hsetter⟩ (by rfl)
    fun k hk => (Nat.not_lt_zero k hk).elim
  exact ⟨place, spec, (hproperty place spec).mpr ⟨rfl, rfl⟩, haccess, hclean⟩

end Analysis

end ScriptExport
