import ScriptExport.Proofs.Analysis.Accessors
import ScriptExport.Proofs.Lists

/-!
# Looks at members

Planning looks at one member after the other. A look that forms a property changes the slot of the
member and that of its partner; which of the two is the property and which is absorbed, and who is the
getter, depends on their order and roles. `PlannedProperty` keeps the places of both, and
`takes_take` says once and for all what a look can do to a plan.
-/

namespace ScriptExport

namespace Analysis

/-! ## Properties with the places of their accessors -/

/-- The directive by which a member asks for a property. -/
def Member.propertyDirective? (m : Member) : Option Directive :=
  m.mark.directive.filter fun a => a.kind = .property

/-- The method `x` stands at place `k` and is the accessor of the property with the role. -/
def PropertySpec.HasAccessor (members : List Member) (spec : PropertySpec) (role : Naming.Role)
    (k : Nat) (x : AccessorMethod) : Prop :=
  ∃ m h c a, AccessorAt members k m h c a ∧ a.role = role ∧ a.logicalName = spec.name ∧
    c.isStatic = spec.isStatic ∧ x = ⟨h.name, accessorType c⟩

/-- A property with the places of its accessors. -/
structure PlannedProperty where
  spec : PropertySpec
  getter : Option Nat
  setter : Option Nat
  /-- The place of the accessor that asked for the property. -/
  starter : Nat
  /-- Where the property stands. -/
  place : Nat

namespace PlannedProperty

/-- The places of the accessors. -/
def accessors (f : PlannedProperty) : List Nat :=
  f.getter.toList ++ f.setter.toList

/-- The property is made of the accessors at its places. -/
structure MadeOf (members : List Member) (f : PlannedProperty) : Prop where
  getter : Option.Rel (f.spec.HasAccessor members .getter) f.getter f.spec.getter
  setter : Option.Rel (f.spec.HasAccessor members .setter) f.setter f.spec.setter
  agree : ∀ g ∈ f.spec.getter, ∀ s ∈ f.spec.setter, g.type.canonical.text = s.type.canonical.text
  /-- It stands where the first of them stands. -/
  place : f.place ∈ f.accessors ∧ ∀ k ∈ f.accessors, f.place ≤ k
  header : members[f.place]?.map (·.decl.header) = some f.spec.header
  starter : f.starter ∈ f.accessors
  directive : members[f.starter]?.bind (·.propertyDirective?) = some f.spec.directive
  /-- An access that the directive states counts, and else the accessors decide. -/
  access : f.spec.access =
    f.spec.directive.access?.getD (accessorAccess f.spec.getter.isSome f.spec.setter.isSome)

/-- The slots with the property at its place and its other accessor absorbed. -/
structure PutInto (f : PlannedProperty) (slots slots' : List Slot) : Prop where
  length : slots'.length = slots.length
  getElem? : ∀ k : Nat, slots'[k]? = if k = f.place then some (.property f.spec)
    else if k ∈ f.accessors then some .absorbed else slots[k]?

theorem mem_accessors {f : PlannedProperty} {k : Nat} :
    k ∈ f.accessors ↔ f.getter = some k ∨ f.setter = some k := by
  simp [accessors]

/-- All accessors of a property have its name. -/
theorem MadeOf.accessorAt {members : List Member} {f : PlannedProperty} (hf : f.MadeOf members)
    {k : Nat} (hk : k ∈ f.accessors) :
    ∃ m h c a, AccessorAt members k m h c a ∧ a.logicalName = f.spec.name := by
  rcases mem_accessors.mp hk with hgetter | hsetter
  · obtain ⟨x, -, m, h, c, a, hat, -, hname, -⟩ := exists_of_rel_some (hgetter ▸ hf.getter)
    exact ⟨m, h, c, a, hat, hname⟩
  · obtain ⟨x, -, m, h, c, a, hat, -, hname, -⟩ := exists_of_rel_some (hsetter ▸ hf.setter)
    exact ⟨m, h, c, a, hat, hname⟩

end PlannedProperty

theorem AccessorAt.unique {members : List Member} {i : Nat} {m m' : Member} {h h' : Header}
    {c c' : Callable} {a a' : Accessor} (hat : AccessorAt members i m h c a)
    (hat' : AccessorAt members i m' h' c' a') : m = m' ∧ a = a' := by
  obtain rfl := Option.some.inj (hat.place.symm.trans hat'.place)
  obtain ⟨rfl, rfl⟩ := Decl.method.inj (hat.decl.symm.trans hat'.decl)
  exact ⟨rfl, Option.some.inj (hat.accessor.symm.trans hat'.accessor)⟩

/-! ## One look -/

namespace PropertyPlan

/-- What a look at the member at place `i` does to the slots, the names and the refused members. -/
inductive Takes (members : List Member) (i : Nat) (p q : PropertyPlan) : Prop where
  /-- The member asks for no property, or it is part of one, or it was refused. -/
  | pass (slots : q.slots = p.slots) (formed : q.formed = p.formed)
    (unpaired : q.unpaired = p.unpaired)
    (passed : ∀ m h c a, AccessorAt members i m h c a → m.propertyDirective?.isSome = true →
      p.slots[i]? ≠ some .member ∨ i ∈ p.unpaired)
  /-- The name of its property is taken. -/
  | repeats {m : Member} {h : Header} {c : Callable} {a : Accessor}
    (accessor : AccessorAt members i m h c a) (asks : m.propertyDirective?.isSome = true)
    (free : p.slots[i]? = some .member) (taken : a.logicalName ∈ p.formed)
    (slots : q.slots = p.slots.set i .absorbed) (formed : q.formed = p.formed)
    (unpaired : q.unpaired = p.unpaired)
  /-- It starts a property, with a partner or alone. -/
  | forms (f : PlannedProperty) (made : f.MadeOf members) (starter : f.starter = i)
    (free : ∀ k ∈ f.accessors, p.slots[k]? = some .member) (fresh : f.spec.name ∉ p.formed)
    (slots : f.PutInto p.slots q.slots) (formed : q.formed = f.spec.name :: p.formed)
    (unpaired : ∀ k ∈ q.unpaired, k ∈ p.unpaired ∨
      ∃ m h c a, AccessorAt members k m h c a ∧ a.logicalName = f.spec.name)

section Look

variable {members : List Member} {p : PropertyPlan} {i : Nat} {m : Member} {h : Header}
  {c : Callable} {directive : Directive} {a : Accessor}

theorem isFree_iff (hlength : p.slots.length = members.length) (hm : members[i]? = some m) :
    p.isFree i = true ↔ p.slots[i]? = some .member := by
  have hi : i < p.slots.length := hlength ▸ (List.getElem?_eq_some_iff.mp hm).1
  unfold isFree
  rw [List.getD_eq_getElem?_getD, List.getElem?_eq_getElem hi, Option.getD_some, Option.some.injEq]
  cases p.slots[i] <;> simp [Slot.isMember]

theorem slots_initial_ne (members : List Member) (k : Nat) {slot : Slot} (hslot : slot ≠ .member) :
    (initial members).slots[k]? ≠ some slot := by
  intro hk
  obtain ⟨m, -, hm⟩ := List.mem_map.mp (List.mem_of_getElem? hk)
  exact hslot hm.symm

theorem slots_initial_of_place {k : Nat} (hm : members[k]? = some m) :
    (initial members).slots[k]? = some .member := by
  unfold initial
  rw [List.getElem?_map, hm]
  rfl

/-- The accessor at place `i` as a property without a partner. -/
def plannedAlone (i : Nat) (h : Header) (c : Callable) (directive : Directive) (a : Accessor) :
    PlannedProperty where
  spec := single h c directive a
  getter := if a.role = .getter then some i else none
  setter := if a.role = .setter then some i else none
  starter := i
  place := i

/-- The accessor at place `i` as a property with its partner at place `j`. -/
def plannedPair (i j : Nat) (h other : Header) (c otherCallable : Callable) (directive : Directive)
    (a : Accessor) : PlannedProperty where
  spec :=
    let mine : AccessorMethod := ⟨h.name, accessorType c⟩
    let others : AccessorMethod := ⟨other.name, accessorType otherCallable⟩
    { single h c directive a with
      header := if i < j then h else other
      getter := some (if a.role = .getter then mine else others)
      setter := some (if a.role = .getter then others else mine)
      access := directive.access?.getD .readWrite }
  getter := some (if a.role = .getter then i else j)
  setter := some (if a.role = .getter then j else i)
  starter := i
  place := if i < j then i else j

/-- A partner that was found is a free accessor of the same property. -/
theorem accessorAt_of_partner? {j : Nat} {h' : Header} {c' : Callable}
    (hat : AccessorAt members i m h c a) (hlength : p.slots.length = members.length)
    (hfound : p.partner? members i c.isStatic a = some (j, h', c')) :
    ∃ m' b, AccessorAt members j m' h' c' b ∧ b.role ≠ a.role ∧ b.logicalName = a.logicalName ∧
      c'.isStatic = c.isStatic ∧ j ≠ i ∧ p.slots[j]? = some .member := by
  obtain ⟨⟨m', hm', hdecl⟩, ⟨hne, hfree, m'', hm'', hpartner⟩, -⟩ := offers_of_partner? hfound
  obtain rfl := Option.some.inj (hm'.symm.trans hm'')
  obtain ⟨h'', c'', b, hdecl', hkept, hb, hrole, hname, -, -, hstatic⟩ :=
    Member.isPartner_iff.mp hpartner
  obtain ⟨rfl, rfl⟩ := Decl.method.inj (hdecl.symm.trans hdecl')
  exact ⟨m', b, ⟨hm', hdecl, hkept, hb⟩, hrole,
    Accessor.logicalName_of_mem_partners hat.accessor hname hb, hstatic, hne,
    (isFree_iff hlength hm').mp hfree⟩

theorem form_of_partner?_none (hnone : p.partner? members i c.isStatic a = none) (owner : String) :
    p.form owner members i h c directive a =
      { p with
        slots := p.slots.set i (.property (plannedAlone i h c directive a).spec)
        formed := a.logicalName :: p.formed } := by
  unfold form
  rw [hnone]
  rfl

/-- Accessors of one type form a pair. -/
theorem form_of_agree {j : Nat} {h' : Header} {c' : Callable}
    (hfound : p.partner? members i c.isStatic a = some (j, h', c'))
    (htype : (accessorType c).canonical.text = (accessorType c').canonical.text) (owner : String) :
    p.form owner members i h c directive a =
      { p with
        slots := (p.slots.set (if i < j then j else i) .absorbed).set
          (plannedPair i j h h' c c' directive a).place
          (.property (plannedPair i j h h' c c' directive a).spec)
        formed := a.logicalName :: p.formed } := by
  unfold form plannedPair
  rw [hfound]
  obtain ⟨role, logicalName, partners⟩ := a
  cases role with
  | getter =>
    refine (if_pos htype).trans ?_
    by_cases hij : i < j <;> simp only [hij, ↓reduceIte] <;> rfl
  | setter =>
    refine (if_pos htype.symm).trans ?_
    by_cases hij : i < j <;> simp only [hij, ↓reduceIte] <;> rfl

/-- Accessors of two types are reported, and one stands alone. -/
theorem form_of_disagree {j : Nat} {h' : Header} {c' : Callable}
    (hfound : p.partner? members i c.isStatic a = some (j, h', c'))
    (htype : (accessorType c).canonical.text ≠ (accessorType c').canonical.text) (owner : String) :
    ∃ d : Diagnostic, d.kind = .propertyMismatch ∧ p.form owner members i h c directive a =
      { slots := p.slots.set i (.property (plannedAlone i h c directive a).spec)
        formed := a.logicalName :: p.formed
        unpaired := j :: p.unpaired
        diagnostics := p.diagnostics ++ [d] } := by
  unfold form
  rw [hfound]
  obtain ⟨role, logicalName, partners⟩ := a
  cases role with
  | getter =>
    exact ⟨_, rfl, if_neg htype⟩
  | setter =>
    exact ⟨_, rfl, if_neg htype.symm⟩

theorem accessors_plannedAlone (i : Nat) (h : Header) (c : Callable) (directive : Directive)
    (a : Accessor) : (plannedAlone i h c directive a).accessors = [i] := by
  obtain ⟨role, logicalName, partners⟩ := a
  cases role <;> rfl

theorem mem_accessors_plannedPair {j : Nat} {h' : Header} {c' : Callable} {k : Nat} :
    k ∈ (plannedPair i j h h' c c' directive a).accessors ↔ k = i ∨ k = j := by
  have haccessors : (plannedPair i j h h' c c' directive a).accessors =
      [if a.role = .getter then i else j, if a.role = .getter then j else i] := rfl
  rw [haccessors]
  cases a.role <;> simp [or_comm]

theorem putInto_plannedAlone {slots : List Slot} (hfree : slots[i]? = some .member) :
    (plannedAlone i h c directive a).PutInto slots
      (slots.set i (.property (plannedAlone i h c directive a).spec)) where
  length := List.length_set
  getElem? := by
    intro k
    have hi : i < slots.length := (List.getElem?_eq_some_iff.mp hfree).1
    rw [accessors_plannedAlone, List.getElem?_set]
    change _ = if k = i then _ else _
    grind

theorem putInto_plannedPair {j : Nat} {h' : Header} {c' : Callable} {slots : List Slot}
    (hfree : slots[i]? = some .member) (hfree' : slots[j]? = some .member) :
    (plannedPair i j h h' c c' directive a).PutInto slots
      ((slots.set (if i < j then j else i) .absorbed).set
        (plannedPair i j h h' c c' directive a).place
        (.property (plannedPair i j h h' c c' directive a).spec)) where
  length := by rw [List.length_set, List.length_set]
  getElem? := by
    intro k
    have hi : i < slots.length := (List.getElem?_eq_some_iff.mp hfree).1
    have hj : j < slots.length := (List.getElem?_eq_some_iff.mp hfree').1
    have hplace : (plannedPair i j h h' c c' directive a).place = if i < j then i else j := rfl
    rw [List.getElem?_set, List.getElem?_set, List.length_set]
    simp only [mem_accessors_plannedPair, hplace]
    grind

section Form

variable (hat : AccessorAt members i m h c a) (hasks : m.propertyDirective? = some directive)

include hat hasks

/-- A property with one accessor is made of it. -/
theorem madeOf_plannedAlone : (plannedAlone i h c directive a).MadeOf members := by
  have hheader : members[i]?.map (·.decl.header) = some h := by
    rw [hat.place, Option.map_some, hat.decl]
    rfl
  have hdirective : members[i]?.bind (·.propertyDirective?) = some directive := by
    rw [hat.place]
    exact hasks
  have hplace : i ∈ [i] ∧ ∀ k ∈ [i], i ≤ k := by simp
  obtain ⟨role, logicalName, partners⟩ := a
  cases role with
  | getter =>
    exact
      { getter := .some ⟨m, h, c, _, hat, rfl, rfl, rfl, rfl⟩
        setter := .none
        agree := by rintro _ - _ ⟨⟩
        place := hplace
        header := hheader
        starter := hplace.1
        directive := hdirective
        access := rfl }
  | setter =>
    exact
      { getter := .none
        setter := .some ⟨m, h, c, _, hat, rfl, rfl, rfl, rfl⟩
        agree := by rintro _ ⟨⟩
        place := hplace
        header := hheader
        starter := hplace.1
        directive := hdirective
        access := rfl }

/-- A property with two accessors is made of them. -/
theorem madeOf_plannedPair {j : Nat} {m' : Member} {h' : Header} {c' : Callable} {b : Accessor}
    (hat' : AccessorAt members j m' h' c' b) (hrole : b.role ≠ a.role)
    (hname : b.logicalName = a.logicalName) (hstatic : c'.isStatic = c.isStatic)
    (htype : (accessorType c).canonical.text = (accessorType c').canonical.text) :
    (plannedPair i j h h' c c' directive a).MadeOf members := by
  have hheader : members[if i < j then i else j]?.map (·.decl.header) =
      some (if i < j then h else h') := by
    split
    · rw [hat.place, Option.map_some, hat.decl]
      rfl
    · rw [hat'.place, Option.map_some, hat'.decl]
      rfl
  have hdirective : members[i]?.bind (·.propertyDirective?) = some directive := by
    rw [hat.place]
    exact hasks
  have hplace : (if i < j then i else j) ∈ [i, j] ∧ ∀ k ∈ [i, j], (if i < j then i else j) ≤ k := by
    split <;> simp <;> omega
  obtain ⟨role, logicalName, partners⟩ := a
  cases role with
  | getter =>
    have hopposite : b.role = .setter := (Naming.role_ne_iff (t := .getter) (by decide)).mp hrole
    exact
      { getter := .some ⟨m, h, c, _, hat, rfl, rfl, rfl, rfl⟩
        setter := .some ⟨m', h', c', b, hat', hopposite, hname, hstatic, rfl⟩
        agree := by
          rintro _ ⟨⟩ _ ⟨⟩
          exact htype
        place := hplace
        header := hheader
        starter := List.mem_cons_self
        directive := hdirective
        access := rfl }
  | setter =>
    have hopposite : b.role = .getter := (Naming.role_ne_iff (t := .setter) (by decide)).mp hrole
    have hswap : ∀ k, k ∈ [j, i] ↔ k ∈ [i, j] := fun k => by simp [or_comm]
    exact
      { getter := .some ⟨m', h', c', b, hat', hopposite, hname, hstatic, rfl⟩
        setter := .some ⟨m, h, c, _, hat, rfl, rfl, rfl, rfl⟩
        agree := by
          rintro _ ⟨⟩ _ ⟨⟩
          exact htype.symm
        place := ⟨(hswap _).mpr hplace.1, fun k hk => hplace.2 k ((hswap k).mp hk)⟩
        header := hheader
        starter := (hswap i).mpr List.mem_cons_self
        directive := hdirective
        access := rfl }

theorem takes_alone {q : PropertyPlan} (hfree : p.slots[i]? = some .member)
    (hfresh : a.logicalName ∉ p.formed)
    (hslots : q.slots = p.slots.set i (.property (plannedAlone i h c directive a).spec))
    (hformed : q.formed = a.logicalName :: p.formed)
    (hunpaired : ∀ k ∈ q.unpaired, k ∈ p.unpaired ∨
      ∃ m h c b, AccessorAt members k m h c b ∧ b.logicalName = a.logicalName) :
    p.Takes members i q := by
  refine .forms (plannedAlone i h c directive a) (madeOf_plannedAlone hat hasks) rfl ?_ hfresh
    (hslots ▸ putInto_plannedAlone hfree) hformed hunpaired
  intro k hk
  rw [accessors_plannedAlone, List.mem_singleton] at hk
  rw [hk]
  exact hfree

/-- Forming a property takes its accessors. -/
theorem takes_form (hlength : p.slots.length = members.length)
    (hfree : p.slots[i]? = some .member) (hfresh : a.logicalName ∉ p.formed) (owner : String) :
    p.Takes members i (p.form owner members i h c directive a) := by
  cases hfound : p.partner? members i c.isStatic a with
  | none =>
    rw [form_of_partner?_none hfound]
    exact takes_alone hat hasks hfree hfresh rfl rfl fun k hk => .inl hk
  | some found =>
    obtain ⟨j, h', c'⟩ := found
    obtain ⟨m', b, hat', hrole, hname, hstatic, hne, hfree'⟩ :=
      accessorAt_of_partner? hat hlength hfound
    by_cases htype : (accessorType c).canonical.text = (accessorType c').canonical.text
    · rw [form_of_agree hfound htype]
      refine .forms (plannedPair i j h h' c c' directive a)
        (madeOf_plannedPair hat hasks hat' hrole hname hstatic htype) rfl ?_ hfresh
        (putInto_plannedPair hfree hfree') rfl fun k hk => .inl hk
      intro k hk
      rcases mem_accessors_plannedPair.mp hk with rfl | rfl
      · exact hfree
      · exact hfree'
    · -- the partner is refused, and the property of that name is there all the same
      obtain ⟨d, -, hform⟩ := @form_of_disagree members p i h c directive a j h' c' hfound htype owner
      rw [hform]
      refine takes_alone hat hasks hfree hfresh rfl rfl ?_
      intro k hk
      rcases List.mem_cons.mp hk with rfl | hk
      · exact .inr ⟨m', h', c', b, hat', hname⟩
      · exact .inl hk

end Form

/-- A look passes, repeats a name, or forms a property. -/
theorem takes_take (hlength : p.slots.length = members.length) (hm : members[i]? = some m)
    (owner : String) : p.Takes members i (p.take owner members m i) := by
  -- a look that changes nothing but the diagnostics
  have hpass : ∀ q : PropertyPlan, q.slots = p.slots → q.formed = p.formed →
      q.unpaired = p.unpaired →
      (∀ h c a, AccessorAt members i m h c a → m.propertyDirective?.isSome = true →
        p.slots[i]? ≠ some .member ∨ i ∈ p.unpaired) → p.Takes members i q := by
    intro q hslots hformed hunpaired hpassed
    refine .pass hslots hformed hunpaired fun m' h c a hat hasks => ?_
    obtain rfl := Option.some.inj (hm.symm.trans hat.place)
    exact hpassed h c a hat hasks
  unfold take
  split
  · next hleft =>
    refine hpass p rfl rfl rfl fun h c a hat hasks => ?_
    simp only [Bool.or_eq_true, Bool.not_eq_true', hat.kept, Bool.false_eq_true, false_or,
      List.contains_iff_mem] at hleft
    refine hleft.imp_left fun hfree hslot => ?_
    rw [(isFree_iff hlength hm).mpr hslot] at hfree
    cases hfree
  · next hlooked =>
    simp only [Bool.or_eq_true, Bool.not_eq_true', not_or, Bool.not_eq_true,
      Bool.not_eq_false] at hlooked
    obtain ⟨⟨hkept, hfree⟩, -⟩ := hlooked
    have hslot := (isFree_iff hlength hm).mp hfree
    split
    · next h c directive hdecl hdirective =>
      split
      · next hkind =>
        have hasks : m.propertyDirective? = some directive := by
          simp [Member.propertyDirective?, hdirective, hkind]
        split
        · next hnone =>
          refine hpass _ rfl rfl rfl fun h' c' a hat _ => ?_
          obtain ⟨rfl, rfl⟩ := Decl.method.inj (hdecl.symm.trans hat.decl)
          cases hnone.symm.trans hat.accessor
        · next a ha =>
          have hat : AccessorAt members i m h c a := ⟨hm, hdecl, hkept, ha⟩
          split
          · next htaken =>
            exact .repeats hat (by rw [hasks]; rfl) hslot htaken rfl rfl rfl
          · next hfresh => exact takes_form hat hasks hlength hslot hfresh owner
      · next hkind =>
        refine hpass p rfl rfl rfl fun h' c' a _ hasks => ?_
        simp [Member.propertyDirective?, hdirective, hkind] at hasks
    · next hnot =>
      refine hpass p rfl rfl rfl fun h' c' a hat hasks => ?_
      obtain ⟨directive, hsome⟩ := Option.isSome_iff_exists.mp hasks
      exact (hnot h' c' directive hat.decl (Option.filter_eq_some_iff.mp hsome).1).elim

end Look

end PropertyPlan

end Analysis

end ScriptExport
