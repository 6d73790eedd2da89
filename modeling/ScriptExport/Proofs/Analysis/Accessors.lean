import ScriptExport.Analysis.Property

/-!
# Accessors and their partners

What planning knows about a single accessor. The name of an accessor with a head is the head and a
rest, the names of its partners are the heads of the opposite role and the same rest
(`partnersOf_append`), and so an accessor and its partner name the same property
(`logicalName_of_mem_partners`). The search for a partner gives the first member that is free and
opposite (`offers_of_partner?`).
-/

namespace ScriptExport

/-! ## Names -/

namespace Naming

theorem role_ne_iff {r s t : Role} (h : r ≠ t) : s ≠ t ↔ s = r := by
  cases r <;> cases s <;> cases t <;> simp_all

/-- A name with a head is an accessor if the rest gives a logical name. -/
theorem accessor?_append {head : String} {role : Role} (hhead : (head, role) ∈ accessorHeads)
    (rest : String) :
    accessor? (head ++ rest) =
      (logicalName? rest.toList).map fun cs => (role, String.ofList cs) := by
  simp only [accessorHeads, List.mem_cons, Prod.mk.injEq, List.not_mem_nil, or_false] at hhead
  unfold accessor? accessorHeads
  -- a name with one head has neither of the other two
  rcases hhead with ⟨rfl, rfl⟩ | ⟨rfl, rfl⟩ | ⟨rfl, rfl⟩
  all_goals
    cases hlogical : logicalName? rest.toList <;>
      simp [List.findSome?, Text.after?, hlogical]

/-- A name with a role has one of the heads of that role. -/
theorem eq_append_of_accessor? {name logicalName : String} {role : Role}
    (h : accessor? name = some (role, logicalName)) :
    ∃ head rest, (head, role) ∈ accessorHeads ∧ name = head ++ rest := by
  unfold accessor? at h
  obtain ⟨⟨head, role'⟩, hmem, hfound⟩ := List.exists_of_findSome?_eq_some h
  obtain ⟨cs, hcs, heq⟩ := Option.map_eq_some_iff.mp hfound
  obtain ⟨rest, hrest, -⟩ := Option.bind_eq_some_iff.mp hcs
  cases heq
  refine ⟨head, String.ofList rest, hmem, ?_⟩
  have hchars := Text.eq_append_of_after? hrest
  rw [← String.ofList_toList (s := name), hchars, String.ofList_append, String.ofList_toList]

end Naming

namespace Analysis

open Naming (accessorHeads)

namespace Accessor

/-- The partners of an accessor have the heads of the opposite role before the same rest. -/
theorem partnersOf_append {head : String} {role : Naming.Role}
    (hhead : (head, role) ∈ accessorHeads) (rest : String) :
    partnersOf role (head ++ rest) =
      (accessorHeads.filter (fun x => x.2 ≠ role)).map (fun x => x.1 ++ rest) := by
  simp only [accessorHeads, List.mem_cons, Prod.mk.injEq, List.not_mem_nil, or_false] at hhead
  rcases hhead with ⟨rfl, rfl⟩ | ⟨rfl, rfl⟩ | ⟨rfl, rfl⟩
  all_goals simp [partnersOf, accessorHeads, Text.startsWith, Text.after?, List.filter]

/-- The partners of a name with a head have a head of the other role. -/
theorem mem_partnersOf_append {head other : String} {role : Naming.Role}
    (hhead : (head, role) ∈ accessorHeads) {rest : String} :
    other ∈ partnersOf role (head ++ rest) ↔
      ∃ head' role', (head', role') ∈ accessorHeads ∧ role' ≠ role ∧ other = head' ++ rest := by
  rw [partnersOf_append hhead]
  constructor
  · intro hother
    obtain ⟨⟨head', role'⟩, hmem, rfl⟩ := List.mem_map.mp hother
    obtain ⟨hmem, hrole⟩ := List.mem_filter.mp hmem
    exact ⟨head', role', hmem, by simpa using hrole, rfl⟩
  · rintro ⟨head', role', hmem, hrole, rfl⟩
    exact List.mem_map.mpr ⟨(head', role'), List.mem_filter.mpr ⟨hmem, by simpa using hrole⟩, rfl⟩

/-- The signature gives the role; a name with a head has to agree, any other is its own partner. -/
theorem of?_eq_some_iff {name : String} {c : Callable} {a : Accessor} :
    of? name c = some a ↔ roleOf? c = some a.role ∧
      (Naming.accessor? name = some (a.role, a.logicalName) ∧ a.partners = partnersOf a.role name ∨
        Naming.accessor? name = none ∧ a.logicalName = name ∧ a.partners = [name]) := by
  obtain ⟨role, logicalName, partners⟩ := a
  unfold of?
  cases roleOf? c with
  | none => simp
  | some role' =>
    cases Naming.accessor? name with
    | none => grind
    | some named => grind

/-- An accessor and its partner name the same property. -/
theorem logicalName_of_mem_partners {name other : String} {c c' : Callable} {a b : Accessor}
    (ha : of? name c = some a) (hother : other ∈ a.partners) (hb : of? other c' = some b) :
    b.logicalName = a.logicalName := by
  obtain ⟨-, ⟨hname, hpartners⟩ | ⟨hname, hlogical, hpartners⟩⟩ := of?_eq_some_iff.mp ha
  · -- both names end in the rest that gives the logical name
    obtain ⟨head, rest, hhead, rfl⟩ := Naming.eq_append_of_accessor? hname
    rw [hpartners, mem_partnersOf_append hhead] at hother
    obtain ⟨head', role', hhead', -, rfl⟩ := hother
    rw [Naming.accessor?_append hhead] at hname
    obtain ⟨cs, hcs, hlogical⟩ := Option.map_eq_some_iff.mp hname
    have hotherName := Naming.accessor?_append hhead' rest
    rw [hcs] at hotherName
    obtain ⟨-, ⟨hname', -⟩ | ⟨hname', -⟩⟩ := of?_eq_some_iff.mp hb
    · rw [hotherName] at hname'
      exact (congrArg Prod.snd (Option.some.inj hname')).symm.trans (congrArg Prod.snd hlogical)
    · rw [hotherName] at hname'
      cases hname'
  · rw [hpartners, List.mem_singleton] at hother
    subst hother
    obtain ⟨-, ⟨hname', -⟩ | ⟨-, hlogical', -⟩⟩ := of?_eq_some_iff.mp hb
    · rw [hname] at hname'
      cases hname'
    · rw [hlogical, hlogical']

end Accessor

/-! ## The search for a partner -/

/-- The member at place `i` is a method that is not left out, and it is the accessor `a`. -/
structure AccessorAt (members : List Member) (i : Nat) (m : Member) (h : Header) (c : Callable)
    (a : Accessor) : Prop where
  place : members[i]? = some m
  decl : m.decl = .method h c
  kept : m.mark.isExcluded = false
  accessor : Accessor.of? h.name c = some a

/-- What the search for the opposite accessor asks of a member. -/
theorem Member.isPartner_iff {m : Member} {isStatic : Bool} {a : Accessor} :
    m.isPartner isStatic a = true ↔ ∃ h c b, m.decl = .method h c ∧ m.mark.isExcluded = false ∧
      Accessor.of? h.name c = some b ∧ b.role ≠ a.role ∧ h.name ∈ a.partners ∧
      (h.access.isPublic = true ∨ m.mark.directive.isSome = true) ∧ c.isDeleted = false ∧
      c.isStatic = isStatic := by
  unfold Member.isPartner
  constructor
  · intro hpartner
    cases hdecl : m.decl with
    | method h c =>
      simp only [hdecl, Bool.and_eq_true, Bool.not_eq_true', Bool.or_eq_true, beq_iff_eq,
        List.contains_iff_mem, Option.any_eq_true, decide_eq_true_eq] at hpartner
      obtain ⟨⟨⟨⟨⟨hkept, hname⟩, hseen⟩, hdeleted⟩, hstatic⟩, b, hb, hrole⟩ := hpartner
      exact ⟨h, c, b, rfl, hkept, hb, hrole, hname, hseen, hdeleted, hstatic⟩
    | _ => simp [hdecl] at hpartner
  · rintro ⟨h, c, b, hdecl, hkept, hb, hrole, hname, hseen, hdeleted, hstatic⟩
    simp [hdecl, hkept, hb, hrole, hname, hseen, hdeleted, hstatic]

namespace PropertyPlan

variable {p : PropertyPlan} {members : List Member} {i : Nat} {isStatic : Bool} {a : Accessor}

/-- The member at place `k` is free and can be the opposite accessor of the one at place `i`. -/
def Offers (p : PropertyPlan) (members : List Member) (i : Nat) (isStatic : Bool) (a : Accessor)
    (k : Nat) : Prop :=
  k ≠ i ∧ p.isFree k = true ∧ ∃ m, members[k]? = some m ∧ m.isPartner isStatic a = true

/-- The first member that fits is found. -/
theorem offers_of_partner? {j : Nat} {h : Header} {c : Callable}
    (hfound : p.partner? members i isStatic a = some (j, h, c)) :
    (∃ m, members[j]? = some m ∧ m.decl = .method h c) ∧ p.Offers members i isStatic a j ∧
      ∀ k < j, ¬ p.Offers members i isStatic a k := by
  unfold partner? at hfound
  obtain ⟨before, ⟨m, n⟩, after, hsplit, hfound, hbefore⟩ := List.findSome?_eq_some_iff.mp hfound
  -- what stands at a place of the list is split off at that place
  have hat : ∀ k : Nat, members[k]?.map (·, k) = (before ++ (m, n) :: after)[k]? := by
    intro k
    rw [← hsplit, List.getElem?_zipIdx, Nat.zero_add]
  have hmember : members[before.length]?.map (·, before.length) = some (m, n) := by
    rw [hat, List.getElem?_append_right (Nat.le_refl _), Nat.sub_self]
    rfl
  obtain ⟨m', hm, heq⟩ := Option.map_eq_some_iff.mp hmember
  cases heq
  dsimp only at hfound
  split at hfound
  · next hpartner =>
    simp only [Bool.and_eq_true, decide_eq_true_eq] at hpartner
    split at hfound
    · next h' c' hdecl =>
      cases hfound
      refine ⟨⟨m, hm, hdecl⟩, ⟨hpartner.1.1, hpartner.1.2, m, hm, hpartner.2⟩, ?_⟩
      rintro k hk ⟨hki, hfree, m₀, hm₀, hpartner₀⟩
      have hmem : (m₀, k) ∈ before := by
        have hk' := hat k
        rw [hm₀, List.getElem?_append_left hk] at hk'
        exact List.mem_of_getElem? hk'.symm
      obtain ⟨h₀, c₀, -, hdecl₀, -⟩ := Member.isPartner_iff.mp hpartner₀
      have hnone := hbefore _ hmem
      simp [hki, hfree, hpartner₀, hdecl₀] at hnone
    · cases hfound
  · cases hfound

theorem not_offers_of_partner? (hnone : p.partner? members i isStatic a = none) (k : Nat) :
    ¬ p.Offers members i isStatic a k := by
  rintro ⟨hki, hfree, m, hm, hpartner⟩
  obtain ⟨h, c, -, hdecl, -⟩ := Member.isPartner_iff.mp hpartner
  unfold partner? at hnone
  have hpassed := List.findSome?_eq_none_iff.mp hnone (m, k) (List.mem_zipIdx_iff_getElem?.mpr hm)
  simp [hki, hfree, hpartner, hdecl] at hpassed

end PropertyPlan

end Analysis

end ScriptExport
