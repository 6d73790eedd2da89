import Mathlib.Logic.Relation
import ScriptExport.Proofs.Analysis.IndexedTypes

/-!
# Derivation

Whether one type has another among its bases is decided by a search with pending and seen names. While
it goes on, the parents of everything seen have been compared with the base that is sought, and each of
them was seen, is pending or is no type (`Explored`); so when nothing is pending any more, nothing seen
leads to the base. A type that was found is at the end of a chain of base specifiers, each in the base
list of the type that the one before it names (`derivesFrom_iff_chain`). Base lists may form cycles:
on one of them a type derives from itself.
-/

namespace ScriptExport

namespace TypeIndex

/-- The type called `derived` names the type called `base` in its base list, whatever the access. -/
def Parent (index : TypeIndex) (derived base : String) : Prop :=
  ∃ e, index.find? derived = some e ∧ base ∈ index.parents e

/-- One type has another among its bases, directly or further up. -/
def Derives (index : TypeIndex) : String → String → Prop :=
  Relation.TransGen index.Parent

variable {index : TypeIndex} {base : String} {seen pending : List String}

/-- What the search finds is a base of something that was pending. -/
theorem derives_of_reaches (h : index.reaches base seen pending = true) :
    ∃ name ∈ pending, index.Derives name base := by
  fun_induction reaches index base seen pending with
  | case1 => cases h
  | case2 seen name pending hseen ih =>
    obtain ⟨other, hother, hderives⟩ := ih h
    exact ⟨other, List.mem_cons_of_mem name hother, hderives⟩
  | case3 seen name pending hseen hfind ih =>
    obtain ⟨other, hother, hderives⟩ := ih h
    exact ⟨other, List.mem_cons_of_mem name hother, hderives⟩
  | case4 seen name pending hseen e hfind above habove =>
    exact ⟨name, List.mem_cons_self, .single ⟨e, hfind, habove⟩⟩
  | case5 seen name pending hseen e hfind above habove ih =>
    obtain ⟨other, hother, hderives⟩ := ih h
    rcases List.mem_append.mp hother with hother | hother
    · exact ⟨name, List.mem_cons_self, .head ⟨e, hfind, hother⟩ hderives⟩
    · exact ⟨other, List.mem_cons_of_mem name hother, hderives⟩

/-- The search has looked at the parents of what it has seen: none is the base that is sought, and each
was seen, is pending or is no type. -/
def Explored (index : TypeIndex) (base : String) (seen pending : List String) : Prop :=
  ∀ name ∈ seen, ∀ parent, index.Parent name parent →
    parent ≠ base ∧ (parent ∈ seen ∨ parent ∈ pending ∨ index.find? parent = none)

/-- A pending name that needs no search of its own can be dropped. -/
theorem Explored.drop {name : String} (h : index.Explored base seen (name :: pending))
    (hname : name ∈ seen ∨ index.find? name = none) : index.Explored base seen pending := by
  intro other hother parent hparent
  obtain ⟨hne, hknown⟩ := h other hother parent hparent
  refine ⟨hne, ?_⟩
  rcases hknown with hseen | hpending | hnone
  · exact .inl hseen
  · rcases List.mem_cons.mp hpending with rfl | hpending
    · exact hname.imp id .inr
    · exact .inr (.inl hpending)
  · exact .inr (.inr hnone)

/-- A name moves to what was seen when its parents become pending. -/
theorem Explored.visit {name : String} {e : TypeEntry}
    (h : index.Explored base seen (name :: pending)) (hfind : index.find? name = some e)
    (hbase : base ∉ index.parents e) :
    index.Explored base (name :: seen) (index.parents e ++ pending) := by
  intro other hother parent hparent
  rcases List.mem_cons.mp hother with rfl | hother
  · obtain ⟨e', hfind', hmem⟩ := hparent
    obtain rfl : e = e' := Option.some.inj (hfind.symm.trans hfind')
    exact ⟨fun heq => hbase (heq ▸ hmem), .inr (.inl (List.mem_append_left _ hmem))⟩
  · obtain ⟨hne, hknown⟩ := h other hother parent hparent
    refine ⟨hne, ?_⟩
    rcases hknown with hseen | hpending | hnone
    · exact .inl (List.mem_cons_of_mem name hseen)
    · rcases List.mem_cons.mp hpending with rfl | hpending
      · exact .inl List.mem_cons_self
      · exact .inr (.inl (List.mem_append_right _ hpending))
    · exact .inr (.inr hnone)

theorem not_derives_of_find?_eq_none {name : String} (h : index.find? name = none) :
    ¬ index.Derives name base := by
  intro hderives
  obtain ⟨parent, ⟨e, hfind, -⟩, -⟩ := Relation.TransGen.head'_iff.mp hderives
  cases h.symm.trans hfind

/-- When nothing is pending, what was seen does not derive from the base. -/
theorem Explored.not_derives (h : index.Explored base seen []) {name : String} (hname : name ∈ seen) :
    ¬ index.Derives name base := by
  intro hderives
  induction hderives using Relation.TransGen.head_induction_on with
  | single hparent => exact (h _ hname _ hparent).1 rfl
  | head hparent hderives ih =>
    rcases (h _ hname _ hparent).2 with hseen | hpending | hnone
    · exact ih hseen
    · cases hpending
    · exact not_derives_of_find?_eq_none hnone hderives

/-- A search that ends without finding the base has seen everything that could lead to it. -/
theorem not_derives_of_reaches (h : index.reaches base seen pending = false)
    (hexplored : index.Explored base seen pending) :
    ∀ name, name ∈ seen ∨ name ∈ pending → ¬ index.Derives name base := by
  fun_induction reaches index base seen pending with
  | case1 =>
    rintro name (hname | hname)
    · exact hexplored.not_derives hname
    · cases hname
  | case2 seen name pending hseen ih =>
    have hrest := ih h (hexplored.drop (.inl hseen))
    rintro other (hother | hother)
    · exact hrest other (.inl hother)
    · rcases List.mem_cons.mp hother with rfl | hother
      · exact hrest other (.inl hseen)
      · exact hrest other (.inr hother)
  | case3 seen name pending hseen hfind ih =>
    have hrest := ih h (hexplored.drop (.inr hfind))
    rintro other (hother | hother)
    · exact hrest other (.inl hother)
    · rcases List.mem_cons.mp hother with rfl | hother
      · exact not_derives_of_find?_eq_none hfind
      · exact hrest other (.inr hother)
  | case4 => cases h
  | case5 seen name pending hseen e hfind above habove ih =>
    have hname : e.qualifiedName = name := qualifiedName_of_find? hfind
    rw [hname] at ih h
    have hrest := ih h (hexplored.visit hfind habove)
    rintro other (hother | hother)
    · exact hrest other (.inl (List.mem_cons_of_mem name hother))
    · rcases List.mem_cons.mp hother with rfl | hother
      · exact hrest other (.inl List.mem_cons_self)
      · exact hrest other (.inr (List.mem_append_right _ hother))

/-- The search decides derivation. -/
theorem derivesFrom_iff {derived : String} :
    index.derivesFrom derived base = true ↔ index.Derives derived base := by
  constructor
  · intro h
    obtain ⟨name, hname, hderives⟩ := derives_of_reaches h
    rw [← List.mem_singleton.mp hname]
    exact hderives
  · intro hderives
    by_contra hfalse
    have hexplored : index.Explored base [] [derived] := by
      intro name hname
      cases hname
    rw [Bool.not_eq_true] at hfalse
    exact not_derives_of_reaches hfalse hexplored derived (.inr List.mem_cons_self) hderives

/-! ## Chains of base specifiers -/

/-- A base specifier of the type called `derived` names the type called `base`, looked up in the scope of
the former. -/
def Link (index : TypeIndex) (derived : String) (spec : Base) (base : String) : Prop :=
  ∃ e parent, index.find? derived = some e ∧ spec ∈ e.decl.bases ∧
    index.lookup? spec.name e.scope = some parent ∧ parent.qualifiedName = base

/-- Base specifiers that lead from one type to another. -/
inductive Chain (index : TypeIndex) : String → List Base → String → Prop where
  | refl (name : String) : Chain index name [] name
  | cons {derived middle base : String} {spec : Base} {specs : List Base}
      (first : index.Link derived spec middle) (rest : Chain index middle specs base) :
      Chain index derived (spec :: specs) base

theorem parent_iff_link {derived : String} :
    index.Parent derived base ↔ ∃ spec, index.Link derived spec base := by
  constructor
  · rintro ⟨e, hfind, hmem⟩
    obtain ⟨spec, hspec, hlookup⟩ := List.mem_filterMap.mp hmem
    obtain ⟨parent, hparent, rfl⟩ := Option.map_eq_some_iff.mp hlookup
    exact ⟨spec, e, parent, hfind, hspec, hparent, rfl⟩
  · rintro ⟨spec, e, parent, hfind, hspec, hparent, rfl⟩
    refine ⟨e, hfind, List.mem_filterMap.mpr ⟨spec, hspec, ?_⟩⟩
    rw [hparent, Option.map_some]

/-- A type derives from another through a chain of public bases. -/
theorem derives_iff_chain {derived : String} :
    index.Derives derived base ↔ ∃ specs, specs ≠ [] ∧ index.Chain derived specs base := by
  constructor
  · intro h
    induction h using Relation.TransGen.head_induction_on with
    | single hparent =>
      obtain ⟨spec, hlink⟩ := parent_iff_link.mp hparent
      exact ⟨[spec], List.cons_ne_nil spec [], .cons hlink (.refl base)⟩
    | head hparent _ ih =>
      obtain ⟨spec, hlink⟩ := parent_iff_link.mp hparent
      obtain ⟨specs, -, hchain⟩ := ih
      exact ⟨spec :: specs, List.cons_ne_nil spec specs, .cons hlink hchain⟩
  · rintro ⟨specs, hne, hchain⟩
    induction hchain with
    | refl name => exact absurd rfl hne
    | @cons derived middle base spec specs hlink hrest ih =>
      have hparent : index.Parent derived middle := parent_iff_link.mpr ⟨spec, hlink⟩
      cases hrest with
      | refl => exact .single hparent
      | cons hnext hrest => exact .head hparent (ih (List.cons_ne_nil _ _))

/-- **Derivation is decided.** For any two names in any index, the search answers yes exactly if one or
more base specifiers, whatever their access, lead from the first type to the second. -/
theorem derivesFrom_iff_chain (index : TypeIndex) (derived base : String) :
    index.derivesFrom derived base = true ↔ ∃ specs, specs ≠ [] ∧ index.Chain derived specs base :=
  derivesFrom_iff.trans derives_iff_chain

end TypeIndex

end ScriptExport
