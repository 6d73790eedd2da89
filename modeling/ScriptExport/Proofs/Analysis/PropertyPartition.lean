import ScriptExport.Analysis.Member
import ScriptExport.Proofs.Analysis.PropertySteps

/-!
# The properties of a member list

At every point of planning the plan is explained by a list of properties with the places of their
accessors (`PropertyPlan.Explains`), and every look keeps it so (`Explains.takes`). At the end the
properties and their accessors partition the members (`properties_partition_members`), and a property
has the directive of the first of its accessors that asks for one (`access_of_first_asking`).
-/

namespace ScriptExport

namespace Analysis

namespace PropertyPlan

/-! ## All looks -/

/-- The accessor at place `k` asks for a property whose name an earlier property has. -/
def Repeats (members : List Member) (planned : List PlannedProperty) (k : Nat) : Prop :=
  ∃ m h c a, AccessorAt members k m h c a ∧ m.propertyDirective?.isSome = true ∧
    ∃ f ∈ planned, f.place < k ∧ f.spec.name = a.logicalName

/-- After a look at the first `n` members the plan has these properties, the latest one first. -/
structure Explains (members : List Member) (n : Nat) (planned : List PlannedProperty)
    (p : PropertyPlan) : Prop where
  length : p.slots.length = members.length
  property : ∀ k spec, p.slots[k]? = some (.property spec) ↔
    ∃ f ∈ planned, f.place = k ∧ f.spec = spec
  other : ∀ f ∈ planned, ∀ k ∈ f.accessors, k ≠ f.place → p.slots[k]? = some .absorbed
  absorbed : ∀ k, p.slots[k]? = some .absorbed →
    (∃ f ∈ planned, k ∈ f.accessors) ∨ Repeats members planned k
  made : ∀ f ∈ planned, f.MadeOf members
  early : ∀ f ∈ planned, f.starter < n
  /-- No accessor asked for the property before the one that started it. -/
  first : ∀ f ∈ planned, ∀ k ∈ f.accessors,
    (members[k]?.bind (·.propertyDirective?)).isSome = true → f.starter ≤ k
  apart : planned.Pairwise fun f g => f.spec.name ≠ g.spec.name ∧ ∀ k ∈ f.accessors, k ∉ g.accessors
  formed : p.formed = planned.map (·.spec.name)
  unpaired : ∀ k ∈ p.unpaired, ∃ m h c a, AccessorAt members k m h c a ∧ a.logicalName ∈ p.formed
  /-- Whatever was asked for has its name taken. -/
  seen : ∀ k < n, ∀ m h c a, AccessorAt members k m h c a → m.propertyDirective?.isSome = true →
    a.logicalName ∈ p.formed

namespace Explains

variable {members : List Member} {n : Nat} {planned : List PlannedProperty} {p q : PropertyPlan}
  {m : Member} {h : Header} {c : Callable} {a : Accessor}

/-- At the start there is nothing to explain. -/
theorem initial (members : List Member) : Explains members 0 [] (.initial members) where
  length := List.length_map _
  property := by
    intro k spec
    simp [slots_initial_ne members k]
  other := by simp
  absorbed := fun k hk => (slots_initial_ne members k (by simp) hk).elim
  made := by simp
  early := by simp
  first := by simp
  apart := .nil
  formed := rfl
  unpaired := by simp [PropertyPlan.initial]
  seen := by simp

theorem slot_of_mem (hp : Explains members n planned p) {f : PlannedProperty} (hf : f ∈ planned)
    {k : Nat} (hk : k ∈ f.accessors) : p.slots[k]? ≠ some .member := by
  intro hslot
  by_cases hplace : k = f.place
  · have hproperty := (hp.property k f.spec).mpr ⟨f, hf, hplace.symm, rfl⟩
    rw [hslot] at hproperty
    cases hproperty
  · rw [hp.other f hf k hk hplace] at hslot
    cases hslot

/-- No member is an accessor of two properties. -/
theorem eq_of_mem_accessors (hp : Explains members n planned p) {f g : PlannedProperty}
    (hf : f ∈ planned) (hg : g ∈ planned) {k : Nat} (hkf : k ∈ f.accessors) (hkg : k ∈ g.accessors) :
    f = g := by
  obtain ⟨i, hi, rfl⟩ := List.getElem_of_mem hf
  obtain ⟨j, hj, rfl⟩ := List.getElem_of_mem hg
  have hapart := List.pairwise_iff_getElem.mp hp.apart
  rcases Nat.lt_trichotomy i j with hlt | rfl | hlt
  · exact ((hapart i j hi hj hlt).2 k hkf hkg).elim
  · rfl
  · exact ((hapart j i hj hi hlt).2 k hkg hkf).elim

/-- An accessor that is no member of its own any more has the name of some property. -/
theorem name_mem_formed (hp : Explains members n planned p) {k : Nat}
    (hat : AccessorAt members k m h c a) (hslot : p.slots[k]? ≠ some .member) :
    a.logicalName ∈ p.formed := by
  rw [hp.formed]
  have hpart : ∀ f ∈ planned, k ∈ f.accessors → a.logicalName ∈ planned.map (·.spec.name) := by
    intro f hf hk
    obtain ⟨m', h', c', a', hat', hname⟩ := (hp.made f hf).accessorAt hk
    obtain ⟨-, rfl⟩ := hat.unique hat'
    exact List.mem_map.mpr ⟨f, hf, hname.symm⟩
  have hk : k < p.slots.length := hp.length ▸ (List.getElem?_eq_some_iff.mp hat.place).1
  cases hs : p.slots[k] with
  | member => exact (hslot (by rw [List.getElem?_eq_getElem hk, hs])).elim
  | absorbed =>
    rcases hp.absorbed k (by rw [List.getElem?_eq_getElem hk, hs]) with ⟨f, hf, hk⟩ | hrepeats
    · exact hpart f hf hk
    · obtain ⟨m', h', c', a', hat', -, f, hf, -, hname⟩ := hrepeats
      obtain ⟨-, rfl⟩ := hat.unique hat'
      exact List.mem_map.mpr ⟨f, hf, hname⟩
  | property spec =>
    obtain ⟨f, hf, rfl, -⟩ := (hp.property k spec).mp (by rw [List.getElem?_eq_getElem hk, hs])
    exact hpart f hf (hp.made f hf).place.1

/-- One look more, if the name that the member at place `n` asks for is taken after it. -/
theorem seen_succ (hp : Explains members n planned p) (hformed : p.formed ⊆ q.formed)
    (hlast : ∀ m h c a, AccessorAt members n m h c a → m.propertyDirective?.isSome = true →
      a.logicalName ∈ q.formed) :
    ∀ k < n + 1, ∀ m h c a, AccessorAt members k m h c a → m.propertyDirective?.isSome = true →
      a.logicalName ∈ q.formed := by
  intro k hk m h c a hat hasks
  rcases Nat.lt_succ_iff_lt_or_eq.mp hk with hk | rfl
  · exact hformed (hp.seen k hk m h c a hat hasks)
  · exact hlast m h c a hat hasks

/-- A look that changes nothing leaves nothing unexplained. -/
theorem pass (hp : Explains members n planned p) (hslots : q.slots = p.slots)
    (hformed : q.formed = p.formed) (hunpaired : q.unpaired = p.unpaired)
    (hpassed : ∀ m h c a, AccessorAt members n m h c a → m.propertyDirective?.isSome = true →
      p.slots[n]? ≠ some .member ∨ n ∈ p.unpaired) : Explains members (n + 1) planned q where
  length := hslots ▸ hp.length
  property := hslots ▸ hp.property
  other := hslots ▸ hp.other
  absorbed := hslots ▸ hp.absorbed
  made := hp.made
  early := fun f hf => Nat.lt_succ_of_lt (hp.early f hf)
  first := hp.first
  apart := hp.apart
  formed := hformed ▸ hp.formed
  unpaired := by
    rw [hunpaired, hformed]
    exact hp.unpaired
  seen := by
    refine hp.seen_succ (fun l hl => hformed ▸ hl) fun m h c a hat hasks => ?_
    rw [hformed]
    rcases hpassed m h c a hat hasks with hslot | hrefused
    · exact hp.name_mem_formed hat hslot
    · obtain ⟨m', h', c', a', hat', hname⟩ := hp.unpaired n hrefused
      obtain ⟨-, rfl⟩ := hat.unique hat'
      exact hname

/-- A request for a name that is taken absorbs its member. -/
theorem repeats (hp : Explains members n planned p) (hat : AccessorAt members n m h c a)
    (hasks : m.propertyDirective?.isSome = true) (hfree : p.slots[n]? = some .member)
    (htaken : a.logicalName ∈ p.formed) (hslots : q.slots = p.slots.set n .absorbed)
    (hformed : q.formed = p.formed) (hunpaired : q.unpaired = p.unpaired) :
    Explains members (n + 1) planned q := by
  have hn : n < p.slots.length := (List.getElem?_eq_some_iff.mp hfree).1
  have hslot : ∀ k, q.slots[k]? = if n = k then some .absorbed else p.slots[k]? := by
    intro k
    rw [hslots, List.getElem?_set, if_pos hn]
  refine
    { made := hp.made
      first := hp.first
      apart := hp.apart
      formed := hformed ▸ hp.formed
      length := by rw [hslots, List.length_set, hp.length]
      early := fun f hf => Nat.lt_succ_of_lt (hp.early f hf)
      property := ?_
      other := ?_
      absorbed := ?_
      unpaired := ?_
      seen := ?_ }
  · intro k spec
    rw [← hp.property, hslot]
    split
    · next hk => simp [← hk, hfree]
    · rfl
  · intro f hf k hk hne
    rw [hslot]
    split
    · rfl
    · exact hp.other f hf k hk hne
  · intro k hk
    rw [hslot] at hk
    split at hk
    · next hnk =>
      subst hnk
      rw [hp.formed] at htaken
      obtain ⟨f, hf, hname⟩ := List.mem_map.mp htaken
      have hplace := (hp.made f hf).place.2 f.starter (hp.made f hf).starter
      exact .inr ⟨m, h, c, a, hat, hasks, f, hf, Nat.lt_of_le_of_lt hplace (hp.early f hf), hname⟩
    · exact hp.absorbed k hk
  · rw [hunpaired, hformed]
    exact hp.unpaired
  · refine hp.seen_succ (fun l hl => hformed ▸ hl) fun m' h' c' a' hat' _ => ?_
    obtain ⟨-, rfl⟩ := hat.unique hat'
    exact hformed ▸ htaken

/-- A new property joins the planned ones. -/
theorem forms (hp : Explains members n planned p) {f : PlannedProperty} (hmade : f.MadeOf members)
    (hstarter : f.starter = n) (hfree : ∀ k ∈ f.accessors, p.slots[k]? = some .member)
    (hfresh : f.spec.name ∉ p.formed) (hslots : f.PutInto p.slots q.slots)
    (hformed : q.formed = f.spec.name :: p.formed)
    (hunpaired : ∀ k ∈ q.unpaired, k ∈ p.unpaired ∨
      ∃ m h c a, AccessorAt members k m h c a ∧ a.logicalName = f.spec.name) :
    Explains members (n + 1) (f :: planned) q := by
  -- the accessors were free, so no earlier property has one of them
  have hdisjoint : ∀ g ∈ planned, ∀ k ∈ g.accessors, k ∉ f.accessors :=
    fun g hg k hk hk' => hp.slot_of_mem hg hk (hfree k hk')
  have hold : ∀ k, k ∉ f.accessors → q.slots[k]? = p.slots[k]? := by
    intro k hk
    have hplace : k ≠ f.place := fun hplace => hk (hplace ▸ hmade.place.1)
    rw [hslots.getElem?, if_neg hplace, if_neg hk]
  have hsubset : p.formed ⊆ q.formed := fun l hl => hformed ▸ List.mem_cons_of_mem _ hl
  refine
    { length := hslots.length.trans hp.length
      property := ?_
      other := ?_
      absorbed := ?_
      made := List.forall_mem_cons.mpr ⟨hmade, hp.made⟩
      early := List.forall_mem_cons.mpr
        ⟨hstarter ▸ Nat.lt_succ_self _, fun g hg => Nat.lt_succ_of_lt (hp.early g hg)⟩
      first := List.forall_mem_cons.mpr ⟨?_, hp.first⟩
      apart := List.pairwise_cons.mpr ⟨?_, hp.apart⟩
      formed := by rw [hformed, hp.formed, List.map_cons]
      unpaired := ?_
      seen := ?_ }
  · intro k spec
    by_cases hk : k ∈ f.accessors
    · have hnone : ¬ ∃ g ∈ planned, g.place = k ∧ g.spec = spec := by
        rintro ⟨g, hg, rfl, -⟩
        exact hdisjoint g hg _ (hp.made g hg).place.1 hk
      rw [hslots.getElem?]
      by_cases hplace : k = f.place
      · simp [hplace, hplace ▸ hnone]
      · simp [hk, hplace, hnone, Ne.symm hplace]
    · rw [hold k hk, hp.property]
      have hplace : f.place ≠ k := fun hplace => hk (hplace ▸ hmade.place.1)
      simp [hplace]
  · refine List.forall_mem_cons.mpr ⟨?_, ?_⟩
    · intro k hk hplace
      rw [hslots.getElem?, if_neg hplace, if_pos hk]
    · intro g hg k hk hplace
      rw [hold k (hdisjoint g hg k hk)]
      exact hp.other g hg k hk hplace
  · intro k hk
    by_cases hmem : k ∈ f.accessors
    · exact .inl ⟨f, List.mem_cons_self, hmem⟩
    · rw [hold k hmem] at hk
      rcases hp.absorbed k hk with ⟨g, hg, hk⟩ | ⟨m, h, c, a, hat, hasks, g, hg, hplace, hname⟩
      · exact .inl ⟨g, List.mem_cons_of_mem f hg, hk⟩
      · exact .inr ⟨m, h, c, a, hat, hasks, g, List.mem_cons_of_mem f hg, hplace, hname⟩
  · -- an accessor before the starter that asked for a property would have taken the name
    intro k hk hasks
    refine Nat.le_of_not_lt fun hlt => ?_
    rw [hstarter] at hlt
    obtain ⟨m, h, c, a, hat, hname⟩ := hmade.accessorAt hk
    rw [hat.place, Option.bind_some] at hasks
    exact hfresh (hname ▸ hp.seen k hlt m h c a hat hasks)
  · intro g hg
    refine ⟨fun hname => hfresh ?_, fun k hk hk' => hdisjoint g hg k hk' hk⟩
    rw [hp.formed, hname]
    exact List.mem_map.mpr ⟨g, hg, rfl⟩
  · intro k hk
    rcases hunpaired k hk with hk | ⟨m, h, c, a, hat, hname⟩
    · obtain ⟨m, h, c, a, hat, hname⟩ := hp.unpaired k hk
      exact ⟨m, h, c, a, hat, hsubset hname⟩
    · exact ⟨m, h, c, a, hat, by rw [hformed, hname]; exact List.mem_cons_self⟩
  · refine hp.seen_succ hsubset fun m h c a hat _ => ?_
    obtain ⟨m', h', c', a', hat', hname⟩ := hmade.accessorAt (hstarter ▸ hmade.starter)
    obtain ⟨-, rfl⟩ := hat.unique hat'
    rw [hformed, hname]
    exact List.mem_cons_self

/-- A look keeps the plan explained. -/
theorem takes (hp : Explains members n planned p) (hq : p.Takes members n q) :
    ∃ planned', Explains members (n + 1) planned' q := by
  cases hq with
  | pass hslots hformed hunpaired hpassed => exact ⟨_, hp.pass hslots hformed hunpaired hpassed⟩
  | repeats hat hasks hfree htaken hslots hformed hunpaired =>
    exact ⟨_, hp.repeats hat hasks hfree htaken hslots hformed hunpaired⟩
  | forms f hmade hstarter hfree hfresh hslots hformed hunpaired =>
    exact ⟨_, hp.forms hmade hstarter hfree hfresh hslots hformed hunpaired⟩

end Explains

end PropertyPlan

/-- What holds before the first look and is kept by every look holds of the finished plan. -/
theorem planProperties_induction {motive : Nat → PropertyPlan → Prop} (owner : String)
    (members : List Member) (start : motive 0 (.initial members))
    (look : ∀ i m p, members[i]? = some m → motive i p → motive (i + 1) (p.take owner members m i)) :
    motive members.length (planProperties owner members) := by
  have hfold : ∀ (rest done : List Member) (p : PropertyPlan), members = done ++ rest →
      motive done.length p → motive members.length
        ((rest.zipIdx done.length).foldl (fun p x => p.take owner members x.1 x.2) p) := by
    intro rest
    induction rest with
    | nil =>
      intro done p hmembers hp
      rw [hmembers, List.append_nil]
      exact hp
    | cons m rest ih =>
      intro done p hmembers hp
      have hm : members[done.length]? = some m := by
        rw [hmembers, List.getElem?_append_right (Nat.le_refl _), Nat.sub_self]
        rfl
      have hrest := ih (done ++ [m]) (p.take owner members m done.length)
        (by rw [hmembers, List.append_assoc, List.singleton_append])
        (by rw [List.length_append]; exact look _ m p hm hp)
      rw [List.length_append] at hrest
      exact hrest
  exact hfold members [] _ rfl start

/-- Every plan is explained. -/
theorem explains_planProperties (owner : String) (members : List Member) :
    ∃ planned, PropertyPlan.Explains members members.length planned
      (planProperties owner members) := by
  refine planProperties_induction
    (motive := fun n p => ∃ planned, PropertyPlan.Explains members n planned p) owner members
    ⟨[], .initial members⟩ ?_
  rintro n m p hm ⟨planned, hp⟩
  exact hp.takes (PropertyPlan.takes_take hp.length hm owner)

/-! ## The partition -/

namespace PlannedProperty

variable {members : List Member} {f : PlannedProperty}

theorem MadeOf.isSome_eq (hf : f.MadeOf members) :
    f.spec.getter.isSome = f.getter.isSome ∧ f.spec.setter.isSome = f.setter.isSome := by
  have hisSome : ∀ {α β : Type} {R : α → β → Prop} {x : Option α} {y : Option β},
      Option.Rel R x y → y.isSome = x.isSome := by
    intro α β R x y hrel
    cases hrel <;> rfl
  exact ⟨hisSome hf.getter, hisSome hf.setter⟩

/-- A getter and its setter are methods of the same staticness that agree on the type. -/
theorem MadeOf.pair (hf : f.MadeOf members) {g s : Nat} (hg : f.getter = some g)
    (hs : f.setter = some s) :
    ∃ mg hg cg ag ms hs cs as, AccessorAt members g mg hg cg ag ∧ ag.role = .getter ∧
      AccessorAt members s ms hs cs as ∧ as.role = .setter ∧ cg.isStatic = cs.isStatic ∧
      (accessorType cg).canonical.text = (accessorType cs).canonical.text := by
  obtain ⟨x, hx, mg, headg, cg, ag, hatg, hroleg, -, hstaticg, rfl⟩ :=
    exists_of_rel_some (hg ▸ hf.getter)
  obtain ⟨y, hy, ms, heads, cs, as, hats, hroles, -, hstatics, rfl⟩ :=
    exists_of_rel_some (hs ▸ hf.setter)
  exact ⟨mg, headg, cg, ag, ms, heads, cs, as, hatg, hroleg, hats, hroles,
    hstaticg.trans hstatics.symm, hf.agree _ hx _ hy⟩

/-- Without an access of the directive the accessors decide. -/
theorem MadeOf.access_iff (hf : f.MadeOf members) (haccess : f.spec.directive.access? = none) :
    (f.spec.access = .readWrite ↔ f.getter.isSome = true ∧ f.setter.isSome = true) ∧
      (f.spec.access = .readOnly ↔ f.getter.isSome = true ∧ f.setter = none) ∧
      (f.spec.access = .writeOnly ↔ f.getter = none ∧ f.setter.isSome = true) := by
  obtain ⟨hgetter, hsetter⟩ := hf.isSome_eq
  rw [hf.access, haccess, hgetter, hsetter, Option.getD_none]
  have hstarter := mem_accessors.mp hf.starter
  cases hg : f.getter <;> cases hs : f.setter <;> simp_all [accessorAccess]

end PlannedProperty

/-- **Properties partition the members.** Planning gives every member one slot, and the property slots
are those of a list of properties with the places of their accessors. Their names are different, no
member is an accessor of two of them, and each stands at the place of its first accessor. The other
accessor is absorbed; whatever else is absorbed asks for a property whose name an earlier one has, and
every further member stays one of its own. What an accessor asks for is planned: the name of its
property is taken. A getter and its setter have one type and one staticness, and unless the accessor that
started the property states an access, the access is what the accessors allow. -/
theorem properties_partition_members (owner : String) (members : List Member) :
    let slots := (planProperties owner members).slots
    slots.length = members.length ∧ ∃ planned : List PlannedProperty,
      (∀ k spec, slots[k]? = some (.property spec) ↔ ∃ f ∈ planned, f.place = k ∧ f.spec = spec) ∧
      (∀ f ∈ planned, f.MadeOf members) ∧
      (planned.Pairwise fun f g =>
        f.spec.name ≠ g.spec.name ∧ ∀ k ∈ f.accessors, k ∉ g.accessors) ∧
      (∀ f ∈ planned, ∀ k ∈ f.accessors, k ≠ f.place → slots[k]? = some .absorbed) ∧
      (∀ k, slots[k]? = some .absorbed →
        (∃ f ∈ planned, k ∈ f.accessors ∧ k ≠ f.place ∧ ∀ g ∈ planned, k ∈ g.accessors → g = f) ∨
          PropertyPlan.Repeats members planned k) ∧
      (∀ k < members.length, (∀ f ∈ planned, k ∉ f.accessors) →
        ¬ PropertyPlan.Repeats members planned k → slots[k]? = some .member) ∧
      (∀ k m h c a, AccessorAt members k m h c a → m.propertyDirective?.isSome = true →
        ∃ f ∈ planned, f.spec.name = a.logicalName) ∧
      (∀ f ∈ planned, ∀ g s, f.getter = some g → f.setter = some s →
        ∃ mg hg cg ag ms hs cs as, AccessorAt members g mg hg cg ag ∧ ag.role = .getter ∧
          AccessorAt members s ms hs cs as ∧ as.role = .setter ∧ cg.isStatic = cs.isStatic ∧
          (accessorType cg).canonical.text = (accessorType cs).canonical.text) ∧
      ∀ f ∈ planned, f.spec.directive.access? = none →
        (f.spec.access = .readWrite ↔ f.getter.isSome = true ∧ f.setter.isSome = true) ∧
        (f.spec.access = .readOnly ↔ f.getter.isSome = true ∧ f.setter = none) ∧
        (f.spec.access = .writeOnly ↔ f.getter = none ∧ f.setter.isSome = true) := by
  intro slots
  obtain ⟨planned, hplan⟩ := explains_planProperties owner members
  refine ⟨hplan.length, planned, hplan.property, hplan.made, hplan.apart, hplan.other, ?_, ?_, ?_,
    fun f hf g s hg hs => (hplan.made f hf).pair hg hs,
    fun f hf haccess => (hplan.made f hf).access_iff haccess⟩
  · intro k hk
    refine (hplan.absorbed k hk).imp_left ?_
    rintro ⟨f, hf, hkf⟩
    refine ⟨f, hf, hkf, ?_, fun g hg hkg => hplan.eq_of_mem_accessors hg hf hkg hkf⟩
    rintro rfl
    have hproperty := (hplan.property f.place f.spec).mpr ⟨f, hf, rfl, rfl⟩
    cases hk.symm.trans hproperty
  · intro k hk hnone hrepeats
    have hlt : k < slots.length := hplan.length.symm ▸ hk
    rw [List.getElem?_eq_getElem hlt]
    cases hslot : slots[k] with
    | member => rfl
    | absorbed =>
      rcases hplan.absorbed k ((List.getElem?_eq_getElem hlt).trans (congrArg some hslot)) with
        ⟨f, hf, hkf⟩ | hrepeated
      · exact (hnone f hf hkf).elim
      · exact (hrepeats hrepeated).elim
    | property spec =>
      obtain ⟨f, hf, rfl, -⟩ :=
        (hplan.property k spec).mp ((List.getElem?_eq_getElem hlt).trans (congrArg some hslot))
      exact (hnone f hf (hplan.made f hf).place.1).elim
  · intro k m h c a hat hasks
    have hk : k < members.length := (List.getElem?_eq_some_iff.mp hat.place).1
    have hformed := hplan.seen k hk m h c a hat hasks
    rw [hplan.formed] at hformed
    exact List.mem_map.mp hformed

/-! ## The access of a property -/

theorem PlannedProperty.MadeOf.directive_eq {members : List Member} {f : PlannedProperty}
    (hf : f.MadeOf members) {m : Member} (hm : members[f.starter]? = some m) {a : Directive}
    (ha : m.propertyDirective? = some a) : f.spec.directive = a := by
  have hdirective := hf.directive
  rw [hm, Option.bind_some, ha] at hdirective
  exact (Option.some.inj hdirective).symm

theorem isWritable_of_setter_propertyRecord {ctx : Context} {spec : PropertySpec}
    (hsetter : (ctx.propertyRecord spec).setter.isSome = true) : spec.access.isWritable = true := by
  unfold Context.propertyRecord at hsetter
  dsimp only at hsetter
  split at hsetter
  · next hwritable => exact hwritable
  · cases hsetter

/-- **Which access counts.** A property has the directive of the first of its accessors that asks for one.
So an access that the directive of a getter states is that of the record, and a setter is shown only if
that access lets scripts write, unless the setter asks for the property before the getter does: then the
directive of the setter counts, and what the getter states is passed over. -/
theorem access_of_first_asking (ctx : Context) (owner : String) (members : List Member) :
    ∃ planned : List PlannedProperty,
      (∀ k spec, (planProperties owner members).slots[k]? = some (.property spec) ↔
        ∃ f ∈ planned, f.place = k ∧ f.spec = spec) ∧
      ∀ f ∈ planned, f.MadeOf members ∧
        ∀ g m a mode, f.getter = some g → members[g]? = some m → m.propertyDirective? = some a →
          a.access? = some mode →
          let r := ctx.propertyRecord f.spec
          ((∀ s m', f.setter = some s → members[s]? = some m' →
              m'.propertyDirective?.isSome = true → g < s) →
            r.access = mode ∧ (r.setter.isSome = true → mode.isWritable = true)) ∧
          ∀ s m' a', f.setter = some s → members[s]? = some m' → m'.propertyDirective? = some a' →
            s < g → r.access = a'.access?.getD .readWrite := by
  obtain ⟨planned, hplan⟩ := explains_planProperties owner members
  refine ⟨planned, hplan.property, fun f hf => ⟨hplan.made f hf, ?_⟩⟩
  intro g m a mode hg hm ha hmode r
  have hmade := hplan.made f hf
  have hstarter := PlannedProperty.mem_accessors.mp hmade.starter
  have hearliest : ∀ k m, k ∈ f.accessors → members[k]? = some m →
      m.propertyDirective?.isSome = true → f.starter ≤ k := by
    intro k m hk hm hasks
    exact hplan.first f hf k hk (by rw [hm]; exact hasks)
  refine ⟨fun hlater => ?_, fun s m' a' hs hm' ha' hlt => ?_⟩
  · -- the getter is the one that asked first
    have hself : f.starter = g := by
      rcases hstarter with hgetter | hsetter
      · exact Option.some.inj (hgetter.symm.trans hg)
      · have hle := hearliest g m (PlannedProperty.mem_accessors.mpr (.inl hg)) hm (by rw [ha]; rfl)
        obtain ⟨m', hm', ha'⟩ := Option.bind_eq_some_iff.mp hmade.directive
        have hgt := hlater f.starter m' hsetter hm' (by rw [ha']; rfl)
        omega
    have haccess : f.spec.access = mode := by
      rw [hmade.access, hmade.directive_eq (hself ▸ hm) ha, hmode, Option.getD_some]
    exact ⟨haccess, fun hsetter => haccess ▸ isWritable_of_setter_propertyRecord hsetter⟩
  · have hself : f.starter = s := by
      rcases hstarter with hgetter | hsetter
      · have hle := hearliest s m' (PlannedProperty.mem_accessors.mpr (.inr hs)) hm' (by rw [ha']; rfl)
        have hsame := Option.some.inj (hgetter.symm.trans hg)
        omega
      · exact Option.some.inj (hsetter.symm.trans hs)
    obtain ⟨hgetter, hsetter⟩ := hmade.isSome_eq
    change f.spec.access = _
    rw [hmade.access, hmade.directive_eq (hself ▸ hm') ha', hgetter, hsetter, hg, hs]
    rfl

/-- A getter that states an access, and its setter, which asks for the property as well. -/
def levelAccessors : List Decl :=
  [.method { name := "getLevel", annotations := ["lua_export_property,access=readonly"] }
      { returnType := .builtin "int" },
    .method { name := "setLevel", annotations := ["lua_export_property"] }
      { params := [{ type := .builtin "int" }] }]

/-- The getter comes first, so the property is read only. -/
theorem access_of_first_asking_getter :
    let members := levelAccessors.map (markMember "lua_export_")
    let ctx : Context := { filePath := "d.h", options := {}, index := {} }
    ∃ spec, (planProperties "D" members).slots[0]? = some (.property spec) ∧
      (ctx.propertyRecord spec).access = .readOnly ∧ (ctx.propertyRecord spec).setter = none := by
  intro members ctx
  obtain ⟨planned, hproperty, hplanned⟩ := access_of_first_asking ctx "D" members
  have hslot : ∃ spec, (planProperties "D" members).slots[0]? = some (.property spec) := ⟨_, by rfl⟩
  obtain ⟨spec, hslot⟩ := hslot
  obtain ⟨f, hf, hplace, rfl⟩ := (hproperty 0 spec).mp hslot
  obtain ⟨hmade, haccess⟩ := hplanned f hf
  -- the method at the first place is no setter
  have hsetter : f.setter ≠ some 0 := by
    intro hsetter
    obtain ⟨-, -, m, h, c, a, hat, hrole, -⟩ :=
      exists_of_rel_some (hsetter ▸ hmade.setter)
    have hgetter : AccessorAt members 0 _ _ _ ⟨.getter, "level", ["setLevel"]⟩ :=
      ⟨rfl, rfl, by rfl, by rfl⟩
    obtain ⟨-, rfl⟩ := hat.unique hgetter
    cases hrole
  have hgetter : f.getter = some 0 :=
    (PlannedProperty.mem_accessors.mp (hplace ▸ hmade.place.1)).resolve_right hsetter
  obtain ⟨hread, hwrite⟩ := (haccess 0 _ _ .readOnly hgetter rfl (by rfl) (by rfl)).1
    fun s m' hs _ _ => Nat.pos_of_ne_zero fun hzero => hsetter (hzero ▸ hs)
  refine ⟨f.spec, hslot, hread, ?_⟩
  cases hshown : (ctx.propertyRecord f.spec).setter with
  | none => rfl
  | some x => cases hwrite (by rw [hshown]; rfl)

/-- With the setter first scripts can write the property. -/
example : ∃ spec, (planProperties "D" (levelAccessors.reverse.map (markMember "lua_export_"))).slots[0]? =
    some (.property spec) ∧ spec.access = .readWrite :=
  ⟨_, by rfl, by rfl⟩

end Analysis

end ScriptExport
