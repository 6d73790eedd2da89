import ScriptExport.Naming

/-!
# Types and their parts

Statements about types are shown by induction over their parts (`parts_induction`). `TypeRef.plain` is a
type without qualifiers and references at any depth, and a type is read in the same way as its plain form
wherever something is read off it: its canonical text, whether it is `void`, its friendly name, and the
parts that make a container or a signature of it.
-/

namespace ScriptExport

namespace TypeRef

/-- The types that a type is put together from. -/
def parts : TypeRef → List TypeRef
  | const t | lvalueRef t | rvalueRef t | pointer t => [t]
  | template _ args => args
  | function ret params => ret :: params
  | builtin _ | named _ | unresolved _ => []

/-- A type is a part of another at some depth. -/
inductive PartOf : TypeRef → TypeRef → Prop where
  | refl (t : TypeRef) : PartOf t t
  | inside {s t u : TypeRef} (ht : t ∈ u.parts) (h : PartOf s t) : PartOf s u

/-- Induction over a type with all its parts. -/
@[elab_as_elim]
theorem parts_induction {motive : TypeRef → Prop}
    (step : ∀ t, (∀ part ∈ t.parts, motive part) → motive t) (t : TypeRef) : motive t := by
  refine @TypeRef.rec motive (fun ts => ∀ t ∈ ts, motive t) ?_ ?_ ?_ ?_ ?_ ?_ ?_ ?_ ?_ ?_ ?_ t
  case refine_1 | refine_2 | refine_9 => exact fun _ => step _ (by simp [parts])
  case refine_3 | refine_4 | refine_5 | refine_6 => exact fun _ ih => step _ (by simpa [parts] using ih)
  case refine_7 => exact fun _ args ih => step _ ih
  case refine_8 =>
    exact fun _ _ ihRet ihParams => step _ (List.forall_mem_cons.mpr ⟨ihRet, ihParams⟩)
  case refine_10 => exact List.forall_mem_nil _
  case refine_11 => exact fun _ _ ih ihs => List.forall_mem_cons.mpr ⟨ih, ihs⟩

end TypeRef

theorem ContainerKind.split_map {α β : Type} (f : α → β) (k : ContainerKind) (args : List α) :
    k.split (args.map f) = ((k.split args).1, (k.split args).2.map f) := by
  unfold split
  split
  · rw [List.length_map]
    split
    · rw [List.map_take]
    · rfl
  · rfl

theorem ContainerKind.split_subset {α : Type} (k : ContainerKind) (args : List α) :
    (k.split args).2 ⊆ args := by
  unfold split
  split
  · split
    · exact List.take_subset _ args
    · exact List.Subset.refl args
  · exact List.Subset.refl args

namespace TypeRef

/-! ## Qualifiers -/

mutual

/-- The type without qualifiers and references, at any depth. -/
def plain : TypeRef → TypeRef
  | const t => t.plain
  | lvalueRef t => t.plain
  | rvalueRef t => t.plain
  | pointer t => pointer t.plain
  | template name args => template name (plainList args)
  | function ret params => function ret.plain (plainList params)
  | t => t

/-- The plain forms of a list of types. -/
def plainList : List TypeRef → List TypeRef
  | [] => []
  | t :: ts => t.plain :: plainList ts

end

@[simp] theorem plainList_eq_map (ts : List TypeRef) : plainList ts = ts.map plain := by
  induction ts with
  | nil => rfl
  | cons t ts ih => simp [plainList, ih]

theorem map_map_plain {α : Type} {f : TypeRef → α} {ts : List TypeRef}
    (h : ∀ t ∈ ts, f t.plain = f t) : (ts.map plain).map f = ts.map f := by
  rw [List.map_map]
  exact List.map_congr_left h

theorem unqualified_plain (t : TypeRef) : t.plain.unqualified = t.plain := by
  induction t using parts_induction with
  | step t ih =>
    cases t with
    | const t | lvalueRef t | rvalueRef t => exact ih t List.mem_cons_self
    | _ => rfl

theorem parts_plain (t : TypeRef) : t.plain.parts = t.unqualified.parts.map plain := by
  induction t using parts_induction with
  | step t ih =>
    cases t with
    | const t | lvalueRef t | rvalueRef t => exact ih t List.mem_cons_self
    | template | function => simp [plain, unqualified, parts]
    | _ => rfl

/-- No part of a plain type has a qualifier. -/
theorem unqualified_of_partOf_plain {s t : TypeRef} (h : s.PartOf t.plain) : s.unqualified = s := by
  generalize hplain : t.plain = whole at h
  induction h generalizing t with
  | refl =>
    rw [← hplain]
    exact unqualified_plain t
  | inside hpart _ ih =>
    rw [← hplain, parts_plain] at hpart
    obtain ⟨part, -, heq⟩ := List.mem_map.mp hpart
    exact ih heq

/-- The canonical text shows no qualifiers. -/
theorem canonical_plain (t : TypeRef) : t.plain.canonical = t.canonical := by
  induction t using parts_induction with
  | step t ih =>
    cases t with
    | const t | lvalueRef t | rvalueRef t => exact ih t List.mem_cons_self
    | builtin | named | unresolved => rfl
    | pointer t => rw [plain, canonical, canonical, ih t List.mem_cons_self]
    | template name args =>
      have hargs : (args.map plain).map canonical = args.map canonical := map_map_plain ih
      simp only [plain, canonical, plainList_eq_map, canonicalList_eq_map, hargs]
    | function ret params =>
      obtain ⟨hret, hparams⟩ := List.forall_mem_cons.mp ih
      simp only [plain, canonical, plainList_eq_map, canonicalList_eq_map, hret, map_map_plain hparams]

theorem isVoid_plain (t : TypeRef) : t.plain.isVoid = t.isVoid := by
  induction t using parts_induction with
  | step t ih =>
    cases t with
    | const t | lvalueRef t | rvalueRef t => exact ih t List.mem_cons_self
    | _ => rfl

theorem container?_plain (rules : ContainerRules) (t : TypeRef) :
    t.plain.container? rules = (t.container? rules).map fun p => (p.1, p.2.map plain) := by
  induction t using parts_induction with
  | step t ih =>
    cases t with
    | const t | lvalueRef t | rvalueRef t => exact ih t List.mem_cons_self
    | template name args =>
      rw [plain, plainList_eq_map]
      exact congrArg some (ContainerKind.split_map plain _ args)
    | _ => rfl

theorem signature?_plain (t : TypeRef) :
    t.plain.signature? = t.signature?.map fun p => (p.1.plain, p.2.map plain) := by
  induction t using parts_induction with
  | step t ih =>
    cases t with
    | const t | lvalueRef t | rvalueRef t | pointer t => exact ih t List.mem_cons_self
    | function ret params =>
      rw [plain, plainList_eq_map]
      rfl
    | builtin | named | unresolved => rfl
    | template name args =>
      rw [plain, plainList_eq_map]
      match args with
      | [] => rfl
      | [t] =>
        rw [List.map_singleton, signature?, signature?]
        split
        · exact ih t List.mem_cons_self
        · rfl
      | t :: u :: ts => rfl

end TypeRef

theorem Naming.friendlyName_plain (rules : ContainerRules) (t : TypeRef) :
    friendlyName rules t.plain = friendlyName rules t := by
  induction t using TypeRef.parts_induction with
  | step t ih =>
    cases t with
    | const t | lvalueRef t | rvalueRef t => exact ih t List.mem_cons_self
    | builtin | named | unresolved => rfl
    | pointer t => rw [TypeRef.plain, friendlyName, friendlyName, ih t List.mem_cons_self]
    | template name args =>
      have hargs : (args.map TypeRef.plain).map (friendlyName rules) = args.map (friendlyName rules) :=
        TypeRef.map_map_plain ih
      simp only [TypeRef.plain, friendlyName, TypeRef.plainList_eq_map, friendlyNames_eq_map, hargs]
    | function ret params =>
      obtain ⟨hret, hparams⟩ := List.forall_mem_cons.mp ih
      simp only [TypeRef.plain, friendlyName, TypeRef.plainList_eq_map, friendlyNames_eq_map, hret,
        TypeRef.map_map_plain hparams]

/-- Whatever is read off the types is the same: the canonical text and whether it is resolved, whether
the type is `void`, its friendly name, and the texts and names of its parts as a container and as a
function. -/
structure TypeRef.SameReadings (rules : ContainerRules) (t u : TypeRef) : Prop where
  canonical : t.canonical = u.canonical
  isVoid : t.isVoid = u.isVoid
  friendlyName : Naming.friendlyName rules t = Naming.friendlyName rules u
  container :
    (t.container? rules).map (fun p =>
      (p.1, p.2.map (·.canonical), p.2.map (Naming.friendlyName rules))) =
    (u.container? rules).map (fun p =>
      (p.1, p.2.map (·.canonical), p.2.map (Naming.friendlyName rules)))
  signature :
    t.signature?.map (fun p => (p.1.canonical, p.2.map (·.canonical))) =
    u.signature?.map (fun p => (p.1.canonical, p.2.map (·.canonical)))

/-- A type and its plain form are read alike. -/
theorem TypeRef.sameReadings_plain (rules : ContainerRules) (t : TypeRef) :
    t.plain.SameReadings rules t where
  canonical := canonical_plain t
  isVoid := isVoid_plain t
  friendlyName := Naming.friendlyName_plain rules t
  container := by
    rw [container?_plain, Option.map_map]
    simp only [Function.comp_def, List.map_map, canonical_plain, Naming.friendlyName_plain]
  signature := by
    rw [signature?_plain, Option.map_map]
    simp only [Function.comp_def, List.map_map, canonical_plain]

end ScriptExport
