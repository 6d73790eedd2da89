import ScriptExport.Document.Fields

/-!
# Fields in any arrangement

A decoder looks the fields of a table up by their names, so it does not matter how a text format arranges
them. A function on values arranges them (`Arranges`) if it keeps what stands under each key of a table;
the fields of an arranged table are the arranged fields (`Arranges.fields?`). Writing a value and reading
it back arranges it: JSON keeps all fields in place, and TOML moves sub-tables behind plain values.
-/

namespace ScriptExport

variable {fs : List (String × Value)} {slots : List (String × Option Value)}

namespace Value

/-- What stands under a key. -/
def lookup (key : String) (fs : List (String × Value)) : Option Value :=
  (fs.find? fun f => f.1 == key).map Prod.snd

@[simp] theorem lookup_nil (key : String) : lookup key [] = none := rfl

@[simp] theorem lookup_cons (key : String) (f : String × Value) (fs : List (String × Value)) :
    lookup key (f :: fs) = if f.1 = key then some f.2 else lookup key fs := by
  unfold lookup
  rw [List.find?_cons]
  by_cases h : f.1 = key
  · simp [h]
  · rw [if_neg h, beq_false_of_ne h]

theorem lookup_filter {key : String} {p : String → Bool} (hp : p key = true)
    (fs : List (String × Value)) : lookup key (fs.filter fun f => p f.1) = lookup key fs := by
  induction fs with
  | nil => rfl
  | cons f fs ih =>
    by_cases hf : p f.1 = true
    · rw [List.filter_cons_of_pos (by simpa using hf), lookup_cons, lookup_cons, ih]
    · rw [List.filter_cons_of_neg (by simpa using hf), ih, lookup_cons, if_neg]
      rintro rfl
      exact hf hp

theorem lookup_eq_none {key : String} (h : key ∉ fs.map Prod.fst) : lookup key fs = none := by
  induction fs with
  | nil => rfl
  | cons f fs ih =>
    rw [List.map_cons, List.mem_cons, not_or] at h
    rw [lookup_cons, if_neg fun e => h.1 e.symm, ih h.2]

end Value

/-- The fields give what stands under the known names of a table. -/
structure Fields.Gives (names : List String) (found : String → Option Value) (fs : Fields) :
    Prop where
  named : fs.positional = false
  get? : ∀ key ∈ names, fs.get? key = found key

theorem Value.fields?_table (names : List String) (h : (fs.map Prod.fst).Nodup) :
    ∃ x, (Value.table fs).fields? names = some x ∧
      x.Gives names (Value.lookup · fs) := by
  have hknown : ((fs.filter fun f => names.contains f.1).map Prod.fst).Nodup :=
    (List.filter_sublist.map Prod.fst).nodup h
  refine ⟨_, if_pos hknown, rfl, fun key hkey => ?_⟩
  exact Value.lookup_filter (p := fun k => names.contains k) (by simpa using hkey) fs

namespace Fields.Gives

variable {names : List String} {found : String → Option Value} {fs : Fields} {α : Type}
  {read : Value → Option α}

/-- A required field is read. -/
theorem required (h : fs.Gives names found) (key : String) (v : Value) {a : α} (hkey : key ∈ names)
    (hfound : found key = some v) (hread : read v = some a) : fs.required key read = some a := by
  unfold Fields.required
  rw [h.get? key hkey, hfound]
  exact hread

theorem withDefault (h : fs.Gives names found) (key : String) (v : Value) {a default : α}
    (hkey : key ∈ names) (hfound : found key = some v) (hread : read v = some a) :
    fs.withDefault key default read = some a := by
  unfold Fields.withDefault
  rw [h.get? key hkey, hfound]
  exact hread

end Fields.Gives

/-- What a text format may do to the fields of a value. -/
structure Value.Arranges (f : Value → Value) : Prop where
  text : ∀ s, f (.text s) = .text s
  bool : ∀ b, f (.bool b) = .bool b
  int : ∀ n, f (.int n) = .int n
  list : ∀ vs, f (.list vs) = .list (vs.map f)
  /-- A table of texts stays as it is. -/
  texts : ∀ es : List (String × String),
    f (.table (es.map fun e => (e.1, .text e.2))) = .table (es.map fun e => (e.1, .text e.2))
  table : ∀ fs, (fs.map Prod.fst).Nodup → ∃ gs, f (.table fs) = .table gs ∧
    (gs.map Prod.fst).Nodup ∧ ∀ key, Value.lookup key gs = (Value.lookup key fs).map f

namespace Value.Arranges

/-- Values can stay as they are. -/
theorem id : Arranges id where
  text _ := rfl
  bool _ := rfl
  int _ := rfl
  list _ := by simp
  texts _ := rfl
  table fs h := ⟨fs, rfl, h, fun key => by simp⟩

variable {f : Value → Value}

/-- An arranged table has the fields of the table. -/
theorem fields? (hf : Arranges f) (names : List String) {v : Value} (hv : v = .table fs)
    (h : (fs.map Prod.fst).Nodup) : ∃ x, (f v).fields? names = some x ∧
      x.Gives names fun key => (Value.lookup key fs).map f := by
  subst hv
  obtain ⟨gs, hgs, hnodup, hlookup⟩ := hf.table fs h
  obtain ⟨x, hx, hgives⟩ := Value.fields?_table names hnodup
  refine ⟨x, hgs ▸ hx, hgives.named, fun key hkey => ?_⟩
  rw [hgives.get? key hkey, hlookup]

/-- A list is read if its items are. -/
theorem listOf? {α : Type} (hf : Arranges f) {read : Value → Option α} {write : α → Value}
    {xs : List α} (h : ∀ x ∈ xs, read (f (write x)) = some x) :
    Value.listOf? read (f (.list (xs.map write))) = some xs := by
  rw [hf.list, List.map_map]
  show (xs.map (f ∘ write)).mapM read = some xs
  induction xs with
  | nil => rfl
  | cons x xs ih =>
    have hrest := ih fun y hy => h y (List.mem_cons_of_mem x hy)
    rw [List.map_cons, List.mapM_cons, hrest, Function.comp_apply, h x List.mem_cons_self]
    rfl

theorem texts? (hf : Arranges f) (ss : List String) : Value.texts? (f (.texts ss)) = some ss :=
  hf.listOf? fun s _ => by rw [hf.text]; rfl

end Value.Arranges

/-! ## Values that are left out -/

namespace Value

/-- The fields that have a value. -/
def present (slots : List (String × Option Value)) : List (String × Value) :=
  slots.filterMap fun s => s.2.map fun v => (s.1, v)

/-- The value, unless it is empty. -/
def unlessEmpty (empty : Bool) (v : Value) : Option Value :=
  if empty then none else some v

@[simp] theorem present_nil : present [] = [] := rfl

theorem mem_present {key : String} {v : Value} :
    (key, v) ∈ present slots ↔ (key, some v) ∈ slots := by
  simp only [present, List.mem_filterMap, Option.map_eq_some_iff, Prod.mk.injEq]
  constructor
  · rintro ⟨s, hs, w, hw, rfl, rfl⟩
    rwa [← hw]
  · intro h
    exact ⟨_, h, v, rfl, rfl, rfl⟩

theorem present_sublist (slots : List (String × Option Value)) :
    ((present slots).map Prod.fst).Sublist (slots.map Prod.fst) := by
  induction slots with
  | nil => exact .slnil
  | cons s slots ih =>
    obtain ⟨key, o⟩ := s
    cases o with
    | none => exact ih.cons key
    | some v => exact ih.cons_cons key

/-- A field that is present is found. -/
theorem lookup_present (hnodup : (slots.map Prod.fst).Nodup) {s : String × Option Value}
    (hs : s ∈ slots) : lookup s.1 (present slots) = s.2 := by
  induction slots with
  | nil => cases hs
  | cons r slots ih =>
    obtain ⟨key, o⟩ := r
    obtain ⟨hkey, hrest⟩ := List.nodup_cons.mp hnodup
    rcases List.mem_cons.mp hs with rfl | hmem
    · cases o with
      | none => exact lookup_eq_none fun h => hkey ((present_sublist slots).subset h)
      | some v => exact (lookup_cons key (key, v) (present slots)).trans (if_pos rfl)
    · have hmem' : s.1 ∈ slots.map Prod.fst := List.mem_map_of_mem hmem
      have hne : key ≠ s.1 := by
        rintro rfl
        exact hkey hmem'
      cases o with
      | none => exact ih hrest hmem
      | some v =>
        exact ((lookup_cons s.1 (key, v) (present slots)).trans (if_neg hne)).trans (ih hrest hmem)

end Value

/-- The fields hold the arranged values of a table in which values may be left out. -/
structure Fields.Holds (f : Value → Value) (slots : List (String × Option Value)) (fs : Fields) :
    Prop where
  named : fs.positional = false
  get? : ∀ s ∈ slots, fs.get? s.1 = s.2.map f

/-- An arranged record holds its fields. -/
theorem Value.Arranges.holds {f : Value → Value} (hf : Value.Arranges f) (names : List String)
    (hnodup : (slots.map Prod.fst).Nodup) (hnames : ∀ s ∈ slots, s.1 ∈ names) :
    ∃ x, (f (.table (Value.present slots))).fields? names = some x ∧ x.Holds f slots := by
  obtain ⟨x, hx, hgives⟩ := hf.fields? names rfl ((Value.present_sublist slots).nodup hnodup)
  refine ⟨x, hx, hgives.named, fun s hs => ?_⟩
  rw [hgives.get? s.1 (hnames s hs), Value.lookup_present hnodup hs]

namespace Fields

variable {f : Value → Value} {fs : Fields} {key : String} {α : Type} {read : Value → Option α}

theorem required_of_get? {v : Value} {a : α} (h : fs.get? key = (some v).map f)
    (hread : read (f v) = some a) : fs.required key read = some a := by
  unfold Fields.required
  rw [h]
  exact hread

theorem withDefault_of_get? {v : Value} {a default : α} (h : fs.get? key = (some v).map f)
    (hread : read (f v) = some a) : fs.withDefault key default read = some a := by
  unfold Fields.withDefault
  rw [h]
  exact hread

/-- What is left out when empty has the empty value as its default. -/
theorem withDefault_unlessEmpty {v : Value} {empty : Bool} {a default : α}
    (h : fs.get? key = (Value.unlessEmpty empty v).map f) (hread : read (f v) = some a)
    (hempty : empty = true → a = default) : fs.withDefault key default read = some a := by
  cases empty with
  | true =>
    unfold Fields.withDefault
    rw [h, hempty rfl]
    rfl
  | false => exact withDefault_of_get? h hread

theorem nullableField_map {write : α → Value} {o : Option α} (hnamed : fs.positional = false)
    (h : fs.get? key = (o.map write).map f)
    (hread : ∀ a, nullable read (f (write a)) = some (some a)) : fs.nullableField key read = some o := by
  unfold Fields.nullableField
  rw [h]
  cases o with
  | none =>
    rw [hnamed]
    rfl
  | some a => exact hread a

theorem withDefault_map {write : α → Value} {o : Option α} (h : fs.get? key = (o.map write).map f)
    (hread : ∀ a, nullable read (f (write a)) = some (some a)) :
    fs.withDefault key none (nullable read) = some o := by
  unfold Fields.withDefault
  rw [h]
  cases o with
  | none => rfl
  | some a => exact hread a

end Fields

end ScriptExport
