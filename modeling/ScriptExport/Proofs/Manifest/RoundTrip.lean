import ScriptExport.Manifest.Codec
import ScriptExport.Proofs.Source.RoundTrip
import ScriptExport.Proofs.Toml.RoundTrip

/-!
# Reading back manifests

The parts of a manifest are read from their document form in whatever order a text format arranges the
fields, and both formats can hold that form. So a manifest is the one that its text writes, as JSON and as
TOML (`Manifest.parse?_render`), with its attributes in their order.
-/

namespace ScriptExport

/-- A decoder goes on with what it has read. -/
theorem bind_of_eq {α β : Type} {x : Option α} {k : α → Option β} {a : α} (h : x = some a) :
    (x >>= k) = k a := by
  rw [h]
  rfl

/-! ## Words and numbers -/

theorem ExportKind.ofName?_name (k : ExportKind) : ExportKind.ofName? k.name = some k := by
  cases k <;> rfl

theorem AccessMode.ofName?_name (a : AccessMode) : AccessMode.ofName? a.name = some a := by
  cases a <;> rfl

theorem ContainerKind.ofName?_name (k : ContainerKind) : ContainerKind.ofName? k.name = some k := by
  cases k <;> rfl

theorem DiagnosticKind.ofName?_name (k : DiagnosticKind) :
    DiagnosticKind.ofName? k.name = some k := by
  cases k <;> rfl

theorem Value.int64?_toInt (n : Int64) : Value.int64? (.int n.toInt) = some n := by
  have hrange := Value.isInt64_toInt n
  simp only [Value.isInt64, Bool.and_eq_true, decide_eq_true_eq] at hrange
  rw [Value.int64?, if_pos hrange, Int64.ofInt_toInt]

/-! ## Decoding -/

section Decoding

variable {f : Value → Value} (hf : Value.Arranges f)
include hf

theorem Enumerator.ofValue?_arranged (e : Enumerator) :
    Enumerator.ofValue? (f e.toValue) = some e := by
  obtain ⟨x, hx, hgives⟩ := hf.fields? ["name", "value"] (v := e.toValue) rfl (by simp)
  have hname : x.required "name" Value.text? = some e.name :=
    hgives.required _ (.text e.name) (by simp) (by simp [hf.text]) rfl
  have hvalue : x.required "value" Value.int64? = some e.value :=
    hgives.required _ (.int e.value.toInt) (by simp) (by simp [hf.int]) (Value.int64?_toInt e.value)
  simp [Enumerator.ofValue?, hx, hname, hvalue]

theorem Attributes.ofValue?_arranged (a : Attributes) : Attributes.ofValue? (f a.toValue) = some a := by
  have hentries : (a.entries.map fun e => (e.1, Value.text e.2)).mapM textEntry? = some a.entries := by
    induction a.entries with
    | nil => rfl
    | cons e es ih =>
      rw [List.map_cons, List.mapM_cons, ih]
      rfl
  rw [Attributes.toValue, hf.texts, Attributes.ofValue?, hentries, Option.map_some,
    OrderedMap.ofList_entries]

/-- A word of a vocabulary is read from its name. -/
theorem word?_arranged {α : Type} {ofName? : String → Option α} {a : α} {s : String}
    (h : ofName? s = some a) : Value.word? ofName? (f (.text s)) = some a := by
  rw [hf.text]
  exact h

theorem text?_arranged (s : String) : Value.text? (f (.text s)) = some s := by
  rw [hf.text]
  rfl

theorem bool?_arranged (b : Bool) : Value.bool? (f (.bool b)) = some b := by
  rw [hf.bool]
  rfl

theorem nullable_text?_arranged (s : String) :
    Fields.nullable Value.text? (f (.text s)) = some (some s) := by
  rw [hf.text]
  rfl

theorem nullable_location_arranged (l : Location) :
    Fields.nullable Location.ofValue? (f l.toValue) = some (some l) := by
  obtain ⟨gs, hgs, -⟩ := hf.table [("file", .text l.file), ("line", .int l.line.toNat),
    ("column", .int l.column.toNat)] (by simp)
  have hread := Location.ofValue?_arranged hf l
  rw [show f l.toValue = .table gs from hgs] at hread ⊢
  rw [Fields.nullable, hread]
  · rfl
  · rintro ⟨⟩

theorem nullable_container_arranged (k : ContainerKind) :
    Fields.nullable (Value.word? ContainerKind.ofName?) (f (.text k.name)) = some (some k) := by
  rw [hf.text]
  show (ContainerKind.ofName? k.name).map some = some (some k)
  rw [k.ofName?_name]
  rfl

end Decoding

/-! ## Records -/

theorem Value.present_cons (key : String) (o : Option Value) (slots : List (String × Option Value)) :
    Value.present ((key, o) :: slots) = optionalField key o ++ Value.present slots := by
  cases o <;> rfl

namespace ExportRecord

/-- All fields of a record, with or without a value. -/
def slots (r : ExportRecord) : List (String × Option Value) :=
  [("kind", some (.text r.kind.name)), ("name", some (.text r.name)),
    ("script_name", some (.text r.scriptName)), ("qualified_name", some (.text r.qualifiedName)),
    ("source_location", r.location.map Location.toValue), ("file_path", some (.text r.filePath)),
    ("attributes", Value.unlessEmpty r.attributes.isEmpty r.attributes.toValue),
    ("return_type", r.returnType.map .text),
    ("parameter_types", Value.unlessEmpty r.parameterTypes.isEmpty (.texts r.parameterTypes)),
    ("parameter_names", Value.unlessEmpty r.parameterNames.isEmpty (.texts r.parameterNames)),
    ("access_type", some (.text r.access.name)), ("is_static", some (.bool r.isStatic)),
    ("is_const", some (.bool r.isConst)), ("is_virtual", some (.bool r.isVirtual)),
    ("base_types", Value.unlessEmpty r.baseTypes.isEmpty (.texts r.baseTypes)),
    ("owner_type", Value.unlessEmpty r.ownerType.isEmpty (.text r.ownerType)),
    ("namespace_name", Value.unlessEmpty r.namespaceName.isEmpty (.text r.namespaceName)),
    ("module_name", Value.unlessEmpty r.moduleName.isEmpty (.text r.moduleName)),
    ("getter", r.getter.map .text), ("setter", r.setter.map .text),
    ("value_type", r.valueType.map .text),
    ("enumerators", Value.unlessEmpty r.enumerators.isEmpty
      (.list (r.enumerators.map Enumerator.toValue))),
    ("value", r.value.map .text), ("container", r.container.map fun k => .text k.name),
    ("element_types", Value.unlessEmpty r.elementTypes.isEmpty (.texts r.elementTypes))]

theorem ite_eq_optionalField (empty : Bool) (key : String) (v : Value) :
    (if empty then [] else [(key, v)]) = optionalField key (Value.unlessEmpty empty v) := by
  cases empty <;> rfl

theorem toFields_eq (r : ExportRecord) : r.toFields = Value.present r.slots := by
  -- an equation lemma for so long a list is slow to come by
  delta toFields
  simp only [textsField, textField, ite_eq_optionalField, slots, Value.present_cons,
    Value.present_nil, List.append_assoc, List.append_nil]
  rfl

theorem map_fst_slots (r : ExportRecord) : r.slots.map Prod.fst = fieldNames := rfl

theorem nodup_fieldNames : fieldNames.Nodup := by
  decide

/-- A record is read from its value. -/
theorem ofValue?_arranged {f : Value → Value} (hf : Value.Arranges f) (r : ExportRecord) :
    ofValue? (f r.toValue) = some r := by
  have hnodup : (r.slots.map Prod.fst).Nodup := nodup_fieldNames
  have hnames : ∀ s ∈ r.slots, s.1 ∈ fieldNames := by
    intro s hs
    rw [← r.map_fst_slots]
    exact List.mem_map_of_mem hs
  obtain ⟨x, hx, hnamed, hget⟩ := hf.holds fieldNames hnodup hnames
  rw [← toFields_eq] at hx
  simp only [slots, List.forall_mem_cons] at hget
  obtain ⟨hkind, hname, hscript, hqualified, hlocation, hpath, hattributes, hreturn, htypes, hnames,
    haccess, hstatic, hconst, hvirtual, hbases, howner, hnamespace, hmodule, hgetter, hsetter,
    hvalueType, henumerators, hvalue, hcontainer, helements, -⟩ := hget
  have hlist : Value.listOf? Enumerator.ofValue? (f (.list (r.enumerators.map Enumerator.toValue))) =
      some r.enumerators := hf.listOf? fun e _ => e.ofValue?_arranged hf
  have hnoAttributes : r.attributes.isEmpty = true → r.attributes = {} := fun h =>
    OrderedMap.ext_entries (List.isEmpty_iff.mp h)
  replace hkind : x.required "kind" (Value.word? ExportKind.ofName?) = some r.kind :=
    Fields.required_of_get? hkind (word?_arranged hf r.kind.ofName?_name)
  replace hname : x.required "name" Value.text? = some r.name :=
    Fields.required_of_get? hname (text?_arranged hf _)
  replace hscript : x.required "script_name" Value.text? = some r.scriptName :=
    Fields.required_of_get? hscript (text?_arranged hf _)
  replace hqualified : x.required "qualified_name" Value.text? = some r.qualifiedName :=
    Fields.required_of_get? hqualified (text?_arranged hf _)
  replace hlocation : x.nullableField "source_location" Location.ofValue? = some r.location :=
    Fields.nullableField_map hnamed hlocation (nullable_location_arranged hf)
  replace hpath : x.withDefault "file_path" "" Value.text? = some r.filePath :=
    Fields.withDefault_of_get? hpath (text?_arranged hf _)
  replace hattributes : x.withDefault "attributes" {} Attributes.ofValue? = some r.attributes :=
    Fields.withDefault_unlessEmpty hattributes (r.attributes.ofValue?_arranged hf) hnoAttributes
  replace hreturn : x.nullableField "return_type" Value.text? = some r.returnType :=
    Fields.nullableField_map hnamed hreturn (nullable_text?_arranged hf)
  replace htypes : x.withDefault "parameter_types" [] Value.texts? = some r.parameterTypes :=
    Fields.withDefault_unlessEmpty htypes (hf.texts? _) List.isEmpty_iff.mp
  replace hnames : x.withDefault "parameter_names" [] Value.texts? = some r.parameterNames :=
    Fields.withDefault_unlessEmpty hnames (hf.texts? _) List.isEmpty_iff.mp
  replace haccess : x.withDefault "access_type" .unset (Value.word? AccessMode.ofName?) =
      some r.access :=
    Fields.withDefault_of_get? haccess (word?_arranged hf r.access.ofName?_name)
  replace hstatic : x.withDefault "is_static" false Value.bool? = some r.isStatic :=
    Fields.withDefault_of_get? hstatic (bool?_arranged hf _)
  replace hconst : x.withDefault "is_const" false Value.bool? = some r.isConst :=
    Fields.withDefault_of_get? hconst (bool?_arranged hf _)
  replace hvirtual : x.withDefault "is_virtual" false Value.bool? = some r.isVirtual :=
    Fields.withDefault_of_get? hvirtual (bool?_arranged hf _)
  replace hbases : x.withDefault "base_types" [] Value.texts? = some r.baseTypes :=
    Fields.withDefault_unlessEmpty hbases (hf.texts? _) List.isEmpty_iff.mp
  replace howner : x.withDefault "owner_type" "" Value.text? = some r.ownerType :=
    Fields.withDefault_unlessEmpty howner (text?_arranged hf _) String.isEmpty_iff.mp
  replace hnamespace : x.withDefault "namespace_name" "" Value.text? = some r.namespaceName :=
    Fields.withDefault_unlessEmpty hnamespace (text?_arranged hf _) String.isEmpty_iff.mp
  replace hmodule : x.withDefault "module_name" "" Value.text? = some r.moduleName :=
    Fields.withDefault_unlessEmpty hmodule (text?_arranged hf _) String.isEmpty_iff.mp
  replace hgetter : x.nullableField "getter" Value.text? = some r.getter :=
    Fields.nullableField_map hnamed hgetter (nullable_text?_arranged hf)
  replace hsetter : x.nullableField "setter" Value.text? = some r.setter :=
    Fields.nullableField_map hnamed hsetter (nullable_text?_arranged hf)
  replace hvalueType : x.nullableField "value_type" Value.text? = some r.valueType :=
    Fields.nullableField_map hnamed hvalueType (nullable_text?_arranged hf)
  replace henumerators : x.withDefault "enumerators" [] (Value.listOf? Enumerator.ofValue?) =
      some r.enumerators :=
    Fields.withDefault_unlessEmpty henumerators hlist List.isEmpty_iff.mp
  replace hvalue : x.nullableField "value" Value.text? = some r.value :=
    Fields.nullableField_map hnamed hvalue (nullable_text?_arranged hf)
  replace hcontainer : x.nullableField "container" (Value.word? ContainerKind.ofName?) =
      some r.container :=
    Fields.nullableField_map hnamed hcontainer (nullable_container_arranged hf)
  replace helements : x.withDefault "element_types" [] Value.texts? = some r.elementTypes :=
    Fields.withDefault_unlessEmpty helements (hf.texts? _) List.isEmpty_iff.mp
  unfold ofValue?
  rw [show f r.toValue = f (.table r.toFields) from rfl, bind_of_eq hx]
  rw [bind_of_eq hkind, bind_of_eq hname, bind_of_eq hscript, bind_of_eq hqualified, bind_of_eq
    hlocation, bind_of_eq hpath, bind_of_eq hattributes, bind_of_eq hreturn, bind_of_eq htypes,
    bind_of_eq hnames, bind_of_eq haccess, bind_of_eq hstatic, bind_of_eq hconst, bind_of_eq
    hvirtual, bind_of_eq hbases, bind_of_eq howner, bind_of_eq hnamespace, bind_of_eq hmodule,
    bind_of_eq hgetter, bind_of_eq hsetter, bind_of_eq hvalueType, bind_of_eq henumerators,
    bind_of_eq hvalue, bind_of_eq hcontainer, bind_of_eq helements]
  rfl

end ExportRecord

/-! ## Diagnostics, units and manifests -/

/-- All fields of a diagnostic, with or without a value. -/
def Diagnostic.slots (d : Diagnostic) : List (String × Option Value) :=
  [("kind", some (.text d.kind.name)), ("message", some (.text d.message)),
    ("location", d.location.map Location.toValue)]

theorem Diagnostic.toValue_eq (d : Diagnostic) : d.toValue = .table (Value.present d.slots) := by
  simp only [Diagnostic.slots, Value.present_cons, Value.present_nil, List.append_nil]
  rfl

section Manifests

variable {f : Value → Value} (hf : Value.Arranges f)
include hf

/-- A diagnostic is read from its value. -/
theorem Diagnostic.ofValue?_arranged (d : Diagnostic) : Diagnostic.ofValue? (f d.toValue) = some d := by
  have hnodup : (d.slots.map Prod.fst).Nodup := by simp [Diagnostic.slots]
  obtain ⟨x, hx, hnamed, hget⟩ := hf.holds ["kind", "message", "location"] hnodup
    (by simp [Diagnostic.slots])
  simp only [Diagnostic.slots, List.forall_mem_cons] at hget
  obtain ⟨hkind, hmessage, hlocation, -⟩ := hget
  unfold Diagnostic.ofValue?
  rw [d.toValue_eq, bind_of_eq hx,
    bind_of_eq (Fields.required_of_get? hkind (word?_arranged hf d.kind.ofName?_name)),
    bind_of_eq (Fields.required_of_get? hmessage (text?_arranged hf _)),
    bind_of_eq (Fields.nullableField_map hnamed hlocation (nullable_location_arranged hf))]
  rfl

/-- A unit is read from its value. -/
theorem UnitExports.ofValue?_arranged (u : UnitExports) :
    UnitExports.ofValue? (f u.toValue) = some u := by
  obtain ⟨x, hx, hgives⟩ := hf.fields? ["file_path", "records", "diagnostics"] (v := u.toValue) rfl
    (by simp)
  have hpath : x.required "file_path" Value.text? = some u.filePath :=
    hgives.required _ (.text u.filePath) (by simp) (by simp [hf.text]) rfl
  have hrecords : x.withDefault "records" [] (Value.listOf? ExportRecord.ofValue?) = some u.records :=
    hgives.withDefault _ (f (.list (u.records.map ExportRecord.toValue))) (by simp) (by simp)
      (hf.listOf? fun r _ => r.ofValue?_arranged hf)
  have hdiagnostics : x.withDefault "diagnostics" [] (Value.listOf? Diagnostic.ofValue?) =
      some u.diagnostics :=
    hgives.withDefault _ (f (.list (u.diagnostics.map Diagnostic.toValue))) (by simp) (by simp)
      (hf.listOf? fun d _ => d.ofValue?_arranged hf)
  simp [UnitExports.ofValue?, hx, hpath, hrecords, hdiagnostics]

/-- A manifest is read from its value. -/
theorem Manifest.ofValue?_arranged (m : Manifest) : Manifest.ofValue? (f m.toValue) = some m := by
  obtain ⟨x, hx, hgives⟩ := hf.fields? ["version", "generated_at", "units"] (v := m.toValue) rfl
    (by simp)
  have hversion : x.required "version" Value.text? = some m.version :=
    hgives.required _ (.text m.version) (by simp) (by simp [hf.text]) rfl
  have htime : x.required "generated_at" Value.text? = some m.generatedAt :=
    hgives.required _ (.text m.generatedAt) (by simp) (by simp [hf.text]) rfl
  have hunits : x.withDefault "units" [] (Value.listOf? UnitExports.ofValue?) = some m.units :=
    hgives.withDefault _ (f (.list (m.units.map UnitExports.toValue))) (by simp) (by simp)
      (hf.listOf? fun u _ => u.ofValue?_arranged hf)
  simp [Manifest.ofValue?, hx, hversion, htime, hunits]

end Manifests

/-! ## Both formats hold manifests -/

section Writable

open Toml

theorem isWritable_texts (ss : List String) : isWritable (.texts ss) = true := by
  simp [Value.texts, isWritable, isAtom]

/-- A list of tables can be written if they can. -/
theorem isWritable_map {α : Type} {write : α → Value} {xs : List α}
    (h : ∀ x ∈ xs, isTable (write x) = true ∧ isWritable (write x) = true) :
    isWritable (.list (xs.map write)) = true := by
  have hlist : isWritableList (xs.map write) = true := by
    simpa [isWritableList_iff] using h
  rw [isWritable, hlist, Bool.or_true]

/-- TOML can hold the value if there is one. -/
def IsWritable (o : Option Value) : Prop :=
  ∀ v, o = some v → isWritable v = true

theorem IsWritable.some {v : Value} (h : isWritable v = true) : IsWritable (some v) := by
  rintro _ ⟨⟩
  exact h

theorem IsWritable.map {α : Type} {write : α → Value} (h : ∀ a, isWritable (write a) = true)
    (o : Option α) : IsWritable (o.map write) := by
  cases o with
  | none => rintro _ ⟨⟩
  | some a => exact .some (h a)

theorem IsWritable.unlessEmpty {v : Value} (h : isWritable v = true) (empty : Bool) :
    IsWritable (Value.unlessEmpty empty v) := by
  cases empty with
  | true => rintro _ ⟨⟩
  | false => exact .some h

/-- Tables of writable fields can be written. -/
theorem isWritable_present {slots : List (String × Option Value)}
    (hnodup : (slots.map Prod.fst).Nodup) (hbare : ∀ s ∈ slots, isBareKey s.1 = true)
    (h : ∀ s ∈ slots, IsWritable s.2) :
    isWritable (.table (Value.present slots)) = true := by
  rw [isWritable_table_iff, isWritableFields_iff]
  refine ⟨(Value.present_sublist slots).nodup hnodup, ?_⟩
  rintro ⟨key, v⟩ hmem
  have hslot := Value.mem_present.mp hmem
  exact ⟨fun _ => hbare (key, some v) hslot, h (key, some v) hslot v rfl⟩

theorem Location.isWritable_toValue (l : Location) : isWritable l.toValue = true := by
  simp [Location.toValue, isWritable, isWritableFields, isAtom, isSection, Value.isInt64_of_uint32]

theorem Enumerator.isWritable_toValue (e : Enumerator) : isWritable e.toValue = true := by
  simp [Enumerator.toValue, isWritable, isWritableFields, isAtom, isSection, Value.isInt64_toInt]

theorem Attributes.isWritable_toValue (a : Attributes) : isWritable a.toValue = true := by
  rw [Attributes.toValue, isWritable_table_iff, isWritableFields_iff, List.map_map]
  refine ⟨a.nodup, fun g hg => ?_⟩
  obtain ⟨e, -, rfl⟩ := List.mem_map.mp hg
  exact ⟨fun h => (by cases h), rfl⟩

theorem isBareKey_fieldNames : ∀ name ∈ ExportRecord.fieldNames, isBareKey name = true := by
  decide

theorem ExportRecord.isWritable_toValue (r : ExportRecord) : isWritable r.toValue = true := by
  rw [ExportRecord.toValue, r.toFields_eq]
  refine isWritable_present ExportRecord.nodup_fieldNames (fun s hs => ?_) ?_
  · exact isBareKey_fieldNames s.1 (r.map_fst_slots ▸ List.mem_map_of_mem hs)
  · have htext : ∀ s, isWritable (.text s) = true := fun _ => rfl
    have hbool : ∀ b, isWritable (.bool b) = true := fun _ => rfl
    have henumerators : isWritable (.list (r.enumerators.map Enumerator.toValue)) = true :=
      isWritable_map fun e _ => ⟨rfl, e.isWritable_toValue⟩
    simp only [ExportRecord.slots, List.forall_mem_cons]
    exact ⟨.some (htext _), .some (htext _), .some (htext _), .some (htext _),
      .map Location.isWritable_toValue _, .some (htext _),
      .unlessEmpty r.attributes.isWritable_toValue _, .map htext _,
      .unlessEmpty (isWritable_texts _) _, .unlessEmpty (isWritable_texts _) _, .some (htext _),
      .some (hbool _), .some (hbool _), .some (hbool _), .unlessEmpty (isWritable_texts _) _,
      .unlessEmpty (htext _) _, .unlessEmpty (htext _) _, .unlessEmpty (htext _) _, .map htext _,
      .map htext _, .map htext _, .unlessEmpty henumerators _, .map htext _,
      .map (fun k : ContainerKind => htext k.name) _, .unlessEmpty (isWritable_texts _) _, by simp⟩

theorem Diagnostic.isWritable_toValue (d : Diagnostic) : isWritable d.toValue = true := by
  rw [d.toValue_eq]
  refine isWritable_present (by simp [Diagnostic.slots]) ?_ ?_ <;>
    simp only [Diagnostic.slots, List.forall_mem_cons]
  · exact ⟨by decide, by decide, by decide, by simp⟩
  · exact ⟨.some rfl, .some rfl, .map Location.isWritable_toValue _, by simp⟩

theorem UnitExports.isWritable_toValue (u : UnitExports) : isWritable u.toValue = true := by
  have hrecords : isWritable (.list (u.records.map ExportRecord.toValue)) = true :=
    isWritable_map fun r _ => ⟨rfl, r.isWritable_toValue⟩
  have hdiagnostics : isWritable (.list (u.diagnostics.map Diagnostic.toValue)) = true :=
    isWritable_map fun d _ => ⟨rfl, d.isWritable_toValue⟩
  show isWritable (.table (Value.present [("file_path", some (.text u.filePath)),
    ("records", some (.list (u.records.map ExportRecord.toValue))),
    ("diagnostics", some (.list (u.diagnostics.map Diagnostic.toValue)))])) = true
  refine isWritable_present (by simp) ?_ ?_ <;> simp only [List.forall_mem_cons]
  · exact ⟨by decide, by decide, by decide, by simp⟩
  · exact ⟨.some rfl, .some hrecords, .some hdiagnostics, by simp⟩

/-- Every manifest can be written. -/
theorem Manifest.isWritable_toValue (m : Manifest) : isWritable m.toValue = true := by
  have hunits : isWritable (.list (m.units.map UnitExports.toValue)) = true :=
    isWritable_map fun u _ => ⟨rfl, u.isWritable_toValue⟩
  show isWritable (.table (Value.present [("version", some (.text m.version)),
    ("generated_at", some (.text m.generatedAt)),
    ("units", some (.list (m.units.map UnitExports.toValue)))])) = true
  refine isWritable_present (by simp) ?_ ?_ <;> simp only [List.forall_mem_cons]
  · exact ⟨by decide, by decide, by decide, by simp⟩
  · exact ⟨.some rfl, .some rfl, .some hunits, by simp⟩

end Writable

/-- A manifest is the one that its text writes, in either format. -/
theorem Manifest.parse?_render (m : Manifest) (format : ManifestFormat) :
    Manifest.parse? format (m.render format) = some m := by
  have hwritable := m.isWritable_toValue
  cases format with
  | json =>
    show (Json.parse? (Json.pretty m.toValue)).bind Manifest.ofValue? = some m
    rw [Json.parse?_pretty (Toml.isPlain_of_isWritable _ hwritable)]
    exact m.ofValue?_arranged .id
  | toml =>
    show (Toml.parse? (Toml.print m.toValue)).bind Manifest.ofValue? = some m
    rw [show Toml.parse? (Toml.print m.toValue) = some (Toml.arrange m.toValue) from
      Toml.parse?_print hwritable]
    exact m.ofValue?_arranged Toml.arranges_arrange

end ScriptExport
