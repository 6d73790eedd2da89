import ScriptExport.Proofs.Document.Arrangement
import ScriptExport.Proofs.Json.RoundTrip
import ScriptExport.Source.Decode
import ScriptExport.Source.Encode

/-!
# Reading back tree dumps

A translation unit is read back from the JSON text of its document form, on one line or on several, if
the document nests no deeper than `maxNesting`. A decoder that may go `n` levels down reads whatever nests
`n` levels deep: each constructor of a type, and each declaration, takes one level or more.
-/

namespace ScriptExport

/-! ## Locations, types and callables -/

theorem Value.uint32?_toNat (n : UInt32) : Value.uint32? (.int n.toNat) = some n := by
  have hlt : (n.toNat : Int) < UInt32.size := by exact_mod_cast n.toNat_lt
  show (if 0 ≤ (n.toNat : Int) ∧ (n.toNat : Int) < UInt32.size then
    some (UInt32.ofNat (n.toNat : Int).toNat) else none) = some n
  rw [if_pos ⟨by omega, hlt⟩]
  simp

theorem Location.ofValue?_arranged {f : Value → Value} (hf : Value.Arranges f) (l : Location) :
    Location.ofValue? (f l.toValue) = some l := by
  obtain ⟨x, hx, hgives⟩ := hf.fields? ["file", "line", "column"] (v := l.toValue) rfl (by simp)
  have hfile : x.required "file" Value.text? = some l.file :=
    hgives.required _ (.text l.file) (by simp) (by simp [hf.text]) rfl
  have hline : x.required "line" Value.uint32? = some l.line :=
    hgives.required _ (.int l.line.toNat) (by simp) (by simp [hf.int]) (Value.uint32?_toNat _)
  have hcolumn : x.withDefault "column" 0 Value.uint32? = some l.column :=
    hgives.withDefault _ (.int l.column.toNat) (by simp) (by simp [hf.int]) (Value.uint32?_toNat _)
  simp [Location.ofValue?, hx, hfile, hline, hcolumn]

theorem Value.depth_of_single {key : String} {v : Value} {n : Nat}
    (h : (Value.table [(key, v)]).depth ≤ n + 1) : v.depth ≤ n := by
  simpa [Value.depth, Value.depthFields] using h

mutual

/-- A type is read back from its value, given depth enough. -/
theorem TypeRef.ofValue?_toValue : (t : TypeRef) → (n : Nat) → t.toValue.depth ≤ n →
    TypeRef.ofValue? n t.toValue = some t
  | t, 0, h => by cases t <;> simp [TypeRef.toValue, Value.depth] at h
  | .builtin name, n + 1, _ => rfl
  | .named name, n + 1, _ => rfl
  | .unresolved spelling, n + 1, _ => rfl
  | .const t, n + 1, h => by
    have ht := TypeRef.ofValue?_toValue t n (Value.depth_of_single h)
    simp [TypeRef.toValue, TypeRef.ofValue?, ht]
  | .lvalueRef t, n + 1, h => by
    have ht := TypeRef.ofValue?_toValue t n (Value.depth_of_single h)
    simp [TypeRef.toValue, TypeRef.ofValue?, ht]
  | .rvalueRef t, n + 1, h => by
    have ht := TypeRef.ofValue?_toValue t n (Value.depth_of_single h)
    simp [TypeRef.toValue, TypeRef.ofValue?, ht]
  | .pointer t, n + 1, h => by
    have ht := TypeRef.ofValue?_toValue t n (Value.depth_of_single h)
    simp [TypeRef.toValue, TypeRef.ofValue?, ht]
  | .template name args, n + 1, h => by
    have hdepth : Value.depthList (TypeRef.toValues args) ≤ n := by
      simp [TypeRef.toValue, Value.depth, Value.depthFields] at h
      omega
    have hargs := TypeRef.mapM_ofValue?_toValues args n hdepth
    obtain ⟨x, hx, hgives⟩ := Value.fields?_table ["name", "args"]
      (show ([("name", .text name), ("args", .list (TypeRef.toValues args))].map Prod.fst).Nodup by
        simp)
    have hname : x.required "name" Value.text? = some name :=
      hgives.required _ (.text name) (by simp) (by simp) rfl
    have hargs : x.required "args" (Value.listOf? (TypeRef.ofValue? n)) = some args :=
      hgives.required _ (.list (TypeRef.toValues args)) (by simp) (by simp) hargs
    simp [TypeRef.toValue, TypeRef.ofValue?, hx, hname, hargs]
  | .function ret params, n + 1, h => by
    have hdepth : ret.toValue.depth ≤ n ∧ Value.depthList (TypeRef.toValues params) ≤ n := by
      simp [TypeRef.toValue, Value.depth, Value.depthFields] at h
      omega
    have hret := TypeRef.ofValue?_toValue ret n hdepth.1
    have hparams := TypeRef.mapM_ofValue?_toValues params n hdepth.2
    obtain ⟨x, hx, hgives⟩ := Value.fields?_table ["ret", "params"]
      (show ([("ret", ret.toValue), ("params", .list (TypeRef.toValues params))].map
        Prod.fst).Nodup by simp)
    have hret : x.required "ret" (TypeRef.ofValue? n) = some ret :=
      hgives.required _ ret.toValue (by simp) (by simp) hret
    have hparams : x.required "params" (Value.listOf? (TypeRef.ofValue? n)) = some params :=
      hgives.required _ (.list (TypeRef.toValues params)) (by simp) (by simp) hparams
    simp [TypeRef.toValue, TypeRef.ofValue?, hx, hret, hparams]

theorem TypeRef.mapM_ofValue?_toValues : (ts : List TypeRef) → (n : Nat) →
    Value.depthList (TypeRef.toValues ts) ≤ n →
    (TypeRef.toValues ts).mapM (TypeRef.ofValue? n) = some ts
  | [], _, _ => rfl
  | t :: ts, n, h => by
    have hdepth : t.toValue.depth ≤ n ∧ Value.depthList (TypeRef.toValues ts) ≤ n := by
      simp [TypeRef.toValues, Value.depthList] at h
      omega
    have ht := TypeRef.ofValue?_toValue t n hdepth.1
    have hts := TypeRef.mapM_ofValue?_toValues ts n hdepth.2
    simp [TypeRef.toValues, ht, hts]

end

theorem Value.depth_le_of_mem {v : Value} {vs : List Value} (hv : v ∈ vs) :
    v.depth ≤ Value.depthList vs := by
  induction vs with
  | nil => cases hv
  | cons w vs ih =>
    rw [Value.depthList]
    rcases List.mem_cons.mp hv with rfl | hv
    · exact Nat.le_max_left _ _
    · exact (ih hv).trans (Nat.le_max_right _ _)

theorem Param.ofValue?_toValue (p : Param) {n : Nat} (h : p.toValue.depth ≤ n) :
    Param.ofValue? n p.toValue = some p := by
  have hdepth : p.type.toValue.depth ≤ n := by
    simp [Param.toValue, Value.depth, Value.depthFields] at h
    omega
  obtain ⟨x, hx, hgives⟩ : ∃ x, p.toValue.fields? ["name", "ty"] = some x ∧ x.Gives _ _ :=
    Value.fields?_table _ (by simp)
  have hname : x.withDefault "name" "" Value.text? = some p.name :=
    hgives.withDefault _ (.text p.name) (by simp) (by simp) rfl
  have htype : x.required "ty" (TypeRef.ofValue? n) = some p.type :=
    hgives.required _ p.type.toValue (by simp) (by simp) (p.type.ofValue?_toValue n hdepth)
  simp [Param.ofValue?, hx, hname, htype]

/-- A callable is read from its fields. -/
theorem Callable.ofValue?_toFields (c : Callable) {n : Nat}
    (h : Value.depthFields c.toFields ≤ n) :
    Callable.ofValue? n (.table c.toFields) = some c := by
  have hdepth : c.returnType.toValue.depth ≤ n ∧
      ∀ p ∈ c.params, (Param.toValue p).depth ≤ n := by
    simp only [Callable.toFields, Value.depthFields, Value.depth] at h
    refine ⟨by omega, fun p hp => ?_⟩
    have hmem := Value.depth_le_of_mem (List.mem_map_of_mem (f := Param.toValue) hp)
    omega
  obtain ⟨x, hx, hgives⟩ : ∃ x, (Value.table c.toFields).fields? ["return_type", "params",
      "is_static", "is_const", "is_virtual", "is_pure", "is_deleted"] = some x ∧ x.Gives _ _ :=
    Value.fields?_table _ (by simp [Callable.toFields])
  have hreturn : x.withDefault "return_type" .void (TypeRef.ofValue? n) = some c.returnType :=
    hgives.withDefault _ c.returnType.toValue (by simp) (by simp [Callable.toFields])
      (c.returnType.ofValue?_toValue n hdepth.1)
  have hparams : x.withDefault "params" [] (Value.listOf? (Param.ofValue? n)) = some c.params :=
    hgives.withDefault _ (.list (c.params.map Param.toValue)) (by simp) (by simp [Callable.toFields])
      (Value.Arranges.id.listOf? fun p hp => p.ofValue?_toValue (hdepth.2 p hp))
  have hflag : ∀ key ∈ ["is_static", "is_const", "is_virtual", "is_pure", "is_deleted"], ∀ b : Bool,
      Value.lookup key c.toFields = some (.bool b) → x.withDefault key false Value.bool? = some b :=
    fun key hkey b hb => hgives.withDefault _ (.bool b)
      (List.mem_cons_of_mem _ (List.mem_cons_of_mem _ hkey)) hb rfl
  have hstatic := hflag "is_static" (by simp) c.isStatic (by simp [Callable.toFields])
  have hconst := hflag "is_const" (by simp) c.isConst (by simp [Callable.toFields])
  have hvirtual := hflag "is_virtual" (by simp) c.isVirtual (by simp [Callable.toFields])
  have hpure := hflag "is_pure" (by simp) c.isPure (by simp [Callable.toFields])
  have hdeleted := hflag "is_deleted" (by simp) c.isDeleted (by simp [Callable.toFields])
  simp [Callable.ofValue?, hx, hreturn, hparams, hstatic, hconst, hvirtual, hpure, hdeleted]

theorem Access.ofName?_name (a : Access) : Access.ofName? a.name = some a := by
  cases a <;> rfl

theorem Access.ofValue?_name (inner : Bool) (a : Access) :
    Access.ofValue? inner (.text a.name) = some a := by
  cases inner <;> exact Access.ofName?_name a

theorem Base.ofValue?_toValue (b : Base) : Base.ofValue? b.toValue = some b := by
  obtain ⟨x, hx, hgives⟩ : ∃ x, b.toValue.fields? ["name", "access", "is_virtual"] = some x ∧
      x.Gives _ _ := Value.fields?_table _ (by simp)
  have hname : x.required "name" Value.text? = some b.name :=
    hgives.required _ (.text b.name) (by simp) (by simp) rfl
  have haccess : x.withDefault "access" .pub (Access.ofValue? true) = some b.access :=
    hgives.withDefault _ (.text b.access.name) (by simp) (by simp) (Access.ofValue?_name true _)
  have hvirtual : x.withDefault "is_virtual" false Value.bool? = some b.isVirtual :=
    hgives.withDefault _ (.bool b.isVirtual) (by simp) (by simp) rfl
  simp [Base.ofValue?, hx, hname, haccess, hvirtual]

theorem Fields.nullable_textOrNull (s : Option String) :
    Fields.nullable Value.text? (.textOrNull s) = some s := by
  cases s <;> rfl

theorem EnumConstant.ofValue?_toValue (e : EnumConstant) :
    EnumConstant.ofValue? e.toValue = some e := by
  obtain ⟨x, hx, hgives⟩ : ∃ x, e.toValue.fields? ["name", "init"] = some x ∧ x.Gives _ _ :=
    Value.fields?_table _ (by simp)
  have hname : x.required "name" Value.text? = some e.name :=
    hgives.required _ (.text e.name) (by simp) (by simp) rfl
  have hinit : x.withDefault "init" none (Fields.nullable Value.text?) = some e.init :=
    hgives.withDefault _ (.textOrNull e.init) (by simp) (by simp) (Fields.nullable_textOrNull _)
  simp [EnumConstant.ofValue?, hx, hname, hinit]

/-! ## Declarations -/

theorem Fields.nullable_orNull (l : Option Location) :
    Fields.nullable Location.ofValue? (Location.orNull l) = some l := by
  cases l with
  | none => rfl
  | some l =>
    have hl : Location.ofValue? l.toValue = some l := Location.ofValue?_arranged .id l
    show (Location.ofValue? l.toValue).map some = _
    rw [hl]
    rfl

/-- The fields of a declaration give its header and its kind. -/
theorem Header.fields?_toValue (h : Header) (tag : String) (kind : List (String × Value)) :
    ∃ x, (h.toValue tag kind).fields? Decl.fieldNames = some x ∧
      (∀ inner, Header.ofFields? inner x = some h) ∧
      x.get? "kind" = some (.table (("decl", .text tag) :: kind)) := by
  obtain ⟨x, hx, hgives⟩ : ∃ x, (h.toValue tag kind).fields? Decl.fieldNames = some x ∧
      x.Gives _ _ := Value.fields?_table _ (by simp)
  refine ⟨x, hx, fun inner => ?_, ?_⟩
  · have hname : x.withDefault "name" "" Value.text? = some h.name :=
      hgives.withDefault _ (.text h.name) (by simp [Decl.fieldNames]) (by simp) rfl
    have hlocation : x.withDefault "location" none (Fields.nullable Location.ofValue?) =
        some h.location :=
      hgives.withDefault _ (Location.orNull h.location) (by simp [Decl.fieldNames]) (by simp)
        (Fields.nullable_orNull _)
    have hannotations : x.withDefault "annotations" [] Value.texts? = some h.annotations :=
      hgives.withDefault _ (.texts h.annotations) (by simp [Decl.fieldNames]) (by simp)
        (Value.Arranges.id.texts? _)
    have haccess : x.withDefault "access" .pub (Access.ofValue? inner) = some h.access :=
      hgives.withDefault _ (.text h.access.name) (by simp [Decl.fieldNames]) (by simp)
        (Access.ofValue?_name inner _)
    have himplicit : x.withDefault "implicit" false Value.bool? = some h.implicit :=
      hgives.withDefault _ (.bool h.implicit) (by simp [Decl.fieldNames]) (by simp) rfl
    simp [Header.ofFields?, hname, hlocation, hannotations, haccess, himplicit]
  · rw [hgives.get? "kind" (by simp [Decl.fieldNames])]
    simp

variable {kind : List (String × Value)}

theorem kindParts?_table (inner : Bool) (tag : String) (hkind : ∀ f ∈ kind, f.1 ≠ "decl") :
    kindParts? inner (.table (("decl", .text tag) :: kind)) = some (tag, .table kind) := by
  have hnone : kind.filter (fun f => f.1 == "decl") = [] :=
    List.filter_eq_nil_iff.mpr fun f hf => by simpa using hkind f hf
  have hall : kind.filter (fun f => f.1 != "decl") = kind :=
    List.filter_eq_self.mpr fun f hf => by simpa using hkind f hf
  simp [kindParts?, kindTag?, hnone, hall]

/-- A declaration is read from its kind. -/
theorem Decl.ofValue?_header (n : Nat) (inner : Bool) (h : Header) (tag : String)
    (hkind : ∀ f ∈ kind, f.1 ≠ "decl") : Decl.ofValue? (n + 1) inner (h.toValue tag kind) =
      Decl.ofKind? n (Decl.ofValue? n true) h tag (.table kind) := by
  obtain ⟨x, hx, hheader, hget⟩ := h.fields?_toValue tag kind
  simp [Decl.ofValue?, hx, hheader inner, hget, kindParts?_table inner tag hkind]

/-- The levels that a kind takes of those of its declaration. -/
theorem Header.depth_kind {h : Header} {tag : String} {n : Nat}
    (hdepth : (h.toValue tag kind).depth ≤ n) : Value.depthFields kind + 2 ≤ n := by
  simp [Header.toValue, Value.depth, Value.depthFields] at hdepth
  omega

section Kinds

variable {n : Nat} {read : Value → Option Decl} (h : Header)

theorem Decl.ofKind?_nameSpace {vs : List Value} {ds : List Decl} (hds : vs.mapM read = some ds) :
    Decl.ofKind? n read h "namespace" (.table [("decls", .list vs)]) = some (.nameSpace h ds) := by
  obtain ⟨x, hx, hgives⟩ := Value.fields?_table ["decls"]
    (show (([("decls", .list vs)] : List (String × Value)).map Prod.fst).Nodup by simp)
  have hdecls : x.withDefault "decls" [] (Value.listOf? read) = some ds :=
    hgives.withDefault _ (.list vs) (by simp) (by simp) hds
  simp [Decl.ofKind?, hx, hdecls]

theorem Decl.ofKind?_record {vs : List Value} {ds : List Decl} (hds : vs.mapM read = some ds)
    (traits : RecordTraits) :
    Decl.ofKind? n read h "record" (.table [("bases", .list (traits.bases.map Base.toValue)),
      ("members", .list vs), ("is_abstract", .bool traits.isAbstract),
      ("is_specialization", .bool traits.isSpecialization)]) = some (.record h traits ds) := by
  obtain ⟨x, hx, hgives⟩ := Value.fields?_table
    ["bases", "members", "is_abstract", "is_specialization"]
    (show ([("bases", .list (traits.bases.map Base.toValue)), ("members", .list vs),
      ("is_abstract", .bool traits.isAbstract),
      ("is_specialization", .bool traits.isSpecialization)].map Prod.fst).Nodup by simp)
  have hbases : x.withDefault "bases" [] (Value.listOf? Base.ofValue?) = some traits.bases :=
    hgives.withDefault _ (.list (traits.bases.map Base.toValue)) (by simp) (by simp)
      (Value.Arranges.id.listOf? fun b _ => b.ofValue?_toValue)
  have hmembers : x.withDefault "members" [] (Value.listOf? read) = some ds :=
    hgives.withDefault _ (.list vs) (by simp) (by simp) hds
  have habstract : x.withDefault "is_abstract" false Value.bool? = some traits.isAbstract :=
    hgives.withDefault _ (.bool traits.isAbstract) (by simp) (by simp) rfl
  have hspecial : x.withDefault "is_specialization" false Value.bool? =
      some traits.isSpecialization :=
    hgives.withDefault _ (.bool traits.isSpecialization) (by simp) (by simp) rfl
  simp [Decl.ofKind?, hx, hbases, hmembers, habstract, hspecial]

theorem Decl.ofKind?_field (f : Field) (hdepth : f.type.toValue.depth ≤ n) :
    Decl.ofKind? n read h "field" (.table [("ty", f.type.toValue), ("is_static", .bool f.isStatic),
      ("is_const", .bool f.isConst), ("init", .textOrNull f.init)]) = some (.field h f) := by
  obtain ⟨x, hx, hgives⟩ := Value.fields?_table ["ty", "is_static", "is_const", "init"]
    (show ([("ty", f.type.toValue), ("is_static", .bool f.isStatic), ("is_const", .bool f.isConst),
      ("init", .textOrNull f.init)].map Prod.fst).Nodup by simp)
  have htype : x.required "ty" (TypeRef.ofValue? n) = some f.type :=
    hgives.required _ f.type.toValue (by simp) (by simp) (f.type.ofValue?_toValue n hdepth)
  have hstatic : x.withDefault "is_static" false Value.bool? = some f.isStatic :=
    hgives.withDefault _ (.bool f.isStatic) (by simp) (by simp) rfl
  have hconst : x.withDefault "is_const" false Value.bool? = some f.isConst :=
    hgives.withDefault _ (.bool f.isConst) (by simp) (by simp) rfl
  have hinit : x.withDefault "init" none (Fields.nullable Value.text?) = some f.init :=
    hgives.withDefault _ (.textOrNull f.init) (by simp) (by simp) (Fields.nullable_textOrNull _)
  simp [Decl.ofKind?, hx, htype, hstatic, hconst, hinit]

theorem Decl.ofKind?_var (i : Variable) (hdepth : i.type.toValue.depth ≤ n) :
    Decl.ofKind? n read h "variable" (.table [("ty", i.type.toValue), ("is_const", .bool i.isConst),
      ("init", .textOrNull i.init)]) = some (.var h i) := by
  obtain ⟨x, hx, hgives⟩ := Value.fields?_table ["ty", "is_const", "init"]
    (show ([("ty", i.type.toValue), ("is_const", .bool i.isConst),
      ("init", .textOrNull i.init)].map Prod.fst).Nodup by simp)
  have htype : x.required "ty" (TypeRef.ofValue? n) = some i.type :=
    hgives.required _ i.type.toValue (by simp) (by simp) (i.type.ofValue?_toValue n hdepth)
  have hconst : x.withDefault "is_const" false Value.bool? = some i.isConst :=
    hgives.withDefault _ (.bool i.isConst) (by simp) (by simp) rfl
  have hinit : x.withDefault "init" none (Fields.nullable Value.text?) = some i.init :=
    hgives.withDefault _ (.textOrNull i.init) (by simp) (by simp) (Fields.nullable_textOrNull _)
  simp [Decl.ofKind?, hx, htype, hconst, hinit]

theorem Decl.ofKind?_enumeration (e : Enumeration) :
    Decl.ofKind? n read h "enum" (.table [("enumerators",
      .list (e.enumerators.map EnumConstant.toValue)), ("is_scoped", .bool e.isScoped)]) =
      some (.enumeration h e) := by
  obtain ⟨x, hx, hgives⟩ := Value.fields?_table ["enumerators", "is_scoped"]
    (show ([("enumerators", .list (e.enumerators.map EnumConstant.toValue)),
      ("is_scoped", .bool e.isScoped)].map Prod.fst).Nodup by simp)
  have henumerators : x.withDefault "enumerators" [] (Value.listOf? EnumConstant.ofValue?) =
      some e.enumerators :=
    hgives.withDefault _ (.list (e.enumerators.map EnumConstant.toValue)) (by simp) (by simp)
      (Value.Arranges.id.listOf? fun c _ => c.ofValue?_toValue)
  have hscoped : x.withDefault "is_scoped" false Value.bool? = some e.isScoped :=
    hgives.withDefault _ (.bool e.isScoped) (by simp) (by simp) rfl
  simp [Decl.ofKind?, hx, henumerators, hscoped]

theorem Decl.ofKind?_typeAlias (target : TypeRef) (hdepth : target.toValue.depth ≤ n) :
    Decl.ofKind? n read h "type_alias" (.table [("target", target.toValue)]) =
      some (.typeAlias h target) := by
  obtain ⟨x, hx, hgives⟩ := Value.fields?_table ["target"]
    (show ([("target", target.toValue)].map Prod.fst).Nodup by simp)
  have htarget : x.required "target" (TypeRef.ofValue? n) = some target :=
    hgives.required _ target.toValue (by simp) (by simp) (target.ofValue?_toValue n hdepth)
  simp [Decl.ofKind?, hx, htarget]

end Kinds

mutual

/-- A declaration is read back from its value, given depth enough. -/
theorem Decl.ofValue?_toValue (inner : Bool) : (d : Decl) → (n : Nat) → d.toValue.depth ≤ n →
    Decl.ofValue? n inner d.toValue = some d
  | d, 0, hn => by cases d <;> simp [Decl.toValue, Header.toValue, Value.depth] at hn
  | .nameSpace h decls, n + 1, hn => by
    have hkind := Header.depth_kind hn
    simp only [Value.depthFields, Value.depth] at hkind
    have hdecls := Decl.mapM_ofValue?_toValues decls n (by omega)
    rw [Decl.toValue, Decl.ofValue?_header n inner h _ (by simp)]
    exact Decl.ofKind?_nameSpace h hdecls
  | .record h traits members, n + 1, hn => by
    have hkind := Header.depth_kind hn
    simp only [Value.depthFields, Value.depth] at hkind
    have hmembers := Decl.mapM_ofValue?_toValues members n (by omega)
    rw [Decl.toValue, Decl.ofValue?_header n inner h _ (by simp)]
    exact Decl.ofKind?_record h hmembers traits
  | .method h c, n + 1, hn => by
    have hkind := Header.depth_kind hn
    rw [Decl.toValue, Decl.ofValue?_header n inner h _ (by simp [Callable.toFields])]
    simp [Decl.ofKind?, c.ofValue?_toFields (n := n) (by omega)]
  | .constructor h c, n + 1, hn => by
    have hkind := Header.depth_kind hn
    rw [Decl.toValue, Decl.ofValue?_header n inner h _ (by simp [Callable.toFields])]
    simp [Decl.ofKind?, c.ofValue?_toFields (n := n) (by omega)]
  | .destructor h, n + 1, _ => by
    rw [Decl.toValue, Decl.ofValue?_header n inner h _ (by simp)]
    rfl
  | .function h c, n + 1, hn => by
    have hkind := Header.depth_kind hn
    rw [Decl.toValue, Decl.ofValue?_header n inner h _ (by simp [Callable.toFields])]
    simp [Decl.ofKind?, c.ofValue?_toFields (n := n) (by omega)]
  | .field h f, n + 1, hn => by
    have hkind := Header.depth_kind hn
    simp only [Value.depthFields, Value.depth] at hkind
    rw [Decl.toValue, Decl.ofValue?_header n inner h _ (by simp)]
    exact Decl.ofKind?_field h f (by omega)
  | .var h i, n + 1, hn => by
    have hkind := Header.depth_kind hn
    simp only [Value.depthFields, Value.depth] at hkind
    rw [Decl.toValue, Decl.ofValue?_header n inner h _ (by simp)]
    exact Decl.ofKind?_var h i (by omega)
  | .enumeration h e, n + 1, _ => by
    rw [Decl.toValue, Decl.ofValue?_header n inner h _ (by simp)]
    exact Decl.ofKind?_enumeration h e
  | .typeAlias h target, n + 1, hn => by
    have hkind := Header.depth_kind hn
    simp only [Value.depthFields] at hkind
    rw [Decl.toValue, Decl.ofValue?_header n inner h _ (by simp)]
    exact Decl.ofKind?_typeAlias h target (by omega)

theorem Decl.mapM_ofValue?_toValues : (ds : List Decl) → (n : Nat) →
    Value.depthList (Decl.toValues ds) ≤ n →
    (Decl.toValues ds).mapM (Decl.ofValue? n true) = some ds
  | [], _, _ => rfl
  | d :: ds, n, hn => by
    have hdepth : d.toValue.depth ≤ n ∧ Value.depthList (Decl.toValues ds) ≤ n := by
      simp [Decl.toValues, Value.depthList] at hn
      omega
    have hd := Decl.ofValue?_toValue true d n hdepth.1
    have hds := Decl.mapM_ofValue?_toValues ds n hdepth.2
    simp [Decl.toValues, hd, hds]

end

/-! ## Dumps can be written -/

theorem Value.isPlain_textOrNull (s : Option String) : (textOrNull s).isPlain = true := by
  cases s <;> rfl

theorem Location.isPlain_toValue (l : Location) : l.toValue.isPlain = true := by
  simp [Location.toValue, Value.isPlain, Value.isInt64_of_uint32]

theorem Location.isPlain_orNull (l : Option Location) : (Location.orNull l).isPlain = true := by
  cases l with
  | none => rfl
  | some l => exact l.isPlain_toValue

mutual

theorem TypeRef.isPlain_toValue : (t : TypeRef) → t.toValue.isPlain = true
  | .builtin _ | .named _ | .unresolved _ => rfl
  | .const t | .lvalueRef t | .rvalueRef t | .pointer t => by
    simp [TypeRef.toValue, Value.isPlain, t.isPlain_toValue]
  | .template _ args => by
    have hargs := TypeRef.isPlain_of_mem_toValues args
    simpa [TypeRef.toValue, Value.isPlain] using hargs
  | .function ret params => by
    have hparams := TypeRef.isPlain_of_mem_toValues params
    simpa [TypeRef.toValue, Value.isPlain, ret.isPlain_toValue] using hparams

theorem TypeRef.isPlain_of_mem_toValues : (ts : List TypeRef) →
    ∀ v ∈ TypeRef.toValues ts, v.isPlain = true
  | [] => by simp [TypeRef.toValues]
  | t :: ts => by
    simpa [TypeRef.toValues, t.isPlain_toValue] using TypeRef.isPlain_of_mem_toValues ts

end

theorem Callable.isPlain_toFields (c : Callable) : ∀ f ∈ c.toFields, f.2.isPlain = true := by
  simp [Callable.toFields, Value.isPlain, Param.toValue, TypeRef.isPlain_toValue]

theorem Header.isPlain_toValue (h : Header) (tag : String) (hkind : ∀ f ∈ kind, f.2.isPlain = true)
    : (h.toValue tag kind).isPlain = true := by
  simpa [Header.toValue, Value.isPlain, Value.texts, Location.isPlain_orNull] using hkind

mutual

theorem Decl.isPlain_toValue : (d : Decl) → d.toValue.isPlain = true
  | .nameSpace h decls => by
    have hdecls := Decl.isPlain_of_mem_toValues decls
    exact h.isPlain_toValue _ (by simpa [Value.isPlain] using hdecls)
  | .record h traits members => by
    have hmembers := Decl.isPlain_of_mem_toValues members
    exact h.isPlain_toValue _ (by simpa [Value.isPlain, Base.toValue] using hmembers)
  | .method h c => h.isPlain_toValue _ c.isPlain_toFields
  | .constructor h c => h.isPlain_toValue _ c.isPlain_toFields
  | .destructor h => h.isPlain_toValue _ (by simp)
  | .function h c => h.isPlain_toValue _ c.isPlain_toFields
  | .field h f => h.isPlain_toValue _
    (by simp [Value.isPlain, TypeRef.isPlain_toValue, Value.isPlain_textOrNull])
  | .var h i => h.isPlain_toValue _
    (by simp [Value.isPlain, TypeRef.isPlain_toValue, Value.isPlain_textOrNull])
  | .enumeration h e => h.isPlain_toValue _
    (by simp [Value.isPlain, EnumConstant.toValue, Value.isPlain_textOrNull])
  | .typeAlias h target => h.isPlain_toValue _ (by simp [TypeRef.isPlain_toValue])

theorem Decl.isPlain_of_mem_toValues : (ds : List Decl) →
    ∀ v ∈ Decl.toValues ds, v.isPlain = true
  | [] => by simp [Decl.toValues]
  | d :: ds => by
    simpa [Decl.toValues, d.isPlain_toValue] using Decl.isPlain_of_mem_toValues ds

end

theorem TranslationUnit.isPlain_toValue (u : TranslationUnit) : u.toValue.isPlain = true := by
  simpa [TranslationUnit.toValue, Value.isPlain] using Decl.isPlain_of_mem_toValues u.decls

/-! ## The nesting of a dump -/

/-- A header adds one level of nesting. -/
theorem Header.depth_toValue (h : Header) (tag : String) (kind : List (String × Value)) :
    (h.toValue tag kind).depth = (Value.table (("decl", .text tag) :: kind)).depth + 1 := by
  have hlocation : (Location.orNull h.location).depth ≤ 1 := by
    cases h.location <;> simp [Location.orNull, Location.toValue, Value.depth, Value.depthFields]
  have hannotations : (Value.texts h.annotations).depth = 1 := by
    have hflat : Value.depthList (h.annotations.map .text) = 0 := by
      induction h.annotations with
      | nil => rfl
      | cons s ss ih => simp [Value.depthList, Value.depth, ih]
    simp [Value.texts, Value.depth, hflat]
  simp only [Header.toValue, Value.depth, Value.depthFields]
  omega

/-- Every declaration is written as a header with a kind. -/
theorem Decl.exists_toValue_eq (d : Decl) : ∃ tag kind, d.toValue = d.header.toValue tag kind := by
  cases d <;> exact ⟨_, _, rfl⟩

/-- At the top of a dump a declaration is read exactly if it does not nest too deep. -/
theorem Decl.ofTopValue?_toValue (d : Decl) :
    Decl.ofTopValue? d.toValue = if d.toValue.depth + 2 ≤ maxNesting then some d else none := by
  obtain ⟨tag, kind, hd⟩ := d.exists_toValue_eq
  obtain ⟨x, hx, -, hget⟩ := d.header.fields?_toValue tag kind
  have hwhole : (Value.table (("decl", .text tag) :: kind)).isWhole = true := by
    have hplain := d.isPlain_toValue
    rw [hd] at hplain
    refine Value.isWhole_of_isPlain _ ?_
    simp [Header.toValue, Value.isPlain] at hplain ⊢
    exact hplain.2.2
  have hdepth := d.header.depth_toValue tag kind
  simp only [Decl.ofTopValue?, hx, hget, hwhole, hd, hdepth, Option.bind_eq_bind,
    Option.bind_some, Bool.true_and, decide_eq_true_eq]
  by_cases hn : (Value.table (("decl", .text tag) :: kind)).depth + 3 ≤ maxNesting
  · rw [if_pos hn, if_pos hn, ← hd]
    exact d.ofValue?_toValue false maxNesting (by rw [hd, hdepth]; omega)
  · rw [if_neg hn, if_neg hn]

theorem Decl.mapM_ofTopValue?_toValues (ds : List Decl) :
    (Decl.toValues ds).mapM Decl.ofTopValue? =
      if Value.depthList (Decl.toValues ds) + 2 ≤ maxNesting then some ds else none := by
  induction ds with
  | nil => rfl
  | cons d ds ih =>
    rw [Decl.toValues, List.mapM_cons, ih, Decl.ofTopValue?_toValue, Value.depthList]
    by_cases hd : d.toValue.depth + 2 ≤ maxNesting
    · by_cases hds : Value.depthList (Decl.toValues ds) + 2 ≤ maxNesting
      · rw [if_pos hd, if_pos hds, if_pos (by omega)]
        rfl
      · rw [if_pos hd, if_neg hds, if_neg (by omega)]
        rfl
    · have hmax : ¬ max d.toValue.depth (Value.depthList (Decl.toValues ds)) + 2 ≤ maxNesting := by
        omega
      rw [if_neg hd, if_neg hmax]
      rfl

/-- A unit is read back unless it is nested too deep. -/
theorem TranslationUnit.ofValue?_toValue (u : TranslationUnit) :
    TranslationUnit.ofValue? u.toValue =
      if u.toValue.depth ≤ maxNesting then some u else none := by
  have hdepth : u.toValue.depth = Value.depthList (Decl.toValues u.decls) + 2 := by
    simp [TranslationUnit.toValue, Value.depth, Value.depthFields]
  obtain ⟨x, hx, hgives⟩ : ∃ x, u.toValue.fields? ["file_path", "decls"] = some x ∧ x.Gives _ _ :=
    Value.fields?_table _ (by simp)
  have hpath : x.required "file_path" Value.text? = some u.filePath :=
    hgives.required _ (.text u.filePath) (by simp) (by simp) rfl
  have hget : x.get? "decls" = some (.list (Decl.toValues u.decls)) := by
    rw [hgives.get? "decls" (by simp)]
    simp
  have hdecls : x.withDefault "decls" [] (Value.listOf? Decl.ofTopValue?) =
      if u.toValue.depth ≤ maxNesting then some u.decls else none := by
    unfold Fields.withDefault
    rw [hget, hdepth]
    exact Decl.mapM_ofTopValue?_toValues u.decls
  simp only [TranslationUnit.ofValue?, hx, hpath, hdecls, Option.bind_eq_bind, Option.bind_some]
  split <;> rfl

/-- A unit is read back from the JSON text of its document form, on one line and on several, if that
nests at most `maxNesting` levels; a deeper one is refused. -/
theorem TranslationUnit.ofJson?_dump (u : TranslationUnit) :
    TranslationUnit.ofJson? (Json.compact u.toValue) =
        (if u.toValue.depth ≤ maxNesting then some u else none) ∧
      TranslationUnit.ofJson? (Json.pretty u.toValue) =
        (if u.toValue.depth ≤ maxNesting then some u else none) := by
  unfold TranslationUnit.ofJson?
  rw [Json.parse?_compact u.isPlain_toValue, Json.parse?_pretty u.isPlain_toValue]
  exact ⟨u.ofValue?_toValue, u.ofValue?_toValue⟩

end ScriptExport
