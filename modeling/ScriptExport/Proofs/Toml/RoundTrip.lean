import Mathlib.Data.List.Nodup
import ScriptExport.Proofs.Document.Arrangement
import ScriptExport.Proofs.Toml.Lines

/-!
# Reading written TOML

A table is written with its plain values first and its sub-tables under headers behind them, so reading
gives the fields in that order (`arrange`). While the parts of a sub-table are read, all changes to the
document happen at one place in it: `Focus` says how an edit at a path acts there. The induction follows
the writer over sections, single sections and the tables of a list, and ends in `parse?_print`.
-/

namespace ScriptExport

namespace Value

theorem lookup_perm {key : String} {fs gs : List (String × Value)} (h : fs.Perm gs)
    (hnodup : (fs.map Prod.fst).Nodup) : lookup key fs = lookup key gs := by
  induction h with
  | nil => rfl
  | cons f _ ih =>
    rw [lookup_cons, lookup_cons, ih (List.nodup_cons.mp hnodup).2]
  | swap f g fs =>
    have hne : g.1 ≠ f.1 := by
      rintro heq
      simp [heq] at hnodup
    by_cases hf : f.1 = key
    · subst hf
      simp [hne]
    · simp [hf]
  | trans h _ ih ih' => rw [ih hnodup, ih' ((h.map Prod.fst).nodup_iff.mp hnodup)]

theorem lookup_map (f : Value → Value) (key : String) (fs : List (String × Value)) :
    lookup key (fs.map fun g => (g.1, f g.2)) = (lookup key fs).map f := by
  induction fs with
  | nil => rfl
  | cons g fs ih =>
    rw [List.map_cons, lookup_cons, lookup_cons, ih]
    split <;> rfl

end Value

namespace Toml

/-! ## The order of fields -/

/-- The fields with those on assignment lines in front. -/
def inlineFirst (fs : List (String × Value)) : List (String × Value) :=
  fs.filter (fun f => !isSection f.2) ++ fs.filter fun f => isSection f.2

mutual

/-- A value with the fields of its tables in written order. -/
def arrange : Value → Value
  | .list vs => .list (arrangeList vs)
  | .table fs => .table (inlineFirst (arrangeFields fs))
  | v => v

/-- Values with the fields of their tables in written order. -/
def arrangeList : List Value → List Value
  | [] => []
  | v :: vs => arrange v :: arrangeList vs

/-- Fields with the fields of their own tables in written order. -/
def arrangeFields : List (String × Value) → List (String × Value)
  | [] => []
  | (k, v) :: fs => (k, arrange v) :: arrangeFields fs

end

theorem arrangeList_eq (vs : List Value) : arrangeList vs = vs.map arrange := by
  induction vs with
  | nil => rfl
  | cons v vs ih => rw [arrangeList, ih, List.map_cons]

theorem arrangeFields_eq (fs : List (String × Value)) :
    arrangeFields fs = fs.map fun f => (f.1, arrange f.2) := by
  induction fs with
  | nil => rfl
  | cons f fs ih => rw [arrangeFields, ih, List.map_cons]

theorem isSection_arrange (v : Value) : isSection (arrange v) = isSection v := by
  cases v with
  | list vs =>
    cases vs with
    | nil => rfl
    | cons v vs => cases v <;> rfl
  | _ => rfl

theorem arrange_of_isAtom {v : Value} (hv : isAtom v = true) : arrange v = v := by
  cases v with
  | list vs => cases hv
  | table fs => cases hv
  | _ => rfl

theorem arrange_of_isInline {v : Value} (hv : isInline v = true) : arrange v = v := by
  cases v with
  | list vs =>
    have hvs := List.all_eq_true.mp hv
    rw [arrange, arrangeList_eq, List.map_congr_left fun v hv => arrange_of_isAtom (hvs v hv),
      List.map_id']
  | table fs => cases hv
  | _ => rfl

theorem inlineFirst_perm (fs : List (String × Value)) : (inlineFirst fs).Perm fs := by
  have h := List.filter_append_perm (fun f : String × Value => !isSection f.2) fs
  simpa [inlineFirst] using h

/-- Written order keeps what stands under each key. -/
theorem arranges_arrange : Value.Arranges arrange where
  text _ := rfl
  bool _ := rfl
  int _ := rfl
  list vs := by rw [arrange, arrangeList_eq]
  texts es := by
    have hfields : arrangeFields (es.map fun e => (e.1, Value.text e.2)) =
        es.map fun e => (e.1, Value.text e.2) := by
      rw [arrangeFields_eq, List.map_map]
      rfl
    have hinline : ∀ f ∈ es.map (fun e => (e.1, Value.text e.2)), isSection f.2 = false := by
      intro f hf
      obtain ⟨e, -, rfl⟩ := List.mem_map.mp hf
      rfl
    rw [arrange, hfields, inlineFirst, List.filter_eq_self.mpr fun f hf => by rw [hinline f hf]; rfl,
      List.filter_eq_nil_iff.mpr fun f hf => by rw [hinline f hf]; decide, List.append_nil]
  table fs hnodup := by
    have hperm := inlineFirst_perm (arrangeFields fs)
    have hkeys : (arrangeFields fs).map Prod.fst = fs.map Prod.fst := by
      rw [arrangeFields_eq, List.map_map]
      rfl
    have hnodup' : ((inlineFirst (arrangeFields fs)).map Prod.fst).Nodup := by
      rw [(hperm.map Prod.fst).nodup_iff, hkeys]
      exact hnodup
    refine ⟨_, by rw [arrange], hnodup', fun key => ?_⟩
    rw [Value.lookup_perm hperm hnodup', arrangeFields_eq, Value.lookup_map]

/-! ## A place in the document -/

namespace Table

theorem get?_eq_none {t : Table} {key : String} (h : key ∉ t.map Prod.fst) : t.get? key = none := by
  simp only [get?, Option.map_eq_none_iff, List.find?_eq_none, beq_iff_eq]
  rintro e he rfl
  exact h (List.mem_map_of_mem he)

theorem get?_append_cons {t : Table} {key : String} (h : key ∉ t.map Prod.fst) (node : Node) :
    get? (t ++ [(key, node)]) key = some node := by
  have hnone : t.find? (fun e => e.1 == key) = none := by simpa [get?] using get?_eq_none h
  simp [get?, hnone]

theorem replace_append_cons {t : Table} {key : String} (h : key ∉ t.map Prod.fst)
    (node node' : Node) : replace (t ++ [(key, node)]) key node' = t ++ [(key, node')] := by
  have hsame : t.map (fun e => if e.1 == key then (key, node') else e) = t := by
    refine (List.map_congr_left fun e he => ?_).trans (List.map_id t)
    have hne : e.1 ≠ key := by
      rintro rfl
      exact h (List.mem_map_of_mem he)
    simp [hne]
  rw [replace, List.map_append, hsame]
  simp

theorem update?_append (dotted : Bool) (edit : Table → Option Table) (p q : List String) (t : Table) :
    update? dotted edit (p ++ q) t = update? dotted (update? dotted edit q) p t := by
  induction p generalizing t with
  | nil => rfl
  | cons key p ih => simp only [List.cons_append, update?, ih]

theorem header?_append (repeated : Bool) (p : List String) (key : String) (t : Table) :
    header? repeated (p ++ [key]) t =
      update? false (if repeated then openElement? key else openTable? key) p t := by
  simp [header?]

/-- The table with the tables of a repeated header that have been read so far. -/
def addElements (t : Table) (key : String) : List Table → Table
  | [] => t
  | ts => t ++ [(key, .tables ts)]

theorem openElement?_addElements {t : Table} {key : String} (h : key ∉ t.map Prod.fst)
    (ts : List Table) :
    openElement? key (t.addElements key ts) = some (t ++ [(key, .tables (ts ++ [[]]))]) := by
  cases ts with
  | nil => simp [openElement?, addElements, get?_eq_none h]
  | cons u us =>
    simp [openElement?, addElements, get?_append_cons h, replace_append_cons h]

theorem addElements_append_cons (t : Table) (key : String) (ts us : List Table) (u : Table) :
    t.addElements key (ts ++ u :: us) = t ++ [(key, .tables (ts ++ u :: us))] := by
  cases ts <;> rfl

end Table

/-- An edit at the path changes one table of the document, the rest of which is fixed. -/
def Focus (p : List String) (put : Table → Table) : Prop :=
  ∀ edit t, Table.update? false edit p (put t) = (edit t).map put

namespace Focus

variable {p : List String} {put : Table → Table} {t : Table} {k : String}

theorem root : Focus [] id := by
  intro edit t
  simp [Table.update?]

theorem table (h : Focus p put) (hk : k ∉ t.map Prod.fst) :
    Focus (p ++ [k]) fun inner => put (t ++ [(k, .table .explicit inner)]) := by
  intro edit inner
  rw [Table.update?_append, h]
  simp only [Table.update?, Table.get?_append_cons hk, Table.replace_append_cons hk]
  cases edit inner <;> rfl

theorem element (h : Focus p put) (hk : k ∉ t.map Prod.fst) (done : List Table) :
    Focus (p ++ [k]) fun inner => put (t ++ [(k, .tables (done ++ [inner]))]) := by
  intro edit inner
  rw [Table.update?_append, h]
  simp only [Table.update?, Table.get?_append_cons hk, Table.replace_append_cons hk,
    List.getLast?_concat, List.dropLast_concat]
  cases edit inner <;> rfl

theorem header? (h : Focus p put) (hk : k ∉ t.map Prod.fst) :
    Table.header? false (p ++ [k]) (put t) = some (put (t ++ [(k, .table .explicit [])])) := by
  rw [Table.header?_append, h]
  simp [Table.openTable?, Table.get?_eq_none hk]

theorem repeatedHeader? (h : Focus p put) (hk : k ∉ t.map Prod.fst) (done : List Table) :
    Table.header? true (p ++ [k]) (put (t.addElements k done)) =
      some (put (t ++ [(k, .tables (done ++ [[]]))])) := by
  rw [Table.header?_append, h]
  simp [Table.openElement?_addElements hk]

theorem assign? (h : Focus p put) (hk : k ∉ t.map Prod.fst) (v : Value) :
    Table.update? false (Table.assign? k v) p (put t) = some (put (t ++ [(k, .leaf v)])) := by
  rw [h]
  simp [Table.assign?, Table.get?_eq_none hk]

end Focus

/-! ## Values that can be written -/

/-- Whether the value is a table. -/
def isTable : Value → Bool
  | .table _ => true
  | _ => false

mutual

/-- Whether TOML can hold the value: lists are of plain values or of tables, keys are distinct, and the
keys of sub-tables are bare. -/
def isWritable : Value → Bool
  | .list vs => vs.all isAtom || isWritableList vs
  | .table fs => decide (fs.map Prod.fst).Nodup && isWritableFields fs
  | v => isAtom v

/-- Whether the values are tables that TOML can hold. -/
def isWritableList : List Value → Bool
  | [] => true
  | v :: vs => isTable v && isWritable v && isWritableList vs

/-- Whether TOML can hold the fields. -/
def isWritableFields : List (String × Value) → Bool
  | [] => true
  | (k, v) :: fs => (!isSection v || isBareKey k) && isWritable v && isWritableFields fs

end

variable {fs : List (String × Value)}

theorem isWritable_table_iff : isWritable (.table fs) = true ↔
    (fs.map Prod.fst).Nodup ∧ isWritableFields fs = true := by
  rw [isWritable, Bool.and_eq_true, decide_eq_true_eq]

theorem isWritableList_iff {vs : List Value} :
    isWritableList vs = true ↔ ∀ v ∈ vs, isTable v = true ∧ isWritable v = true := by
  induction vs with
  | nil => simp [isWritableList]
  | cons v vs ih => simp [isWritableList, ih]

theorem isWritableFields_iff : isWritableFields fs = true ↔
    ∀ f ∈ fs, (isSection f.2 = true → isBareKey f.1 = true) ∧ isWritable f.2 = true := by
  induction fs with
  | nil => simp [isWritableFields]
  | cons f fs ih =>
    cases hf : isSection f.2 <;> simp [isWritableFields, ih, hf]

theorem isInline_of_isWritable {v : Value} (hv : isWritable v = true) (hsection : isSection v = false) :
    isInline v = true := by
  cases v with
  | list vs =>
    rw [isWritable, Bool.or_eq_true] at hv
    rcases hv with hv | hv
    · exact hv
    · cases vs with
      | nil => rfl
      | cons v vs =>
        have htable := (isWritableList_iff.mp hv v List.mem_cons_self).1
        cases v with
        | table fs => cases hsection
        | _ => cases htable
  | table fs => cases hsection
  | _ => exact hv

mutual

/-- What can be written is plain. -/
theorem isPlain_of_isWritable : (v : Value) → isWritable v = true → v.isPlain = true
  | .list vs, h => by
    rw [isWritable, Bool.or_eq_true] at h
    rw [Value.isPlain]
    rcases h with h | h
    · rw [Value.isPlainList_iff]
      intro v hv
      have hatom := List.all_eq_true.mp h v hv
      cases v <;> first | exact hatom | rfl | cases hatom
    · exact isPlainList_of_isWritable vs h
  | .table fs, h => isPlainFields_of_isWritable fs (isWritable_table_iff.mp h).2
  | .bool _, _ => rfl
  | .text _, _ => rfl
  | .int _, h => h

theorem isPlainList_of_isWritable : (vs : List Value) → isWritableList vs = true →
    Value.isPlainList vs = true
  | [], _ => rfl
  | v :: vs, h => by
    simp only [isWritableList, Bool.and_eq_true] at h
    rw [Value.isPlainList, isPlain_of_isWritable v h.1.2, isPlainList_of_isWritable vs h.2]
    rfl

theorem isPlainFields_of_isWritable : (fs : List (String × Value)) → isWritableFields fs = true →
    Value.isPlainFields fs = true
  | [], _ => rfl
  | (_, v) :: fs, h => by
    simp only [isWritableFields, Bool.and_eq_true] at h
    rw [Value.isPlainFields, isPlain_of_isWritable v h.1.2, isPlainFields_of_isWritable fs h.2]
    rfl

end

/-! ## Assignments -/

theorem entryValues_append (t u : Table) : entryValues (t ++ u) = entryValues t ++ entryValues u := by
  induction t with
  | nil => rfl
  | cons e t ih => rw [List.cons_append, entryValues, entryValues, ih, List.cons_append]

/-- The entries of fields on assignment lines. -/
def leaves (fs : List (String × Value)) : Table :=
  (fs.filter fun f => !isSection f.2).map fun f => (f.1, .leaf f.2)

theorem entryValues_leaves (h : isWritableFields fs = true) :
    entryValues (leaves fs) = (arrangeFields fs).filter fun f => !isSection f.2 := by
  rw [isWritableFields_iff] at h
  induction fs with
  | nil => rfl
  | cons f fs ih =>
    have hrest := ih fun g hg => h g (List.mem_cons_of_mem f hg)
    rw [arrangeFields]
    cases hf : isSection f.2 with
    | true =>
      rw [List.filter_cons_of_neg (by simp [isSection_arrange, hf]), ← hrest]
      simp [leaves, hf]
    | false =>
      have hinline := isInline_of_isWritable (h f List.mem_cons_self).2 hf
      rw [List.filter_cons_of_pos (by simp [isSection_arrange, hf]), ← hrest,
        arrange_of_isInline hinline]
      simp [leaves, hf, entryValues, Node.toValue]

/-- The assignments of a document add its inline fields. -/
theorem runs_assignments {p : List String} {put : Table → Table} (hp : Focus p put)
    (h : isWritableFields fs = true) (hnodup : (fs.map Prod.fst).Nodup) :
    Runs (assignments fs).toList p (put []) p (put (leaves fs)) := by
  have hlines : ∀ (gs : List (String × Value)) (t : Table), (∀ g ∈ gs, isInline g.2 = true) →
      (t.map Prod.fst ++ gs.map Prod.fst).Nodup →
      Runs (gs.flatMap fun g => (key g.1 ++ " = " ++ inlineValue g.2 ++ "\n").toList) p (put t) p
        (put (t ++ gs.map fun g => (g.1, .leaf g.2))) := by
    intro gs
    induction gs with
    | nil =>
      intro t _ _
      rw [List.map_nil, List.append_nil]
      exact .refl _ _
    | cons g gs ih =>
      intro t hinline hkeys
      have hk : g.1 ∉ t.map Prod.fst := by
        intro hmem
        exact (List.nodup_append.mp hkeys).2.2 _ hmem _ List.mem_cons_self rfl
      have hline := runs_assignment (hinline g List.mem_cons_self) (hp.assign? hk g.2)
      have hrest := ih (t ++ [(g.1, .leaf g.2)]) (fun d hd => hinline d (List.mem_cons_of_mem g hd))
        (by simpa using hkeys)
      rw [List.append_assoc] at hrest
      exact Consumes.trans hline hrest
  rw [isWritableFields_iff] at h
  have hall := hlines (fs.filter fun f => !isSection f.2) [] ?_ ?_
  · simpa [assignments, leaves, List.flatMap_map] using hall
  · intro f hf
    obtain ⟨hf, hsection⟩ := List.mem_filter.mp hf
    exact isInline_of_isWritable (h f hf).2 (by simpa using hsection)
  · exact (List.filter_sublist.map Prod.fst).nodup hnodup

/-! ## Sub-tables -/

/-- The text of parts, each after an empty line. -/
def partsText (parts : Parts) : List Char :=
  parts.flatMap fun part => '\n' :: part.toList

/-- The parts add the sub-tables among the fields to the table at the path, whatever the reader's header
was before. -/
def AddsSections (p : List String) (put : Table → Table) (fs : List (String × Value)) (t : Table) :
    Prop :=
  ∀ scope, ∃ es scope', entryValues es = (arrangeFields fs).filter (fun f => isSection f.2) ∧
    Runs (partsText (sections p fs)) scope (put t) scope' (put (t ++ es))

/-- Assignments and parts together fill the table at the path. -/
theorem runs_fields {p : List String} {put : Table → Table} (hp : Focus p put)
    (h : isWritable (.table fs) = true) (hsections : AddsSections p put fs (leaves fs)) :
    ∃ es scope', Value.table (entryValues es) = arrange (.table fs) ∧
      Runs ((assignments fs).toList ++ partsText (sections p fs)) p (put []) scope' (put es) := by
  obtain ⟨hnodup, hfields⟩ := isWritable_table_iff.mp h
  obtain ⟨es, scope', hes, hruns⟩ := hsections p
  refine ⟨leaves fs ++ es, scope', ?_, (runs_assignments hp hfields hnodup).trans hruns⟩
  rw [entryValues_append, entryValues_leaves hfields, hes, arrange]
  rfl

/-- A sub-table's key is not on an assignment line of the same table. -/
theorem not_mem_leaves (hnodup : (fs.map Prod.fst).Nodup) :
    ∀ f ∈ fs, isSection f.2 = true → f.1 ∉ (leaves fs).map Prod.fst := by
  intro f hf hsection hmem
  simp only [leaves, List.map_map, List.mem_map, List.mem_filter, Function.comp_apply] at hmem
  obtain ⟨g, ⟨hg, hinline⟩, heq⟩ := hmem
  have hsame : g = f := List.inj_on_of_nodup_map hnodup hg hf heq
  rw [hsame, hsection] at hinline
  cases hinline

theorem not_mem_append_cons {t : Table} {k : String} {n : Node} (hk : k ∉ fs.map Prod.fst)
    (ht : ∀ f ∈ fs, isSection f.2 = true → f.1 ∉ t.map Prod.fst) :
    ∀ f ∈ fs, isSection f.2 = true → f.1 ∉ (t ++ [(k, n)]).map Prod.fst := by
  intro f hf hsection hmem
  rw [List.map_append, List.mem_append] at hmem
  rcases hmem with hmem | hmem
  · exact ht f hf hsection hmem
  · rw [List.map_singleton, List.mem_singleton] at hmem
    have hkey : f.1 = k := hmem
    exact hk (hkey ▸ List.mem_map_of_mem hf)

theorem elementParts_of_isAtom {vs : List Value} (h : ∀ v ∈ vs, isAtom v = true) (p : List String) :
    elementParts p vs = [] := by
  induction vs with
  | nil => rfl
  | cons v vs ih =>
    have hrest := ih fun w hw => h w (List.mem_cons_of_mem v hw)
    have hv := h v List.mem_cons_self
    cases v with
    | table fs => cases hv
    | _ => exact hrest

theorem sectionParts_of_inline {v : Value} (hv : isWritable v = true) (hsection : isSection v = false)
    (p : List String) : sectionParts p v = [] := by
  have hinline := isInline_of_isWritable hv hsection
  cases v with
  | list vs => exact elementParts_of_isAtom (List.all_eq_true.mp hinline) p
  | table fs => cases hsection
  | _ => rfl

mutual

/-- A section adds its table. -/
theorem runs_sectionParts : (v : Value) → isSection v = true → isWritable v = true →
    ∀ ⦃p : List String⦄ ⦃put : Table → Table⦄ ⦃t : Table⦄ ⦃k : String⦄, Focus p put →
      (∀ l ∈ p ++ [k], isBareKey l = true) → k ∉ t.map Prod.fst → ∀ scope, ∃ n scope',
        n.toValue = arrange v ∧
          Runs (partsText (sectionParts (p ++ [k]) v)) scope (put t) scope' (put (t ++ [(k, n)]))
  | .table fs, _, h => by
    intro p put t k hp hbare hk scope
    have hfocus := hp.table hk
    obtain ⟨hnodup, hfields⟩ := isWritable_table_iff.mp h
    obtain ⟨es, scope', hes, hruns⟩ := runs_fields hfocus h
      (runs_sections fs hfields hfocus hbare hnodup (not_mem_leaves hnodup))
    have hheader := runs_header scope (by simp) hbare (hp.header? hk)
    refine ⟨.table .explicit es, scope', hes, ?_⟩
    have hline := (runs_blank scope (put t)).trans (hheader.trans hruns)
    simpa [sectionParts, partsText, Runs] using hline
  | .list vs, hsection, h => by
    intro p put t k hp hbare hk scope
    have hlist : isWritableList vs = true ∧ vs ≠ [] := by
      cases vs with
      | nil => cases hsection
      | cons v vs =>
        cases v with
        | table fs =>
          have hatom : isAtom (.table fs) = false := rfl
          rw [isWritable, List.all_cons, hatom, Bool.false_and, Bool.false_or] at h
          exact ⟨h, List.cons_ne_nil _ _⟩
        | _ => cases hsection
    obtain ⟨ts, scope', hts, hruns⟩ := runs_elementParts vs hlist.1 hp hbare hk [] scope
    cases ts with
    | nil =>
      rw [arrangeList_eq] at hts
      exact absurd (List.map_eq_nil_iff.mp hts.symm) hlist.2
    | cons u us =>
      refine ⟨.tables (u :: us), scope', ?_, hruns⟩
      rw [Node.toValue, hts, arrange]

theorem runs_elementParts : (vs : List Value) → isWritableList vs = true →
    ∀ ⦃p : List String⦄ ⦃put : Table → Table⦄ ⦃t : Table⦄ ⦃k : String⦄, Focus p put →
      (∀ l ∈ p ++ [k], isBareKey l = true) → k ∉ t.map Prod.fst → ∀ done scope, ∃ ts scope',
        tableValues ts = arrangeList vs ∧
          Runs (partsText (elementParts (p ++ [k]) vs)) scope (put (t.addElements k done)) scope'
            (put (t.addElements k (done ++ ts)))
  | [], _ => by
    intro p put t k hp hbare hk done scope
    refine ⟨[], scope, rfl, ?_⟩
    rw [List.append_nil]
    exact .refl _ _
  | .table fs :: vs, h => by
    intro p put t k hp hbare hk done scope
    simp only [isWritableList, Bool.and_eq_true] at h
    obtain ⟨⟨-, h⟩, hvs⟩ := h
    have hfocus := hp.element hk done
    obtain ⟨hnodup, hfields⟩ := isWritable_table_iff.mp h
    obtain ⟨es, scope', hes, hruns⟩ := runs_fields hfocus h
      (runs_sections fs hfields hfocus hbare hnodup (not_mem_leaves hnodup))
    have hheader := runs_repeatedHeader scope (by simp) hbare (hp.repeatedHeader? hk done)
    have hline := (runs_blank scope (put (t.addElements k done))).trans (hheader.trans hruns)
    obtain ⟨ts, scope'', hts, hrest⟩ := runs_elementParts vs hvs hp hbare hk (done ++ [es]) scope'
    refine ⟨es :: ts, scope'', ?_, ?_⟩
    · rw [tableValues, arrangeList, hes, hts]
    · rw [Table.addElements_append_cons] at hrest
      have hall := hline.trans hrest
      simpa [elementParts, partsText, Runs] using hall
  | .null :: _, h | .bool _ :: _, h | .int _ :: _, h | .float :: _, h | .text _ :: _, h
  | .list _ :: _, h | .malformed :: _, h => by simp [isWritableList, isTable] at h

/-- The sections of a document add its sub-tables. -/
theorem runs_sections : (fs : List (String × Value)) → isWritableFields fs = true →
    ∀ ⦃p : List String⦄ ⦃put : Table → Table⦄ ⦃t : Table⦄, Focus p put →
      (∀ l ∈ p, isBareKey l = true) → (fs.map Prod.fst).Nodup →
      (∀ f ∈ fs, isSection f.2 = true → f.1 ∉ t.map Prod.fst) → AddsSections p put fs t
  | [], _ => by
    intro p put t hp hbare hnodup ht scope
    refine ⟨[], scope, rfl, ?_⟩
    rw [List.append_nil]
    exact .refl _ _
  | (k, v) :: fs, h => by
    intro p put t hp hbare hnodup ht scope
    simp only [isWritableFields, Bool.and_eq_true] at h
    obtain ⟨⟨hkey, hv⟩, hfs⟩ := h
    obtain ⟨hk, hnodup⟩ := List.nodup_cons.mp hnodup
    cases hsection : isSection v with
    | false =>
      have hempty : sectionParts (p ++ [k]) v = [] := sectionParts_of_inline hv hsection _
      obtain ⟨es, scope', hes, hruns⟩ := runs_sections fs hfs hp hbare hnodup
        (fun f hf => ht f (List.mem_cons_of_mem _ hf)) scope
      refine ⟨es, scope', ?_, ?_⟩
      · rw [arrangeFields, List.filter_cons_of_neg (by simp [isSection_arrange, hsection]), hes]
      · rw [sections, hempty]
        exact hruns
    | true =>
      have hbare' : ∀ l ∈ p ++ [k], isBareKey l = true := by
        intro l hl
        rcases List.mem_append.mp hl with hl | hl
        · exact hbare l hl
        · rw [List.mem_singleton.mp hl]
          simpa [hsection] using hkey
      obtain ⟨n, scope', hn, hruns⟩ := runs_sectionParts v hsection hv hp hbare'
        (ht (k, v) List.mem_cons_self hsection) scope
      obtain ⟨es, scope'', hes, hrest⟩ := runs_sections fs hfs hp hbare hnodup
        (not_mem_append_cons hk fun f hf => ht f (List.mem_cons_of_mem _ hf)) scope'
      refine ⟨(k, n) :: es, scope'', ?_, ?_⟩
      · rw [entryValues, hn, hes, arrangeFields,
          List.filter_cons_of_pos (by simp [isSection_arrange, hsection])]
      · rw [sections, partsText, List.flatMap_append]
        rw [List.append_assoc] at hrest
        exact hruns.trans hrest

end

/-! ## Documents -/

/-- A part after an empty line can stand without it. -/
theorem Runs.of_blank {cs : List Char} {scope scope' : List String} {root root' : Table}
    (h : Runs ('\n' :: cs) scope root scope' root') : Runs cs scope root scope' root' := by
  intro rest
  exact (runs_blank scope root (cs ++ rest)).symm.trans (h rest)

/-- Reading a document gives its fields as arranged. -/
theorem runs_document (h : isWritable (.table fs) = true) :
    ∃ root scope', Value.table (entryValues root) = arrange (.table fs) ∧
      Runs (document fs).toList [] [] scope' root := by
  obtain ⟨hnodup, hfields⟩ := isWritable_table_iff.mp h
  obtain ⟨root, scope', hroot, hruns⟩ := runs_fields .root h
    (runs_sections fs hfields .root (by simp) hnodup (not_mem_leaves hnodup))
  refine ⟨root, scope', hroot, ?_⟩
  unfold document
  dsimp only
  split
  · next hparts =>
    rw [hparts] at hruns
    simpa [partsText] using hruns
  · next part rest hparts =>
    rw [hparts] at hruns
    split
    · next htop =>
      have htop : (assignments fs).toList = [] := by simpa using htop
      rw [htop] at hruns
      refine Runs.of_blank ?_
      simpa [partsText, List.flatMap_map] using hruns
    · simpa [partsText, List.flatMap_map] using hruns

/-- A written key starts with a quote or a character of bare keys. -/
theorem key_head (s : String) : ∃ c cs, (key s).toList = c :: cs ∧ c ≠ '\ufeff' := by
  have hchars : (key s).toList = keyChars s.toList := by simp [key]
  rw [hchars]
  unfold keyChars
  dsimp only
  split
  · next hbare =>
    obtain ⟨hne, hall⟩ := isBareKey_iff.mp hbare
    obtain ⟨c, cs, hcs⟩ := List.exists_cons_of_ne_nil hne
    refine ⟨c, cs, hcs, ?_⟩
    rintro rfl
    have hc := hall '\ufeff' (by simp [hcs])
    revert hc
    decide
  · split
    · exact ⟨_, _, rfl, by decide⟩
    · split
      · exact ⟨_, _, rfl, by decide⟩
      · exact ⟨_, _, rfl, by decide⟩

theorem assignments_head (fs : List (String × Value)) : (assignments fs).toList = [] ∨
    ∃ c cs, (assignments fs).toList = c :: cs ∧ c ≠ '\ufeff' := by
  unfold assignments
  cases fs.filter fun f => !isSection f.2 with
  | nil => exact .inl rfl
  | cons f fs =>
    obtain ⟨c, cs, hkey, hc⟩ := key_head f.1
    have htext : (String.join ((f :: fs).map fun f => key f.1 ++ " = " ++ inlineValue f.2 ++ "\n")).toList =
        (key f.1).toList ++ (" = " ++ inlineValue f.2 ++ "\n" ++
          String.join (fs.map fun f => key f.1 ++ " = " ++ inlineValue f.2 ++ "\n")).toList := by
      simp
    rw [htext, hkey]
    exact .inr ⟨c, _, rfl, hc⟩

/-- The text starts with the bracket of a header. -/
def StartsHeader (part : String) : Prop :=
  ∃ cs, part.toList = '[' :: cs

mutual

theorem startsHeader_sections (p : List String) : (fs : List (String × Value)) →
    ∀ part ∈ sections p fs, StartsHeader part
  | [] => by
    intro part hpart
    cases hpart
  | (k, v) :: fs => by
    intro part hpart
    rcases List.mem_append.mp hpart with hpart | hpart
    · exact startsHeader_sectionParts (p ++ [k]) v part hpart
    · exact startsHeader_sections p fs part hpart

theorem startsHeader_sectionParts (p : List String) : (v : Value) →
    ∀ part ∈ sectionParts p v, StartsHeader part
  | .table fs => by
    intro part hpart
    rcases List.mem_cons.mp hpart with rfl | hpart
    · exact ⟨_, by simp only [String.toList_append]; rfl⟩
    · exact startsHeader_sections p fs part hpart
  | .list vs => startsHeader_elementParts p vs
  | .null | .bool _ | .int _ | .float | .text _ | .malformed => by
    intro part hpart
    cases hpart

theorem startsHeader_elementParts (p : List String) : (vs : List Value) →
    ∀ part ∈ elementParts p vs, StartsHeader part
  | [] => by
    intro part hpart
    cases hpart
  | .table fs :: vs => by
    intro part hpart
    rcases List.mem_append.mp hpart with hpart | hpart
    · rcases List.mem_cons.mp hpart with rfl | hpart
      · exact ⟨_, by simp only [String.toList_append]; rfl⟩
      · exact startsHeader_sections p fs part hpart
    · exact startsHeader_elementParts p vs part hpart
  | .null :: vs | .bool _ :: vs | .int _ :: vs | .float :: vs | .text _ :: vs | .list _ :: vs
  | .malformed :: vs => startsHeader_elementParts p vs

end

/-- A written document has no byte order mark. -/
theorem dropByteOrderMark_document (fs : List (String × Value)) :
    dropByteOrderMark (document fs).toList = (document fs).toList := by
  have hcons : ∀ c cs, c ≠ '\ufeff' → dropByteOrderMark (c :: cs) = c :: cs := by
    intro c cs hc
    unfold dropByteOrderMark
    split
    · next heq => exact absurd (List.cons.inj heq).1 hc
    · rfl
  have hparts := startsHeader_sections [] fs
  unfold document
  dsimp only
  rcases assignments_head fs with htop | ⟨c, cs, htop, hc⟩
  · have hempty : assignments fs = "" := by simpa using htop
    split
    · rw [hempty]
      rfl
    · next part rest heq =>
      obtain ⟨ds, hds⟩ := hparts part (by simp [heq])
      rw [hempty, if_pos (by rfl)]
      simp only [String.toList_append, hds]
      exact hcons '[' _ (by decide)
  · split
    · rw [htop, hcons c cs hc]
    · have hne : (assignments fs).isEmpty = false := by
        rw [Bool.eq_false_iff, ne_eq, String.isEmpty_iff]
        intro hempty
        rw [hempty] at htop
        cases htop
      rw [hne]
      simp only [Bool.false_eq_true, ↓reduceIte, String.toList_append, htop]
      exact hcons c _ hc

/-- A written table is read with its fields in written order. -/
theorem parse?_print (h : isWritable (.table fs) = true) :
    parse? (print (.table fs)) = some (arrange (.table fs)) := by
  obtain ⟨root, scope, hroot, hruns⟩ := runs_document h
  have hend := hruns []
  rw [List.append_nil] at hend
  obtain ⟨ts, hts, hrun⟩ := Option.bind_eq_some_iff.mp hend
  have htokens : tokens? (document fs) = some ts := by
    rw [tokens?, dropByteOrderMark_document, hts]
  show (tokens? (document fs)).bind ofTokens? = _
  rw [htokens, Option.bind_some, ofTokens?, hrun, ← hroot]

end Toml

end ScriptExport
