import Mathlib.Data.List.Nodup
import ScriptExport.Analysis.TypeIndex

/-!
# What the type index knows

The index is built by a recursion over the tree, but it depends only on the entries that the record
declarations make, in order (`indexed`, `ofDecls_eq`). Of the entries of one type the first one
gives the script name and the scope, any one can export the type, and the first one with members gives
the declaration (`find?_ofDecls`). Declaring the same types once more changes nothing
(`ofDecls_append_self`).
-/

namespace ScriptExport

/-- What is known of a type from its first entry and the later ones. -/
def TypeEntry.merged (first : TypeEntry) (later : List TypeEntry) : TypeEntry :=
  { first with
    annotated := first.annotated || later.any (·.annotated)
    decl := (((first :: later).map (·.decl)).find? (fun d => !d.children.isEmpty)).getD first.decl }

namespace TypeIndex

mutual

/-- The entries that a declaration and everything inside it make. -/
def indexedOf (o : Options) (scope : List String) : Decl → List TypeEntry
  | .nameSpace h decls => indexed o (scope ++ [scopeName h.name]) decls
  | .record h traits members =>
    (entryOf? o scope (.record h traits members)).toList
      ++ indexed o (scope ++ [scopeName h.name]) members
  | _ => []

/-- The entries that declarations make, in order. -/
def indexed (o : Options) (scope : List String) : List Decl → List TypeEntry
  | [] => []
  | d :: ds => indexedOf o scope d ++ indexed o scope ds

end

variable {es : List TypeEntry} {e : TypeEntry} (o : Options) (ds : List Decl)

theorem indexed_append (scope : List String) (ds es : List Decl) :
    indexed o scope (ds ++ es) = indexed o scope ds ++ indexed o scope es := by
  induction ds with
  | nil => rfl
  | cons d ds ih => simp only [List.cons_append, indexed, ih, List.append_assoc]

/-- Declare types one after the other. -/
def declareAll (es known : List TypeEntry) : List TypeEntry :=
  es.foldl (fun known e => declare e known) known

theorem declareAll_append (es es' known : List TypeEntry) :
    declareAll (es ++ es') known = declareAll es' (declareAll es known) :=
  List.foldl_append

theorem addRecord_eq (scope : List String) (d : Decl) (index : TypeIndex) :
    addRecord o scope d index = ⟨declareAll (entryOf? o scope d).toList index.entries⟩ := by
  unfold addRecord
  cases entryOf? o scope d <;> rfl

/-- Indexing declarations declares the entries that they make. -/
theorem addDecls_eq (scope : List String) (ds : List Decl) (index : TypeIndex) :
    addDecls o scope ds index = ⟨declareAll (indexed o scope ds) index.entries⟩ := by
  induction ds using Decl.list_induction generalizing scope index with
  | nil => rfl
  | cons d ds ihContents ih =>
    have hd : addDecl o scope d index = ⟨declareAll (indexedOf o scope d) index.entries⟩ := by
      cases d with
      | nameSpace h decls =>
        rw [addDecl, indexedOf]
        exact ihContents _ index
      | record h traits members =>
        rw [addDecl, indexedOf, declareAll_append, addRecord_eq]
        exact ihContents _ _
      | _ => rfl
    rw [addDecls, indexed, declareAll_append, hd]
    exact ih scope _

theorem ofDecls_eq : ofDecls o ds = ⟨declareAll (indexed o [] ds) []⟩ :=
  addDecls_eq o [] ds {}

/-! ## One further entry -/

/-- What is known of a type after one further entry of it. -/
def learn (known : Option TypeEntry) (e : TypeEntry) : TypeEntry :=
  match known with
  | some first => first.redeclare e.decl e.annotated
  | none => e

theorem qualifiedName_of_find? {q : String} (h : find? ⟨es⟩ q = some e) : e.qualifiedName = q := by
  have := List.find?_some h
  simpa using this

/-- A declaration changes the entry of its name only. -/
theorem find?_declare (e : TypeEntry) (es : List TypeEntry) (q : String) :
    find? ⟨declare e es⟩ q =
      if e.qualifiedName = q then some (learn (find? ⟨es⟩ q) e) else find? ⟨es⟩ q := by
  unfold find?
  dsimp only
  induction es with
  | nil =>
    by_cases hq : e.qualifiedName = q
    · simp [declare, learn, hq]
    · simp [declare, hq]
  | cons k es ih =>
    rw [declare]
    by_cases hk : k.qualifiedName = e.qualifiedName
    · rw [if_pos hk]
      by_cases hq : e.qualifiedName = q
      · simp [TypeEntry.redeclare, learn, hk, hq]
      · simp [TypeEntry.redeclare, hk, hq]
    · rw [if_neg hk]
      by_cases hq : k.qualifiedName = q
      · have hne : ¬ e.qualifiedName = q := fun h => hk (hq.trans h.symm)
        simp [hq, hne]
      · have hb : (k.qualifiedName == q) = false := by simpa using hq
        simp only [List.find?_cons, hb, ih]

theorem mem_names_declare {q : String} : q ∈ (declare e es).map (·.qualifiedName) ↔
      q = e.qualifiedName ∨ q ∈ es.map (·.qualifiedName) := by
  induction es with
  | nil => simp [declare]
  | cons k es ih =>
    rw [declare]
    by_cases hk : k.qualifiedName = e.qualifiedName
    · simp only [hk, ↓reduceIte, List.map_cons, List.mem_cons, TypeEntry.redeclare]
      tauto
    · simp only [hk, ↓reduceIte, List.map_cons, List.mem_cons, ih]
      tauto

/-- A type is entered once. -/
theorem nodup_declare (h : (es.map (·.qualifiedName)).Nodup) :
    ((declare e es).map (·.qualifiedName)).Nodup := by
  induction es with
  | nil => simp [declare]
  | cons k es ih =>
    obtain ⟨hk, hes⟩ := List.nodup_cons.mp h
    rw [declare]
    by_cases hke : k.qualifiedName = e.qualifiedName
    · rw [if_pos hke]
      exact h
    · rw [if_neg hke, List.map_cons]
      refine List.nodup_cons.mpr ⟨?_, ih hes⟩
      rw [mem_names_declare]
      rintro (hq | hq)
      · exact hke hq
      · exact hk hq

theorem nodup_declareAll {l : List TypeEntry} (h : (es.map (·.qualifiedName)).Nodup) :
    ((declareAll l es).map (·.qualifiedName)).Nodup := by
  induction l generalizing es with
  | nil => exact h
  | cons e l ih => exact ih (nodup_declare h)

/-! ## All entries of a type -/

/-- What is known of a type is learned from its own entries. -/
theorem find?_declareAll (l es : List TypeEntry) (q : String) :
    find? ⟨declareAll l es⟩ q =
      (l.filter (fun e => e.qualifiedName == q)).foldl (fun known e => some (learn known e))
        (find? ⟨es⟩ q) := by
  induction l generalizing es with
  | nil => rfl
  | cons e l ih =>
    have hstep : declareAll (e :: l) es = declareAll l (declare e es) := rfl
    rw [hstep, ih, find?_declare]
    by_cases hq : e.qualifiedName = q
    · simp [hq]
    · simp [hq]

/-- Redeclaring is merging one more declaration. -/
theorem merged_redeclare (first e : TypeEntry) (later : List TypeEntry) :
    (first.redeclare e.decl e.annotated).merged later = first.merged (e :: later) := by
  unfold TypeEntry.merged TypeEntry.redeclare
  cases hf : first.decl.children.isEmpty with
  | false => simp [hf, Bool.or_assoc]
  | true =>
    cases he : e.decl.children.isEmpty with
    | false => simp [hf, he, Bool.or_assoc]
    | true => simp [hf, he, Bool.or_assoc]

theorem foldl_learn (later : List TypeEntry) (first : TypeEntry) :
    later.foldl (fun known e => some (learn known e)) (some first) = some (first.merged later) := by
  induction later generalizing first with
  | nil =>
    unfold TypeEntry.merged
    cases hf : first.decl.children.isEmpty <;> simp [hf]
  | cons e later ih =>
    rw [List.foldl_cons, learn, ih, merged_redeclare]

/-- What the index knows of a type: its entries in order, merged. -/
theorem find?_declareAll_nil (l : List TypeEntry) (q : String) :
    find? ⟨declareAll l []⟩ q =
      match l.filter (fun e => e.qualifiedName == q) with
      | [] => none
      | first :: later => some (first.merged later) := by
  rw [find?_declareAll]
  cases l.filter (fun e => e.qualifiedName == q) with
  | nil => rfl
  | cons first later => exact foldl_learn later first

theorem find?_ofDecls (q : String) : (ofDecls o ds).find? q =
      match (indexed o [] ds).filter (fun e => e.qualifiedName == q) with
      | [] => none
      | first :: later => some (first.merged later) := by
  rw [ofDecls_eq]
  exact find?_declareAll_nil _ q

/-! ## Entries of the index -/

/-- No type is entered twice. -/
def Distinct (index : TypeIndex) : Prop :=
  (index.entries.map (·.qualifiedName)).Nodup

theorem distinct_ofDecls : (ofDecls o ds).Distinct := by
  rw [ofDecls_eq]
  exact nodup_declareAll List.nodup_nil

/-- Where names are unique, each entry is found. -/
theorem find?_eq_some_of_mem {index : TypeIndex} (hd : index.Distinct) (he : e ∈ index.entries) :
    index.find? e.qualifiedName = some e := by
  obtain ⟨entries⟩ := index
  unfold find?
  dsimp only [Distinct] at hd he ⊢
  induction entries with
  | nil => cases he
  | cons k entries ih =>
    obtain ⟨hk, hentries⟩ := List.nodup_cons.mp hd
    rcases List.mem_cons.mp he with rfl | he
    · simp
    · have hne : k.qualifiedName ≠ e.qualifiedName := fun h =>
        hk (List.mem_map.mpr ⟨e, he, h.symm⟩)
      rw [List.find?_cons_of_neg (by simpa using hne)]
      exact ih hentries he

theorem annotated_merged {first : TypeEntry} {later : List TypeEntry} :
    (first.merged later).annotated = true ↔ ∃ e ∈ first :: later, e.annotated = true := by
  simp [TypeEntry.merged, List.any_eq_true]

/-- An entry of the index is made of the entries of its type. -/
theorem exists_merged_of_mem_entries {o : Options} {ds : List Decl}
    (he : e ∈ (ofDecls o ds).entries) : ∃ first later,
      (indexed o [] ds).filter (fun k => k.qualifiedName == e.qualifiedName) = first :: later ∧
        e = first.merged later := by
  have hfind := find?_eq_some_of_mem (distinct_ofDecls o ds) he
  rw [find?_ofDecls] at hfind
  split at hfind
  · cases hfind
  · next first later hfilter => exact ⟨first, later, hfilter, (Option.some.inj hfind).symm⟩

/-- The script name of an entry is that of the first declaration of its type. -/
theorem scriptName_of_mem_entries {o : Options} {ds : List Decl} (he : e ∈ (ofDecls o ds).entries) :
    ∃ first,
      (indexed o [] ds).find? (fun k => k.qualifiedName == e.qualifiedName) = some first ∧
        e.scriptName = first.scriptName := by
  obtain ⟨first, later, hfilter, hmerged⟩ := exists_merged_of_mem_entries he
  refine ⟨first, ?_, ?_⟩
  · rw [← List.head?_filter, hfilter, List.head?_cons]
  · rw [hmerged, TypeEntry.merged]

/-- A type is exported if one of its declarations is. -/
theorem exists_annotated_of_mem_entries {o : Options} {ds : List Decl}
    (he : e ∈ (ofDecls o ds).entries) (ha : e.annotated = true) :
    ∃ k ∈ indexed o [] ds, k.qualifiedName = e.qualifiedName ∧ k.annotated = true := by
  obtain ⟨first, later, hfilter, hmerged⟩ := exists_merged_of_mem_entries he
  rw [hmerged] at ha
  obtain ⟨k, hk, hannotated⟩ := annotated_merged.mp ha
  rw [← hfilter] at hk
  obtain ⟨hmem, hq⟩ := List.mem_filter.mp hk
  exact ⟨k, hmem, by simpa using hq, hannotated⟩

/-- An annotated type is found, and as annotated. -/
theorem find?_of_mem_indexed {o : Options} {ds : List Decl} {k : TypeEntry}
    (hk : k ∈ indexed o [] ds) (ha : k.annotated = true) :
    ∃ e, (ofDecls o ds).find? k.qualifiedName = some e ∧ e.annotated = true ∧
      e.qualifiedName = k.qualifiedName := by
  have hmem : k ∈ (indexed o [] ds).filter (fun e => e.qualifiedName == k.qualifiedName) :=
    List.mem_filter.mpr ⟨hk, by simp⟩
  have hfind := find?_ofDecls o ds k.qualifiedName
  split at hfind
  · next hnone =>
    rw [hnone] at hmem
    cases hmem
  · next first later hfilter =>
    rw [hfilter] at hmem
    exact ⟨_, hfind, annotated_merged.mpr ⟨k, hmem, ha⟩, qualifiedName_of_find? hfind⟩

/-! ## Declaring again -/

/-- Whether the entries know all that a further entry says. -/
def Knows (es : List TypeEntry) (e : TypeEntry) : Prop :=
  ∃ known, find? ⟨es⟩ e.qualifiedName = some known ∧
    (e.annotated = true → known.annotated = true) ∧
    (e.decl.children.isEmpty = false → known.decl.children.isEmpty = false)

theorem redeclare_eq_self {known : TypeEntry} {d : Decl} {annotated : Bool}
    (ha : annotated = true → known.annotated = true)
    (hd : d.children.isEmpty = false → known.decl.children.isEmpty = false) :
    known.redeclare d annotated = known := by
  unfold TypeEntry.redeclare
  have hannotated : (known.annotated || annotated) = known.annotated := by
    cases annotated with
    | false => simp
    | true => simp [ha rfl]
  have hdecl : (known.decl.children.isEmpty && !d.children.isEmpty) = false := by
    cases he : d.children.isEmpty with
    | true => simp
    | false => simp [hd he]
  rw [hannotated, hdecl]
  rfl

/-- What is known changes nothing. -/
theorem declare_eq_self (h : Knows es e) : declare e es = es := by
  obtain ⟨known, hfind, ha, hd⟩ := h
  induction es with
  | nil => cases hfind
  | cons k es ih =>
    rw [declare]
    by_cases hk : k.qualifiedName = e.qualifiedName
    · have hknown : k = known := by simpa [find?, hk] using hfind
      rw [if_pos hk, hknown, redeclare_eq_self ha hd]
    · have hrest : find? ⟨es⟩ e.qualifiedName = some known := by
        simpa [find?, hk] using hfind
      rw [if_neg hk, ih hrest]

theorem knows_declare_self (es : List TypeEntry) (e : TypeEntry) : Knows (declare e es) e := by
  refine ⟨learn (find? ⟨es⟩ e.qualifiedName) e, ?_, ?_, ?_⟩
  · rw [find?_declare, if_pos rfl]
  · intro ha
    unfold learn TypeEntry.redeclare
    split <;> simp [ha]
  · intro hd
    unfold learn TypeEntry.redeclare
    split
    · dsimp only
      split
      · exact hd
      · next hkept => simpa [hd] using hkept
    · exact hd

/-- Knowledge is never lost. -/
theorem Knows.declare (h : Knows es e) (e' : TypeEntry) : Knows (declare e' es) e := by
  obtain ⟨known, hfind, ha, hd⟩ := h
  by_cases hq : e'.qualifiedName = e.qualifiedName
  · refine ⟨known.redeclare e'.decl e'.annotated, ?_, ?_, ?_⟩
    · rw [find?_declare, if_pos hq, hfind]
      rfl
    · intro he
      simp [TypeEntry.redeclare, ha he]
    · intro he
      simp [TypeEntry.redeclare, hd he]
  · refine ⟨known, ?_, ha, hd⟩
    rw [find?_declare, if_neg hq]
    exact hfind

theorem Knows.declareAll (h : Knows es e) (l : List TypeEntry) : Knows (declareAll l es) e := by
  induction l generalizing es with
  | nil => exact h
  | cons e' l ih => exact ih (h.declare e')

/-- Whatever was declared is known. -/
theorem knows_declareAll (l es : List TypeEntry) : ∀ e ∈ l, Knows (declareAll l es) e := by
  induction l generalizing es with
  | nil => intro e he; cases he
  | cons e' l ih =>
    intro e he
    rcases List.mem_cons.mp he with rfl | he
    · exact (knows_declare_self es e).declareAll l
    · exact ih (TypeIndex.declare e' es) e he

/-- Declaring what is known changes nothing. -/
theorem declareAll_eq_self {l : List TypeEntry} (h : ∀ e ∈ l, Knows es e) :
    declareAll l es = es := by
  induction l with
  | nil => rfl
  | cons e l ih =>
    have hstep : declareAll (e :: l) es = declareAll l (declare e es) := rfl
    rw [hstep, declare_eq_self (h e List.mem_cons_self)]
    exact ih fun e' he' => h e' (List.mem_cons_of_mem e he')

/-- The types of a unit that is written twice are the types of the unit. -/
theorem ofDecls_append_self : ofDecls o (ds ++ ds) = ofDecls o ds := by
  rw [ofDecls_eq, ofDecls_eq, indexed_append, declareAll_append,
    declareAll_eq_self (knows_declareAll _ [])]

end TypeIndex

end ScriptExport
