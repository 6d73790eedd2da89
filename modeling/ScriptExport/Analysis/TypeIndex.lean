import ScriptExport.Analysis.Options
import ScriptExport.Analysis.Scope
import ScriptExport.Naming

/-!
# The type index

All record types of a unit, collected before the walk. Base lists are resolved in it: a spelled name is
tried as written, then behind each enclosing scope from the innermost outwards, then as the simple name
of exactly one indexed type. `ancestry` lists the bases that a class reaches and `derivesFrom` decides
whether one type has another among its bases. Both end on cyclic base lists, since a type is never
entered below itself.
-/

namespace ScriptExport

/-- An indexed record type. -/
structure TypeEntry where
  decl : Decl
  qualifiedName : String
  scriptName : String
  /-- Exported as a class. -/
  annotated : Bool
  /-- The names of the enclosing scopes, outermost first. -/
  scope : List String
deriving Inhabited

/-- The record types of a unit, in the order of their first declaration. -/
structure TypeIndex where
  entries : List TypeEntry := []
deriving Inhabited

namespace TypeEntry

/-- The entry after a further declaration of its type: one that exports the type counts, and the first
declaration with members is the definition. -/
def redeclare (e : TypeEntry) (d : Decl) (annotated : Bool) : TypeEntry :=
  { e with
    annotated := e.annotated || annotated
    decl := if e.decl.children.isEmpty && !d.children.isEmpty then d else e.decl }

end TypeEntry

variable {index : TypeIndex}

namespace TypeIndex

/-- The entry with the given qualified name. -/
def find? (index : TypeIndex) (qualifiedName : String) : Option TypeEntry :=
  index.entries.find? (fun e => e.qualifiedName == qualifiedName)

/-- Replace or append the entry of a type. -/
def declare (entry : TypeEntry) : List TypeEntry → List TypeEntry
  | [] => [entry]
  | e :: es =>
    if e.qualifiedName = entry.qualifiedName then e.redeclare entry.decl entry.annotated :: es
    else e :: declare entry es

/-- The entry that a record declaration makes, unless it has no name, is ignored or is passed over. -/
def entryOf? (o : Options) (scope : List String) (d : Decl) : Option TypeEntry :=
  let parsed := parseAnnotations o.marker d.annotations
  let directive := parsed.directive.filter (·.kind.isClass)
  if Text.isBlankText d.name || parsed.ignored
      || (o.skipReason? d directive.isSome true).isSome then none
  else some
    { decl := d
      qualifiedName := qualify scope d.name
      scriptName := Naming.scriptName d.name (directive.bind (·.scriptAlias?))
      annotated := directive.isSome
      scope }

/-- Index one record declaration. -/
def addRecord (o : Options) (scope : List String) (d : Decl) (index : TypeIndex) : TypeIndex :=
  match entryOf? o scope d with
  | some entry => ⟨declare entry index.entries⟩
  | none => index

mutual

/-- Index a declaration and everything inside it. -/
def addDecl (o : Options) (scope : List String) : Decl → TypeIndex → TypeIndex
  | .nameSpace h decls, index => addDecls o (scope ++ [scopeName h.name]) decls index
  | .record h traits members, index =>
    addDecls o (scope ++ [scopeName h.name]) members
      (addRecord o scope (.record h traits members) index)
  | _, index => index

/-- Index declarations in order. -/
def addDecls (o : Options) (scope : List String) : List Decl → TypeIndex → TypeIndex
  | [], index => index
  | d :: ds, index => addDecls o scope ds (addDecl o scope d index)

end

/-- The index of the record types among the given top-level declarations. -/
def ofDecls (o : Options) (decls : List Decl) : TypeIndex :=
  addDecls o [] decls {}

/-- The non-empty beginnings of a path, longest first. -/
def enclosing (scope : List String) : List (List String) :=
  ((List.range scope.length).map (fun n => scope.take (n + 1))).reverse

/-- The only entry whose declared simple name is the given one. -/
def unique? (index : TypeIndex) (simpleName : String) : Option TypeEntry :=
  match index.entries.filter (fun e => e.decl.name == simpleName) with
  | [e] => some e
  | _ => none

/-- The type that a spelled name means inside a scope. -/
def lookup? (index : TypeIndex) (name : String) (scope : List String) : Option TypeEntry :=
  let name := Text.spelling name
  (index.find? name).or
    (((enclosing scope).findSome? fun path => index.find? (qualify path name)).or
      (index.unique? (Text.lastSegment name)))

theorem mem_of_find? {name : String} {e : TypeEntry} (h : index.find? name = some e) :
    e ∈ index.entries :=
  List.mem_of_find?_eq_some h

theorem mem_of_unique? {name : String} {e : TypeEntry} (h : index.unique? name = some e) :
    e ∈ index.entries := by
  unfold unique? at h
  split at h
  · rename_i found
    cases h
    exact (List.mem_filter.mp (found ▸ List.mem_singleton_self e)).1
  · cases h

/-- Lookup finds indexed types only. -/
theorem mem_of_lookup? {name : String} {scope : List String} {e : TypeEntry}
    (h : index.lookup? name scope = some e) : e ∈ index.entries := by
  unfold lookup? at h
  simp only [Option.or_eq_some_iff] at h
  rcases h with h | ⟨_, h | ⟨_, h⟩⟩
  · exact mem_of_find? h
  · obtain ⟨_, _, h⟩ := List.exists_of_findSome?_eq_some h
    exact mem_of_find? h
  · exact mem_of_unique? h

/-- How many indexed types have not been met. -/
def unmet (index : TypeIndex) (met : List String) : Nat :=
  (index.entries.filter (fun e => e.qualifiedName ∉ met)).length

/-- A filter that lets strictly less through leaves a shorter list. -/
private theorem length_filter_lt_of_imp {α : Type} {p q : α → Bool} {l : List α} {a : α} (ha : a ∈ l)
    (hp : p a = false) (hq : q a = true) (hpq : ∀ x, p x = true → q x = true) :
    (l.filter p).length < (l.filter q).length := by
  induction l with
  | nil => cases ha
  | cons x xs ih =>
    have le : (xs.filter p).length ≤ (xs.filter q).length := by
      rw [← List.countP_eq_length_filter, ← List.countP_eq_length_filter]
      exact List.countP_mono_left fun x _ => hpq x
    rcases List.mem_cons.mp ha with rfl | hmem
    · simp [hp, hq]; omega
    · have lt := ih hmem
      cases hx : p x with
      | false => cases hy : q x <;> simp [hx, hy] <;> omega
      | true => simp [hx, hpq x hx]; omega

/-- Meeting an indexed type for the first time leaves fewer unmet ones. -/
theorem unmet_cons_lt {met : List String} {e : TypeEntry} (he : e ∈ index.entries)
    (hnew : e.qualifiedName ∉ met) : index.unmet (e.qualifiedName :: met) < index.unmet met := by
  apply length_filter_lt_of_imp he
  · simp
  · simpa using hnew
  · intro x hx
    simp at hx ⊢
    exact hx.2

/-- The types that a base list reaches through public bases, depth first in the order of the list. An
exported type is listed but its own bases are not followed, and a type on the path from the class down
to here is left out, so that cycles end. -/
def ancestry (index : TypeIndex) (path scope : List String) : List Base → List TypeEntry
  | [] => []
  | base :: bases =>
    if base.access.isPublic then
      match _h : index.lookup? base.name scope with
      | none => ancestry index path scope bases
      | some e =>
        if _hp : e.qualifiedName ∈ path then ancestry index path scope bases
        else if e.annotated then e :: ancestry index path scope bases
        else e :: (ancestry index (e.qualifiedName :: path) e.scope e.decl.bases
          ++ ancestry index path scope bases)
    else ancestry index path scope bases
termination_by bases => (index.unmet path, bases.length)
decreasing_by
  all_goals first
    | exact Prod.Lex.right _ (by simp)
    | exact Prod.Lex.left _ _ (unmet_cons_lt (mem_of_lookup? _h) _hp)

/-- The qualified names of the types that an entry names as bases, whatever their access. -/
def parents (index : TypeIndex) (e : TypeEntry) : List String :=
  e.decl.bases.filterMap fun base => (index.lookup? base.name e.scope).map (·.qualifiedName)

/-- Whether `base` is a parent of one of the pending types or of a type above them. -/
def reaches (index : TypeIndex) (base : String) (seen : List String) : List String → Bool
  | [] => false
  | name :: pending =>
    if _hs : name ∈ seen then reaches index base seen pending
    else match _h : index.find? name with
      | none => reaches index base seen pending
      | some e =>
        let above := index.parents e
        if base ∈ above then true else reaches index base (e.qualifiedName :: seen) (above ++ pending)
termination_by pending => (index.unmet seen, pending.length)
decreasing_by
  · exact Prod.Lex.right _ (by simp)
  · exact Prod.Lex.right _ (by simp)
  · apply Prod.Lex.left
    apply unmet_cons_lt (mem_of_find? _h)
    have := List.find?_some _h
    simp at this
    rw [this]
    exact _hs

/-- Whether one type has another among its bases, directly or further up. -/
def derivesFrom (index : TypeIndex) (derived base : String) : Bool :=
  index.reaches base [] [derived]

end TypeIndex

end ScriptExport
