import ScriptExport.Proofs.Analysis.Outline

/-!
# What a name means in a type index

A spelled name means the type of that very name, else the type that the innermost of the enclosing
scopes declares under it, else the only type with that simple name. `Means` says so of an index as a
set of types: no case of it reads the order in which the types are listed. Lookup finds exactly the
meaning (`lookup?_eq_some_iff`), so a list of the same types in another order gives every name the same
meaning, every class the same ancestry and every unit the same run (`lookup_ignores_listing_order`).
-/

namespace ScriptExport

variable {scope : List String} {index : TypeIndex} {e : TypeEntry} {name : String}

namespace TypeIndex

/-- No indexed type has the qualified name. -/
def Lacks (index : TypeIndex) (q : String) : Prop :=
  ∀ e ∈ index.entries, e.qualifiedName ≠ q

/-- The type is the one of the given name in the innermost of the scopes on the path that have one.
The top level is not on the path. -/
structure Innermost (index : TypeIndex) (scope : List String) (name : String) (e : TypeEntry) :
    Prop where
  mem : e ∈ index.entries
  exists_path : ∃ path, path ≠ [] ∧ path <+: scope ∧ e.qualifiedName = qualify path name ∧
    ∀ longer, longer <+: scope → path.length < longer.length → index.Lacks (qualify longer name)

/-- None of the scopes on the path has a type of the given name. -/
def Undeclared (index : TypeIndex) (scope : List String) (name : String) : Prop :=
  ∀ path, path ≠ [] → path <+: scope → index.Lacks (qualify path name)

/-- The type that a name in its normal spelling means inside a scope. -/
inductive Means (index : TypeIndex) (name : String) (scope : List String) (e : TypeEntry) : Prop where
  | asWritten (mem : e ∈ index.entries) (eq : e.qualifiedName = name)
  | enclosed (lacks : index.Lacks name) (innermost : index.Innermost scope name e)
  | simple (lacks : index.Lacks name) (undeclared : index.Undeclared scope name)
      (mem : e ∈ index.entries) (eq : e.decl.name = Text.lastSegment name)
      (only : ∀ k ∈ index.entries, k.decl.name = Text.lastSegment name → k = e)

/-! ## The scopes on a path -/

/-- The enclosing scopes are the beginnings of a path. -/
theorem mem_enclosing_iff {path : List String} :
    path ∈ enclosing scope ↔ path ≠ [] ∧ path <+: scope := by
  unfold enclosing
  rw [List.mem_reverse, List.mem_map]
  constructor
  · rintro ⟨n, hn, rfl⟩
    refine ⟨?_, List.take_prefix _ _⟩
    intro hnil
    have hlen := congrArg List.length hnil
    rw [List.length_take, List.length_nil] at hlen
    have := List.mem_range.mp hn
    omega
  · rintro ⟨hne, hprefix⟩
    have hpos := List.length_pos_iff.mpr hne
    have hle := hprefix.length_le
    refine ⟨path.length - 1, List.mem_range.mpr (by omega), ?_⟩
    rw [Nat.sub_add_cancel hpos]
    exact (List.prefix_iff_eq_take.mp hprefix).symm

/-- The scopes are tried from the innermost outwards. -/
theorem pairwise_enclosing (scope : List String) :
    (enclosing scope).Pairwise (fun inner outer => outer.length < inner.length) := by
  unfold enclosing
  rw [List.pairwise_reverse, List.pairwise_map]
  refine List.pairwise_lt_range.imp_of_mem fun {m n} hm hn hlt => ?_
  have hm := List.mem_range.mp hm
  have hn := List.mem_range.mp hn
  rw [List.length_take, List.length_take]
  omega

/-! ## The three steps of a lookup -/

theorem find?_eq_none_iff {q : String} : index.find? q = none ↔ index.Lacks q := by
  unfold find? Lacks
  simp

theorem find?_eq_some_iff (hd : index.Distinct) {q : String} :
    index.find? q = some e ↔ e ∈ index.entries ∧ e.qualifiedName = q := by
  constructor
  · intro h
    exact ⟨mem_of_find? h, qualifiedName_of_find? h⟩
  · rintro ⟨he, rfl⟩
    exact find?_eq_some_of_mem hd he

/-- The type that the scopes on the path declare under the name, tried from the innermost outwards. -/
def inScopes? (index : TypeIndex) (scope : List String) (name : String) : Option TypeEntry :=
  (enclosing scope).findSome? fun path => index.find? (qualify path name)

theorem inScopes?_eq_none_iff :
    index.inScopes? scope name = none ↔ index.Undeclared scope name := by
  unfold inScopes? Undeclared
  simp only [List.findSome?_eq_none_iff, mem_enclosing_iff, find?_eq_none_iff, and_imp]

/-- The search finds the innermost type of a name. -/
theorem inScopes?_eq_some_iff (hd : index.Distinct) :
    index.inScopes? scope name = some e ↔ index.Innermost scope name e := by
  unfold inScopes?
  rw [List.findSome?_eq_some_iff]
  have hsorted := pairwise_enclosing scope
  constructor
  · rintro ⟨inner, path, outer, hsplit, hfind, hinner⟩
    obtain ⟨he, hq⟩ := (find?_eq_some_iff hd).mp hfind
    have hpath : path ∈ enclosing scope := hsplit ▸ List.mem_append_right _ List.mem_cons_self
    obtain ⟨hne, hprefix⟩ := mem_enclosing_iff.mp hpath
    refine ⟨he, path, hne, hprefix, hq, fun longer hlonger hlt => ?_⟩
    have hmem : longer ∈ enclosing scope :=
      mem_enclosing_iff.mpr ⟨List.ne_nil_of_length_pos (by omega), hlonger⟩
    rw [hsplit] at hmem hsorted
    -- A longer path stands before this one, where nothing has been found.
    rcases List.mem_append.mp hmem with hin | hout
    · exact find?_eq_none_iff.mp (hinner longer hin)
    · rcases List.mem_cons.mp hout with rfl | hout
      · exact absurd hlt (Nat.lt_irrefl _)
      · have := (List.pairwise_cons.mp (List.pairwise_append.mp hsorted).2.1).1 longer hout
        omega
  · rintro ⟨he, path, hne, hprefix, hq, hlonger⟩
    obtain ⟨inner, outer, hsplit⟩ :=
      List.append_of_mem (mem_enclosing_iff.mpr ⟨hne, hprefix⟩)
    refine ⟨inner, path, outer, hsplit, (find?_eq_some_iff hd).mpr ⟨he, hq⟩, fun longer hin => ?_⟩
    have hmem : longer ∈ enclosing scope := hsplit ▸ List.mem_append_left _ hin
    rw [hsplit] at hsorted
    have hlt := (List.pairwise_append.mp hsorted).2.2 longer hin path List.mem_cons_self
    exact find?_eq_none_iff.mpr (hlonger longer (mem_enclosing_iff.mp hmem).2 hlt)

/-- A simple name that is unique is found anywhere. -/
theorem unique?_eq_some_iff (hd : index.Distinct) {simpleName : String} :
    index.unique? simpleName = some e ↔ e ∈ index.entries ∧ e.decl.name = simpleName ∧
      ∀ k ∈ index.entries, k.decl.name = simpleName → k = e := by
  have hnodup : (index.entries.filter (fun e => e.decl.name == simpleName)).Nodup :=
    (List.Nodup.of_map _ hd).filter _
  have hmem : ∀ k, k ∈ index.entries.filter (fun e => e.decl.name == simpleName) ↔
      k ∈ index.entries ∧ k.decl.name = simpleName := by
    simp [List.mem_filter]
  rw [unique?_eq_only?]
  generalize index.entries.filter (fun e => e.decl.name == simpleName) = found at hnodup hmem
  constructor
  · intro h
    match found, h with
    | [_], rfl =>
      obtain ⟨he, hname⟩ := (hmem e).mp List.mem_cons_self
      exact ⟨he, hname, fun k hk hkname =>
        List.mem_singleton.mp ((hmem k).mpr ⟨hk, hkname⟩)⟩
  · rintro ⟨he, hname, honly⟩
    have hall : ∀ k, k ∈ found ↔ k ∈ [e] := by
      intro k
      rw [hmem, List.mem_singleton]
      constructor
      · rintro ⟨hk, hkname⟩
        exact honly k hk hkname
      · rintro rfl
        exact ⟨he, hname⟩
    exact only?_perm ((List.perm_ext_iff_of_nodup hnodup (List.nodup_singleton e)).mpr hall)

/-- Lookup finds exactly what a name means. -/
theorem lookup?_eq_some_iff (hd : index.Distinct) :
    index.lookup? name scope = some e ↔ index.Means (Text.spelling name) scope e := by
  show ((index.find? (Text.spelling name)).or ((index.inScopes? scope (Text.spelling name)).or
    (index.unique? (Text.lastSegment (Text.spelling name))))) = some e ↔ _
  rw [Option.or_eq_some_iff, Option.or_eq_some_iff, find?_eq_some_iff hd, find?_eq_none_iff,
    inScopes?_eq_some_iff hd, inScopes?_eq_none_iff, unique?_eq_some_iff hd]
  constructor
  · rintro (⟨he, hq⟩ | ⟨hlacks, hinner | ⟨hundeclared, he, hname, honly⟩⟩)
    · exact .asWritten he hq
    · exact .enclosed hlacks hinner
    · exact .simple hlacks hundeclared he hname honly
  · intro h
    cases h with
    | asWritten he hq => exact .inl ⟨he, hq⟩
    | enclosed hlacks hinner => exact .inr ⟨hlacks, .inl hinner⟩
    | simple hlacks hundeclared he hname honly =>
      exact .inr ⟨hlacks, .inr ⟨hundeclared, he, hname, honly⟩⟩

/-! ## The same types in another order -/

section Listing

variable {listed : TypeIndex} (hperm : listed.entries.Perm index.entries)
include hperm

theorem lacks_of_perm {q : String} : listed.Lacks q ↔ index.Lacks q :=
  ⟨fun h e he => h e (hperm.mem_iff.mpr he), fun h e he => h e (hperm.mem_iff.mp he)⟩

theorem innermost_of_perm : listed.Innermost scope name e ↔ index.Innermost scope name e := by
  constructor
  · rintro ⟨he, path, hne, hprefix, hq, hlonger⟩
    exact ⟨hperm.mem_iff.mp he, path, hne, hprefix, hq, fun longer hp hlt =>
      (lacks_of_perm hperm).mp (hlonger longer hp hlt)⟩
  · rintro ⟨he, path, hne, hprefix, hq, hlonger⟩
    exact ⟨hperm.mem_iff.mpr he, path, hne, hprefix, hq, fun longer hp hlt =>
      (lacks_of_perm hperm).mpr (hlonger longer hp hlt)⟩

/-- Meanings do not depend on the order of the types. -/
theorem means_of_perm (h : listed.Means name scope e) : index.Means name scope e := by
  cases h with
  | asWritten he hq => exact .asWritten (hperm.mem_iff.mp he) hq
  | enclosed hlacks hinner =>
    exact .enclosed ((lacks_of_perm hperm).mp hlacks) ((innermost_of_perm hperm).mp hinner)
  | simple hlacks hundeclared he hname honly =>
    exact .simple ((lacks_of_perm hperm).mp hlacks)
      (fun path hne hp => (lacks_of_perm hperm).mp (hundeclared path hne hp))
      (hperm.mem_iff.mp he) hname (fun k hk => honly k (hperm.mem_iff.mpr hk))

theorem Distinct.of_perm (hd : index.Distinct) : listed.Distinct := by
  unfold Distinct at hd ⊢
  exact (hperm.map _).nodup_iff.mpr hd

theorem find?_of_perm (hd : index.Distinct) (q : String) : listed.find? q = index.find? q := by
  refine Option.ext fun e => ?_
  rw [find?_eq_some_iff (hd.of_perm hperm), find?_eq_some_iff hd, hperm.mem_iff]

theorem lookup?_of_perm (hd : index.Distinct) (name : String) (scope : List String) :
    listed.lookup? name scope = index.lookup? name scope := by
  refine Option.ext fun e => ?_
  rw [lookup?_eq_some_iff (hd.of_perm hperm), lookup?_eq_some_iff hd]
  exact ⟨means_of_perm hperm, means_of_perm hperm.symm⟩

theorem alike_of_perm (hd : index.Distinct) : listed.Alike index id id where
  find? q := by rw [find?_of_perm hperm hd]
  lookup? name scope := by rw [lookup?_of_perm hperm hd]
  reads := by
    rintro e _ rfl
    exact ⟨rfl, rfl, rfl, rfl⟩

end Listing

end TypeIndex

namespace Analysis

/-- The state after a unit has been walked with the given list for its types. -/
def runListed (listed : TypeIndex) (o : Options) (traced : Bool) (u : TranslationUnit) : State :=
  let s := (State.start traced).log (.unitStarted u.filePath)
  let s := walk ((Context.ofUnit o u).withIndex listed) u.decls s
  s.log (.unitFinished u.filePath s.records.size s.diagnostics.size)

/-- A run does not depend on the order of the types. -/
theorem runListed_of_perm {o : Options} {u : TranslationUnit} {listed : TypeIndex}
    (hperm : listed.entries.Perm (TypeIndex.ofDecls o u.decls).entries) (traced : Bool) :
    runListed listed o traced u = run o traced u := by
  have hd := TypeIndex.distinct_ofDecls o u.decls
  have hsame : (TypeIndex.ofDecls o u.decls).SameTypes listed := fun q => by
    rw [TypeIndex.find?_of_perm hperm hd]
  have hwalk : ∀ s, walk ((Context.ofUnit o u).withIndex listed) u.decls s =
      walk (Context.ofUnit o u) u.decls s :=
    walk_withIndex hsame hd (hd.of_perm hperm) u.decls
  unfold runListed run
  dsimp only
  rw [hwalk]

end Analysis

open Analysis

/-- Whatever the order in which the types of an index are listed, a name means the type that the index
gives it as a set of types. So base lists reach the same types, the same types derive from each other,
and the analysis of a unit is the same. -/
theorem lookup_ignores_listing_order (index listed : TypeIndex) (hd : index.Distinct)
    (hperm : listed.entries.Perm index.entries) :
    (∀ name scope e,
      listed.lookup? name scope = some e ↔ index.Means (Text.spelling name) scope e) ∧
    (∀ path scope bases,
      listed.ancestry path scope bases = index.ancestry path scope bases) ∧
    listed.derivesFrom = index.derivesFrom ∧
    ∀ o traced u, index = TypeIndex.ofDecls o u.decls →
      analyzeTraced o traced u =
        (u.check o).map fun _ => (runListed listed o traced u).result u.filePath := by
  have halike := TypeIndex.alike_of_perm hperm hd
  refine ⟨?_, ?_, halike.derivesFrom, ?_⟩
  · intro name scope e
    rw [TypeIndex.lookup?_of_perm hperm hd]
    exact TypeIndex.lookup?_eq_some_iff hd
  · intro path scope bases
    have h := halike.ancestry path scope bases
    rwa [List.map_id, List.map_id] at h
  · rintro o traced u rfl
    rw [runListed_of_perm hperm]
    rfl

/-- Two records of one simple name, and a class in the second namespace that names it as a base. -/
def ambiguousUnit : TranslationUnit :=
  { filePath := "d.h"
    decls :=
      [.nameSpace { name := "a" } [.record { name := "Base" } {} []],
       .nameSpace { name := "b" }
        [.record { name := "Base" } {} [],
         .record { name := "D", annotations := ["lua_export_class"] } { bases := [{ name := "Base" }] }
          []]] }

/-- With the types listed backwards, the simple name still means nothing at the top level and the
nearer type inside its namespace. -/
theorem lookup_ignores_listing_order_backwards :
    let index := TypeIndex.ofDecls {} ambiguousUnit.decls
    let backwards : TypeIndex := ⟨index.entries.reverse⟩
    index.entries.map (·.qualifiedName) = ["a::Base", "b::Base", "b::D"] ∧
    backwards.entries.map (·.qualifiedName) = ["b::D", "b::Base", "a::Base"] ∧
    (∀ e, ¬ index.Means "Base" [] e) ∧
    (∃ e, e.qualifiedName = "b::Base" ∧ index.Means "Base" ["b"] e) ∧
    analyzeTraced {} true ambiguousUnit = (ambiguousUnit.check {}).map fun _ =>
      (runListed backwards {} true ambiguousUnit).result ambiguousUnit.filePath := by
  intro index backwards
  have hd : index.Distinct := TypeIndex.distinct_ofDecls {} ambiguousUnit.decls
  obtain ⟨hmeans, -, -, hrun⟩ :=
    lookup_ignores_listing_order index backwards hd (List.reverse_perm _)
  refine ⟨by rfl, by rfl, ?_, ?_, hrun {} true ambiguousUnit rfl⟩
  · intro e he
    exact nomatch (hmeans "Base" [] e).mpr he
  · exact ⟨_, rfl, (hmeans "Base" ["b"] _).mp rfl⟩

end ScriptExport
