import Mathlib.Data.List.Flatten
import ScriptExport.Proofs.Analysis.Acceptance
import ScriptExport.Proofs.Analysis.Outline
import ScriptExport.Proofs.Lists

/-!
# Searches through base lists end

Base lists are followed in two ways: by a recursion that keeps the types on the path from the class down
to where it is (`followWithin`), and by a loop that keeps the types it has seen (`searchWithin`). Both
follow names, and names may lead anywhere: to the type itself, around a cycle, or nowhere. Here they are
written with a bound, on the nesting of calls and on the number of rounds, and `none` says that the bound
was reached. It never is if it exceeds what is left of the index: a call that nests puts one more
indexed type on the path, and a round either drops a pending name or takes the bases of one more type
out of those that are left. An analysis that is bounded this way comes to the same end as one without
bounds (`runVisitsWithin_eq`).
-/

namespace ScriptExport

variable {depth : Nat}

namespace TypeIndex

/-- A way to give meaning to the names in base lists: a name means an indexed type or nothing. -/
structure Resolver (index : TypeIndex) where
  resolve : String → List String → Option TypeEntry
  mem_entries : ∀ {name scope e}, resolve name scope = some e → e ∈ index.entries

/-- Names mean what lookup finds. -/
def resolver (index : TypeIndex) : Resolver index :=
  ⟨index.lookup?, mem_of_lookup?⟩

/-! ## Bounded calls -/

section Calls

variable {index : TypeIndex} {σ : Type}

/-- Follow one base: act on the type that it names, unless that is on the path, and call for the bases of
the type, unless it is exported. -/
def followBase (r : Resolver index) (act : TypeEntry → σ → σ)
    (call : (path scope : List String) → List Base → σ → Option σ) (path scope : List String) (s : σ)
    (base : Base) : Option σ :=
  if base.access.isPublic then
    match r.resolve base.name scope with
    | none => some s
    | some e =>
      if e.qualifiedName ∈ path then some s
      else if e.annotated then some (act e s)
      else call (e.qualifiedName :: path) e.scope e.decl.bases (act e s)
  else some s

/-- Follow a base list depth first, with at most `depth` calls inside each other. -/
def followWithin (r : Resolver index) (act : TypeEntry → σ → σ) :
    (depth : Nat) → (path scope : List String) → List Base → σ → Option σ
  | 0, _, _, _, _ => none
  | depth + 1, path, scope, bases, s =>
    bases.foldlM (followBase r act (followWithin r act depth) path scope) s

/-- Calls nest at most once for each indexed type that is not on the path. -/
theorem isSome_followWithin (r : Resolver index) (act : TypeEntry → σ → σ) {path : List String}
    (hdepth : index.unmet path < depth) (scope : List String) (bases : List Base) (s : σ) :
    (followWithin r act depth path scope bases s).isSome = true := by
  induction depth generalizing path scope bases s with
  | zero => omega
  | succ depth ih =>
    rw [followWithin]
    apply isSome_foldlM
    intro s base
    unfold followBase
    split
    · split
      · rfl
      · next e hresolve =>
        split
        · rfl
        · next hpath =>
          have hless := unmet_cons_lt (r.mem_entries hresolve) hpath
          split
          · rfl
          · exact ih (by omega) _ _ _
    · rfl

/-- Following a base list acts on its ancestry. -/
theorem followWithin_eq_foldl_ancestry (act : TypeEntry → σ → σ) {path : List String}
    (hdepth : index.unmet path < depth) (scope : List String) (bases : List Base) (s : σ) :
    followWithin index.resolver act depth path scope bases s =
      some ((index.ancestry path scope bases).foldl (fun s e => act e s) s) := by
  induction depth generalizing path scope bases s with
  | zero => omega
  | succ depth ih =>
    rw [followWithin]
    induction bases generalizing s with
    | nil =>
      rw [ancestry_nil]
      rfl
    | cons base bases ihBases =>
      have hbase : followBase index.resolver act (followWithin index.resolver act depth) path scope s
          base = some ((if base.access.isPublic then index.entered path
            (index.lookup? base.name scope) else []).foldl (fun s e => act e s) s) := by
        unfold followBase
        rw [show index.resolver.resolve = index.lookup? from rfl]
        split
        · cases hlookup : index.lookup? base.name scope with
          | none => rfl
          | some e =>
            dsimp only [entered]
            split
            · rfl
            · next hpath =>
              have hless := unmet_cons_lt (mem_of_lookup? hlookup) hpath
              split
              · rfl
              · exact ih (by omega) _ _ _
        · rfl
      rw [List.foldlM_cons, hbase, ancestry_cons, List.foldl_append]
      exact ihBases _

end Calls

/-! ## Bounded rounds -/

section Rounds

variable {index : TypeIndex}

/-- The bases of the indexed types that have not been met. -/
def basesLeft (index : TypeIndex) (met : List String) : List Base :=
  (index.entries.filter (fun e => e.qualifiedName ∉ met)).flatMap (·.decl.bases)

/-- The bases of a type are left until it is met. -/
theorem length_basesLeft_cons {met : List String} {e : TypeEntry} (he : e ∈ index.entries)
    (hnew : e.qualifiedName ∉ met) :
    e.decl.bases.length + (index.basesLeft (e.qualifiedName :: met)).length ≤
      (index.basesLeft met).length := by
  have hmono : ∀ l : List TypeEntry,
      ((l.filter (fun k => k.qualifiedName ∉ e.qualifiedName :: met)).flatMap (·.decl.bases)).length ≤
        ((l.filter (fun k => k.qualifiedName ∉ met)).flatMap (·.decl.bases)).length := by
    intro l
    refine (List.Sublist.flatMap (List.monotone_filter_right l ?_) _).length_le
    intro k hk
    simp only [List.mem_cons, not_or, Bool.decide_and, Bool.and_eq_true] at hk
    exact hk.2
  obtain ⟨before, after, hentries⟩ := List.append_of_mem he
  have hbefore := hmono before
  have hafter := hmono after
  unfold basesLeft
  rw [hentries, List.filter_append, List.filter_append, List.filter_cons_of_neg (by simp),
    List.filter_cons_of_pos (by simpa using hnew)]
  simp only [List.flatMap_append, List.flatMap_cons, List.length_append]
  omega

/-- The types that an entry names as bases, whatever their access. -/
def Resolver.parents (r : Resolver index) (e : TypeEntry) : List String :=
  e.decl.bases.filterMap fun base => (r.resolve base.name e.scope).map (·.qualifiedName)

/-- Whether `base` is a parent of one of the pending types or of a type above them, found in at most
`rounds` rounds. -/
def searchWithin (r : Resolver index) (base : String) :
    (rounds : Nat) → (seen pending : List String) → Option Bool
  | 0, _, _ => none
  | _ + 1, _, [] => some false
  | rounds + 1, seen, name :: pending =>
    if name ∈ seen then searchWithin r base rounds seen pending
    else match index.find? name with
      | none => searchWithin r base rounds seen pending
      | some e =>
        if base ∈ r.parents e then some true
        else searchWithin r base rounds (e.qualifiedName :: seen) (r.parents e ++ pending)

/-- A round that takes up a type leaves less to do: its bases become pending, and are no longer left. -/
theorem length_pending_lt (r : Resolver index) {seen : List String} {name : String}
    {e : TypeEntry} (hfind : index.find? name = some e) (hseen : name ∉ seen)
    (pending : List String) :
    (r.parents e ++ pending).length + (index.basesLeft (e.qualifiedName :: seen)).length <
      (name :: pending).length + (index.basesLeft seen).length := by
  have hname : e.qualifiedName = name := qualifiedName_of_find? hfind
  have hleft := length_basesLeft_cons (mem_of_find? hfind) (hname.symm ▸ hseen)
  have hparents : (r.parents e).length ≤ e.decl.bases.length := List.length_filterMap_le _ _
  rw [List.length_append, List.length_cons]
  omega

/-- The search ends after at most one round for each pending name and each base that is left. -/
theorem isSome_searchWithin (r : Resolver index) (base : String) {rounds : Nat}
    {seen pending : List String}
    (hrounds : pending.length + (index.basesLeft seen).length < rounds) :
    (searchWithin r base rounds seen pending).isSome = true := by
  induction rounds generalizing seen pending with
  | zero => omega
  | succ rounds ih =>
    cases pending with
    | nil => rfl
    | cons name pending =>
      have hdrop : pending.length + (index.basesLeft seen).length < rounds := by
        rw [List.length_cons] at hrounds
        omega
      rw [searchWithin]
      split
      · exact ih hdrop
      · next hseen =>
        split
        · exact ih hdrop
        · next e hfind =>
          split
          · rfl
          · have hless := length_pending_lt r hfind hseen pending
            exact ih (by omega)

/-- With enough rounds the search finds out whether a type is reached. -/
theorem searchWithin_eq_reaches (base : String) {rounds : Nat} {seen pending : List String}
    (hrounds : pending.length + (index.basesLeft seen).length < rounds) :
    searchWithin index.resolver base rounds seen pending = some (index.reaches base seen pending) := by
  induction rounds generalizing seen pending with
  | zero => omega
  | succ rounds ih =>
    cases pending with
    | nil =>
      rw [reaches]
      rfl
    | cons name pending =>
      have hdrop : pending.length + (index.basesLeft seen).length < rounds := by
        rw [List.length_cons] at hrounds
        omega
      rw [searchWithin, reaches_cons]
      split
      · exact ih hdrop
      · next hseen =>
        cases hfind : index.find? name with
        | none => exact ih hdrop
        | some e =>
          have hless := length_pending_lt index.resolver hfind hseen pending
          show (if base ∈ index.parents e then _ else _) = some (if base ∈ index.parents e then _ else _)
          split
          · rfl
          · exact ih (by omega)

end Rounds

end TypeIndex

namespace Analysis

/-! ## Bounded analyses -/

/-- Bind a class to a base if that is exported. -/
def bindBase (ctx : Context) (h : Header) (owner : String) (e : TypeEntry) (s : State) : State :=
  if e.annotated then s.emit (ctx.inheritRecord h owner e) else s

/-- Export the members of a base onto a class unless the base is exported itself. -/
def flattenBase (ctx : Context) (owner : Owner) (e : TypeEntry) (x : Surface) : Surface :=
  if e.annotated then x
  else exportMembers ctx owner (.inherited e.qualifiedName) e.decl.children x

/-- The bindings and members of a class, found by calls that nest at most `depth` deep: once through its
bases for the bindings, and after its own members once more for the members of the bases. -/
def classSurfaceWithin (depth : Nat) (ctx : Context) (h : Header) (traits : RecordTraits)
    (members : List Decl) (directive : Directive) (s : State) : Option Surface :=
  let inside := ctx.enterClass h directive
  let owner := ctx.classOwner h traits members directive
  let follow {σ : Type} (act : TypeEntry → σ → σ) : σ → Option σ :=
    TypeIndex.followWithin ctx.index.resolver act depth [owner.qualifiedName] ctx.scopes.path
      traits.bases
  (follow (bindBase inside h owner.qualifiedName) s).bind fun s =>
    follow (flattenBase inside owner) (exportMembers inside owner .own members { state := s })

theorem foldl_bindBase (ctx : Context) (h : Header) (owner : String) (es : List TypeEntry)
    (s : State) : es.foldl (fun s e => bindBase ctx h owner e s) s =
      s.bindBases ctx h owner (es.filter (·.annotated)) :=
  List.foldl_filter.symm

theorem foldl_flattenBase (ctx : Context) (owner : Owner) (es : List TypeEntry) (x : Surface) :
    es.foldl (fun x e => flattenBase ctx owner e x) x =
      exportInherited ctx owner (es.filter (fun e => !e.annotated)) x := by
  unfold exportInherited flattenBase
  rw [List.foldl_filter]
  congr 1
  funext x e
  cases e.annotated <;> rfl

/-- With more calls than types, the bounded search is the search. -/
theorem classSurfaceWithin_eq {ctx : Context} (hdepth : ctx.index.entries.length < depth)
    (h : Header) (traits : RecordTraits) (members : List Decl) (a : Directive) (s : State) :
    classSurfaceWithin depth ctx h traits members a s =
      some (classSurface ctx h traits members a s) := by
  have hunmet : ∀ path, ctx.index.unmet path < depth := fun path =>
    Nat.lt_of_le_of_lt (List.length_filter_le _ _) hdepth
  unfold classSurfaceWithin classSurface
  dsimp only
  rw [TypeIndex.followWithin_eq_foldl_ancestry _ (hunmet _), foldl_bindBase, Option.bind_some,
    TypeIndex.followWithin_eq_foldl_ancestry _ (hunmet _), foldl_flattenBase]

/-- The step of a visit, with bounded calls where the visit exports a class. -/
def Visit.runWithin (depth : Nat) (v : Visit) (s : State) : Option State :=
  match v.decl, v.verdict.directive with
  | .record h traits members, some a =>
    let r := v.ctx.classRecord h traits members a
    let s := (s.visit v.ctx v.decl).emit r
    if r.isValid then (classSurfaceWithin depth v.ctx h traits members a s).map (·.state) else some s
  | _, _ => some (v.run s)

/-- With more calls than types, a bounded visit is the visit. -/
theorem Visit.runWithin_eq {v : Visit} (hdepth : v.ctx.index.entries.length < depth) (s : State) :
    v.runWithin depth s = some (v.run s) := by
  unfold Visit.runWithin
  split
  · next head traits members a hdecl hdirective =>
    have hkept : v.verdict ≠ .ignored := by
      intro hignored
      rw [hignored] at hdirective
      cases hdirective
    have hrun : v.run s = Visit.contribute v.ctx (some a) (.record head traits members)
        (s.visit v.ctx v.decl) := by
      unfold Visit.run
      rw [if_neg hkept, hdirective, hdecl]
    rw [hrun]
    dsimp only [Visit.contribute]
    split
    · rw [classSurfaceWithin_eq hdepth]
      rfl
    · rfl
  · rfl

/-- Make visits one after the other, with bounded calls. -/
def runVisitsWithin (depth : Nat) (vs : List Visit) (s : State) : Option State :=
  vs.foldlM (fun s v => v.runWithin depth s) s

/-- With more calls than types, bounded visits are the visits. -/
theorem runVisitsWithin_eq {vs : List Visit} (hdepth : ∀ v ∈ vs, v.ctx.index.entries.length < depth)
    (s : State) : runVisitsWithin depth vs s = some (runVisits vs s) := by
  unfold runVisitsWithin
  induction vs generalizing s with
  | nil => rfl
  | cons v vs ih =>
    rw [List.foldlM_cons, Visit.runWithin_eq (hdepth v List.mem_cons_self)]
    exact ih (fun w hw => hdepth w (List.mem_cons_of_mem v hw)) _

end Analysis

open Analysis

/-- **Searches through base lists end.** In an accepted unit, whatever the names in base lists mean: calls
that follow a base list nest at most once for each indexed type that is not on the path, and the search
for a base ends after at most one round for each pending name and each base of an indexed type that was
not seen. With the types of the unit as meanings, that search decides derivation, and the whole analysis
gets by with one call inside another for each indexed type: it has a result, the one of the
unbounded analysis. -/
theorem base_searches_end (o : Options) (u : TranslationUnit) (h : u.check o = .ok ()) :
    let index := TypeIndex.ofDecls o u.decls
    (∀ r : index.Resolver,
      (∀ (σ : Type) (act : TypeEntry → σ → σ) (depth : Nat) (path scope : List String)
        (bases : List Base) (s : σ), index.unmet path < depth →
        (TypeIndex.followWithin r act depth path scope bases s).isSome = true) ∧
      ∀ (base : String) (rounds : Nat) (seen pending : List String),
        pending.length + (index.basesLeft seen).length < rounds →
        (TypeIndex.searchWithin r base rounds seen pending).isSome = true) ∧
    (∀ derived base rounds, 1 + (index.basesLeft []).length < rounds →
      TypeIndex.searchWithin index.resolver base rounds [] [derived] =
        some (index.derivesFrom derived base)) ∧
    ∃ final, runVisitsWithin (index.entries.length + 1) (visits (Context.ofUnit o u) u.decls) {} =
        some final ∧
      analyze o u = .ok
        { filePath := u.filePath
          records := final.records.toList
          diagnostics := final.diagnostics.toList } := by
  intro index
  refine ⟨fun r => ⟨?_, ?_⟩, ?_, finalState o u, ?_, analyze_of_check h⟩
  · intro σ act depth path scope bases s hdepth
    exact TypeIndex.isSome_followWithin r act hdepth scope bases s
  · intro base rounds seen pending hrounds
    exact TypeIndex.isSome_searchWithin r base hrounds
  · intro derived base rounds hrounds
    exact TypeIndex.searchWithin_eq_reaches base hrounds
  · rw [finalState_eq_runVisits]
    apply runVisitsWithin_eq
    intro v hv
    rw [index_of_mem_visits hv]
    exact Nat.lt_succ_self _

/-- A class that is its own base and names one that is nowhere, beside two classes that are each other's
base. -/
theorem base_searches_end_cycles :
    let exported (name : String) (bases : List Base) : Decl :=
      .record { name := name, annotations := ["lua_export_class"] } { bases := bases } []
    let u : TranslationUnit :=
      { filePath := "loops.h"
        decls := [exported "Self" [{ name := "Self" }, { name := "Nowhere" }],
          .record { name := "Left" } { bases := [{ name := "Right" }] } [],
          exported "Right" [{ name := "Left" }]] }
    let index := TypeIndex.ofDecls {} u.decls
    u.check {} = .ok () ∧
      (∀ r : index.Resolver,
        (TypeIndex.searchWithin r "Base" 6 [] ["Left"]).isSome = true) ∧
      TypeIndex.searchWithin index.resolver "Base" 6 [] ["Left"] =
        some (index.derivesFrom "Left" "Base") ∧
      ∃ final, runVisitsWithin 4 (visits (Context.ofUnit {} u) u.decls) {} = some final ∧
        analyze {} u = .ok
          { filePath := "loops.h"
            records := final.records.toList
            diagnostics := final.diagnostics.toList } := by
  intro exported u index
  have haccepted : u.check {} = .ok () := TranslationUnit.check_default (by decide) rfl
  have hleft : 1 + (index.basesLeft []).length < 6 := by decide
  obtain ⟨hends, hsearch, hrun⟩ := base_searches_end {} u haccepted
  exact ⟨haccepted, fun r => (hends r).2 "Base" 6 [] ["Left"] hleft, hsearch "Left" "Base" 6 hleft, hrun⟩

end ScriptExport
