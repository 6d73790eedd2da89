import ScriptExport.Proofs.Analysis.ClassMembers
import ScriptExport.Proofs.Record.MemberKey

/-!
# Overloads on a class

The members of a class are told apart by the text of their keys. For callables whose types have plain
names the text says it all: two of them with the same key have the same name, parameter types and
constness (`redeclares_of_key?_eq`). So no such overload takes the place of another one. What may do so
is a member of another kind, or one with a type name that has brackets or commas in it.
-/

namespace ScriptExport

namespace Analysis

namespace ClassVisit

variable (k : ClassVisit)

/-- The place offers a callable whose parameter types have plain names. -/
def IsPlainCallable (q : Place) : Prop :=
  ∃ kind h c, q.action k.owner = .callable kind h c ∧
    ∀ param ∈ c.params, param.type.hasPlainNames = true

/-- Callables compete by their member keys. -/
theorem surfaceKey_callableRecord {ctx : Context} {kind : ExportKind} {h : Header} {c : Callable}
    {directive : Option Directive} (hkind : kind.isCallable = true) :
    surfaceKey (ctx.callableRecord kind h c directive) =
      (ctx.callableRecord kind h c directive).memberKey := by
  unfold surfaceKey
  refine if_neg fun hproperty => ?_
  have : kind = .property := hproperty
  rw [this] at hkind
  cases hkind

theorem isPart_of_mem_parameterTypes {ctx : Context} {kind : ExportKind} {h : Header} {c : Callable}
    {directive : Option Directive} (hplain : ∀ param ∈ c.params, param.type.hasPlainNames = true) :
    ∀ t ∈ (ctx.callableRecord kind h c directive).parameterTypes, Text.IsPart t.toList := by
  intro t ht
  obtain ⟨param, hparam, rfl⟩ := List.mem_map.mp ht
  exact TypeRef.isPart_canonical (hplain param hparam)

/-- Callables with plain types that have the same key declare the same. -/
theorem redeclares_of_key?_eq {place q : Place} {kind : ExportKind} {h : Header} {c : Callable}
    (haction : place.action k.owner = .callable kind h c)
    (hplain : ∀ param ∈ c.params, param.type.hasPlainNames = true) (hq : k.IsPlainCallable q)
    (hkey : q.key? k.inside k.owner = place.key? k.inside k.owner) : k.Redeclares q h c := by
  obtain ⟨kind', h', c', haction', hplain'⟩ := hq
  rw [key?_of_candidate? (candidate?_of_callable haction' k.inside {}),
    key?_of_candidate? (candidate?_of_callable haction k.inside {}), Option.some_inj,
    surfaceKey_callableRecord (isCallable_of_action haction'),
    surfaceKey_callableRecord (isCallable_of_action haction)] at hkey
  obtain ⟨hname, htypes, hconst⟩ := ExportRecord.eq_of_memberKey_eq
    (isPart_of_mem_parameterTypes hplain') (isPart_of_mem_parameterTypes hplain) hkey
  exact ⟨kind', h', c', haction', hname, htypes, hconst⟩

end ClassVisit

end Analysis

open Analysis

/-- **Overloads are kept apart.** In an accepted unit, take a callable among the own members of an
exported class, with a usable name and with plain names in its parameter types, however deep. An own
callable of that sort has the same key only if it has the same name, parameter types and constness. So
the result has a callable with the qualified name, the parameter types and the constness, unless an
earlier own member that is no such callable takes the key. -/
theorem overloads_kept_apart (o : Options) (u : TranslationUnit) (haccepted : u.check o = .ok ()) :
    ∃ result, analyze o u = .ok result ∧
      ∀ k : ClassVisit, k.visit ∈ visits (Context.ofUnit o u) u.decls →
      ∀ (i : Nat) place kind h c, k.own[i]? = some place →
        place.action k.owner = .callable kind h c → Text.isBlankText h.name = false →
        (∀ param ∈ c.params, param.type.hasPlainNames = true) →
        (∀ q ∈ k.own, k.IsPlainCallable q →
          q.key? k.inside k.owner = place.key? k.inside k.owner → k.Redeclares q h c) ∧
        (k.HasCallable result.records h c ∨
          ∃ q ∈ k.own.take i, q.key? k.inside k.owner = place.key? k.inside k.owner ∧
            ¬ k.IsPlainCallable q) := by
  refine ⟨_, analyze_of_check haccepted, ?_⟩
  intro k hk i place kind h c hplace haction hname hplain
  have hsame : ∀ q, k.IsPlainCallable q →
      q.key? k.inside k.owner = place.key? k.inside k.owner → k.Redeclares q h c :=
    fun q hq hkey => k.redeclares_of_key?_eq haction hplain hq hkey
  refine ⟨fun q _ => hsame q, ?_⟩
  rcases k.hasCallable_or_taken hk hplace haction hname with hkept | ⟨q, hq, hkey, hother⟩
  · exact .inl hkept
  · exact .inr ⟨q, hq, hkey, fun hcallable => hother (hsame q hcallable hkey)⟩

/-- Three overloads with the same letters in their types. -/
def nestedOverloads : Decl :=
  .record { name := "D", annotations := ["lua_export_class"] } {}
    [.method { name := "f" }
      { params := [{ name := "x", type := .template "map" [.named "a", .template "list" [.named "b"]] }] },
     .method { name := "f" }
      { params := [{ name := "x", type := .pointer (.function (.builtin "int") [.named "a", .named "b"]) }] },
     .method { name := "f" }
      { params := [{ name := "x", type := .named "a" }, { name := "y", type := .named "b" }]
        isConst := true }]

/-- The unit with `nestedOverloads` in it. -/
def nestedUnit : TranslationUnit :=
  { filePath := "d.h", decls := [nestedOverloads] }

/-- The visit to the class. -/
def nestedVisit : ClassVisit where
  visit := ⟨Context.ofUnit {} nestedUnit, nestedOverloads⟩
  head := nestedOverloads.header
  traits := {}
  members := nestedOverloads.children
  directive := ⟨.classType, {}⟩
  decl_eq := rfl
  directive_eq := show nestedOverloads.directive? "lua_export_" = _ by rfl
  usable := by decide

/-- All three overloads are kept. -/
theorem overloads_kept_apart_nested :
    nestedUnit.check {} = .ok () ∧
    ∃ result, analyze {} nestedUnit = .ok result ∧
      ∀ types isConst,
        (types, isConst) ∈ [(["map<a, list<b>>"], false), (["int(a, b)*"], false), (["a", "b"], true)] →
        ∃ r ∈ result.records, r.kind.isCallable = true ∧ r.qualifiedName = "D::f" ∧
          r.parameterTypes = types ∧ r.isConst = isConst := by
  have haccepted : nestedUnit.check {} = .ok () :=
    TranslationUnit.check_of_checkDecls (by decide) (by decide) rfl
  refine ⟨haccepted, ?_⟩
  obtain ⟨result, hresult, hclass⟩ := overloads_kept_apart {} nestedUnit haccepted
  refine ⟨result, hresult, ?_⟩
  have hk : nestedVisit.visit ∈ visits (Context.ofUnit {} nestedUnit) nestedUnit.decls :=
    List.mem_cons_self
  have hown : nestedVisit.own = nestedOverloads.children.map fun d =>
      ⟨.own, markMember "lua_export_" d, .member⟩ := by rfl
  have hplain : ∀ q ∈ nestedVisit.own, nestedVisit.IsPlainCallable q := by
    intro q hq
    rw [hown] at hq
    obtain ⟨d, hd, rfl⟩ := List.mem_map.mp hq
    simp only [nestedOverloads, Decl.children, List.mem_cons, List.not_mem_nil, or_false] at hd
    rcases hd with rfl | rfl | rfl <;> exact ⟨_, _, _, rfl, by decide⟩
  have hq : nestedVisit.owner.qualifiedName ++ "::" ++ Text.trim "f" = "D::f" := by decide +kernel
  have hkept : ∀ (i : Nat) place kind c types, nestedVisit.own[i]? = some place →
      place.action nestedVisit.owner = .callable kind { name := "f" } c →
      (∀ param ∈ c.params, param.type.hasPlainNames = true) →
      c.params.map (·.type.canonical.text) = types →
      ∃ r ∈ result.records, r.kind.isCallable = true ∧ r.qualifiedName = "D::f" ∧
        r.parameterTypes = types ∧ r.isConst = c.isConst := by
    rintro i place kind c types hplace haction hnames rfl
    obtain ⟨-, hkept⟩ := hclass nestedVisit hk i place kind _ c hplace haction (by decide) hnames
    rw [← hq]
    refine hkept.resolve_right ?_
    rintro ⟨q, hq, -, hother⟩
    exact hother (hplain q (List.mem_of_mem_take hq))
  intro types isConst hmem
  simp only [List.mem_cons, Prod.mk.injEq, List.not_mem_nil, or_false] at hmem
  rcases hmem with ⟨rfl, rfl⟩ | ⟨rfl, rfl⟩ | ⟨rfl, rfl⟩
  · exact hkept 0 _ _ _ _ rfl rfl (by decide) (by decide +kernel)
  · exact hkept 1 _ _ _ _ rfl rfl (by decide) (by decide +kernel)
  · exact hkept 2 _ _ _ _ rfl rfl (by decide) (by decide +kernel)

end ScriptExport
