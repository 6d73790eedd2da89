import ScriptExport.Proofs.Analysis.ScriptNames
import ScriptExport.Proofs.Source.TypeRef
import ScriptExport.Proofs.Text.Ascii
import ScriptExport.Proofs.Text.Words

/-!
# Generated names

A container without an alias goes under a name that is put together from the names of its element types,
and scripts have to be able to write that name: a capital ASCII letter, followed by ASCII letters and digits
(`Naming.isIdentifier`). Element types are spelled in any way, so what is taken over of a spelling are its
ASCII words only, each capitalized (`Capitalized`), and what would start with a digit or be empty has a
letter or a word put in its place. Everything else is appended to such a name (`isIdentifier_append`), also
the number that a name gets which is already taken.
-/

namespace ScriptExport

namespace Naming

/-- Whether the text is an identifier of scripts: a capital ASCII letter, followed by ASCII letters and
digits. -/
def isIdentifier (s : String) : Bool :=
  match s.toList with
  | [] => false
  | c :: cs => c.isUpper && cs.all Char.isAlphanum

section Composition

variable {s t : String} {names : List String}

theorem isIdentifier_iff : isIdentifier s = true ↔
    ∃ c cs, s.toList = c :: cs ∧ c.isUpper = true ∧ ∀ d ∈ cs, d.isAlphanum = true := by
  unfold isIdentifier
  cases s.toList with
  | nil => simp
  | cons c cs => simp

theorem isAlphanum_of_isIdentifier (h : isIdentifier s = true) : ∀ c ∈ s.toList, c.isAlphanum = true := by
  obtain ⟨c, cs, hs, hc, hcs⟩ := isIdentifier_iff.mp h
  rw [hs]
  exact List.forall_mem_cons.mpr ⟨Text.isAlphanum_of_isUpper hc, hcs⟩

theorem isIdentifier_append (hs : isIdentifier s = true) (ht : ∀ c ∈ t.toList, c.isAlphanum = true) :
    isIdentifier (s ++ t) = true := by
  obtain ⟨c, cs, heq, hc, hcs⟩ := isIdentifier_iff.mp hs
  refine isIdentifier_iff.mpr ⟨c, cs ++ t.toList, ?_, hc, List.forall_mem_append.mpr ⟨hcs, ht⟩⟩
  rw [String.toList_append, heq, List.cons_append]

theorem isIdentifier_append_join (hs : isIdentifier s = true)
    (hnames : ∀ name ∈ names, isIdentifier name = true) : isIdentifier (s ++ String.join names) = true := by
  refine isIdentifier_append hs fun c hc => ?_
  rw [String.toList_join] at hc
  obtain ⟨name, hname, hc⟩ := List.mem_flatMap.mp hc
  exact isAlphanum_of_isIdentifier (hnames name hname) c hc

theorem isIdentifier_join_append (hnames : ∀ name ∈ names, isIdentifier name = true)
    (ht : isIdentifier t = true) : isIdentifier (String.join names ++ t) = true := by
  cases names with
  | nil => simpa using ht
  | cons name names =>
    obtain ⟨hname, hrest⟩ := List.forall_mem_cons.mp hnames
    rw [String.join_cons]
    exact isIdentifier_append (isIdentifier_append_join hname hrest) (isAlphanum_of_isIdentifier ht)

end Composition

/-! ## Names of types -/

/-- ASCII letters and digits, of which the first is no small letter. -/
structure Capitalized (cs : List Char) : Prop where
  alphanum : ∀ c ∈ cs, c.isAlphanum = true
  first : ∀ c ∈ cs.head?, c.isUpper = true ∨ c.isDigit = true

namespace Capitalized

theorem nil : Capitalized [] := ⟨by simp, by simp⟩

theorem append {u v : List Char} (hu : Capitalized u) (hv : Capitalized v) : Capitalized (u ++ v) := by
  refine ⟨List.forall_mem_append.mpr ⟨hu.alphanum, hv.alphanum⟩, ?_⟩
  cases u with
  | nil => exact hv.first
  | cons c u => exact hu.first

theorem capitalizeChars {w : List Char} (hw : ∀ c ∈ w, c.isAlphanum = true) :
    Capitalized (Text.capitalizeChars w) := by
  cases w with
  | nil => exact nil
  | cons c w =>
    obtain ⟨hc, hw⟩ := List.forall_mem_cons.mp hw
    have hascii : c.toNat < 0x80 := by
      have hunfold : c.isAlphanum = (c.isAlpha || c.isDigit) := rfl
      rw [hunfold, Bool.or_eq_true, Text.isAlpha_iff_toNat, Text.isDigit_iff_toNat] at hc
      omega
    have hupper := Text.isUpper_or_isDigit_toUpper hc
    rw [Text.capitalizeChars, Text.upper, if_pos hascii]
    refine ⟨List.forall_mem_cons.mpr ⟨?_, hw⟩, ?_⟩
    · exact hupper.elim Text.isAlphanum_of_isUpper Text.isAlphanum_of_isDigit
    · intro d hd
      obtain rfl := Option.some.inj hd
      exact hupper

/-- Capitalized words stay capitalized together. -/
theorem capitalizedWords (cs : List Char) : Capitalized (capitalizedWords cs) := by
  have hwords : ∀ w ∈ Text.segments (fun c => !Text.isAsciiAlnum c) cs,
      ∀ c ∈ w, c.isAlphanum = true := by
    intro w hw c hc
    have hkept := Text.of_mem_segments hw c hc
    rwa [Bool.not_eq_false'] at hkept
  unfold Naming.capitalizedWords
  generalize Text.segments (fun c => !Text.isAsciiAlnum c) cs = ws at hwords
  induction ws with
  | nil => exact nil
  | cons w ws ih =>
    obtain ⟨hw, hws⟩ := List.forall_mem_cons.mp hwords
    rw [List.flatMap_cons]
    exact (capitalizeChars hw).append (ih hws)

end Capitalized

/-- The words of any text make an identifier. -/
theorem isIdentifier_friendlyWords (text : String) : isIdentifier (friendlyWords text) = true := by
  have hcapitalized := Capitalized.capitalizedWords text.toList
  rw [isIdentifier_iff, friendlyWords, String.toList_ofList, friendlyWordsChars]
  cases hwords : capitalizedWords text.toList with
  | nil => exact ⟨'U', _, rfl, rfl, List.all_eq_true.mp rfl⟩
  | cons c cs =>
    rw [hwords] at hcapitalized
    dsimp only
    by_cases hdigit : c.isDigit = true
    · rw [if_pos hdigit]
      exact ⟨'T', _, rfl, rfl, hcapitalized.alphanum⟩
    · rw [if_neg hdigit]
      exact ⟨c, cs, rfl, (hcapitalized.first c rfl).resolve_right hdigit,
        fun d hd => hcapitalized.alphanum d (List.mem_cons_of_mem c hd)⟩

theorem isIdentifier_suffix (kind : ContainerKind) : isIdentifier kind.suffix = true := by
  cases kind <;> rfl

/-- The short name of a type is an identifier. -/
theorem isIdentifier_friendlyName (rules : ContainerRules) (t : TypeRef) :
    isIdentifier (friendlyName rules t) = true := by
  induction t using TypeRef.parts_induction with
  | step t ih =>
    have hlist : ∀ ts : List TypeRef, ts ⊆ t.parts →
        ∀ name ∈ ts.map (friendlyName rules), isIdentifier name = true := by
      intro ts hts name hname
      obtain ⟨part, hpart, rfl⟩ := List.mem_map.mp hname
      exact ih part (hts hpart)
    cases t with
    | const t | lvalueRef t | rvalueRef t => exact ih t List.mem_cons_self
    | builtin | named | unresolved => exact isIdentifier_friendlyWords _
    | pointer t => exact isIdentifier_append (ih t List.mem_cons_self) (List.all_eq_true.mp rfl)
    | template name args =>
      rw [friendlyName, friendlyNames_eq_map]
      generalize (rules.classify name).getD .other = detected
      have hnames : ∀ n ∈ (detected.split (args.map (friendlyName rules))).2, isIdentifier n = true :=
        fun n hn => hlist args (List.Subset.refl _) n (detected.split_subset _ hn)
      generalize detected.split (args.map (friendlyName rules)) = shape at hnames
      obtain ⟨kind, names⟩ := shape
      cases kind with
      | other => exact isIdentifier_append_join (isIdentifier_friendlyWords name) hnames
      | vector => exact isIdentifier_join_append hnames (isIdentifier_suffix .vector)
      | map => exact isIdentifier_join_append hnames (isIdentifier_suffix .map)
    | function ret params =>
      rw [friendlyName, friendlyNames_eq_map]
      refine isIdentifier_append ?_ (List.all_eq_true.mp rfl)
      exact isIdentifier_append_join (ih ret List.mem_cons_self)
        (hlist params (List.subset_cons_self ret params))

theorem isIdentifier_containerName (rules : ContainerRules) (kind : ContainerKind)
    (elements : List TypeRef) : isIdentifier (containerName rules kind elements) = true := by
  refine isIdentifier_join_append (fun name hname => ?_) (isIdentifier_suffix kind)
  obtain ⟨t, -, rfl⟩ := List.mem_map.mp hname
  exact isIdentifier_friendlyName rules t

/-- The name is the one that is generated for a container, or that with a number behind it. -/
def IsGenerated (rules : ContainerRules) (kind : ContainerKind) (elements : List TypeRef)
    (name : String) : Prop :=
  name = containerName rules kind elements ∨
    ∃ n : Nat, name = containerName rules kind elements ++ toString n

/-- Generated names are identifiers. -/
theorem IsGenerated.isIdentifier {rules : ContainerRules} {kind : ContainerKind} {elements : List TypeRef}
    {name : String} (h : IsGenerated rules kind elements name) : isIdentifier name = true := by
  have hgenerated := isIdentifier_containerName rules kind elements
  rcases h with rfl | ⟨n, rfl⟩
  · exact hgenerated
  · refine isIdentifier_append hgenerated fun c hc => Text.isAlphanum_of_isDigit ?_
    rw [Nat.toString_eq_ofList_toDigits, String.toList_ofList] at hc
    exact Text.isDigit_of_mem_toDigits hc

end Naming

/-! ## Containers of a unit -/

namespace Analysis

/-- A name that was made unique is a generated one. -/
theorem isGenerated_uniqueContainerName (s : State) (h : Header) (rules : ContainerRules)
    (kind : ContainerKind) (elements : List TypeRef) (instantiation : String) :
    Naming.IsGenerated rules kind elements
      (s.uniqueContainerName h (Naming.containerName rules kind elements) instantiation).1 := by
  unfold State.uniqueContainerName Counter.freshName
  split
  · exact .inr ⟨_, rfl⟩
  · exact .inl rfl

/-- If the record is that of a container without an alias, it goes under a name that is generated from
the family and the element types which it shows. -/
def NamedByContents (rules : ContainerRules) (r : ExportRecord) : Prop :=
  r.kind = .container → r.alias? = none →
    ∃ kind elements, r.container = some kind ∧ r.elementTypes = elements.map (·.canonical.text) ∧
      Naming.IsGenerated rules kind elements r.scriptName

/-- Containers are named by what they hold. -/
theorem IsContainerRecord.namedByContents {ctx : Context} {h : Header} {a : Directive}
    {r : ExportRecord} (hr : IsContainerRecord ctx h a r) : NamedByContents ctx.options.containers r := by
  intro _ hplain
  cases hr with
  | view halias =>
    rw [ExportRecord.alias?_eq (a := a) rfl, halias] at hplain
    cases hplain
  | instantiation s halias =>
    exact ⟨_, _, rfl, rfl, isGenerated_uniqueContainerName s h _ _ _ _⟩

theorem namedByContents_of_mem_records {o : Options} {u : TranslationUnit} :
    ∀ r ∈ (finalState o u).records.toList, NamedByContents o.containers r := by
  refine forall_mem_records_of o u (fun _ hother hkind => absurd hkind hother) ?_
  rintro ctx h a r rfl hr
  exact hr.namedByContents

end Analysis

open Analysis

/-- **Generated names.** Friendly names of types and the names generated for containers are
identifiers of scripts, whatever the types are called and whichever templates count as containers. So
is the script name of every container that a unit exports without an alias: it is the name generated for
what the record shows, or that with a number behind it. -/
theorem generated_names_isIdentifier :
    (∀ rules t, Naming.isIdentifier (Naming.friendlyName rules t) = true) ∧
    (∀ rules kind elements, Naming.isIdentifier (Naming.containerName rules kind elements) = true) ∧
    ∀ (o : Options) (u : TranslationUnit), u.check o = .ok () →
      ∃ exports, analyze o u = .ok exports ∧
        ∀ r ∈ exports.records, r.kind = .container → r.alias? = none →
          Naming.isIdentifier r.scriptName = true ∧
          ∃ kind elements, r.container = some kind ∧
            r.elementTypes = elements.map (·.canonical.text) ∧
            Naming.IsGenerated o.containers kind elements r.scriptName := by
  refine ⟨Naming.isIdentifier_friendlyName, Naming.isIdentifier_containerName, ?_⟩
  intro o u haccepted
  refine ⟨_, analyze_of_check haccepted, ?_⟩
  intro r hr hkind hplain
  obtain ⟨kind, elements, hcontainer, helements, hname⟩ :=
    namedByContents_of_mem_records r hr hkind hplain
  exact ⟨hname.isIdentifier, kind, elements, hcontainer, helements, hname⟩

/-- An alias takes the name that is generated for the container after it, and a container of types with a
digit at the start, with other than ASCII letters, and without any. -/
theorem generated_names_isIdentifier_odd_spellings :
    let floats := Decl.typeAlias
      { name := "Floats", annotations := ["lua_export_vector,alias=IntVector"] }
      (.template "std::vector" [.builtin "float"])
    let ints := Decl.typeAlias { name := "Ints", annotations := ["lua_export_vector"] }
      (.template "std::vector" [.builtin "int"])
    let odd := Decl.typeAlias { name := "Odd", annotations := ["lua_export_map"] }
      (.template "std::map" [.named "3d::größe", .pointer (.unresolved "??")])
    let u : TranslationUnit := { filePath := "ints.h", decls := [floats, ints, odd] }
    u.check {} = .ok () ∧ ∃ exports, analyze {} u = .ok exports ∧
      exports.records.map (fun r => (r.alias?, r.scriptName)) =
        [(some "IntVector", "IntVector"), (none, "IntVector2"), (none, "T3dGrEUnknownPtrMap")] ∧
      ∀ r ∈ exports.records, r.kind = .container → r.alias? = none →
        Naming.isIdentifier r.scriptName = true := by
  intro floats ints odd u
  have haccepted : u.check {} = .ok () := TranslationUnit.check_default (by decide) rfl
  obtain ⟨exports, hexports, hnames⟩ := generated_names_isIdentifier.2.2 {} u haccepted
  refine ⟨haccepted, exports, hexports, ?_, fun r hr hkind hplain => (hnames r hr hkind hplain).1⟩
  obtain rfl := Except.ok.inj ((analyze_of_check haccepted).symm.trans hexports)
  decide

end ScriptExport
