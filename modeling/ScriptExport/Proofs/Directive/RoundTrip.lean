import ScriptExport.Directive.Parse
import ScriptExport.Proofs.Directive.Attributes
import ScriptExport.Proofs.Directive.Segments
import ScriptExport.Proofs.Text.Ascii
import ScriptExport.Proofs.Text.Trimming

/-!
# Reading back directives

A directive can be written down with each value between quotes of a sort that the value does not have.
Nothing else in the value matters then: commas, equals signs, brackets, blanks and the other quote are
part of it. An attribute written like this leaves the reader of the payload where it was
(`QuotedAttribute.crosses_text`), so the segments are the attributes, and each of them writes its key and
its value (`QuotedAttribute.writes_text`). So the directive is read back as it was, without any issue
(`parseAnnotations_written`).
-/

namespace ScriptExport

namespace Attribute

/-! ## Keys -/

section Keys

variable {cs : List Char}

/-- A letter, digit or underscore has no other role in a payload. -/
theorem ne_of_isKey (h : isKey cs = true) {c d : Char} (hc : c ∈ cs)
    (hd : (Text.isAsciiAlnum d || d == '_') = false) : c ≠ d := by
  rintro rfl
  unfold isKey at h
  rw [Bool.and_eq_true, List.all_eq_true] at h
  exact Bool.false_ne_true (hd.symm.trans (h.2 c hc))

theorem isBlank_of_isKey (h : isKey cs = true) {c : Char} (hc : c ∈ cs) : Text.isBlank c = false := by
  unfold isKey at h
  rw [Bool.and_eq_true, List.all_eq_true] at h
  have hchar := h.2 c hc
  unfold Text.isAsciiAlnum at hchar
  simp only [Bool.or_eq_true, Text.isAlpha_iff_toNat, Text.isDigit_iff_toNat, beq_iff_eq] at hchar
  rcases hchar with hchar | rfl
  · simp only [Text.isBlank, Bool.or_eq_false_iff, Bool.and_eq_false_iff, decide_eq_false_iff_not,
      beq_eq_false_iff_ne]
    omega
  · decide

theorem trimChars_of_isKey (h : isKey cs = true) : Text.trimChars cs = cs :=
  Text.trimChars_eq_self (fun _ hc => isBlank_of_isKey h (List.mem_of_mem_head? hc))
    fun _ hc => isBlank_of_isKey h (List.mem_of_mem_getLast? hc)

end Keys

/-! ## Texts without separators -/

namespace Cursor

/-- The text has no separator and leads from one place to the other. -/
def Crosses (p : Cursor) (cs : List Char) (r : Cursor) : Prop :=
  p.Unbroken cs ∧ p.after cs = r

variable {p q r : Cursor} {cs ds : List Char}

theorem Crosses.append (h : p.Crosses cs q) (h' : q.Crosses ds r) : p.Crosses (cs ++ ds) r := by
  obtain ⟨hcs, rfl⟩ := h
  exact ⟨unbroken_append.mpr ⟨hcs, h'.1⟩, List.foldl_append.trans h'.2⟩

theorem crosses_singleton {c : Char} (h : ¬ p.Separates c) : p.Crosses [c] (p.step c) :=
  ⟨⟨h, trivial⟩, rfl⟩

/-- Characters that neither separate nor move the reader. -/
theorem crosses_of_forall (h : ∀ c ∈ cs, ¬ p.Separates c ∧ p.step c = p) : p.Crosses cs p := by
  induction cs with
  | nil => exact ⟨trivial, rfl⟩
  | cons c cs ih =>
    obtain ⟨hsep, hstep⟩ := h c List.mem_cons_self
    have hfirst : p.Crosses [c] p := ⟨⟨hsep, trivial⟩, hstep⟩
    exact hfirst.append (ih fun d hd => h d (List.mem_cons_of_mem c hd))

theorem crosses_key (h : isKey cs = true) : Crosses {} cs {} := by
  refine crosses_of_forall fun c hc => ⟨fun hsep => ne_of_isKey h hc (by decide) hsep.1, ?_⟩
  have hquote : ¬ (c = '"' ∨ c = '\'') := by
    rintro (hc' | hc')
    · exact ne_of_isKey h hc (by decide) hc'
    · exact ne_of_isKey h hc (by decide) hc'
  have hopening : isOpening c = false := by
    simp [isOpening, ne_of_isKey h hc (d := '['), ne_of_isKey h hc (d := '\x7b'),
      ne_of_isKey h hc (d := '('), ne_of_isKey h hc (d := '<'), Text.isAsciiAlnum]
  have hclosing : isClosing c = false := by
    simp [isClosing, ne_of_isKey h hc (d := ']'), ne_of_isKey h hc (d := '\x7d'),
      ne_of_isKey h hc (d := ')'), ne_of_isKey h hc (d := '>'), Text.isAsciiAlnum]
  unfold step
  simp [hquote, hopening, hclosing]

/-- Between quotes everything passes but the quote. -/
theorem crosses_quoted {quote : Char} (hquote : quote = '"' ∨ quote = '\'') (h : quote ∉ cs) :
    Crosses {} (quote :: (cs ++ [quote])) {} := by
  have hopen : Crosses {} [quote] ⟨0, some quote⟩ := by
    have hstep : step {} quote = ⟨0, some quote⟩ := if_pos hquote
    refine hstep ▸ crosses_singleton ?_
    rintro ⟨rfl, -⟩
    exact absurd hquote (by decide)
  have hinside : Crosses ⟨0, some quote⟩ cs ⟨0, some quote⟩ := by
    refine crosses_of_forall fun c hc => ⟨fun hsep => Option.some_ne_none _ hsep.2.1, ?_⟩
    have hne : c ≠ quote := fun heq => h (heq ▸ hc)
    simp [step, hne]
  have hclose : Crosses ⟨0, some quote⟩ [quote] {} := by
    have hstep : step ⟨0, some quote⟩ quote = {} := by simp [step]
    exact hstep ▸ crosses_singleton fun hsep => Option.some_ne_none _ hsep.2.1
  exact hopen.append (hinside.append hclose)

end Cursor

theorem stripQuotes_quoted {quote : Char} (hquote : quote = '"' ∨ quote = '\'') (cs : List Char) :
    stripQuotes (quote :: (cs ++ [quote])) = cs := by
  cases cs with
  | nil => simp [stripQuotes, hquote]
  | cons c cs =>
    rw [List.cons_append, stripQuotes, ← List.cons_append, List.getLast?_concat,
      if_pos ⟨hquote, rfl⟩, List.dropLast_concat]

end Attribute

/-! ## Written attributes -/

/-- An attribute that can be written: its key is made of ASCII letters, digits and underscores, its value
stands between quotes of a sort that is not in it, and an access is one that is known. -/
structure QuotedAttribute where
  key : String
  value : String
  quote : Char
  key_ne : key ≠ ""
  key_chars : ∀ c ∈ key.toList, c.isAlphanum = true ∨ c = '_'
  quote_eq : quote = '"' ∨ quote = '\''
  quote_not_mem : quote ∉ value.toList
  access : key = "access" → (AccessMode.ofAttribute? value).isSome = true

namespace QuotedAttribute

open Attribute

/-- The attribute as a text. -/
def text (a : QuotedAttribute) : List Char :=
  a.key.toList ++ '=' :: a.quote :: (a.value.toList ++ [a.quote])

/-- Key and value. -/
def entry (a : QuotedAttribute) : String × String :=
  (a.key, a.value)

variable (a : QuotedAttribute)

theorem isKey_key : isKey a.key.toList = true :=
  isKey_toList_iff.mpr ⟨a.key_ne, a.key_chars⟩

theorem isBlank_quote : Text.isBlank a.quote = false := by
  rcases a.quote_eq with h | h <;> rw [h] <;> decide

theorem getLast?_text : a.text.getLast? = some a.quote := by
  unfold text
  rw [← List.cons_append, ← List.cons_append, ← List.append_assoc, List.getLast?_concat]

theorem crosses_text : Cursor.Crosses {} a.text {} := by
  have hequals : Cursor.Crosses {} ['='] {} := Cursor.crosses_singleton (by decide)
  exact (Cursor.crosses_key a.isKey_key).append
    (hequals.append (Cursor.crosses_quoted a.quote_eq a.quote_not_mem))

/-- A quoted attribute is written by its text. -/
theorem writes_text : Writes a.text a.key a.value where
  pair := by
    refine ⟨a.key.toList, a.quote :: (a.value.toList ++ [a.quote]), rfl, ?_,
      trimChars_of_isKey a.isKey_key, ?_⟩
    · exact fun hmem => ne_of_isKey a.isKey_key hmem (by decide) rfl
    · rw [Text.trimChars_eq_self, stripQuotes_quoted a.quote_eq]
      · rintro c ⟨⟩
        exact a.isBlank_quote
      · intro c hc
        rw [← List.cons_append, List.getLast?_concat] at hc
        cases hc
        exact a.isBlank_quote
  key_ne := a.key_ne
  key_chars := a.key_chars
  access := a.access

/-! ## Written lists of attributes -/

/-- The segments of written attributes are the attributes. -/
theorem segments_joinChars {as : List QuotedAttribute} (has : as ≠ []) :
    Cursor.segments {} (Text.joinChars [','] (as.map text)) = as.map text := by
  induction as with
  | nil => exact absurd rfl has
  | cons a as ih =>
    obtain ⟨hunbroken, hafter⟩ := a.crosses_text
    cases as with
    | nil => exact Cursor.segments_of_unbroken hunbroken
    | cons b as =>
      have hrest := ih (List.cons_ne_nil b as)
      rw [List.map_cons, Text.joinChars_cons (by simp), List.append_assoc, List.singleton_append,
        Cursor.segments_append_comma hunbroken (by rw [hafter]; decide), hafter, hrest]

/-- Written attributes are split again. -/
theorem splitTopLevel_joinChars (as : List QuotedAttribute) :
    splitTopLevel (Text.joinChars [','] (as.map text)) = as.map text := by
  rcases List.eq_nil_or_concat as with rfl | ⟨init, a, rfl⟩
  · rfl
  · rw [List.concat_eq_append]
    have hsegments := segments_joinChars (List.append_ne_nil_of_right_ne_nil init
      (List.cons_ne_nil a []))
    have hlast : (Cursor.segments {} (Text.joinChars [','] ((init ++ [a]).map text))).getLast? =
        some a.text := by
      rw [hsegments]
      simp
    have hblank : a.text.all Text.isBlank = false := by
      simp [text, a.isBlank_quote]
    rw [splitTopLevel_of_getLast? hlast hblank, hsegments]

/-- Written attributes with new keys are all added, in their order. -/
theorem foldl_take_text (as : List QuotedAttribute) (attributes : Attributes)
    (h : (attributes.keys ++ as.map key).Nodup) (issues : List DirectiveIssue) :
    ((as.map text).foldl take (attributes, issues)).1.entries =
        attributes.entries ++ as.map entry ∧
      ((as.map text).foldl take (attributes, issues)).2 = issues := by
  induction as generalizing attributes with
  | nil => exact ⟨(List.append_nil _).symm, rfl⟩
  | cons a as ih =>
    have hnew : a.key ∉ attributes.keys := fun hmem =>
      (List.nodup_append.mp h).2.2 _ hmem _ List.mem_cons_self rfl
    have htake : take (attributes, issues) a.text = (attributes.insert a.key a.value, issues) := by
      unfold take
      rw [a.writes_text.read_eq_ok hnew]
    have hkeys : (attributes.insert a.key a.value).keys = attributes.keys ++ [a.key] := by
      rw [OrderedMap.keys_insert, if_neg hnew]
    rw [List.map_cons, List.append_cons] at h
    rw [List.map_cons, List.foldl_cons, htake]
    obtain ⟨hentries, hissues⟩ := ih _ (hkeys.symm ▸ h)
    refine ⟨hentries.trans ?_, hissues⟩
    rw [OrderedMap.entries_insert hnew, List.append_assoc]
    rfl

end QuotedAttribute

/-! ## Written directives -/

theorem DirectiveKind.isKey_name (kind : DirectiveKind) :
    Attribute.isKey kind.name.toList = true := by
  cases kind <;> rfl

theorem DirectiveKind.ofName?_name (kind : DirectiveKind) : ofName? kind.name = some kind := by
  cases kind <;> rfl

/-- The text of a directive: the marker, the kind, and the attributes, each behind a comma. -/
def writtenDirective (marker : String) (kind : DirectiveKind) (as : List QuotedAttribute) : String :=
  marker ++ kind.name ++ String.ofList (as.flatMap fun a => ',' :: a.text)

namespace QuotedAttribute

/-- The attributes as a map. -/
def attributes (as : List QuotedAttribute) (h : (as.map key).Nodup) : Attributes :=
  ⟨as.map entry, by rwa [List.map_map]⟩

theorem flatMap_text {as : List QuotedAttribute} (has : as ≠ []) :
    (as.flatMap fun a => ',' :: a.text) = ',' :: Text.joinChars [','] (as.map text) := by
  induction as with
  | nil => exact absurd rfl has
  | cons a as ih =>
    rw [List.flatMap_cons, List.map_cons]
    cases as with
    | nil => simp [Text.joinChars]
    | cons b as =>
      rw [ih (List.cons_ne_nil b as), Text.joinChars_cons (by simp)]
      simp

end QuotedAttribute

section

variable {marker : String} (hmarker : ∀ c ∈ marker.toList.head?, Text.isBlank c = false)
  (kind : DirectiveKind) (as : List QuotedAttribute)

include hmarker

theorem trimChars_writtenDirective :
    Text.trimChars (writtenDirective marker kind as).toList =
      marker.toList ++ (kind.name.toList ++ as.flatMap fun a => ',' :: a.text) := by
  have hname : ∀ c ∈ kind.name.toList, Text.isBlank c = false := fun c hc =>
    Attribute.isBlank_of_isKey kind.isKey_name hc
  have hne : kind.name.toList ≠ [] := by
    cases kind <;> exact List.cons_ne_nil _ _
  have htext : (writtenDirective marker kind as).toList =
      marker.toList ++ (kind.name.toList ++ as.flatMap fun a => ',' :: a.text) := by
    unfold writtenDirective
    simp
  rw [htext, Text.trimChars_eq_self]
  · -- the first character is that of the marker, or of the kind if the marker is empty
    intro c hc
    rw [List.head?_append, Option.mem_def, Option.or_eq_some_iff] at hc
    rcases hc with hc | ⟨-, hc⟩
    · exact hmarker c hc
    · rw [List.head?_append_of_ne_nil _ hne] at hc
      exact hname c (List.mem_of_mem_head? hc)
  · -- the last character is that of the kind or a quote
    intro c hc
    rcases List.eq_nil_or_concat as with rfl | ⟨init, a, rfl⟩
    · rw [List.flatMap_nil, List.append_nil, List.getLast?_append_of_ne_nil _ hne] at hc
      exact hname c (List.mem_of_mem_getLast? hc)
    · rw [List.concat_eq_append, List.flatMap_append, List.flatMap_singleton] at hc
      have hquote : c = a.quote := by
        simpa [List.getLast?_cons, a.getLast?_text, eq_comm] using hc
      exact hquote ▸ a.isBlank_quote

/-- A written directive has its parts. -/
theorem annotationParts?_writtenDirective :
    annotationParts? marker (writtenDirective marker kind as) =
      some (kind.name, Text.joinChars [','] (as.map (·.text))) := by
  have hcomma : ',' ∉ kind.name.toList := fun hmem =>
    Attribute.ne_of_isKey kind.isKey_name hmem (by decide) rfl
  have htrim : Text.trimChars kind.name.toList = kind.name.toList :=
    Attribute.trimChars_of_isKey kind.isKey_name
  unfold annotationParts?
  rw [trimChars_writtenDirective hmarker, Text.after?_append, Option.map_some]
  cases as with
  | nil =>
    rw [List.flatMap_nil, List.append_nil, Text.cutAt_of_not_mem hcomma]
    simp [htrim, Text.joinChars]
  | cons a as =>
    rw [QuotedAttribute.flatMap_text (List.cons_ne_nil a as), Text.cutAt_append hcomma]
    simp [htrim]

/-- A directive with distinct keys, each value between quotes of a sort that is not in it, is read back with
its kind and its attributes, verbatim and in their order. The declaration is not ignored, and there is no
issue. -/
theorem parseAnnotations_written (hkeys : (as.map (·.key)).Nodup) :
    parseAnnotations marker [writtenDirective marker kind as] =
      { directive := some ⟨kind, QuotedAttribute.attributes as hkeys⟩, ignored := false,
        issues := [] } := by
  have hword : (kind.name == ignoreWord) = false := by
    cases kind <;> rfl
  have hparse : Attribute.parse (Text.joinChars [','] (as.map (·.text))) ({}, []) =
      (QuotedAttribute.attributes as hkeys, []) := by
    unfold Attribute.parse
    rw [QuotedAttribute.splitTopLevel_joinChars]
    obtain ⟨hentries, hissues⟩ := QuotedAttribute.foldl_take_text as {} hkeys []
    exact Prod.ext (OrderedMap.ext_entries hentries) hissues
  unfold parseAnnotations
  rw [List.foldl_cons, List.foldl_nil]
  unfold ParsedAnnotations.take
  rw [annotationParts?_writtenDirective hmarker]
  simp only [hword, kind.ofName?_name, hparse, Bool.false_eq_true, ↓reduceIte]

end

/-- Attributes whose values have commas, an equals sign, an open bracket, blanks and the other quote. -/
def quotedSample : List QuotedAttribute :=
  [{ key := "doc", value := " it's <a, alias=b", quote := '"',
     key_ne := (Attribute.isKey_toList_iff.mp rfl).1
     key_chars := (Attribute.isKey_toList_iff.mp rfl).2
     quote_eq := .inl rfl
     quote_not_mem := by decide
     access := fun h => absurd h (by decide) },
   { key := "access", value := "ReadOnly", quote := '\'',
     key_ne := (Attribute.isKey_toList_iff.mp rfl).1
     key_chars := (Attribute.isKey_toList_iff.mp rfl).2
     quote_eq := .inr rfl
     quote_not_mem := by decide
     access := fun _ => rfl }]

/-- A property with quoted attributes. -/
theorem parseAnnotations_written_sample :
    ∃ h : (quotedSample.map (·.key)).Nodup,
      parseAnnotations "lua_export_" [writtenDirective "lua_export_" .property quotedSample] =
        { directive := some ⟨.property, QuotedAttribute.attributes quotedSample h⟩, ignored := false,
          issues := [] } := by
  have hmarker : ∀ c ∈ "lua_export_".toList.head?, Text.isBlank c = false := by
    rintro c ⟨⟩
    rfl
  have hkeys : (quotedSample.map (·.key)).Nodup := by decide
  exact ⟨hkeys, parseAnnotations_written hmarker .property quotedSample hkeys⟩

end ScriptExport
