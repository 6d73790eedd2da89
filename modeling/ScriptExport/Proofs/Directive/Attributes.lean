import Mathlib.Data.List.Induction
import Mathlib.Data.List.Nodup
import ScriptExport.Directive.Attribute

/-!
# What the segments of a payload add

Every segment has one outcome: it adds an attribute or raises an issue. `Writes` states on the text alone
which attribute a segment writes, and `read_eq_ok_iff` that it is added exactly if its key is new. So the
first segment that writes a key decides its value, whatever stands between, and nothing that was there
before is changed. `Accounting` collects this; it holds before the first segment, is kept by each
(`Accounting.take`), and so holds for payloads.
-/

namespace ScriptExport

namespace DirectiveIssue

/-- Whether the issue is about one attribute. -/
def isAboutAttribute : DirectiveIssue → Bool
  | notAPair _ | invalidKey _ | invalidAccess _ | repeatedKey _ => true
  | unknownKind _ | additional .. => false

theorem kind_of_isAboutAttribute {issue : DirectiveIssue} (h : issue.isAboutAttribute = true) :
    issue.kind = .malformedAttribute := by
  cases issue with
  | unknownKind _ => cases h
  | _ => rfl

end DirectiveIssue

namespace Attribute

/-- The segment writes the attribute: the key before the first `=` and the value behind it, both between
blanks, and the value with or without quotes. A key is made of ASCII letters, digits and underscores, and
an access must be one that is known. -/
structure Writes (segment : List Char) (key value : String) : Prop where
  pair : ∃ before after, segment = before ++ '=' :: after ∧ '=' ∉ before ∧
    Text.trimChars before = key.toList ∧ stripQuotes (Text.trimChars after) = value.toList
  key_ne : key ≠ ""
  key_chars : ∀ c ∈ key.toList, c.isAlphanum = true ∨ c = '_'
  access : key = "access" → (AccessMode.ofAttribute? value).isSome = true

theorem isKey_toList_iff {key : String} :
    isKey key.toList = true ↔ key ≠ "" ∧ ∀ c ∈ key.toList, c.isAlphanum = true ∨ c = '_' := by
  have halnum : ∀ c, Text.isAsciiAlnum c = c.isAlphanum := fun _ => rfl
  simp [isKey, halnum]

/-! ## One segment -/

section

variable {attributes : Attributes} {segment : List Char} {key value : String}

/-- What is read was written. -/
theorem Writes.of_read (h : read attributes segment = .ok (key, value)) :
    Writes segment key value ∧ key ∉ attributes.keys := by
  unfold read at h
  dsimp only at h
  split at h
  · cases h
  · next before after hcut =>
    obtain ⟨hsegment, hbefore⟩ := Text.cutAt_eq_some_iff.mp hcut
    split at h
    · cases h
    · next hkey =>
      split at h
      · cases h
      · next haccess =>
        split at h
        · cases h
        · next hnew =>
          cases h
          have hisKey : isKey (String.ofList (Text.trimChars before)).toList = true := by
            simpa using hkey
          obtain ⟨hne, hchars⟩ := isKey_toList_iff.mp hisKey
          refine ⟨⟨⟨before, after, hsegment, hbefore, by simp, by simp⟩, hne, hchars, ?_⟩, ?_⟩
          · intro heq
            simpa [heq, Option.isSome_iff_ne_none] using haccess
          · rwa [← OrderedMap.contains_iff]

/-- What is written is read, if its key is new. -/
theorem Writes.read_eq_ok (h : Writes segment key value) (hnew : key ∉ attributes.keys) :
    read attributes segment = .ok (key, value) := by
  obtain ⟨before, after, hsegment, hbefore, hkey, hvalue⟩ := h.pair
  have hcut : Text.cutAt '=' segment = some (before, after) :=
    Text.cutAt_eq_some_iff.mpr ⟨hsegment, hbefore⟩
  have hisKey : isKey key.toList = true := isKey_toList_iff.mpr ⟨h.key_ne, h.key_chars⟩
  have haccess : (key == "access" && (AccessMode.ofAttribute? value).isNone) = false := by
    by_cases heq : key = "access"
    · simp [Option.isNone_eq_false_iff.mpr (h.access heq)]
    · simp [heq]
  have hcontains : attributes.contains key = false := by
    rw [← Bool.not_eq_true, OrderedMap.contains_iff]
    exact hnew
  unfold read
  simp [hcut, hkey, hvalue, hisKey, haccess, hcontains]

/-- A segment adds the attribute that it writes unless the key is taken. -/
theorem read_eq_ok_iff : read attributes segment = .ok (key, value) ↔
    Writes segment key value ∧ key ∉ attributes.keys :=
  ⟨Writes.of_read, fun h => h.1.read_eq_ok h.2⟩

theorem isAboutAttribute_of_read {issue : DirectiveIssue}
    (h : read attributes segment = .error issue) : issue.isAboutAttribute = true := by
  unfold read at h
  dsimp only at h
  split at h
  · cases h
    rfl
  · split at h
    · cases h
      rfl
    · split at h
      · cases h
        rfl
      · split at h
        · cases h
          rfl
        · cases h

theorem mem_keys_take_iff {acc : Attributes × List DirectiveIssue} :
    key ∈ (take acc segment).1.keys ↔ key ∈ acc.1.keys ∨ ∃ value, Writes segment key value := by
  unfold take
  cases hread : read acc.1 segment with
  | ok added =>
    obtain ⟨addedKey, addedValue⟩ := added
    obtain ⟨hwrites, hnew⟩ := read_eq_ok_iff.mp hread
    dsimp only
    rw [OrderedMap.keys_insert, if_neg hnew, List.mem_append, List.mem_singleton]
    refine or_congr_right' fun hkey => ⟨?_, ?_⟩
    · rintro rfl
      exact ⟨addedValue, hwrites⟩
    · rintro ⟨value, hvalue⟩
      obtain rfl : addedKey = key := by
        cases hread.symm.trans (hvalue.read_eq_ok hkey)
        rfl
      rfl
  | error issue =>
    refine ⟨Or.inl, ?_⟩
    rintro (hkey | ⟨value, hvalue⟩)
    · exact hkey
    · by_contra hkey
      cases hread.symm.trans (hvalue.read_eq_ok hkey)

end

/-! ## All segments -/

/-- The issue that a segment raises. -/
def raised? : Except DirectiveIssue (String × String) → Option DirectiveIssue
  | .ok _ => none
  | .error issue => some issue

/-- The attributes and issues after some segments, each with its outcome. -/
structure Accounting (start : Attributes × List DirectiveIssue) (segments : List (List Char))
    (outcomes : List (Except DirectiveIssue (String × String)))
    (result : Attributes × List DirectiveIssue) : Prop where
  length_eq : outcomes.length = segments.length
  /-- What was there stays in its place, and the outcomes follow in their order. -/
  entries_eq : result.1.entries = start.1.entries ++ outcomes.filterMap Except.toOption
  issues_eq : result.2 = start.2 ++ outcomes.filterMap raised?
  /-- A segment adds an attribute exactly if it is the first to write the key and the key is new. -/
  added_iff : ∀ i key value, outcomes[i]? = some (.ok (key, value)) ↔
    ∃ segment, segments[i]? = some segment ∧ Writes segment key value ∧ key ∉ start.1.keys ∧
      ∀ earlier ∈ segments.take i, ∀ other, ¬ Writes earlier key other
  malformed : ∀ issue, .error issue ∈ outcomes →
    issue.isAboutAttribute = true ∧ issue.kind = .malformedAttribute
  mem_keys_iff : ∀ key, key ∈ result.1.keys ↔
    key ∈ start.1.keys ∨ ∃ segment ∈ segments, ∃ value, Writes segment key value

namespace Accounting

variable {start result : Attributes × List DirectiveIssue} {segments : List (List Char)}
  {outcomes : List (Except DirectiveIssue (String × String))}

theorem nil (start : Attributes × List DirectiveIssue) : Accounting start [] [] start where
  length_eq := rfl
  entries_eq := (List.append_nil _).symm
  issues_eq := (List.append_nil _).symm
  added_iff := by simp
  malformed := by simp
  mem_keys_iff := by simp

/-- One more segment. -/
theorem take (h : Accounting start segments outcomes result) (segment : List Char) :
    Accounting start (segments ++ [segment]) (outcomes ++ [read result.1 segment])
      (Attribute.take result segment) where
  length_eq := by simp [h.length_eq]
  entries_eq := by
    unfold Attribute.take
    rw [List.filterMap_append, ← List.append_assoc, ← h.entries_eq]
    cases hread : read result.1 segment with
    | ok added => exact OrderedMap.entries_insert (read_eq_ok_iff.mp hread).2
    | error issue => exact (List.append_nil _).symm
  issues_eq := by
    unfold Attribute.take
    rw [List.filterMap_append, ← List.append_assoc, ← h.issues_eq]
    cases read result.1 segment with
    | ok added => exact (List.append_nil _).symm
    | error issue => rfl
  added_iff := by
    intro i key value
    rcases Nat.lt_trichotomy i segments.length with hlt | rfl | hgt
    · rw [List.getElem?_append_left hlt, List.getElem?_append_left (h.length_eq ▸ hlt),
        List.take_append_of_le_length (Nat.le_of_lt hlt)]
      exact h.added_iff i key value
    · -- the new segment: the keys that are taken are those written before it
      have hfree : key ∉ result.1.keys ↔ key ∉ start.1.keys ∧
          ∀ earlier ∈ segments, ∀ other, ¬ Writes earlier key other := by
        rw [h.mem_keys_iff]
        simp
      have hnew : (outcomes ++ [read result.1 segment])[segments.length]? =
          some (read result.1 segment) := by
        rw [← h.length_eq, List.getElem?_concat_length]
      rw [hnew, Option.some_inj, read_eq_ok_iff, hfree, List.getElem?_concat_length]
      simp
    · have hlength := h.length_eq
      rw [List.getElem?_eq_none (by simp; omega), List.getElem?_eq_none (by simp; omega)]
      simp
  malformed := by
    intro issue hissue
    rcases List.mem_append.mp hissue with hissue | hissue
    · exact h.malformed issue hissue
    · have habout := isAboutAttribute_of_read (List.mem_singleton.mp hissue).symm
      exact ⟨habout, DirectiveIssue.kind_of_isAboutAttribute habout⟩
  mem_keys_iff := by
    intro key
    rw [mem_keys_take_iff, h.mem_keys_iff, or_assoc]
    simp [or_and_right, exists_or]

end Accounting

/-- Every segment is accounted for. -/
theorem exists_accounting_foldl (start : Attributes × List DirectiveIssue)
    (segments : List (List Char)) :
    ∃ outcomes, Accounting start segments outcomes (segments.foldl take start) := by
  induction segments using List.reverseRecOn with
  | nil => exact ⟨[], .nil start⟩
  | append_singleton segments segment ih =>
    obtain ⟨outcomes, houtcomes⟩ := ih
    rw [List.foldl_append]
    exact ⟨_, houtcomes.take segment⟩

/-- Each outcome is an entry or an issue. -/
theorem length_filterMap_outcomes (outcomes : List (Except DirectiveIssue (String × String))) :
    (outcomes.filterMap Except.toOption).length + (outcomes.filterMap raised?).length =
      outcomes.length := by
  induction outcomes with
  | nil => rfl
  | cons outcome outcomes ih =>
    cases outcome with
    | ok added =>
      change (outcomes.filterMap Except.toOption).length + 1 +
        (outcomes.filterMap raised?).length = outcomes.length + 1
      omega
    | error issue =>
      change (outcomes.filterMap Except.toOption).length +
        ((outcomes.filterMap raised?).length + 1) = outcomes.length + 1
      omega

namespace Accounting

variable {start result : Attributes × List DirectiveIssue} {segments : List (List Char)}
  {outcomes : List (Except DirectiveIssue (String × String))} {key value : String}

theorem size_add_length (h : Accounting start segments outcomes result) :
    result.1.size + result.2.length = start.1.size + start.2.length + segments.length := by
  have hsplit := length_filterMap_outcomes outcomes
  have hlength := h.length_eq
  unfold OrderedMap.size
  rw [h.entries_eq, h.issues_eq, List.length_append, List.length_append]
  omega

theorem mem_entries (h : Accounting start segments outcomes result)
    (hadded : .ok (key, value) ∈ outcomes) : (key, value) ∈ result.1.entries := by
  rw [h.entries_eq]
  exact List.mem_append_right _ (List.mem_filterMap.mpr ⟨_, hadded, rfl⟩)

theorem exists_writes (h : Accounting start segments outcomes result)
    (hadded : .ok (key, value) ∈ outcomes) : ∃ segment ∈ segments, Writes segment key value := by
  obtain ⟨i, hi⟩ := List.mem_iff_getElem?.mp hadded
  obtain ⟨segment, hsegment, hwrites, -⟩ := (h.added_iff i key value).mp hi
  exact ⟨segment, List.mem_of_getElem? hsegment, hwrites⟩

theorem get?_of_mem_start (h : Accounting start segments outcomes result)
    (hkey : key ∈ start.1.keys) : result.1.get? key = start.1.get? key := by
  obtain ⟨entry, hentry, rfl⟩ := List.mem_map.mp hkey
  have hresult : entry ∈ result.1.entries := by
    rw [h.entries_eq]
    exact List.mem_append_left _ hentry
  rw [OrderedMap.get?_of_mem_entries hentry, OrderedMap.get?_of_mem_entries hresult]

end Accounting

/-- A payload keeps the attributes and issues that it finds and appends to both, one outcome for each of
its segments: an attribute if the segment is the first to write a key that is new, else an issue about a
malformed attribute. So attributes and issues together grow by the number of segments. Each key that
is added is a word of ASCII letters, digits and underscores, stands in the map once, and has the value of
the first segment that writes it; an access that is added is a known one. -/
theorem parse_accounts (payload : List Char) (attributes : Attributes)
    (issues : List DirectiveIssue) :
    let result := parse payload (attributes, issues)
    ∃ outcomes, Accounting (attributes, issues) (splitTopLevel payload) outcomes result ∧
      result.1.size + result.2.length =
        attributes.size + issues.length + (splitTopLevel payload).length ∧
      (∀ key value, .ok (key, value) ∈ outcomes →
        key ≠ "" ∧ (∀ c ∈ key.toList, c.isAlphanum = true ∨ c = '_') ∧
          result.1.keys.count key = 1 ∧ result.1.get? key = some value ∧
          (key = "access" → (AccessMode.ofAttribute? value).isSome = true)) ∧
      (∀ key ∈ attributes.keys, result.1.get? key = attributes.get? key) ∧
      ∀ before segment after key value, splitTopLevel payload = before ++ segment :: after →
        Writes segment key value → key ∉ attributes.keys →
        (∀ earlier ∈ before, ∀ other, ¬ Writes earlier key other) →
        result.1.get? key = some value := by
  intro result
  obtain ⟨outcomes, h⟩ := exists_accounting_foldl (attributes, issues) (splitTopLevel payload)
  change Accounting _ _ outcomes result at h
  refine ⟨outcomes, h, h.size_add_length, ?_, fun key hkey => h.get?_of_mem_start hkey, ?_⟩
  · intro key value hadded
    obtain ⟨segment, -, hwrites⟩ := h.exists_writes hadded
    have hentry := h.mem_entries hadded
    have hcount : result.1.keys.count key = 1 :=
      List.count_eq_one_of_mem result.1.nodup (List.mem_map_of_mem hentry)
    exact ⟨hwrites.key_ne, hwrites.key_chars, hcount, OrderedMap.get?_of_mem_entries hentry,
      hwrites.access⟩
  · intro before segment after key value hsplit hwrites hnew hfirst
    have hadded : outcomes[before.length]? = some (.ok (key, value)) :=
      (h.added_iff _ _ _).mpr ⟨segment, by simp [hsplit], hwrites, hnew, by simpa [hsplit] using hfirst⟩
    exact OrderedMap.get?_of_mem_entries (h.mem_entries (List.mem_of_getElem? hadded))

/-! ## Issues found before -/

theorem take_append_issues (attributes : Attributes) (issues more : List DirectiveIssue)
    (segment : List Char) :
    take (attributes, issues ++ more) segment =
      ((take (attributes, more) segment).1, issues ++ (take (attributes, more) segment).2) := by
  unfold take
  cases read attributes segment with
  | ok added => rfl
  | error issue => exact congrArg (attributes, ·) (List.append_assoc issues more [issue])

/-- The issues before a payload have no influence on what it adds. -/
theorem parse_eq (payload : List Char) (attributes : Attributes) (issues : List DirectiveIssue) :
    parse payload (attributes, issues) =
      ((parse payload (attributes, [])).1, issues ++ (parse payload (attributes, [])).2) := by
  have hfold : ∀ (segments : List (List Char)) (attributes : Attributes)
      (more : List DirectiveIssue), segments.foldl take (attributes, issues ++ more) =
        ((segments.foldl take (attributes, more)).1,
          issues ++ (segments.foldl take (attributes, more)).2) := by
    intro segments
    induction segments with
    | nil => exact fun _ _ => rfl
    | cons segment segments ih =>
      intro attributes more
      rw [List.foldl_cons, List.foldl_cons, take_append_issues, ih]
  have hstart := hfold (splitTopLevel payload) attributes []
  rwa [List.append_nil] at hstart

theorem isAboutAttribute_of_mem_parse {payload : List Char} {attributes : Attributes}
    {issue : DirectiveIssue} (h : issue ∈ (parse payload (attributes, [])).2) :
    issue.isAboutAttribute = true := by
  obtain ⟨outcomes, houtcomes⟩ := exists_accounting_foldl (attributes, []) (splitTopLevel payload)
  change Accounting _ _ outcomes (parse payload (attributes, [])) at houtcomes
  rw [houtcomes.issues_eq, List.nil_append] at h
  obtain ⟨outcome, houtcome, hraised⟩ := List.mem_filterMap.mp h
  cases outcome with
  | ok added => cases hraised
  | error raised =>
    cases hraised
    exact (houtcomes.malformed issue houtcome).1

end Attribute

end ScriptExport
