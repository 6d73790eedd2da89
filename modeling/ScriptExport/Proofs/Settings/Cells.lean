import ScriptExport.Proofs.Text.Spelling
import ScriptExport.Proofs.Text.Trimming
import ScriptExport.Settings.Basic

/-!
# Settings as cells

A key says which values it accepts (`SettingKey.Accepts`) and how it shows the ones it was given
(`SettingKey.normalized`): a marker without the blanks around it, a list as its items with commas between
them, anything else as it is. Changing one setting does nothing to what the others show. Settings that
were changed any number of times, starting from the defaults, show values that their keys accept and
that are normalized already (`IsSettled`), so each of them can be set to what it shows
(`settings_are_cells`). Only what is shown takes part in this: a log path that is not set shows a
default, and setting it to that default makes it a path that is set.
-/

namespace ScriptExport

/-! ## Lists -/

/-- The items of a list: what stands between commas, without blanks at its ends, unless it is empty. -/
def commaItems (value : String) : List String :=
  ((Text.segments (· == ',') value.toList).map fun cs => Text.trim (String.ofList cs)).filter
    fun item => item ≠ ""

/-- A text that can be an item of a list. -/
structure IsListItem (item : String) : Prop where
  trim_eq : Text.trim item = item
  ne_empty : item ≠ ""
  comma : ',' ∉ item.toList

variable {value name : String}

theorem isListItem_of_mem_commaItems {item : String} (h : item ∈ commaItems value) :
    IsListItem item := by
  obtain ⟨hmem, hne⟩ := List.mem_filter.mp h
  obtain ⟨cs, hcs, rfl⟩ := List.mem_map.mp hmem
  refine ⟨Text.trim_trim _, by simpa using hne, fun hcomma => ?_⟩
  have hmem : ',' ∈ cs := by
    rw [Text.trim, String.toList_ofList, String.toList_ofList] at hcomma
    exact Text.mem_of_mem_trimChars hcomma
  simpa using Text.of_mem_segments hcs ',' hmem

theorem IsListItem.not_separator {item : String} (h : IsListItem item) :
    ∀ c ∈ item.toList, (c == ',') = false := by
  intro c hc
  refine beq_false_of_ne ?_
  rintro rfl
  exact h.comma hc

theorem commaItems_item {item : String} (h : IsListItem item) : commaItems item = [item] := by
  unfold commaItems
  rw [Text.segments_of_none h.not_separator, List.map_singleton, String.ofList_toList, h.trim_eq]
  exact List.filter_cons_of_pos (by simpa using h.ne_empty)

theorem commaItems_append {item : String} (h : IsListItem item) (rest : String) :
    commaItems (item ++ "," ++ rest) = item :: commaItems rest := by
  have hsegments : Text.segments (· == ',') (item ++ "," ++ rest).toList =
      item.toList :: Text.segments (· == ',') rest.toList := by
    rw [String.toList_append, String.toList_append, List.append_assoc]
    exact Text.segments_append_cons h.not_separator rfl _
  unfold commaItems
  rw [hsegments, List.map_cons, String.ofList_toList, h.trim_eq]
  exact List.filter_cons_of_pos (by simpa using h.ne_empty)

/-- Items with commas between them are the items of a list. -/
theorem commaItems_join {items : List String} (h : ∀ item ∈ items, IsListItem item) :
    commaItems (Text.join "," items) = items := by
  induction items with
  | nil => rfl
  | cons item items ih =>
    obtain ⟨hitem, hitems⟩ := List.forall_mem_cons.mp h
    cases items with
    | nil => exact commaItems_item hitem
    | cons next items =>
      show commaItems (item ++ "," ++ Text.join "," (next :: items)) = _
      rw [commaItems_append hitem, ih hitems]

/-- A list value holds the items between its commas. -/
theorem Settings.listOf_eq_commaItems (value : String) : Settings.listOf value = commaItems value := by
  unfold Settings.listOf commaItems
  induction Text.segments (· == ',') value.toList with
  | nil => rfl
  | cons cs segments ih =>
    rw [List.map_cons, List.filterMap_cons, ih]
    by_cases hempty : Text.trim (String.ofList cs) = ""
    · have hnone : Text.trimmed? (String.ofList cs) = none :=
        if_pos (Text.trim_eq_empty_iff.mp hempty)
      rw [hnone, List.filter_cons_of_neg (by simpa using hempty)]
    · have hsome := Text.trimmed?_eq_some_iff.mpr ⟨rfl, hempty⟩
      rw [hsome, List.filter_cons_of_pos (by simpa using hempty)]

/-! ## Keys -/

theorem Settings.boolOf?_eq_some_iff {b : Bool} :
    Settings.boolOf? value = some b ↔ value = Settings.boolText b := by
  unfold Settings.boolOf? Settings.boolText
  cases b <;> grind

namespace SettingKey

/-- The values that a setting can be given. -/
def Accepts (value : String) : SettingKey → Prop
  | marker => Text.trim value ≠ ""
  | allowSpecializations | diagnostics => value = "true" ∨ value = "false"
  | ignoredPaths | vectorTemplates | mapTemplates | eventLog | statsLog => True

/-- The value that a setting shows after it was given one. -/
def normalized (value : String) : SettingKey → String
  | marker => Text.trim value
  | ignoredPaths | vectorTemplates | mapTemplates => Text.join "," (commaItems value)
  | allowSpecializations | diagnostics | eventLog | statsLog => value

theorem normalized_normalized (key : SettingKey) (value : String) :
    key.normalized (key.normalized value) = key.normalized value := by
  have hlist : Text.join "," (commaItems (Text.join "," (commaItems value))) =
      Text.join "," (commaItems value) := by
    rw [commaItems_join fun item => isListItem_of_mem_commaItems]
  cases key with
  | marker => exact Text.trim_trim value
  | ignoredPaths | vectorTemplates | mapTemplates => exact hlist
  | allowSpecializations | diagnostics | eventLog | statsLog => rfl

theorem Accepts.normalized {key : SettingKey} (h : key.Accepts value) :
    key.Accepts (key.normalized value) := by
  cases key with
  | marker =>
    show Text.trim (Text.trim value) ≠ ""
    rwa [Text.trim_trim]
  | allowSpecializations | diagnostics => exact h
  | ignoredPaths | vectorTemplates | mapTemplates | eventLog | statsLog => trivial

theorem ofName?_eq_some_iff {key : SettingKey} : ofName? name = some key ↔ key.name = name := by
  constructor
  · intro h
    simpa using List.find?_some h
  · rintro rfl
    cases key <;> rfl

end SettingKey

namespace Settings

/-! ## One change -/

section Change

variable {s t : Settings} {key : SettingKey}

/-- A key can be set to what it accepts. -/
theorem exists_set?_iff : (∃ t, s.set? key value = some t) ↔ key.Accepts value := by
  have hbool : (∃ b, boolOf? value = some b) ↔ value = "true" ∨ value = "false" := by
    simp only [boolOf?_eq_some_iff, Bool.exists_bool, boolText]
    exact or_comm
  have htrimmed : (∃ v, Text.trimmed? value = some v) ↔ Text.trim value ≠ "" := by
    simp only [Text.trimmed?_eq_some_iff, exists_eq_left']
  cases key with
  | marker =>
    rw [← Option.isSome_iff_exists, set?, Option.isSome_map, Option.isSome_iff_exists]
    exact htrimmed
  | allowSpecializations | diagnostics =>
    rw [← Option.isSome_iff_exists, set?, Option.isSome_map, Option.isSome_iff_exists]
    exact hbool
  | ignoredPaths | vectorTemplates | mapTemplates | eventLog | statsLog =>
    exact iff_of_true ⟨_, rfl⟩ trivial

/-- A key that is set has the normalized value. -/
theorem get_set?_self (h : s.set? key value = some t) : t.get key = key.normalized value := by
  cases key with
  | marker =>
    obtain ⟨v, hv, rfl⟩ := Option.map_eq_some_iff.mp h
    exact (Text.trimmed?_eq_some_iff.mp hv).1.symm
  | allowSpecializations | diagnostics =>
    obtain ⟨b, hb, rfl⟩ := Option.map_eq_some_iff.mp h
    exact (boolOf?_eq_some_iff.mp hb).symm
  | ignoredPaths | vectorTemplates | mapTemplates =>
    cases h
    exact congrArg (Text.join ",") (listOf_eq_commaItems value)
  | eventLog | statsLog =>
    cases h
    rfl

/-- Other keys stay as they are. -/
theorem get_set?_of_ne {other : SettingKey} (hne : other ≠ key) (h : s.set? key value = some t) :
    t.get other = s.get other := by
  cases key with
  | marker | allowSpecializations | diagnostics =>
    obtain ⟨v, -, rfl⟩ := Option.map_eq_some_iff.mp h
    cases other <;> trivial
  | ignoredPaths | vectorTemplates | mapTemplates | eventLog | statsLog =>
    cases h
    cases other <;> trivial

/-- Keys are set by name. -/
theorem setNamed_eq_ok_iff :
    s.setNamed name value = .ok t ↔ ∃ key : SettingKey, key.name = name ∧ s.set? key value = some t := by
  simp only [← SettingKey.ofName?_eq_some_iff]
  unfold setNamed
  cases SettingKey.ofName? name with
  | none => simp
  | some key =>
    dsimp only
    cases hset : s.set? key value with
    | none => simp [hset]
    | some u => simp [hset]

theorem exists_setNamed_iff :
    (∃ t, s.setNamed name value = .ok t) ↔ ∃ key : SettingKey, key.name = name ∧ key.Accepts value := by
  constructor
  · rintro ⟨t, ht⟩
    obtain ⟨key, hname, hset⟩ := setNamed_eq_ok_iff.mp ht
    exact ⟨key, hname, exists_set?_iff.mp ⟨t, hset⟩⟩
  · rintro ⟨key, hname, haccepts⟩
    obtain ⟨t, hset⟩ := (exists_set?_iff (s := s)).mpr haccepts
    exact ⟨t, setNamed_eq_ok_iff.mpr ⟨key, hname, hset⟩⟩

theorem getNamed?_eq_some_iff :
    s.getNamed? name = some value ↔ ∃ key : SettingKey, key.name = name ∧ s.get key = value := by
  unfold getNamed?
  simp only [Option.map_eq_some_iff, SettingKey.ofName?_eq_some_iff]

/-- Names show the same if keys do. -/
theorem getNamed?_congr (h : ∀ key : SettingKey, key.name = name → t.get key = s.get key) :
    t.getNamed? name = s.getNamed? name := by
  unfold getNamed?
  cases hname : SettingKey.ofName? name with
  | none => rfl
  | some key => exact congrArg some (h key (SettingKey.ofName?_eq_some_iff.mp hname))

end Change

/-! ## Histories of changes -/

/-- Every setting shows a value that its key accepts and that is normalized. -/
def IsSettled (s : Settings) : Prop :=
  ∀ key : SettingKey, key.Accepts (s.get key) ∧ key.normalized (s.get key) = s.get key

theorem isSettled_default : IsSettled {} := by
  intro key
  cases key with
  | marker => exact ⟨show Text.trim "lua_export_" ≠ "" by decide, by decide⟩
  | allowSpecializations | diagnostics => exact ⟨.inr rfl, rfl⟩
  | ignoredPaths | vectorTemplates | mapTemplates => exact ⟨trivial, by decide⟩
  | eventLog | statsLog => exact ⟨trivial, rfl⟩

/-- A change leaves the settings settled. -/
theorem IsSettled.set? {s t : Settings} {key : SettingKey} (h : s.IsSettled)
    (hset : s.set? key value = some t) : t.IsSettled := by
  intro other
  by_cases heq : other = key
  · subst heq
    have haccepts : other.Accepts value := exists_set?_iff.mp ⟨t, hset⟩
    rw [get_set?_self hset]
    exact ⟨haccepts.normalized, other.normalized_normalized value⟩
  · rw [get_set?_of_ne heq hset]
    exact h other

/-- The settings after one call to change them, by name and value; a call that is refused changes
nothing. -/
def attempt (s : Settings) (call : String × String) : Settings :=
  match s.setNamed call.1 call.2 with
  | .ok t => t
  | .error _ => s

/-- The settings after calls to change them, starting from the defaults. -/
def after (calls : List (String × String)) : Settings :=
  calls.foldl attempt {}

theorem after_concat (calls : List (String × String)) (call : String × String) :
    after (calls ++ [call]) = (after calls).attempt call :=
  List.foldl_concat ..

theorem IsSettled.attempt {s : Settings} (h : s.IsSettled) (call : String × String) :
    (s.attempt call).IsSettled := by
  unfold Settings.attempt
  split
  · next t ht =>
    obtain ⟨key, -, hset⟩ := setNamed_eq_ok_iff.mp ht
    exact h.set? hset
  · exact h

theorem isSettled_after (calls : List (String × String)) : (after calls).IsSettled := by
  induction calls using List.reverseRecOn with
  | nil => exact isSettled_default
  | append_singleton calls call ih =>
    rw [after_concat]
    exact ih.attempt call

/-- Settled settings can be set to what they show, and show it afterwards. -/
theorem IsSettled.exists_set?_get {s : Settings} (h : s.IsSettled) (key : SettingKey) :
    ∃ t, s.set? key (s.get key) = some t ∧ ∀ other, t.get other = s.get other := by
  obtain ⟨haccepts, hnormalized⟩ := h key
  obtain ⟨t, ht⟩ := exists_set?_iff.mpr haccepts
  refine ⟨t, ht, fun other => ?_⟩
  by_cases heq : other = key
  · rw [heq, get_set?_self ht, hnormalized]
  · exact get_set?_of_ne heq ht

end Settings

/-- **Settings are independent cells.** After any calls to change them, starting from the defaults: a
further call succeeds exactly if it names a key that accepts the value. One that is refused changes
nothing. One that succeeds changes what this key shows, which is the normalized value then, and no other.
Setting a key to what it shows succeeds and changes nothing that is shown. -/
theorem settings_are_cells (calls : List (String × String)) :
    let s : Settings := Settings.after calls
    (∀ name value, (∃ t, s.setNamed name value = .ok t) ↔
      ∃ key : SettingKey, key.name = name ∧ key.Accepts value) ∧
    (∀ name value fault, s.setNamed name value = .error fault →
      Settings.after (calls ++ [(name, value)]) = s) ∧
    (∀ name value t, s.setNamed name value = .ok t →
      Settings.after (calls ++ [(name, value)]) = t ∧
      (∃ key : SettingKey, key.name = name ∧ t.getNamed? name = some (key.normalized value)) ∧
      ∀ other, other ≠ name → t.getNamed? other = s.getNamed? other) ∧
    ∀ name value, s.getNamed? name = some value →
      ∃ t, s.setNamed name value = .ok t ∧ ∀ other, t.getNamed? other = s.getNamed? other := by
  intro s
  have hsettled : s.IsSettled := Settings.isSettled_after calls
  refine ⟨fun name value => Settings.exists_setNamed_iff, fun name value fault hfault => ?_,
    fun name value t ht => ?_, fun name value hvalue => ?_⟩
  · rw [Settings.after_concat, Settings.attempt, hfault]
  · obtain ⟨key, rfl, hset⟩ := Settings.setNamed_eq_ok_iff.mp ht
    refine ⟨?_, ⟨key, rfl, ?_⟩, fun other hother => ?_⟩
    · rw [Settings.after_concat, Settings.attempt, ht]
    · exact Settings.getNamed?_eq_some_iff.mpr ⟨key, rfl, Settings.get_set?_self hset⟩
    · refine Settings.getNamed?_congr fun k hk => Settings.get_set?_of_ne ?_ hset
      rintro rfl
      exact hother hk.symm
  · obtain ⟨key, rfl, rfl⟩ := Settings.getNamed?_eq_some_iff.mp hvalue
    obtain ⟨t, hset, hsame⟩ := hsettled.exists_set?_get key
    exact ⟨t, Settings.setNamed_eq_ok_iff.mpr ⟨key, rfl, hset⟩,
      fun other => Settings.getNamed?_congr fun k _ => hsame k⟩

/-- A list with blanks and empty items, a refused call, and a log path that was never set. -/
theorem settings_are_cells_list :
    let calls := [("vector-templates", " a ,, b,"), ("diagnostics", "maybe")]
    let s := Settings.after calls
    (∃ fault, s.setNamed "colour" "red" = .error fault) ∧
      Settings.after (calls ++ [("colour", "red")]) = s ∧
    (∃ t, s.setNamed "annotation-prefix" " x " = .ok t ∧
      t.getNamed? "vector-templates" = some "a,b" ∧ t.getNamed? "annotation-prefix" = some "x") ∧
    s.getNamed? "event-log" = some "luaexport-events.log" ∧
    ∃ t, s.setNamed "event-log" "luaexport-events.log" = .ok t ∧
      ∀ other, t.getNamed? other = s.getNamed? other := by
  intro calls s
  obtain ⟨hsucceeds, hrefused, hchanged, hsame⟩ := settings_are_cells calls
  have hfault : s.setNamed "colour" "red" = .error (.unknownKey "colour") := by decide
  have hlist : s.getNamed? "vector-templates" = some "a,b" := by decide
  have hlog : s.getNamed? "event-log" = some "luaexport-events.log" := by decide
  obtain ⟨t, ht⟩ := (hsucceeds "annotation-prefix" " x ").mpr
    ⟨.marker, rfl, show Text.trim " x " ≠ "" by decide⟩
  obtain ⟨-, ⟨key, hkey, hshown⟩, hothers⟩ := hchanged _ _ _ ht
  obtain rfl : key = .marker := by cases key <;> trivial
  exact ⟨⟨_, hfault⟩, hrefused _ _ _ hfault, ⟨t, ht, (hothers _ (by decide)).trans hlist, hshown⟩,
    hlog, hsame _ _ hlog⟩

end ScriptExport
