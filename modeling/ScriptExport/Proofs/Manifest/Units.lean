import Mathlib.Data.List.Nodup
import ScriptExport.Manifest.Basic

/-!
# The unit of a file

Seen through `unit?`, a manifest is a map from files to units. Adding a unit changes the map at its file
and nowhere else (`unit?_add`), so after a series of additions a file has the last unit that was added
for it (`unit?_addAll`). A manifest that was put together from nothing lists each file once
(`distinct_addAll`), and its units are then the values of the map (`mem_units_iff`).
-/

namespace ScriptExport.Manifest

section ReplaceLast

variable {u : UnitExports} {vs : List UnitExports}

theorem replaceLast?_eq_none_iff :
    replaceLast? u vs = none ↔ ∀ v ∈ vs, v.filePath ≠ u.filePath := by
  induction vs with
  | nil => simp [replaceLast?]
  | cons v vs ih =>
    rw [replaceLast?, List.forall_mem_cons]
    cases hlater : replaceLast? u vs with
    | some ws =>
      have hsome : ¬ ∀ w ∈ vs, w.filePath ≠ u.filePath := by
        intro hall
        rw [ih.mpr hall] at hlater
        cases hlater
      simp [hsome]
    | none =>
      have hall := ih.mp hlater
      by_cases hv : v.filePath = u.filePath
      · simp [hv]
      · simp only [hv, ↓reduceIte, ne_eq, not_false_eq_true, true_and, true_iff]
        exact hall

/-- The unit takes the place of the last one with its file. -/
theorem eq_append_of_replaceLast? {ws : List UnitExports} (h : replaceLast? u vs = some ws) :
    ∃ before v after, vs = before ++ v :: after ∧ v.filePath = u.filePath ∧
      (∀ w ∈ after, w.filePath ≠ u.filePath) ∧ ws = before ++ u :: after := by
  induction vs generalizing ws with
  | nil => cases h
  | cons v vs ih =>
    rw [replaceLast?] at h
    split at h
    · next ws' hlater =>
      cases h
      obtain ⟨before, w, after, rfl, hw, hafter, rfl⟩ := ih hlater
      exact ⟨v :: before, w, after, rfl, hw, hafter, rfl⟩
    · next hlater =>
      split at h
      · next hv =>
        cases h
        exact ⟨[], v, vs, rfl, hv, replaceLast?_eq_none_iff.mp hlater, rfl⟩
      · cases h

end ReplaceLast

/-- The two ways to add a unit. -/
theorem units_add (m : Manifest) (u : UnitExports) :
    ((∀ v ∈ m.units, v.filePath ≠ u.filePath) ∧ (m.add u).units = m.units ++ [u]) ∨
      ∃ before v after, m.units = before ++ v :: after ∧ v.filePath = u.filePath ∧
        (∀ w ∈ after, w.filePath ≠ u.filePath) ∧ (m.add u).units = before ++ u :: after := by
  unfold add
  cases hreplace : replaceLast? u m.units with
  | none => exact .inl ⟨replaceLast?_eq_none_iff.mp hreplace, rfl⟩
  | some ws => exact .inr (eq_append_of_replaceLast? hreplace)

/-! ## Additions as changes of a map -/

/-- An added unit is found under its file. -/
theorem unit?_add (m : Manifest) (u : UnitExports) (file : String) :
    (m.add u).unit? file = if u.filePath = file then some u else m.unit? file := by
  have hother : ∀ {l : List UnitExports}, (∀ w ∈ l, w.filePath ≠ u.filePath) →
      u.filePath = file → l.reverse.find? (fun w => w.filePath == file) = none := by
    intro l hl hfile
    rw [List.find?_eq_none]
    intro w hw heq
    exact hl w (List.mem_reverse.mp hw) ((beq_iff_eq.mp heq).trans hfile.symm)
  unfold unit?
  rcases units_add m u with ⟨-, hunits⟩ | ⟨before, v, after, hm, hv, hafter, hunits⟩
  · rw [hunits, List.reverse_concat, List.find?_cons]
    by_cases hfile : u.filePath = file
    · simp [hfile]
    · rw [beq_eq_false_iff_ne.mpr hfile, if_neg hfile]
  · rw [hunits, hm]
    simp only [List.reverse_append, List.reverse_cons, List.find?_append, List.find?_cons,
      List.find?_nil]
    by_cases hfile : u.filePath = file
    · simp [hother hafter hfile, hfile]
    · rw [hv, beq_eq_false_iff_ne.mpr hfile, if_neg hfile]

theorem unit?_addAll (m : Manifest) (us : List UnitExports) (file : String) :
    (m.addAll us).unit? file =
      (us.reverse.find? (fun u => u.filePath == file)).or (m.unit? file) := by
  induction us generalizing m with
  | nil => rfl
  | cons u us ih =>
    rw [show m.addAll (u :: us) = (m.add u).addAll us from rfl, ih, unit?_add, List.reverse_cons,
      List.find?_append, Option.or_assoc]
    by_cases hfile : u.filePath = file <;> simp [hfile]

/-! ## Manifests that list a file once -/

/-- Each file is listed once. -/
def Distinct (m : Manifest) : Prop :=
  (m.units.map (·.filePath)).Nodup

/-- Adding keeps files distinct. -/
theorem distinct_add {m : Manifest} (h : m.Distinct) (u : UnitExports) : (m.add u).Distinct := by
  unfold Distinct at h ⊢
  rcases units_add m u with ⟨hnew, hunits⟩ | ⟨before, v, after, hm, hv, -, hunits⟩
  · rw [hunits, List.map_append, List.map_singleton, ← List.concat_eq_append, List.nodup_concat]
    refine ⟨?_, h⟩
    intro hmem
    obtain ⟨w, hw, hfile⟩ := List.mem_map.mp hmem
    exact hnew w hw hfile
  · rw [hm, List.map_append, List.map_cons, hv] at h
    rw [hunits, List.map_append, List.map_cons]
    exact h

theorem distinct_addAll {m : Manifest} (h : m.Distinct) (us : List UnitExports) :
    (m.addAll us).Distinct := by
  induction us generalizing m with
  | nil => exact h
  | cons u us ih => exact ih (distinct_add h u)

/-- Units are found by their files. -/
theorem mem_units_iff {m : Manifest} (h : m.Distinct) {u : UnitExports} :
    u ∈ m.units ↔ m.unit? u.filePath = some u := by
  unfold unit?
  constructor
  · intro hu
    have hfound : (m.units.reverse.find? (fun v => v.filePath == u.filePath)).isSome = true :=
      List.find?_isSome.mpr ⟨u, List.mem_reverse.mpr hu, beq_self_eq_true _⟩
    obtain ⟨v, hv⟩ := Option.isSome_iff_exists.mp hfound
    have hfile : v.filePath = u.filePath := by simpa using List.find?_some hv
    have hmem := List.mem_reverse.mp (List.mem_of_find?_eq_some hv)
    rw [hv, List.inj_on_of_nodup_map h hmem hu hfile]
  · intro hu
    exact List.mem_reverse.mp (List.mem_of_find?_eq_some hu)

end ScriptExport.Manifest
