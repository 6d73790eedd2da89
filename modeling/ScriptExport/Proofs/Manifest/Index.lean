import ScriptExport.Proofs.Command.Store
import ScriptExport.Proofs.Lists
import ScriptExport.Proofs.Manifest.Units

/-!
# Indexed manifests as ordered maps

An indexed manifest keeps a place for each file beside its units, and three operations have to keep the
two in step. They do: a manifest that was indexed once stays `ofManifest` of its units, whatever is added,
merged or rebuilt (`run_ofManifest`), so the index finds what a search would find (`unit?_ofManifest`).
What is left are facts about manifests. A manifest that lists each file once is determined by the order
of its files and by the unit of each of them (`Manifest.eq_of_files_eq`), and additions act on the two as
insertions into an ordered map do (`Manifest.files_addAll`, `Manifest.unit?_addAll`).
-/

namespace ScriptExport

/-! ## Manifests by their files -/

namespace Manifest

/-- The files in the order of their units. -/
def files (m : Manifest) : List String :=
  m.units.map (·.filePath)

theorem files_add (m : Manifest) (u : UnitExports) :
    (m.add u).files = if u.filePath ∈ m.files then m.files else m.files ++ [u.filePath] := by
  unfold files
  rcases units_add m u with ⟨hnew, hunits⟩ | ⟨before, v, after, hm, hv, -, hunits⟩
  · have hnot : u.filePath ∉ m.units.map (·.filePath) := by
      intro hmem
      obtain ⟨v, hv, hfile⟩ := List.mem_map.mp hmem
      exact hnew v hv hfile
    rw [hunits, if_neg hnot, List.map_append, List.map_singleton]
  · rw [hunits, hm, if_pos (by simp [hv])]
    simp [hv]

theorem distinct_empty (version time : String) :
    ({ version, generatedAt := time } : Manifest).Distinct :=
  List.nodup_nil

/-- Files stand in the order in which they were first added. -/
theorem files_addAll {m : Manifest} (h : m.Distinct) (us : List UnitExports) :
    (m.addAll us).files = (m.files ++ us.map (·.filePath)).eraseDups := by
  induction us generalizing m with
  | nil =>
    rw [List.map_nil, List.append_nil]
    exact (eraseDups_of_nodup h).symm
  | cons u us ih =>
    have hadd : (m.add u).files = (m.files ++ [u.filePath]).eraseDups := by
      rw [files_add]
      split
      · next hmem =>
        rw [eraseDups_append_of_subset (by simpa using hmem)]
        exact (eraseDups_of_nodup h).symm
      · next hnew =>
        rw [List.eraseDups_append, show m.files.eraseDups = m.files from eraseDups_of_nodup h]
        simp [List.removeAll, hnew, List.eraseDups_cons]
    rw [show m.addAll (u :: us) = (m.add u).addAll us from rfl, ih (distinct_add h u), hadd,
      eraseDups_eraseDups_append, List.append_assoc]
    rfl

@[simp] theorem version_addAll (m : Manifest) (us : List UnitExports) :
    (m.addAll us).version = m.version := by
  induction us generalizing m with
  | nil => rfl
  | cons u us ih => exact ih (m.add u)

@[simp] theorem generatedAt_addAll (m : Manifest) (us : List UnitExports) :
    (m.addAll us).generatedAt = m.generatedAt := by
  induction us generalizing m with
  | nil => rfl
  | cons u us ih => exact ih (m.add u)

/-- A manifest that lists each file once is determined by the order of its files and the unit of each. -/
theorem eq_of_files_eq {m n : Manifest} (hm : m.Distinct) (hn : n.Distinct)
    (hversion : m.version = n.version) (htime : m.generatedAt = n.generatedAt)
    (hfiles : m.files = n.files) (hunit : ∀ file, m.unit? file = n.unit? file) : m = n := by
  have hunits : ∀ {m : Manifest}, m.Distinct → m.units = m.files.filterMap m.unit? := by
    intro m h
    have hfile : ∀ u ∈ m.units, (m.unit? ∘ (·.filePath)) u = some u :=
      fun u hu => (mem_units_iff h).mp hu
    rw [files, List.filterMap_map, List.filterMap_congr hfile, List.filterMap_some]
  have hm' := hunits hm
  cases m
  cases n
  cases hversion
  cases htime
  rw [funext hunit, hfiles, ← hunits hn] at hm'
  exact congrArg _ hm'

/-! ## Merging -/

section Merge

variable {a b : Manifest} (ha : a.Distinct)
include ha

/-- Manifests can be merged in any grouping. -/
theorem merge_assoc (hb : b.Distinct) (c : Manifest) : (a.merge b).merge c = a.merge (b.merge c) := by
  have hab : (a.merge b).Distinct := distinct_addAll ha b.units
  refine eq_of_files_eq (distinct_addAll hab _) (distinct_addAll ha _) (by simp [merge])
    (by simp [merge]) ?_ ?_
  · calc ((a.merge b).merge c).files
        = ((a.files ++ b.files).eraseDups ++ c.files).eraseDups := by
          rw [merge, files_addAll hab, merge, files_addAll ha]
          rfl
      _ = (a.files ++ (b.files ++ c.files).eraseDups).eraseDups := by
          rw [eraseDups_eraseDups_append, eraseDups_append_eraseDups, List.append_assoc]
      _ = (a.merge (b.merge c)).files := by
          rw [merge, files_addAll ha, ← files.eq_1 (b.merge c), merge, files_addAll hb]
          rfl
  · intro file
    calc ((a.merge b).merge c).unit? file
        = (c.unit? file).or ((b.unit? file).or (a.unit? file)) := by
          rw [merge, unit?_addAll, merge, unit?_addAll]
          rfl
      _ = ((b.merge c).unit? file).or (a.unit? file) := by
          rw [merge, unit?_addAll, Option.or_assoc]
          rfl
      _ = (a.merge (b.merge c)).unit? file := (unit?_addAll a _ file).symm

/-- Merging a manifest into an empty one gives its units. -/
theorem empty_merge (version time : String) :
    merge { version, generatedAt := time } a = { version, generatedAt := time, units := a.units } := by
  have hempty := distinct_empty version time
  refine eq_of_files_eq (distinct_addAll hempty _) ha (by simp [merge]) (by simp [merge]) ?_ ?_
  · rw [merge, files_addAll hempty]
    exact eraseDups_of_nodup ha
  · intro file
    rw [merge, unit?_addAll]
    exact Option.or_none

theorem merge_self : a.merge a = a := by
  refine eq_of_files_eq (distinct_addAll ha _) ha (by simp [merge]) (by simp [merge]) ?_ ?_
  · rw [merge, files_addAll ha]
    exact (eraseDups_append_of_subset (List.Subset.refl _)).trans (eraseDups_of_nodup ha)
  · intro file
    rw [merge, unit?_addAll]
    exact Option.or_self

end Merge

theorem empty_merge_addAll (time : String) (us : List UnitExports) :
    merge { generatedAt := time } (addAll { generatedAt := time } us) =
      addAll { generatedAt := time } us := by
  rw [empty_merge (distinct_addAll (distinct_empty _ _) us)]
  have hversion := version_addAll { generatedAt := time } us
  have htime := generatedAt_addAll { generatedAt := time } us
  generalize addAll { generatedAt := time } us = fresh at hversion htime
  cases fresh
  cases hversion
  cases htime
  rfl

end Manifest

/-! ## Manifests and ordered maps -/

/-- A unit under its file. -/
def UnitExports.entry (u : UnitExports) : String × UnitExports :=
  (u.filePath, u)

namespace Manifest

theorem map_fst_entry (us : List UnitExports) :
    (us.map (·.entry)).map Prod.fst = us.map (·.filePath) :=
  List.map_map

/-- Adding a unit is inserting it under its file. -/
theorem entries_add {m : Manifest} (h : m.Distinct) {map : OrderedMap String UnitExports}
    (hmap : map.entries = m.units.map (·.entry)) (u : UnitExports) :
    (map.insert u.filePath u).entries = (m.add u).units.map (·.entry) := by
  show OrderedMap.insertEntry u.filePath u map.entries = _
  rw [hmap]
  rcases units_add m u with ⟨hnew, hunits⟩ | ⟨before, v, after, hm, hv, -, hunits⟩
  · have hnot : u.filePath ∉ (m.units.map (·.entry)).map Prod.fst := by
      rw [map_fst_entry]
      simpa using hnew
    rw [hunits, OrderedMap.insertEntry_of_not_mem hnot, List.map_append]
    rfl
  · have hnot : u.filePath ∉ (before.map (·.entry)).map Prod.fst := by
      unfold Distinct at h
      rw [hm, List.map_append, List.map_cons, hv] at h
      rw [map_fst_entry]
      exact fun hmem => (List.nodup_append.mp h).2.2 _ hmem _ List.mem_cons_self rfl
    rw [hunits, hm, List.map_append, List.map_append, List.map_cons, List.map_cons]
    unfold UnitExports.entry at hnot ⊢
    rw [hv, OrderedMap.insertEntry_append_cons hnot]

theorem entries_addAll {m : Manifest} (h : m.Distinct) {map : OrderedMap String UnitExports}
    (hmap : map.entries = m.units.map (·.entry)) (us : List UnitExports) :
    ((us.map (·.entry)).foldl (fun map e => map.insert e.1 e.2) map).entries =
      (m.addAll us).units.map (·.entry) := by
  induction us generalizing m map with
  | nil => exact hmap
  | cons u us ih => exact ih (distinct_add h u) (entries_add h hmap u)

end Manifest

/-! ## Places -/

section Places

variable {units : List UnitExports} {file : String}

theorem get?_placesOf_of_forall_ne (h : ∀ v ∈ units, v.filePath ≠ file) :
    (placesOf units).get? file = none := by
  rw [placesOf, OrderedMap.get?_ofList, Option.map_eq_none_iff, List.find?_eq_none]
  intro e he
  obtain ⟨i, hi, rfl⟩ := List.mem_mapIdx.mp (List.mem_reverse.mp he)
  simpa using h _ (List.getElem_mem hi)

theorem get?_placesOf_append_cons {before after : List UnitExports} {v : UnitExports}
    (hv : v.filePath = file) (h : ∀ w ∈ after, w.filePath ≠ file) :
    (placesOf (before ++ v :: after)).get? file = some before.length := by
  rw [placesOf, OrderedMap.get?_ofList, List.mapIdx_append, List.mapIdx_cons, List.reverse_append,
    List.reverse_cons, List.append_assoc, List.find?_append, List.find?_eq_none.mpr]
  · simp [hv]
  · intro e he
    obtain ⟨i, hi, rfl⟩ := List.mem_mapIdx.mp (List.mem_reverse.mp he)
    simpa using h _ (List.getElem_mem hi)

/-- Either no unit has the file or one of them is the last one that does. -/
theorem forall_ne_or_eq_append (units : List UnitExports) (file : String) :
    (∀ v ∈ units, v.filePath ≠ file) ∨
      ∃ before v after, units = before ++ v :: after ∧ v.filePath = file ∧
        ∀ w ∈ after, w.filePath ≠ file := by
  cases hreplace : Manifest.replaceLast? { filePath := file } units with
  | none => exact .inl (Manifest.replaceLast?_eq_none_iff.mp hreplace)
  | some ws =>
    obtain ⟨before, v, after, hunits, hv, hafter, -⟩ := Manifest.eq_append_of_replaceLast? hreplace
    exact .inr ⟨before, v, after, hunits, hv, hafter⟩

/-- The place of a file is that of its last unit. -/
theorem get?_placesOf_eq_some_iff {i : Nat} :
    (placesOf units).get? file = some i ↔
      ∃ before v after, units = before ++ v :: after ∧ before.length = i ∧ v.filePath = file ∧
        ∀ w ∈ after, w.filePath ≠ file := by
  constructor
  · intro h
    rcases forall_ne_or_eq_append units file with hnone | ⟨before, v, after, rfl, hv, hafter⟩
    · rw [get?_placesOf_of_forall_ne hnone] at h
      cases h
    · rw [get?_placesOf_append_cons hv hafter] at h
      exact ⟨before, v, after, rfl, Option.some.inj h, hv, hafter⟩
  · rintro ⟨before, v, after, rfl, rfl, hv, hafter⟩
    exact get?_placesOf_append_cons hv hafter

/-- Where each file has one unit, places and files determine each other. -/
theorem get?_placesOf_iff_getElem? (h : (units.map (·.filePath)).Nodup) {i : Nat} :
    (placesOf units).get? file = some i ↔ (units.map (·.filePath))[i]? = some file := by
  rw [get?_placesOf_eq_some_iff]
  constructor
  · rintro ⟨before, v, after, rfl, rfl, hv, -⟩
    simp [hv]
  · intro hi
    rw [List.getElem?_map, Option.map_eq_some_iff] at hi
    obtain ⟨v, hi, hv⟩ := hi
    obtain ⟨hlt, hget⟩ := List.getElem?_eq_some_iff.mp hi
    have hunits : units = units.take i ++ v :: units.drop (i + 1) := by
      rw [← hget, List.getElem_cons_drop, List.take_append_drop]
    refine ⟨_, v, _, hunits, by simp [Nat.le_of_lt hlt], hv, ?_⟩
    intro w hw hfile
    rw [hunits, List.map_append, List.map_cons] at h
    have hnot := (List.nodup_cons.mp (List.nodup_append.mp h).2.1).1
    exact hnot (List.mem_map.mpr ⟨w, hw, hfile.trans hv.symm⟩)

theorem placesOf_concat (units : List UnitExports) (u : UnitExports) :
    placesOf (units ++ [u]) = (placesOf units).insert u.filePath units.length := by
  rw [placesOf, List.mapIdx_concat, OrderedMap.ofList, List.foldl_append]
  rfl

/-- Places depend on the files only. -/
theorem placesOf_congr {us vs : List UnitExports}
    (h : us.map (·.filePath) = vs.map (·.filePath)) : placesOf us = placesOf vs := by
  have hmap : ∀ us : List UnitExports, us.mapIdx (fun i u => (u.filePath, i)) =
      (us.map (·.filePath)).mapIdx fun i file => (file, i) := by
    simp [List.mapIdx_eq_zipIdx_map, List.zipIdx_map, Function.comp_def]
  rw [placesOf, placesOf, hmap, hmap, h]

end Places

/-! ## The index stays in step -/

namespace IndexedManifest

section Access

variable {s : IndexedManifest} {u : UnitExports} {file : String} {i : Nat}

theorem add_of_get?_eq_none (h : s.places.get? u.filePath = none) :
    (s.add u).manifest = { s.manifest with units := s.manifest.units ++ [u] } ∧
      (s.add u).places = s.places.insert u.filePath s.manifest.units.length := by
  unfold add
  split
  · next hi => cases hi.symm.trans h
  · exact ⟨rfl, rfl⟩

theorem add_of_get?_eq_some (h : s.places.get? u.filePath = some i) :
    (s.add u).manifest = { s.manifest with units := s.manifest.units.set i u } ∧
      (s.add u).places = s.places := by
  unfold add
  split
  · next hi =>
    cases hi.symm.trans h
    exact ⟨rfl, rfl⟩
  · next hi => cases hi.symm.trans h

theorem unit?_eq_bind : s.unit? file = (s.places.get? file).bind (s.manifest.units[·]?) := by
  unfold unit?
  split
  · next i hi => simp [hi, s.inRange file i hi]
  · next hi => simp [hi]

end Access

section Add

variable {m : Manifest} {u v : UnitExports} {before after : List UnitExports}

theorem add_ofManifest_of_forall_ne (h : ∀ v ∈ m.units, v.filePath ≠ u.filePath) :
    (ofManifest m).add u = ofManifest { m with units := m.units ++ [u] } := by
  obtain ⟨hmanifest, hplaces⟩ := add_of_get?_eq_none (s := ofManifest m) (get?_placesOf_of_forall_ne h)
  exact IndexedManifest.ext hmanifest (hplaces.trans (placesOf_concat m.units u).symm)

theorem add_ofManifest_of_eq_append (hm : m.units = before ++ v :: after)
    (hv : v.filePath = u.filePath) (hafter : ∀ w ∈ after, w.filePath ≠ u.filePath) :
    (ofManifest m).add u = ofManifest { m with units := before ++ u :: after } := by
  have hplace : (ofManifest m).places.get? u.filePath = some before.length := by
    show (placesOf m.units).get? u.filePath = _
    rw [hm, get?_placesOf_append_cons hv hafter]
  have hset : m.units.set before.length u = before ++ u :: after := by
    rw [hm, List.set_append_right _ _ (Nat.le_refl _), Nat.sub_self]
    rfl
  -- the file keeps its place, so the places need no change
  have hfiles : m.units.map (·.filePath) = (before ++ u :: after).map (·.filePath) := by
    rw [hm]
    simp [hv]
  obtain ⟨hmanifest, hplaces⟩ := add_of_get?_eq_some hplace
  refine IndexedManifest.ext (hmanifest.trans ?_) (hplaces.trans (placesOf_congr hfiles))
  rw [← hset]
  rfl

/-- Adding a unit to the manifest and to its places is adding it and making the places anew. -/
theorem add_ofManifest (m : Manifest) (u : UnitExports) :
    (ofManifest m).add u = ofManifest (m.add u) := by
  have hadd : ∀ {units}, (m.add u).units = units → { m with units } = m.add u := by
    rintro _ rfl
    rfl
  rcases m.units_add u with ⟨hnew, hunits⟩ | ⟨before, v, after, hm, hv, hafter, hunits⟩
  · rw [add_ofManifest_of_forall_ne hnew, hadd hunits]
  · rw [add_ofManifest_of_eq_append hm hv hafter, hadd hunits]

end Add

/-- Adding to an index is adding to its manifest. -/
theorem addAll_ofManifest (m : Manifest) (us : List UnitExports) :
    (ofManifest m).addAll us = ofManifest (m.addAll us) := by
  induction us generalizing m with
  | nil => rfl
  | cons u us ih =>
    show ((ofManifest m).add u).addAll us = _
    rw [add_ofManifest, ih]
    rfl

/-- The place of a file leads to the unit that a search finds. -/
theorem unit?_ofManifest (m : Manifest) (file : String) :
    (ofManifest m).unit? file = m.unit? file := by
  rw [unit?_eq_bind, Manifest.unit?]
  show ((placesOf m.units).get? file).bind (m.units[·]?) = _
  rcases forall_ne_or_eq_append m.units file with hnone | ⟨before, v, after, hm, hv, hafter⟩
  · rw [get?_placesOf_of_forall_ne hnone, List.find?_eq_none.mpr]
    · rfl
    · simpa using hnone
  · have hlast : after.reverse.find? (fun u => u.filePath == file) = none :=
      List.find?_eq_none.mpr (by simpa using hafter)
    rw [hm, get?_placesOf_append_cons hv hafter, List.reverse_append, List.reverse_cons,
      List.find?_append, List.find?_append, hlast]
    simp [hv]

/-! ## Histories -/

/-- A change of an indexed manifest. -/
inductive Step where
  | add (u : UnitExports)
  | merge (other : IndexedManifest)
  | rebuild

namespace Step

/-- The manifest after a change. -/
def apply : Step → IndexedManifest → IndexedManifest
  | add u, s => s.add u
  | merge other, s => s.merge other
  | rebuild, s => s.rebuild

/-- The units that a change brings. -/
def units : Step → List UnitExports
  | add u => [u]
  | merge other => other.manifest.units
  | rebuild => []

theorem apply_ofManifest (step : Step) (m : Manifest) :
    step.apply (ofManifest m) = ofManifest (m.addAll step.units) := by
  cases step with
  | add u => exact add_ofManifest m u
  | merge other => exact addAll_ofManifest m other.manifest.units
  | rebuild => rfl

end Step

/-- The manifest after changes. -/
def run (steps : List Step) (s : IndexedManifest) : IndexedManifest :=
  steps.foldl (fun s step => step.apply s) s

/-- After any changes the places are those of the units. -/
theorem run_ofManifest (steps : List Step) (m : Manifest) :
    run steps (ofManifest m) = ofManifest (m.addAll (steps.flatMap (·.units))) := by
  induction steps generalizing m with
  | nil => rfl
  | cons step steps ih =>
    show run steps (step.apply (ofManifest m)) = _
    rw [step.apply_ofManifest, ih, List.flatMap_cons]
    exact congrArg ofManifest List.foldl_append.symm

/-- The header of an empty manifest and what was done to it. -/
structure History where
  version : String
  generatedAt : String
  steps : List Step

/-- The manifest that a history leads to. -/
def History.manifest (h : History) : IndexedManifest :=
  run h.steps (ofManifest { version := h.version, generatedAt := h.generatedAt })

/-- The units in the order in which they were added. -/
def History.added (h : History) : List UnitExports :=
  h.steps.flatMap (·.units)

namespace History

variable (h : History)

theorem manifest_eq : h.manifest = ofManifest
    (Manifest.addAll { version := h.version, generatedAt := h.generatedAt } h.added) :=
  run_ofManifest h.steps _

theorem exists_distinct : ∃ m : Manifest, m.Distinct ∧ h.manifest = ofManifest m :=
  ⟨_, Manifest.distinct_addAll (Manifest.distinct_empty _ _) h.added, h.manifest_eq⟩

theorem files_manifest : h.manifest.manifest.files = (h.added.map (·.filePath)).eraseDups := by
  rw [manifest_eq]
  exact Manifest.files_addAll (Manifest.distinct_empty _ _) h.added

/-- The units are the last ones of their files. -/
theorem units_manifest :
    h.manifest.manifest.units = (OrderedMap.ofList (h.added.map (·.entry))).values := by
  have hentries : (OrderedMap.ofList (h.added.map (·.entry))).entries =
      h.manifest.manifest.units.map (·.entry) := by
    rw [manifest_eq]
    exact Manifest.entries_addAll (Manifest.distinct_empty _ _) rfl h.added
  rw [OrderedMap.values, hentries, List.map_map]
  exact (List.map_id _).symm

theorem unit?_manifest (file : String) :
    h.manifest.unit? file = h.added.reverse.find? (·.filePath == file) := by
  rw [manifest_eq, unit?_ofManifest, Manifest.unit?_addAll]
  exact Option.or_none

end History

/-- An indexed manifest is an ordered map from files to units, and merging is compatible with that. After
any additions, merges and rebuilds from an empty manifest, each file is listed once, where it was first
added and with the unit that was added last, and the places of the files are exactly their places in the
list. On such manifests merging is associative, idempotent and has empty manifests as identities. In a
manifest that was loaded, where a file may be listed more than once, the last unit of a file counts:
looking it up gives that one, and adding a unit replaces that one in place. -/
theorem indexed_manifest_refines_ordered_map :
    (∀ h : History,
      let s := h.manifest
      s.manifest.files.Nodup ∧
      s.manifest.files = (h.added.map (·.filePath)).eraseDups ∧
      s.manifest.units = (OrderedMap.ofList (h.added.map fun u => (u.filePath, u))).values ∧
      (∀ file, s.unit? file = h.added.reverse.find? (·.filePath == file)) ∧
      (∀ u, u ∈ s.manifest.units ↔ s.unit? u.filePath = some u) ∧
      ∀ file i, s.places.get? file = some i ↔ s.manifest.files[i]? = some file) ∧
    (∀ (a b c : History) (version time : String),
      let empty := History.manifest ⟨version, time, []⟩
      (a.manifest.merge b.manifest).merge c.manifest =
        a.manifest.merge (b.manifest.merge c.manifest) ∧
      a.manifest.merge empty = a.manifest ∧
      empty.merge a.manifest =
        { a.manifest with manifest := { a.manifest.manifest with version, generatedAt := time } } ∧
      a.manifest.merge a.manifest = a.manifest) ∧
    ∀ (path text : String) (w : World) (m : Manifest), w.files.read path = .ok text →
      Manifest.parse? (.ofPath path) text = some m →
      ∃ s, (loadIndexed path : StateM World _) w = (.ok s, w) ∧ s.manifest = m ∧
        (∀ file, s.unit? file = m.units.reverse.find? (·.filePath == file)) ∧
        (∀ (u v : UnitExports) (before after : List UnitExports), m.units = before ++ v :: after →
          v.filePath = u.filePath → (∀ x ∈ after, x.filePath ≠ u.filePath) →
          s.places.get? u.filePath = some before.length ∧
          (s.add u).manifest = { m with units := before ++ u :: after }) ∧
        (∀ u : UnitExports, (∀ v ∈ m.units, v.filePath ≠ u.filePath) →
          s.places.get? u.filePath = none ∧
          (s.add u).manifest = { m with units := m.units ++ [u] }) ∧
        ∀ (steps : List Step) (file : String), (run steps s).unit? file =
          (m.units ++ steps.flatMap (·.units)).reverse.find? (·.filePath == file) := by
  refine ⟨?_, ?_, ?_⟩
  · intro h
    obtain ⟨m, hm, hs⟩ := h.exists_distinct
    refine ⟨hs ▸ hm, h.files_manifest, h.units_manifest, h.unit?_manifest, ?_, ?_⟩
    · intro u
      rw [hs, unit?_ofManifest]
      exact Manifest.mem_units_iff hm
    · intro file i
      rw [hs]
      exact get?_placesOf_iff_getElem? hm
  · intro a b c version time
    obtain ⟨l, hl, ha⟩ := a.exists_distinct
    obtain ⟨m, hm, hb⟩ := b.exists_distinct
    obtain ⟨n, -, hc⟩ := c.exists_distinct
    have hmerge : ∀ l m, (ofManifest l).merge (ofManifest m) = ofManifest (l.merge m) :=
      fun l m => addAll_ofManifest l m.units
    rw [ha, hb, hc]
    refine ⟨?_, rfl, ?_, ?_⟩
    · rw [hmerge, hmerge, hmerge, hmerge, Manifest.merge_assoc hl hm]
    · exact (hmerge _ _).trans (congrArg ofManifest (Manifest.empty_merge hl version time))
    · rw [hmerge, Manifest.merge_self hl]
  · intro path text w m hread hparse
    refine ⟨ofManifest m, loadIndexed_of_parse hread hparse, rfl, unit?_ofManifest m, ?_, ?_, ?_⟩
    · intro u v before after hunits hv hafter
      rw [add_ofManifest_of_eq_append hunits hv hafter]
      exact ⟨get?_placesOf_eq_some_iff.mpr ⟨before, v, after, hunits, rfl, hv, hafter⟩, rfl⟩
    · intro u hnew
      rw [add_ofManifest_of_forall_ne hnew]
      exact ⟨get?_placesOf_of_forall_ne hnew, rfl⟩
    · intro steps file
      rw [run_ofManifest, unit?_ofManifest, Manifest.unit?_addAll, List.reverse_append,
        List.find?_append]
      rfl

/-- A file is listed twice, with other units between and after. -/
def repeatingManifest : Manifest :=
  { generatedAt := "2024-01-01T00:00:00Z"
    units := [{ filePath := "a.h" }, { filePath := "b.h" },
      { filePath := "a.h", diagnostics := [⟨.unresolvedType, "second", none⟩] }, { filePath := "c.h" }] }

/-- The second unit of a file is found and replaced. -/
theorem indexed_manifest_replaces_second :
    ∃ (w : World) (s : IndexedManifest),
      w.files.read "exports.json" = .ok (repeatingManifest.render (.ofPath "exports.json")) ∧
      (loadIndexed "exports.json" : StateM World _) w = (.ok s, w) ∧
      s.unit? "a.h" =
        some { filePath := "a.h", diagnostics := [⟨.unresolvedType, "second", none⟩] } ∧
      (s.add { filePath := "a.h" }).manifest.units =
        [{ filePath := "a.h" }, { filePath := "b.h" }, { filePath := "a.h" }, { filePath := "c.h" }] := by
  obtain ⟨w, hsave⟩ := (saveManifest_succeeds_iff (m := repeatingManifest)).mpr canSave_json
  have hread := read_of_saveManifest hsave
  obtain ⟨s, hload, -, hunit, hreplace, -⟩ := indexed_manifest_refines_ordered_map.2.2 "exports.json" _ w
    repeatingManifest hread (repeatingManifest.parse?_render _)
  obtain ⟨-, hadd⟩ := hreplace { filePath := "a.h" } _ [{ filePath := "a.h" }, { filePath := "b.h" }]
    [{ filePath := "c.h" }] rfl rfl (by simp)
  refine ⟨w, s, hread, hload, ?_, ?_⟩
  · rw [hunit]
    decide
  · exact congrArg Manifest.units hadd

end IndexedManifest

end ScriptExport
