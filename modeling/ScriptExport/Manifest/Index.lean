import ScriptExport.Manifest.Basic

/-!
# Manifests with an index

An indexed manifest knows the place of the unit of each file, so it finds and replaces units without a
search. Additions keep the places up to date, and they can be made anew from the units at any time, as is
done for a manifest that was loaded. No place lies beyond the units.
-/

namespace ScriptExport

/-- The places of units by file; of several units of one file the last one counts. -/
def placesOf (units : List UnitExports) : OrderedMap String Nat :=
  .ofList (units.mapIdx fun i u => (u.filePath, i))

/-- A place that the index names is the place of a unit. -/
theorem lt_length_of_placesOf {units : List UnitExports} {file : String} {i : Nat}
    (h : (placesOf units).get? file = some i) : i < units.length := by
  rw [placesOf, OrderedMap.get?_ofList, Option.map_eq_some_iff] at h
  obtain ⟨e, he, rfl⟩ := h
  have hmem := List.mem_reverse.mp (List.mem_of_find?_eq_some he)
  obtain ⟨i, hi, rfl⟩ := List.mem_mapIdx.mp hmem
  exact hi

/-- A manifest with the places of its units. -/
@[ext]
structure IndexedManifest where
  manifest : Manifest
  places : OrderedMap String Nat
  inRange : ∀ file i, places.get? file = some i → i < manifest.units.length

namespace IndexedManifest

/-- A manifest with its places, made from the units. -/
def ofManifest (m : Manifest) : IndexedManifest :=
  ⟨m, placesOf m.units, fun _ _ => lt_length_of_placesOf⟩

/-- Make the places anew. -/
def rebuild (s : IndexedManifest) : IndexedManifest :=
  ofManifest s.manifest

/-- Put a unit at the place that its file has, or else at the end, which becomes its place. -/
def add (s : IndexedManifest) (u : UnitExports) : IndexedManifest :=
  match s.places.get? u.filePath with
  | some i =>
    { manifest := { s.manifest with units := s.manifest.units.set i u }
      places := s.places
      inRange := fun file j h => by simpa using s.inRange file j h }
  | none =>
    { manifest := { s.manifest with units := s.manifest.units ++ [u] }
      places := s.places.insert u.filePath s.manifest.units.length
      inRange := fun file j h => by
        rw [OrderedMap.get?_insert] at h
        rw [List.length_append]
        split at h
        · cases h
          exact Nat.lt_succ_self _
        · exact Nat.lt_succ_of_lt (s.inRange file j h) }

/-- The unit at the place of a file. -/
def unit? (s : IndexedManifest) (file : String) : Option UnitExports :=
  match h : s.places.get? file with
  | some i => some (s.manifest.units.get ⟨i, s.inRange file i h⟩)
  | none => none

/-- Add units one after the other. -/
def addAll (s : IndexedManifest) (us : List UnitExports) : IndexedManifest :=
  us.foldl add s

/-- Add the units of another manifest. -/
def merge (s other : IndexedManifest) : IndexedManifest :=
  s.addAll other.manifest.units

end IndexedManifest

end ScriptExport
