import ScriptExport.Host.FileTree

/-!
# Files that were written or moved

Which place a path leads to depends on the directories alone, and more of them do not change it
(`KeepsDirectories`). Writing and moving files keeps all of them (`SameDirectories`), so a path leads to
the same place afterwards and the text is found there.
-/

namespace ScriptExport

theorem Path.withoutSlash_eq_self {path : String} (h : path.endsWith "/" = false) :
    Path.withoutSlash path = path := by
  have hsuffix : ¬ ['/'] <:+ path.toList := by
    rwa [String.endsWith_eq_endsWith_toSlice, String.Slice.endsWith_string_eq_false_iff,
      String.copy_toSlice] at h
  unfold Path.withoutSlash
  cases hreverse : path.toList.reverse with
  | nil => rfl
  | cons c cs =>
    have hlast : path.toList = cs.reverse ++ [c] := by
      rw [← List.reverse_reverse path.toList, hreverse, List.reverse_cons]
    have hc : (c == '/') = false := by
      rw [beq_eq_false_iff_ne]
      rintro rfl
      exact hsuffix ⟨cs.reverse, hlast.symm⟩
    rw [List.dropWhile_cons_of_neg (by simp [hc])]
    simp [← hlast]

namespace FileTree

theorem node?_put (t : FileTree) (place other : Place) (node : FileNode) :
    (t.put place node).node? other =
      if isRoot other then some .directory else if other = place then some node else t.node? other := by
  unfold node? put
  split
  · rfl
  · exact OrderedMap.get?_insert t.nodes place other node

theorem node?_erase (t : FileTree) (place other : Place) :
    (FileTree.mk (t.nodes.erase place)).node? other =
      if isRoot other then some .directory else if other = place then none else t.node? other := by
  unfold node?
  split
  · rfl
  · exact OrderedMap.get?_erase t.nodes place other

theorem isRoot_eq_false {t : FileTree} {place : Place} (h : t.node? place ≠ some .directory) :
    isRoot place = false := by
  cases hroot : isRoot place with
  | false => rfl
  | true => exact absurd (if_pos hroot) h

/-- Every directory of `t` is one of `u`. -/
def KeepsDirectories (t u : FileTree) : Prop :=
  ∀ place, t.node? place = some .directory → u.node? place = some .directory

namespace KeepsDirectories

variable {t u : FileTree} {place : Place}

/-- Paths still lead where they led. -/
theorem follow (h : KeepsDirectories t u) {names : List String} {start : Place}
    (hfollow : t.follow start names = .ok place) : u.follow start names = .ok place := by
  induction names generalizing start with
  | nil => exact hfollow
  | cons name names ih =>
    unfold FileTree.follow at hfollow ⊢
    cases hnode : t.node? start with
    | none =>
      rw [hnode] at hfollow
      cases hfollow
    | some node =>
      cases node with
      | file text =>
        rw [hnode] at hfollow
        cases hfollow
      | directory =>
        rw [hnode] at hfollow
        rw [h start hnode]
        dsimp only at hfollow ⊢
        split at hfollow
        · next hdot => rw [if_pos hdot]; exact ih hfollow
        · next hdot =>
          rw [if_neg hdot]
          split at hfollow
          · next hdots => rw [if_pos hdots]; exact ih hfollow
          · next hdots => rw [if_neg hdots]; exact ih hfollow

/-- A path still leads where it led. -/
theorem locate (h : KeepsDirectories t u) {path : String} (hlocate : t.locate path = .ok place) :
    u.locate path = .ok place := by
  unfold FileTree.locate at hlocate ⊢
  split at hlocate
  · cases hlocate
  · next hempty =>
    rw [if_neg hempty]
    exact h.follow hlocate

end KeepsDirectories

/-- The trees have the same directories. -/
def SameDirectories (t u : FileTree) : Prop :=
  ∀ place, t.node? place = some .directory ↔ u.node? place = some .directory

namespace SameDirectories

variable {t u : FileTree} {place : Place}

theorem symm (h : SameDirectories t u) : SameDirectories u t := fun p => (h p).symm

/-- A new file leaves the directories as they are. -/
theorem put (h : t.node? place ≠ some .directory) (text : String) :
    SameDirectories t (t.put place (.file text)) := by
  intro other
  rw [node?_put]
  split
  · next hroot => exact iff_of_true (if_pos hroot) rfl
  · split
    · next heq => simpa [heq] using h
    · rfl

theorem erase (h : t.node? place ≠ some .directory) :
    SameDirectories t ⟨t.nodes.erase place⟩ := by
  intro other
  rw [node?_erase]
  split
  · next hroot => exact iff_of_true (if_pos hroot) rfl
  · split
    · next heq => simpa [heq] using h
    · rfl

theorem keeps (h : SameDirectories t u) : KeepsDirectories t u := fun p => (h p).mp

theorem locate (h : SameDirectories t u) {path : String} (hlocate : t.locate path = .ok place) :
    u.locate path = .ok place :=
  h.keeps.locate hlocate

end SameDirectories

variable {t u : FileTree} {path : String} {place : Place} {text : String}

/-- A path names a file if it ends in no slash and leads to no directory. -/
theorem locateFile_ok_iff : t.locateFile path = .ok place ↔
    path.endsWith "/" = false ∧ t.locate path = .ok place ∧ t.node? place ≠ some .directory := by
  unfold locateFile
  constructor
  · intro h
    cases hlocate : t.locate (Path.withoutSlash path) with
    | error fault =>
      rw [hlocate] at h
      cases h
    | ok found =>
      rw [hlocate] at h
      cases hslash : path.endsWith "/" with
      | true =>
        cases hnode : t.node? found with
        | none => simp [hnode, hslash, bind, Except.bind] at h
        | some node => cases node <;> simp [hnode, hslash, bind, Except.bind] at h
      | false =>
        rw [Path.withoutSlash_eq_self hslash] at hlocate
        cases hnode : t.node? found with
        | none =>
          have heq : found = place := by
            simpa [hnode, hslash, bind, Except.bind, pure, Except.pure] using h
          subst heq
          exact ⟨rfl, hlocate, by simp [hnode]⟩
        | some node =>
          cases node with
          | directory => simp [hnode, bind, Except.bind] at h
          | file text =>
            have heq : found = place := by
              simpa [hnode, hslash, bind, Except.bind, pure, Except.pure] using h
            subst heq
            exact ⟨rfl, hlocate, by simp [hnode]⟩
  · rintro ⟨hslash, hlocate, hnode⟩
    rw [Path.withoutSlash_eq_self hslash, hlocate]
    cases hfound : t.node? place with
    | none => simp [hfound, hslash, bind, Except.bind, pure, Except.pure]
    | some node =>
      cases node with
      | directory => exact absurd hfound hnode
      | file text => simp [hfound, hslash, bind, Except.bind, pure, Except.pure]

/-- A path that can hold a file still can if the directories are the same. -/
theorem SameDirectories.locateFile (h : SameDirectories t u) (hfile : t.locateFile path = .ok place) :
    u.locateFile path = .ok place := by
  obtain ⟨hslash, hlocate, hnode⟩ := locateFile_ok_iff.mp hfile
  exact locateFile_ok_iff.mpr ⟨hslash, h.locate hlocate, fun hu => hnode ((h place).mpr hu)⟩

/-- Reading finds the file at the place. -/
theorem read_ok_iff : t.read path = .ok text ↔
    ∃ place, t.locate path = .ok place ∧ t.node? place = some (.file text) := by
  unfold read
  cases hlocate : t.locate path with
  | error fault => simp [bind, Except.bind]
  | ok place =>
    cases hnode : t.node? place with
    | none => simp [bind, Except.bind, hnode]
    | some node => cases node <;> simp [bind, Except.bind, pure, Except.pure, hnode]

theorem contains_of_read (h : t.read path = .ok text) :
    t.contains path = true := by
  obtain ⟨place, hlocate, hnode⟩ := read_ok_iff.mp h
  simp [contains, lookup?, hlocate, hnode]

/-- Writing puts a file at the place. -/
theorem write_ok_iff : t.write path text = .ok u ↔
    ∃ place, t.locateFile path = .ok place ∧ u = t.put place (.file text) := by
  unfold write
  cases t.locateFile path with
  | error fault => simp [bind, Except.bind]
  | ok place => simp [bind, Except.bind, pure, Except.pure, eq_comm]

/-- Renaming moves a file over what was there. -/
theorem rename_ok_iff {source target : String} : t.rename source target = .ok u ↔
    ∃ origin place text, t.locate source = .ok origin ∧ t.node? origin = some (.file text) ∧
      t.locateFile target = .ok place ∧
      u = FileTree.put ⟨t.nodes.erase origin⟩ place (.file text) := by
  constructor
  · intro h
    cases hread : t.read source with
    | error fault => simp [rename, hread, bind, Except.bind] at h
    | ok text =>
      obtain ⟨origin, horigin, hnode⟩ := read_ok_iff.mp hread
      cases hplace : t.locateFile target with
      | error fault =>
        simp only [rename, hread, horigin, hplace, bind, Except.bind] at h
        split at h <;> cases h
      | ok place =>
        have hslash := (locateFile_ok_iff.mp hplace).1
        refine ⟨origin, place, text, horigin, hnode, rfl, ?_⟩
        simpa [rename, hread, horigin, hplace, hslash, bind, Except.bind, pure, Except.pure,
          eq_comm] using h
  · rintro ⟨origin, place, text, horigin, hnode, hplace, rfl⟩
    have hread : t.read source = .ok text := read_ok_iff.mpr ⟨origin, horigin, hnode⟩
    have hslash := (locateFile_ok_iff.mp hplace).1
    simp [rename, hread, horigin, hplace, hslash, bind, Except.bind, pure, Except.pure]

/-- A written file has the text. -/
theorem read_put (h : t.locateFile path = .ok place) (text : String) :
    (t.put place (.file text)).read path = .ok text := by
  obtain ⟨-, hlocate, hnode⟩ := locateFile_ok_iff.mp h
  refine read_ok_iff.mpr ⟨place, (SameDirectories.put hnode text).locate hlocate, ?_⟩
  rw [node?_put, isRoot_eq_false hnode]
  simp

/-- A moved file has its text at the new place. -/
theorem read_of_rename {source target : String} (h : t.rename source target = .ok u)
    (hread : t.read source = .ok text) : u.read target = .ok text := by
  obtain ⟨origin, place, text', horigin, hnode, hplace, rfl⟩ := rename_ok_iff.mp h
  have htext : text' = text := by
    have hread' := read_ok_iff.mpr ⟨origin, horigin, hnode⟩
    exact Except.ok.inj (hread'.symm.trans hread)
  have hfile : t.node? origin ≠ some .directory := by simp [hnode]
  rw [← htext]
  exact read_put ((SameDirectories.erase hfile).locateFile hplace) text'

end FileTree

end ScriptExport
