import ScriptExport.Host.RunLog
import ScriptExport.Proofs.Host.FileTree

/-!
# What actions leave alone

The names of a path fix the place that it can lead to (`Place.ofPath`); the directories only decide
whether it leads there. A change of a file tree spares a place if it keeps all directories and the file
at the place, or its absence (`FileTree.Spares`): writing to another place does, and so does making
directories. An action spares a place if every run of it does (`World.Sparing`), which sequences of
actions inherit. What a path read before, it reads after an action that spares its place.
-/

namespace ScriptExport

/-- The place one name further. -/
def Place.next (place : Place) (name : String) : Place :=
  if name = "." then place
  else if name = ".." then if FileTree.isRoot place then place else place.dropLast
  else place ++ [name]

/-- The place that a path can lead to. -/
def Place.ofPath (path : String) : Place :=
  (Path.steps path).foldl Place.next (if Path.isAbsolute path then ["/"] else [])

namespace FileTree

variable {t u v : FileTree} {place other : Place} {path : String} {text : String}

theorem eq_of_follow {names : List String} {start : Place} (h : t.follow start names = .ok place) :
    place = names.foldl Place.next start := by
  induction names generalizing start with
  | nil => exact (Except.ok.inj h).symm
  | cons name names ih =>
    rw [List.foldl_cons]
    unfold FileTree.follow at h
    unfold Place.next
    split at h
    · cases h
    · cases h
    · split at h
      · next hdot => rw [if_pos hdot]; exact ih h
      · next hdot =>
        rw [if_neg hdot]
        split at h
        · next hdots => rw [if_pos hdots]; exact ih h
        · next hdots => rw [if_neg hdots]; exact ih h

theorem eq_ofPath_of_locate (h : t.locate path = .ok place) : place = Place.ofPath path := by
  unfold locate at h
  split at h
  · cases h
  · exact eq_of_follow h

/-- A last `.` asks for a directory. -/
theorem node?_of_follow_dot {names : List String} {start : Place}
    (h : t.follow start (names ++ ["."]) = .ok place) : t.node? place = some .directory := by
  induction names generalizing start with
  | nil =>
    rw [List.nil_append] at h
    unfold FileTree.follow at h
    split at h
    · cases h
    · cases h
    · next hnode =>
      rw [if_pos rfl] at h
      cases h
      exact hnode
  | cons name names ih =>
    rw [List.cons_append] at h
    unfold FileTree.follow at h
    split at h
    · cases h
    · cases h
    · split at h
      · exact ih h
      · split at h
        · exact ih h
        · exact ih h

/-- A path that reads as a file can hold one. -/
theorem locateFile_of_read (h : t.read path = .ok text) : t.locateFile path = .ok (.ofPath path) := by
  obtain ⟨place, hlocate, hnode⟩ := read_ok_iff.mp h
  have hslash : path.endsWith "/" = false := by
    cases hslash : path.endsWith "/" with
    | false => rfl
    | true =>
      exfalso
      unfold locate at hlocate
      split at hlocate
      · cases hlocate
      · unfold Path.steps at hlocate
        dsimp only at hlocate
        rw [hslash, if_pos rfl] at hlocate
        rw [node?_of_follow_dot hlocate] at hnode
        cases hnode
  rw [← eq_ofPath_of_locate hlocate]
  exact locateFile_ok_iff.mpr ⟨hslash, hlocate, by simp [hnode]⟩

/-! ## Changes of a file tree -/

/-- `u` has the directories of `t`, and the file at the place is the same or absent in both. -/
structure Spares (place : Place) (t u : FileTree) : Prop where
  directories : KeepsDirectories t u
  file : ∀ text, t.node? place = some (.file text) ↔ u.node? place = some (.file text)

namespace Spares

theorem refl : Spares place t t := ⟨fun _ h => h, fun _ => Iff.rfl⟩

theorem trans (h : Spares place t u) (h' : Spares place u v) : Spares place t v :=
  ⟨fun p hp => h'.directories p (h.directories p hp), fun text => (h.file text).trans (h'.file text)⟩

theorem of_same (hdirectories : SameDirectories t u) (hnode : u.node? place = t.node? place) :
    Spares place t u :=
  ⟨hdirectories.keeps, fun text => by rw [hnode]⟩

/-- A spared file reads the same. -/
theorem read (h : Spares (.ofPath path) t u) (hread : t.read path = .ok text) :
    u.read path = .ok text := by
  obtain ⟨place, hlocate, hnode⟩ := read_ok_iff.mp hread
  obtain rfl := eq_ofPath_of_locate hlocate
  exact read_ok_iff.mpr ⟨_, h.directories.locate hlocate, (h.file text).mp hnode⟩

theorem node?_of_read (h : Spares (.ofPath path) t u) (hread : u.read path = .ok text) :
    t.node? (.ofPath path) = some (.file text) := by
  obtain ⟨place, hlocate, hnode⟩ := read_ok_iff.mp hread
  obtain rfl := eq_ofPath_of_locate hlocate
  exact (h.file text).mpr hnode

theorem put (hother : t.node? other ≠ some .directory) (hne : other ≠ place) (text : String) :
    Spares place t (t.put other (.file text)) := by
  refine of_same (.put hother text) ?_
  rw [node?_put, if_neg (Ne.symm hne)]
  split
  · next hroot => exact (if_pos hroot).symm
  · rfl

theorem erase (hother : t.node? other ≠ some .directory) (hne : other ≠ place) :
    Spares place t ⟨t.nodes.erase other⟩ := by
  refine of_same (.erase hother) ?_
  rw [node?_erase, if_neg (Ne.symm hne)]
  split
  · next hroot => exact (if_pos hroot).symm
  · rfl

/-- A directory where nothing stood does not concern files. -/
theorem putDirectory (hother : t.node? other = none) : Spares place t (t.put other .directory) where
  directories p hp := by
    rw [node?_put]
    split
    · rfl
    · split
      · rfl
      · exact hp
  file text := by
    rw [node?_put]
    split
    · next hroot => simp [node?, hroot]
    · split
      · next heq => simp [heq, hother]
      · exact Iff.rfl

/-- A write spares other places. -/
theorem write (hwrite : t.write path text = .ok u) (hne : Place.ofPath path ≠ place) :
    Spares place t u := by
  obtain ⟨other, hother, rfl⟩ := write_ok_iff.mp hwrite
  obtain ⟨-, hlocate, hnode⟩ := locateFile_ok_iff.mp hother
  exact put hnode (eq_ofPath_of_locate hlocate ▸ hne) text

end Spares

theorem append_ok {added : String} (h : t.append path added = .ok u) :
    ∃ place text, t.locateFile path = .ok place ∧ u = t.put place (.file text) := by
  unfold append at h
  cases hplace : t.locateFile path with
  | error fault => simp [hplace, bind, Except.bind] at h
  | ok place =>
    simp only [hplace, bind, Except.bind] at h
    split at h
    · cases h; exact ⟨place, _, rfl, rfl⟩
    · cases h; exact ⟨place, _, rfl, rfl⟩

theorem sameDirectories_append {added : String} (h : t.append path added = .ok u) :
    SameDirectories t u := by
  obtain ⟨other, text, hother, rfl⟩ := append_ok h
  exact .put (locateFile_ok_iff.mp hother).2.2 text

theorem Spares.append {added : String} (h : t.append path added = .ok u)
    (hne : Place.ofPath path ≠ place) : Spares place t u := by
  obtain ⟨other, text, hother, rfl⟩ := append_ok h
  obtain ⟨-, hlocate, hnode⟩ := locateFile_ok_iff.mp hother
  exact .put hnode (eq_ofPath_of_locate hlocate ▸ hne) text

theorem Spares.remove (h : t.remove path = .ok u) (hne : Place.ofPath path ≠ place) :
    Spares place t u := by
  unfold FileTree.remove at h
  cases hlocate : t.locate path with
  | error fault => simp [hlocate, bind, Except.bind] at h
  | ok other =>
    simp only [hlocate, bind, Except.bind] at h
    split at h
    · cases h
    · cases h
    · next hnode =>
      cases h
      exact .erase (by simp [hnode]) (eq_ofPath_of_locate hlocate ▸ hne)

theorem Spares.makeDirectory (h : t.makeDirectory path = .ok u) : Spares place t u := by
  unfold FileTree.makeDirectory at h
  cases hlocate : t.locate (Path.withoutSlash path) with
  | error fault => simp [hlocate, bind, Except.bind] at h
  | ok other =>
    simp only [hlocate, bind, Except.bind] at h
    split at h
    · cases h
    · next hnode =>
      cases h
      exact .putDirectory hnode

/-- Making directories spares every place. -/
theorem Spares.makeDirectoriesWithin {fuel : Nat} (h : makeDirectoriesWithin fuel t path = .ok u) :
    Spares place t u := by
  induction fuel generalizing t u path with
  | zero => cases h
  | succ fuel ih =>
    unfold FileTree.makeDirectoriesWithin at h
    split at h
    · cases h
      exact .refl
    · split at h
      · next made =>
        cases h
        exact .makeDirectory made
      · split at h
        · cases h
        · next parent _ =>
          cases hparent : FileTree.makeDirectoriesWithin fuel t parent with
          | error fault => simp [hparent, bind, Except.bind] at h
          | ok mid =>
            simp only [hparent, bind, Except.bind] at h
            exact (ih hparent).trans (.makeDirectory h)
      · split at h
        · cases h
          exact .refl
        · cases h

/-- The file that a path reads stays, and where one can be read now, it stood before: a directory on the
way to it may have been missing. -/
structure KeepsFile (path : String) (t u : FileTree) : Prop where
  read_of_read : ∀ text, t.read path = .ok text → u.read path = .ok text
  node?_of_read : ∀ text, u.read path = .ok text → t.node? (.ofPath path) = some (.file text)

theorem Spares.keepsFile (h : Spares (.ofPath path) t u) : KeepsFile path t u :=
  ⟨fun _ => h.read, fun _ => h.node?_of_read⟩

/-- What spares the file may come first. -/
theorem KeepsFile.after (h : KeepsFile path u v) (hbefore : Spares (.ofPath path) t u) :
    KeepsFile path t v :=
  ⟨fun text hread => h.read_of_read text (hbefore.read hread),
    fun text hread => (hbefore.file text).mpr (h.node?_of_read text hread)⟩

theorem KeepsFile.before (h : KeepsFile path t u) (hafter : Spares (.ofPath path) u v)
    (hsame : SameDirectories u v) : KeepsFile path t v where
  read_of_read text hread := hafter.read (h.read_of_read text hread)
  node?_of_read text hread := by
    obtain ⟨place, hlocate, hnode⟩ := read_ok_iff.mp hread
    obtain rfl := eq_ofPath_of_locate hlocate
    exact h.node?_of_read text
      (read_ok_iff.mpr ⟨_, hsame.symm.locate hlocate, (hafter.file text).mpr hnode⟩)

end FileTree

/-! ## Actions -/

namespace World

/-- Every run of the action spares the place. -/
def Sparing {α : Type} (place : Place) (x : StateM World α) : Prop :=
  ∀ w, FileTree.Spares place w.files (x w).2.files

theorem files_change (f : FileTree → Except FileFault FileTree) (w : World) :
    (change f w).2.files = w.files ∨ f w.files = .ok (change f w).2.files := by
  unfold change
  cases f w.files with
  | error fault => exact .inl rfl
  | ok files => exact .inr rfl

namespace Sparing

variable {α β ε : Type} {place : Place} {path : String}

theorem spares {x : StateM World α} (h : Sparing place x) {w s : World} {a : α} (hx : x w = (a, s)) :
    FileTree.Spares place w.files s.files := by
  have hfiles := h w
  rwa [hx] at hfiles

theorem pure (a : α) : Sparing place (Pure.pure a : StateM World α) := fun _ => .refl

/-- What two steps spare, their sequence spares. -/
theorem bind {x : StateM World α} {k : α → StateM World β} (hx : Sparing place x)
    (hk : ∀ a, Sparing place (k a)) : Sparing place (x >>= k) :=
  fun w => (hx w).trans (hk _ _)

theorem run_bind {x : ExceptT ε (StateM World) α} {k : α → ExceptT ε (StateM World) β}
    (hx : Sparing place x.run) (hk : ∀ a, Sparing place (k a).run) : Sparing place (x >>= k).run := by
  rw [ExceptT.run_bind]
  refine hx.bind fun result => ?_
  cases result with
  | error e => exact .pure _
  | ok a => exact hk a

/-- A bind whose first action is one of the host. -/
theorem run_bind_lift {x : StateM World α} {k : α → ExceptT ε (StateM World) β}
    (hx : Sparing place x) (hk : ∀ a, Sparing place (k a).run) :
    Sparing place ((liftM x : ExceptT ε (StateM World) α) >>= k).run :=
  run_bind hx hk

/-- A traversal spares what each step spares. -/
theorem mapM {f : α → StateM World β} (hf : ∀ a, Sparing place (f a)) (l : List α) :
    Sparing place (l.mapM f) := by
  induction l with
  | nil => exact .pure _
  | cons a l ih =>
    rw [List.mapM_cons]
    exact (hf a).bind fun _ => ih.bind fun _ => .pure _

theorem run_mapM {f : α → ExceptT ε (StateM World) β} (hf : ∀ a, Sparing place (f a).run)
    (l : List α) : Sparing place (l.mapM f).run := by
  induction l with
  | nil => exact .pure _
  | cons a l ih =>
    rw [List.mapM_cons]
    exact (hf a).run_bind fun _ => ih.run_bind fun _ => .pure _

theorem forIn {f : α → StateM World (ForInStep PUnit)} (hf : ∀ a, Sparing place (f a)) (l : List α) :
    Sparing place (ForIn.forIn l PUnit.unit fun a _ => f a) := by
  induction l with
  | nil => exact .pure _
  | cons a l ih =>
    rw [List.forIn_cons]
    refine (hf a).bind fun step => ?_
    cases step with
    | done _ => exact .pure _
    | yield _ => exact ih

theorem ask (f : World → α) : Sparing place (ask f) := fun _ => .refl

/-- A change spares what its function spares. -/
theorem change {f : FileTree → Except FileFault FileTree}
    (hf : ∀ t u, f t = .ok u → FileTree.Spares place t u) : Sparing place (change f) := by
  intro w
  obtain hsame | hchange := files_change f w
  · rw [hsame]
    exact .refl
  · exact hf _ _ hchange

theorem write (h : Place.ofPath path ≠ place) (text : String) :
    Sparing place (Host.write path text : StateM World _) :=
  change fun _ _ hwrite => .write hwrite h

theorem remove (h : Place.ofPath path ≠ place) : Sparing place (Host.remove path : StateM World _) :=
  change fun _ _ hremove => .remove hremove h

theorem makeDirectories (path : String) :
    Sparing place (Host.makeDirectories path : StateM World _) :=
  change fun _ _ hmade => .makeDirectoriesWithin hmade

end Sparing

end World

/-! ## Messages -/

namespace RunLog

variable {log : RunLog} {place : Place}

/-- The log is written elsewhere. -/
def Avoids (log : RunLog) (place : Place) : Prop :=
  ∀ path, log.path = some path → Place.ofPath path ≠ place

/-- A message changes no file, or it is written at the end of the log. -/
theorem files_send (log : RunLog) (level : Level) (message : String) (w : World) :
    ((log.send level message : StateM World Unit) w).2.files = w.files ∨
      ∃ path added, log.path = some path ∧ w.files.append path added =
        .ok ((log.send level message : StateM World Unit) w).2.files := by
  have hshow : ∀ s : World, ((if level.isShown log.verbosity then
      Host.warnLine (level.shown message) else pure () : StateM World Unit) s).2.files = s.files := by
    intro s
    split <;> rfl
  unfold send
  cases log.path with
  | none => exact .inl (hshow w)
  | some path =>
    let line := "[" ++ w.time ++ "] " ++ level.label ++ " " ++ message ++ "\n"
    have hfiles := hshow (World.change (fun t => t.append path line) w).2
    obtain hsame | happend := World.files_change (fun t => t.append path line) w
    · exact .inl (hfiles.trans hsame)
    · exact .inr ⟨path, line, rfl, happend.trans (congrArg Except.ok hfiles.symm)⟩

theorem sparing_send (h : log.Avoids place) (level : Level) (message : String) :
    World.Sparing place (log.send level message) := by
  intro w
  obtain hsame | ⟨path, added, hpath, happend⟩ := files_send log level message w
  · rw [hsame]
    exact .refl
  · exact .append happend (h path hpath)

theorem sameDirectories_send (log : RunLog) (level : Level) (message : String) (w : World) :
    FileTree.SameDirectories w.files
      ((log.send level message : StateM World Unit) w).2.files := by
  obtain hsame | ⟨path, added, -, happend⟩ := files_send log level message w
  · rw [hsame]
    exact fun _ => Iff.rfl
  · exact FileTree.sameDirectories_append happend

theorem sparing_start {path : String} (h : Place.ofPath path ≠ place) (verbosity : Nat) :
    World.Sparing place (RunLog.start verbosity path : StateM World RunLog) := by
  unfold RunLog.start
  refine .bind (.ask _) fun found => ?_
  split
  · exact .bind (.remove h) fun _ => .pure _
  · exact .pure _

end RunLog

end ScriptExport
