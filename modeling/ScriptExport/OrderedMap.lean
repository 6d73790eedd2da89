/-!
# Maps that remember insertion order

`OrderedMap κ β` maps keys to values and keeps its entries in the order in which their keys were
first inserted. Inserting under a key that is present replaces the value and keeps the position. The
view is `entries`; `keys_insert` and `get?_insert` say what insertion does to it.
-/

namespace ScriptExport

/-- A finite map with distinct keys in order of first insertion. -/
structure OrderedMap (κ β : Type) where
  entries : List (κ × β)
  nodup : (entries.map Prod.fst).Nodup

namespace OrderedMap

variable {κ β : Type}

/-- The map without entries. -/
def empty : OrderedMap κ β :=
  ⟨[], by simp⟩

instance : EmptyCollection (OrderedMap κ β) := ⟨empty⟩

instance : Inhabited (OrderedMap κ β) := ⟨empty⟩

theorem ext_entries {m n : OrderedMap κ β} (h : m.entries = n.entries) : m = n := by
  cases m; cases n; simp_all

instance [DecidableEq κ] [DecidableEq β] : DecidableEq (OrderedMap κ β) := fun m n =>
  if h : m.entries = n.entries then isTrue (ext_entries h)
  else isFalse fun e => h (congrArg entries e)

/-- The keys in order of first insertion. -/
def keys (m : OrderedMap κ β) : List κ :=
  m.entries.map Prod.fst

/-- The values in the order of their keys. -/
def values (m : OrderedMap κ β) : List β :=
  m.entries.map Prod.snd

/-- The number of entries. -/
def size (m : OrderedMap κ β) : Nat :=
  m.entries.length

/-- Whether the map has no entries. -/
def isEmpty (m : OrderedMap κ β) : Bool :=
  m.entries.isEmpty

section
variable [DecidableEq κ]

/-- The value of the first entry under `k` in a list of entries. -/
def findEntry (k : κ) : List (κ × β) → Option β
  | [] => none
  | e :: es => if e.1 = k then some e.2 else findEntry k es

/-- The value under a key. -/
def get? (m : OrderedMap κ β) (k : κ) : Option β :=
  findEntry k m.entries

/-- Whether the key is present. -/
def contains (m : OrderedMap κ β) (k : κ) : Bool :=
  (m.get? k).isSome

/-- Put `v` under `k` in a list of entries: in place of an earlier value, else at the end. -/
def insertEntry (k : κ) (v : β) : List (κ × β) → List (κ × β)
  | [] => [(k, v)]
  | e :: es => if e.1 = k then (k, v) :: es else e :: insertEntry k v es

/-- A key that is there keeps its place; a new one goes to the end. -/
theorem map_fst_insertEntry (k : κ) (v : β) (es : List (κ × β)) :
    (insertEntry k v es).map Prod.fst =
      if k ∈ es.map Prod.fst then es.map Prod.fst else es.map Prod.fst ++ [k] := by
  induction es with
  | nil => simp [insertEntry]
  | cons e es ih =>
    rw [insertEntry]
    by_cases h : e.1 = k
    · simp [h]
    · have h' : ¬ k = e.1 := fun e => h e.symm
      simp only [h, ↓reduceIte, List.map_cons, ih, List.mem_cons, h', false_or]
      split <;> simp

theorem nodup_insertEntry {k : κ} {v : β} {es : List (κ × β)} (h : (es.map Prod.fst).Nodup) :
    ((insertEntry k v es).map Prod.fst).Nodup := by
  rw [map_fst_insertEntry]
  split
  · exact h
  · next hk => exact List.nodup_append.2 ⟨h, by simp, by simpa using fun a b hb e => hk (by simp_all)⟩

/-- Put `v` under `k`: in place of an earlier value, else at the end. -/
def insert (m : OrderedMap κ β) (k : κ) (v : β) : OrderedMap κ β :=
  ⟨insertEntry k v m.entries, nodup_insertEntry m.nodup⟩

/-- Put `v` under `k` unless the key is present. -/
def insertIfNew (m : OrderedMap κ β) (k : κ) (v : β) : OrderedMap κ β :=
  if m.contains k then m else m.insert k v

/-- The map without what stands under a key. -/
def erase (m : OrderedMap κ β) (k : κ) : OrderedMap κ β :=
  ⟨m.entries.filter (fun e => e.1 ≠ k), (List.filter_sublist.map Prod.fst).nodup m.nodup⟩

/-- Insert the entries one after the other, so that the last value of a key wins at the place of its
first occurrence. -/
def ofList (es : List (κ × β)) : OrderedMap κ β :=
  es.foldl (fun m e => m.insert e.1 e.2) empty

variable (m : OrderedMap κ β)

theorem keys_insert (k : κ) (v : β) :
    (m.insert k v).keys = if k ∈ m.keys then m.keys else m.keys ++ [k] :=
  map_fst_insertEntry k v m.entries

theorem insertEntry_of_not_mem {k : κ} {v : β} {es : List (κ × β)} (h : k ∉ es.map Prod.fst) :
    insertEntry k v es = es ++ [(k, v)] := by
  induction es with
  | nil => rfl
  | cons e es ih =>
    rw [List.map_cons, List.mem_cons, not_or] at h
    rw [insertEntry, if_neg fun heq => h.1 heq.symm, ih h.2, List.cons_append]

theorem insertEntry_append_cons {k : κ} {before : List (κ × β)} (h : k ∉ before.map Prod.fst)
    (v w : β) (after : List (κ × β)) :
    insertEntry k v (before ++ (k, w) :: after) = before ++ (k, v) :: after := by
  induction before with
  | nil => simp [insertEntry]
  | cons e before ih =>
    rw [List.map_cons, List.mem_cons, not_or] at h
    rw [List.cons_append, insertEntry, if_neg fun heq => h.1 heq.symm, ih h.2, List.cons_append]

/-- A new key is entered behind all others. -/
theorem entries_insert {m : OrderedMap κ β} {k : κ} {v : β} (h : k ∉ m.keys) :
    (m.insert k v).entries = m.entries ++ [(k, v)] :=
  insertEntry_of_not_mem h

/-- A lookup after an insertion finds the new value under its key only. -/
theorem findEntry_insertEntry (k j : κ) (v : β) (es : List (κ × β)) :
    findEntry j (insertEntry k v es) = if j = k then some v else findEntry j es := by
  induction es with
  | nil => simp [insertEntry, findEntry, eq_comm]
  | cons e es ih =>
    rw [insertEntry]
    by_cases hek : e.1 = k <;> by_cases hjk : j = k <;> by_cases hej : e.1 = j <;>
      simp_all [findEntry]

/-- What an insertion changes is the value of its key. -/
theorem get?_insert (k j : κ) (v : β) :
    (m.insert k v).get? j = if j = k then some v else m.get? j :=
  findEntry_insertEntry k j v m.entries

@[simp] theorem get?_insert_self (k : κ) (v : β) : (m.insert k v).get? k = some v := by
  simp [get?_insert]

/-- The last entry with a key is the one that counts. -/
theorem get?_ofList (es : List (κ × β)) (k : κ) :
    (ofList es).get? k = (es.reverse.find? fun e => decide (e.1 = k)).map Prod.snd := by
  have hfold : ∀ m : OrderedMap κ β, (es.foldl (fun m e => m.insert e.1 e.2) m).get? k =
      ((es.reverse.find? fun e => decide (e.1 = k)).map Prod.snd).or (m.get? k) := by
    induction es with
    | nil => intro m; rfl
    | cons e es ih =>
      intro m
      rw [List.foldl_cons, ih, get?_insert, List.reverse_cons, List.find?_append]
      by_cases h : e.1 = k
      · cases es.reverse.find? (fun e => decide (e.1 = k)) <;> simp [h]
      · have h' : ¬ k = e.1 := fun he => h he.symm
        cases es.reverse.find? (fun e => decide (e.1 = k)) <;> simp [h, h']
  have hlast := hfold empty
  rw [show (empty : OrderedMap κ β).get? k = none from rfl, Option.or_none] at hlast
  exact hlast

/-- What an erasure removes is the value of its key. -/
theorem get?_erase (k j : κ) : (m.erase k).get? j = if j = k then none else m.get? j := by
  unfold erase get?
  dsimp only
  induction m.entries with
  | nil => simp [findEntry]
  | cons e es ih =>
    by_cases hek : e.1 = k <;> by_cases hjk : j = k <;> by_cases hej : e.1 = j <;>
      simp_all [findEntry]

theorem contains_iff {m : OrderedMap κ β} {k : κ} : m.contains k = true ↔ k ∈ m.keys := by
  unfold contains get? keys
  induction m.entries with
  | nil => simp [findEntry]
  | cons e es ih =>
    by_cases h : e.1 = k
    · simp [findEntry, h]
    · simp only [findEntry, h, ↓reduceIte, ih, List.map_cons, List.mem_cons]
      exact ⟨Or.inr, fun h' => h'.resolve_left fun e => h e.symm⟩

/-- Where keys are unique, each entry is found. -/
theorem findEntry_of_mem {es : List (κ × β)} (hnodup : (es.map Prod.fst).Nodup) {e : κ × β}
    (he : e ∈ es) : findEntry e.1 es = some e.2 := by
  induction es with
  | nil => cases he
  | cons first es ih =>
    rw [List.map_cons, List.nodup_cons] at hnodup
    rw [findEntry]
    rcases List.mem_cons.mp he with rfl | he
    · rw [if_pos rfl]
    · have hne : first.1 ≠ e.1 := fun h => hnodup.1 (h ▸ List.mem_map_of_mem he)
      rw [if_neg hne]
      exact ih hnodup.2 he

/-- Every entry of a map is found. -/
theorem get?_of_mem_entries {m : OrderedMap κ β} {e : κ × β} (he : e ∈ m.entries) :
    m.get? e.1 = some e.2 :=
  findEntry_of_mem m.nodup he

theorem entries_foldl_insert (es : List (κ × β)) (m : OrderedMap κ β)
    (h : (m.entries ++ es).map Prod.fst |>.Nodup) :
    (es.foldl (fun m e => m.insert e.1 e.2) m).entries = m.entries ++ es := by
  induction es generalizing m with
  | nil => simp
  | cons e es ih =>
    have hnew : e.1 ∉ m.entries.map Prod.fst := by
      intro hmem
      rw [List.map_append] at h
      exact (List.nodup_append.mp h).2.2 _ hmem _ List.mem_cons_self rfl
    have hinsert : (m.insert e.1 e.2).entries = m.entries ++ [e] := entries_insert hnew
    rw [List.foldl_cons, ih, hinsert, List.append_assoc, List.singleton_append]
    rw [hinsert, List.append_assoc, List.singleton_append]
    exact h

/-- The entries of a map give it back, in the same order. -/
theorem ofList_entries (m : OrderedMap κ β) : ofList m.entries = m := by
  refine ext_entries ?_
  exact entries_foldl_insert m.entries empty m.nodup

end

end OrderedMap

end ScriptExport
