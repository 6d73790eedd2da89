import Mathlib.Data.List.Induction
import Mathlib.Data.List.Nodup
import ScriptExport.Record.Overload

/-!
# What is in an overload set

Records are put into overload sets one after the other. What stands under a key at the end is the
subsequence of the records that have the key (`getD_foldl_addOverload`), so an overload set holds
exactly the callables with its owner and its script name, in their order
(`records_of_mem_groupOverloads`). A record with a new key opens a set behind all others
(`pairwise_keys_overloadMap`), and any record adds itself to the sets once
(`perm_flatMap_addOverload`), so the sets are a stable partition of the callables.
-/

namespace ScriptExport

theorem getD_addOverload (groups : OrderedMap (String × String) (List ExportRecord))
    (r : ExportRecord) (key : String × String) :
    ((addOverload groups r).get? key).getD [] =
      (groups.get? key).getD [] ++ if r.overloadKey = key then [r] else [] := by
  unfold addOverload
  rw [OrderedMap.get?_insert]
  by_cases hkey : r.overloadKey = key
  · simp [hkey]
  · have hkey' : ¬ key = r.overloadKey := fun h => hkey h.symm
    simp [hkey, hkey']

/-- The records with a key end up under it, behind what stands there. -/
theorem getD_foldl_addOverload (rs : List ExportRecord)
    (groups : OrderedMap (String × String) (List ExportRecord)) (key : String × String) :
    ((rs.foldl addOverload groups).get? key).getD [] =
      (groups.get? key).getD [] ++ rs.filter (fun r => r.overloadKey = key) := by
  induction rs generalizing groups with
  | nil => exact (List.append_nil _).symm
  | cons r rs ih =>
    rw [List.foldl_cons, ih, getD_addOverload, List.append_assoc, List.filter_cons]
    by_cases hkey : r.overloadKey = key <;> simp [hkey]

theorem records_of_mem_groupOverloads {rs : List ExportRecord} {S : OverloadSet}
    (hS : S ∈ groupOverloads rs) : S.records =
      (rs.filter (·.kind.isCallable)).filter
        (fun r => r.overloadKey = (S.ownerType, S.scriptName)) := by
  obtain ⟨e, he, rfl⟩ := List.mem_map.mp hS
  have hfold := getD_foldl_addOverload (rs.filter (·.kind.isCallable)) {} e.1
  rw [OrderedMap.get?_of_mem_entries he] at hfold
  exact hfold

/-! ## The sets of a list of records -/

/-- The owner and the script name that the records of the set share. -/
def OverloadSet.key (S : OverloadSet) : String × String :=
  (S.ownerType, S.scriptName)

/-- Whether the record is a callable with the owner and the script name of the key. -/
def ExportRecord.overloads (r : ExportRecord) (key : String × String) : Bool :=
  r.kind.isCallable && decide (r.overloadKey = key)

/-- The sets divide the callables among the records by owner and script name and keep their order. -/
structure StablePartition (rs : List ExportRecord) (groups : List OverloadSet) : Prop where
  distinct : (groups.map (·.key)).Nodup
  /-- The sets stand in the order in which their keys first occur. -/
  ordered : groups.Pairwise fun S T =>
    rs.findIdx (·.overloads S.key) < rs.findIdx (·.overloads T.key)
  /-- A set is the subsequence of the callables with its key. -/
  records : ∀ S ∈ groups, S.records = rs.filter (·.overloads S.key)
  nonempty : ∀ S ∈ groups, S.records ≠ []
  exactlyOne : ∀ r ∈ rs, r.kind.isCallable = true → ∃! S, S ∈ groups ∧ r ∈ S.records
  onlyCallables : ∀ S ∈ groups, ∀ r ∈ S.records, r ∈ rs ∧ r.kind.isCallable = true
  /-- No record is lost or comes twice, however often it is listed. -/
  perm : (groups.flatMap (·.records)).Perm (rs.filter (·.kind.isCallable))

/-- The records under their keys. -/
def overloadMap (rs : List ExportRecord) : OrderedMap (String × String) (List ExportRecord) :=
  (rs.filter (·.kind.isCallable)).foldl addOverload {}

theorem overloadMap_concat (rs : List ExportRecord) (r : ExportRecord) :
    overloadMap (rs ++ [r]) =
      if r.kind.isCallable then addOverload (overloadMap rs) r else overloadMap rs := by
  unfold overloadMap
  rw [List.filter_append, List.foldl_append]
  by_cases hr : r.kind.isCallable = true <;> simp [hr]

theorem map_key_groupOverloads (rs : List ExportRecord) :
    (groupOverloads rs).map (·.key) = (overloadMap rs).keys :=
  List.map_map

/-- The keys are those of the callables. -/
theorem mem_keys_overloadMap {rs : List ExportRecord} {key : String × String} :
    key ∈ (overloadMap rs).keys ↔ ∃ r ∈ rs, r.overloads key = true := by
  induction rs using List.reverseRecOn with
  | nil => simp [overloadMap, OrderedMap.keys, EmptyCollection.emptyCollection, OrderedMap.empty]
  | append_singleton rs r ih =>
    have hlast : (∃ r' ∈ rs ++ [r], r'.overloads key = true) ↔
        (∃ r' ∈ rs, r'.overloads key = true) ∨ r.overloads key = true := by
      simp [or_and_right, exists_or]
    rw [hlast, ← ih, overloadMap_concat]
    unfold ExportRecord.overloads
    by_cases hr : r.kind.isCallable = true
    · rw [if_pos hr, addOverload, OrderedMap.keys_insert, hr]
      by_cases hkey : r.overloadKey = key
      · split <;> simp_all
      · have hkey' : ¬ key = r.overloadKey := fun h => hkey h.symm
        split <;> simp [hkey, hkey']
    · simp [hr]

/-- A new key stands behind the keys that occurred before it. -/
theorem pairwise_keys_overloadMap (rs : List ExportRecord) :
    (overloadMap rs).keys.Pairwise fun k j =>
      rs.findIdx (·.overloads k) < rs.findIdx (·.overloads j) := by
  induction rs using List.reverseRecOn with
  | nil => exact List.Pairwise.nil
  | append_singleton rs r ih =>
    have hknown : ∀ k ∈ (overloadMap rs).keys, rs.findIdx (·.overloads k) < rs.length :=
      fun k hk => List.findIdx_lt_length.mpr (mem_keys_overloadMap.mp hk)
    have hsame : ∀ k ∈ (overloadMap rs).keys,
        (rs ++ [r]).findIdx (·.overloads k) = rs.findIdx (·.overloads k) := by
      intro k hk
      rw [List.findIdx_append, if_pos (hknown k hk)]
    have hkept : (overloadMap rs).keys.Pairwise fun k j =>
        (rs ++ [r]).findIdx (·.overloads k) < (rs ++ [r]).findIdx (·.overloads j) := by
      refine ih.imp_of_mem ?_
      intro k j hk hj hlt
      rw [hsame k hk, hsame j hj]
      exact hlt
    rw [overloadMap_concat]
    split
    · rw [addOverload, OrderedMap.keys_insert]
      split
      · exact hkept
      · next hnew =>
        refine List.pairwise_append.mpr ⟨hkept, List.pairwise_singleton _ _, ?_⟩
        intro k hk j hj
        obtain rfl := List.mem_singleton.mp hj
        have hfirst : ¬ rs.findIdx (·.overloads r.overloadKey) < rs.length :=
          fun h => hnew (mem_keys_overloadMap.mpr (List.findIdx_lt_length.mp h))
        rw [hsame k hk, List.findIdx_append, if_neg hfirst]
        exact Nat.lt_of_lt_of_le (hknown k hk) (Nat.le_add_left _ _)
    · exact hkept

/-- The records under all keys after one more has been added. -/
theorem perm_flatMap_addOverload (groups : OrderedMap (String × String) (List ExportRecord))
    (r : ExportRecord) :
    ((addOverload groups r).entries.flatMap Prod.snd).Perm (groups.entries.flatMap Prod.snd ++ [r]) := by
  show ((OrderedMap.insertEntry r.overloadKey
    ((OrderedMap.findEntry r.overloadKey groups.entries).getD [] ++ [r]) groups.entries).flatMap
      Prod.snd).Perm _
  induction groups.entries with
  | nil => exact List.Perm.refl _
  | cons e es ih =>
    rw [OrderedMap.insertEntry, OrderedMap.findEntry]
    by_cases he : e.1 = r.overloadKey
    · rw [if_pos he, if_pos he]
      simp only [Option.getD_some, List.flatMap_cons, List.append_assoc]
      exact List.perm_append_comm.append_left _
    · rw [if_neg he, if_neg he]
      simp only [List.flatMap_cons, List.append_assoc]
      exact ih.append_left _

/-- Each callable is in one set. -/
theorem perm_flatMap_overloadMap (rs : List ExportRecord) :
    ((overloadMap rs).entries.flatMap Prod.snd).Perm (rs.filter (·.kind.isCallable)) := by
  unfold overloadMap
  induction rs.filter (·.kind.isCallable) using List.reverseRecOn with
  | nil => exact List.Perm.refl _
  | append_singleton rs r ih =>
    rw [List.foldl_append]
    exact (perm_flatMap_addOverload _ r).trans (ih.append_right [r])

theorem records_groupOverloads {rs : List ExportRecord} {S : OverloadSet}
    (hS : S ∈ groupOverloads rs) : S.records = rs.filter (·.overloads S.key) := by
  rw [records_of_mem_groupOverloads hS, List.filter_filter]
  refine List.filter_congr fun r _ => ?_
  exact Bool.and_comm _ _

/-- **Overload sets are a stable partition.** Grouping divides the callables of any list of records by
owner and script name: the keys are distinct and stand in the order of their first occurrence, a set
has exactly the callables with its key in their order and is not empty, every callable is in exactly
one set, and nothing else is in any. -/
theorem groupOverloads_stablePartition (rs : List ExportRecord) :
    StablePartition rs (groupOverloads rs) := by
  have hdistinct : ((groupOverloads rs).map (·.key)).Nodup := by
    rw [map_key_groupOverloads]
    exact (overloadMap rs).nodup
  have hmem : ∀ {S : OverloadSet} {r : ExportRecord}, S ∈ groupOverloads rs →
      (r ∈ S.records ↔ r ∈ rs ∧ r.kind.isCallable = true ∧ r.overloadKey = S.key) := by
    intro S r hS
    rw [records_groupOverloads hS, List.mem_filter]
    unfold ExportRecord.overloads
    simp
  constructor
  case distinct => exact hdistinct
  case ordered =>
    have hkeys := pairwise_keys_overloadMap rs
    rw [← map_key_groupOverloads, List.pairwise_map] at hkeys
    exact hkeys
  case records => exact fun S hS => records_groupOverloads hS
  case nonempty =>
    intro S hS
    have hkey : S.key ∈ (overloadMap rs).keys := by
      rw [← map_key_groupOverloads]
      exact List.mem_map_of_mem hS
    obtain ⟨r, hr, hoverloads⟩ := mem_keys_overloadMap.mp hkey
    rw [records_groupOverloads hS]
    exact List.ne_nil_of_mem (List.mem_filter.mpr ⟨hr, hoverloads⟩)
  case exactlyOne =>
    intro r hr hcallable
    have hkey : r.overloadKey ∈ (groupOverloads rs).map (·.key) := by
      rw [map_key_groupOverloads]
      exact mem_keys_overloadMap.mpr ⟨r, hr, by simp [ExportRecord.overloads, hcallable]⟩
    obtain ⟨S, hS, hSkey⟩ := List.mem_map.mp hkey
    refine ⟨S, ⟨hS, (hmem hS).mpr ⟨hr, hcallable, hSkey.symm⟩⟩, ?_⟩
    rintro T ⟨hT, hrT⟩
    exact List.inj_on_of_nodup_map hdistinct hT hS (((hmem hT).mp hrT).2.2.symm.trans hSkey.symm)
  case onlyCallables =>
    intro S hS r hr
    exact ⟨((hmem hS).mp hr).1, ((hmem hS).mp hr).2.1⟩
  case perm =>
    rw [groupOverloads, List.flatMap_map]
    exact perm_flatMap_overloadMap rs

end ScriptExport
