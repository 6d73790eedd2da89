import ScriptExport.Document.Value

/-!
# Values that can be written

Numbers other than 64-bit integers and malformed parts have no text. A value without them is plain, and
every part of it denotes something.
-/

namespace ScriptExport.Value

/-- Whether an integer has 64 bits. -/
def isInt64 (n : Int) : Bool :=
  Int64.minValue.toInt ≤ n && n ≤ Int64.maxValue.toInt

mutual

/-- Whether every part of the value can be written. -/
def isPlain : Value → Bool
  | null | bool _ | text _ => true
  | int n => isInt64 n
  | list items => isPlainList items
  | table fields => isPlainFields fields
  | float | malformed => false

/-- Whether every value of a list is plain. -/
def isPlainList : List Value → Bool
  | [] => true
  | v :: vs => v.isPlain && isPlainList vs

/-- Whether every field is plain. -/
def isPlainFields : List (String × Value) → Bool
  | [] => true
  | (_, v) :: fs => v.isPlain && isPlainFields fs

end

/-- What fits into 64 bits. -/
theorem isInt64_iff {n : Int} :
    isInt64 n = true ↔ -9223372036854775808 ≤ n ∧ n ≤ 9223372036854775807 := by
  have hmin : Int64.minValue.toInt = -9223372036854775808 := by decide
  have hmax : Int64.maxValue.toInt = 9223372036854775807 := by decide
  simp [isInt64, hmin, hmax]

theorem natAbs_le_of_isInt64 {n : Int} (hn : isInt64 n = true) :
    n.natAbs ≤ 9223372036854775808 := by
  rw [isInt64_iff] at hn
  omega

theorem isInt64_of_uint32 (n : UInt32) : isInt64 n.toNat = true := by
  have hlt := n.toNat_lt
  rw [isInt64_iff]
  omega

theorem isInt64_toInt (n : Int64) : isInt64 n.toInt = true := by
  have hmin := n.minValue_le_toInt
  have hmax := n.toInt_le
  simp_all [isInt64]

@[simp] theorem isPlainList_iff {vs : List Value} :
    isPlainList vs = true ↔ ∀ v ∈ vs, v.isPlain = true := by
  induction vs with
  | nil => simp [isPlainList]
  | cons v vs ih => simp [isPlainList, ih]

@[simp] theorem isPlainFields_iff {fs : List (String × Value)} :
    isPlainFields fs = true ↔ ∀ f ∈ fs, f.2.isPlain = true := by
  induction fs with
  | nil => simp [isPlainFields]
  | cons f fs ih => simp [isPlainFields, ih]

mutual

/-- A plain value is whole. -/
theorem isWhole_of_isPlain : (v : Value) → v.isPlain = true → v.isWhole = true
  | .list items, h => isWholeList_of_isPlain items h
  | .table fields, h => isWholeFields_of_isPlain fields h
  | .null, _ => rfl
  | .bool _, _ => rfl
  | .int _, _ => rfl
  | .text _, _ => rfl

theorem isWholeList_of_isPlain : (vs : List Value) → isPlainList vs = true → isWholeList vs = true
  | [], _ => rfl
  | v :: vs, h => by
    have hparts := Bool.and_eq_true_iff.mp h
    rw [isWholeList, isWhole_of_isPlain v hparts.1, isWholeList_of_isPlain vs hparts.2]
    rfl

theorem isWholeFields_of_isPlain : (fs : List (String × Value)) → isPlainFields fs = true →
    isWholeFields fs = true
  | [], _ => rfl
  | (_, v) :: fs, h => by
    have hparts := Bool.and_eq_true_iff.mp h
    rw [isWholeFields, isWhole_of_isPlain v hparts.1, isWholeFields_of_isPlain fs hparts.2]
    rfl

end

end ScriptExport.Value
