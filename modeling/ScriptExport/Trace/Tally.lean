/-!
# Type statistics

How often each type was rendered. `tally` lists the types in name order; `ranked` lists the most
frequent ones first, and equally frequent ones in name order. Both depend on the types only as a
multiset, since they start by sorting them.
-/

namespace ScriptExport

/-- Count a name in front of a list that is ordered by name. -/
def addRun (name : String) : List (String × Nat) → List (String × Nat)
  | [] => [(name, 1)]
  | (n, count) :: rest => if n = name then (n, count + 1) :: rest else (name, 1) :: (n, count) :: rest

/-- The runs of equal neighbours with their lengths. -/
def runs : List String → List (String × Nat)
  | [] => []
  | name :: names => addRun name (runs names)

/-- How often each name occurs, in name order. -/
def tally (names : List String) : List (String × Nat) :=
  runs (names.mergeSort fun a b => decide (a ≤ b))

/-- How often each name occurs, most frequent first and then in name order. -/
def ranked (names : List String) : List (String × Nat) :=
  (tally names).mergeSort fun a b => decide (b.2 ≤ a.2)

/-- The statistics log: one line for each type, with its count first. -/
def statistics (names : List String) : String :=
  String.join ((ranked names).map fun e => toString e.2 ++ "\t" ++ e.1 ++ "\n")

end ScriptExport
