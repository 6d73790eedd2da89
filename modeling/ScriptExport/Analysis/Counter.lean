/-!
# Counters for fresh names

A counter hands out increasing numbers and stays at the largest one. `freshName` appends them to a
generated name until the result is free.
-/

namespace ScriptExport

/-- A counter of 32-bit numbers. -/
structure Counter where
  next : UInt32 := 1
deriving DecidableEq, Repr

namespace Counter

/-- The counter after one number has been drawn; it stops at the largest number. -/
def advance (c : Counter) : Counter :=
  ⟨if c.next = UInt32.ofNat (UInt32.size - 1) then c.next else c.next + 1⟩

/-- Draw the given count of numbers. -/
def draw : Nat → Counter → List UInt32
  | 0, _ => []
  | n + 1, c => c.next :: draw n c.advance

/-- The counter after the number `n` and all before it have been drawn. -/
def after (n : Nat) : Counter :=
  ⟨UInt32.ofNat (if n + 1 < UInt32.size then n + 1 else UInt32.size - 1)⟩

/-- The first number from `n` on that makes the name free. One of `tries + 1` different names is free
when at most `tries` are taken, so the last number needs no check. -/
def search (taken : List String) (name : String) : Nat → Nat → Nat
  | 0, n => n
  | tries + 1, n => if name ++ toString n ∈ taken then search taken name tries (n + 1) else n

/-- A name that is not taken: the name itself, or else the name with the first number of the counter
that makes it free. Where the numbers of the counter are used up the search goes on above them, since
waiting for another one would never end. -/
def freshName (taken : List String) (name : String) (c : Counter) : String × Counter :=
  if name ∈ taken then
    let n := search taken name taken.length c.next.toNat
    (name ++ toString n, after n)
  else (name, c)

end Counter

end ScriptExport
