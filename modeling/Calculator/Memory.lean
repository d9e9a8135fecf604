import Calculator.Fault

/-!
# The memory

The memory of a calculator has one slot. An empty slot differs from one that holds zero, and NaN is
never stored.
-/

namespace Calculator

/-- A memory, whose slot is empty or holds a number. -/
structure Memory where
  slot : Option Float
  deriving DecidableEq

namespace Memory

/-- The memory with nothing in its slot. -/
def empty : Memory := ⟨none⟩

/-- The memory with a number in place of what it held. -/
def store (_ : Memory) (x : Float) : Except Fault Memory :=
  if Binary64.isNaN x then .error (.notNumeric (Number.text x)) else .ok ⟨some x⟩

/-- The number that a text denotes, and the memory that holds it. -/
def storeText (m : Memory) (text : String) : Except Fault (Float × Memory) :=
  match Number.ofText? text with
  | none => .error (.notNumeric text)
  | some x => (m.store x).map fun stored => (x, stored)

/-- What the slot holds. -/
def retrieve (m : Memory) : Option Float := m.slot

/-- The memory with its slot emptied. -/
def clear (_ : Memory) : Memory := empty

end Memory

end Calculator
