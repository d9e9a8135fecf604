/-!
# The operators of arithmetic
-/

namespace Calculator

/-- An operator between two operands. -/
inductive Operator where
  | add
  | sub
  | mul
  | div
  deriving DecidableEq, Repr

namespace Operator

/-- The sign of an operator. -/
def char : Operator → Char
  | add => '+'
  | sub => '-'
  | mul => '*'
  | div => '/'

end Operator

end Calculator
