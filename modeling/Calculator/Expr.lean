import Calculator.Number
import Calculator.Operator

/-!
# Expressions

An expression tree has precedence settled: a group leaves no node of its own. Every node keeps the
byte at which the token it comes from starts.

* `Expr.text`: an expression with every operation in parentheses
-/

namespace Calculator

/-- An expression of arithmetic. The name of a call is kept as it is written. -/
inductive Expr where
  | lit (value : Float) (pos : Nat)
  | neg (operand : Expr) (pos : Nat)
  | bin (op : Operator) (left right : Expr) (pos : Nat)
  | call (name : String) (arg : Expr) (pos : Nat)
  deriving DecidableEq

namespace Expr

/-- The byte at which the token of the root starts. -/
def pos : Expr → Nat
  | lit _ pos => pos
  | neg _ pos => pos
  | bin _ _ _ pos => pos
  | call _ _ pos => pos

/-- The characters of `Expr.text`, and then some more. -/
def charsThen : Expr → List Char → List Char
  | lit value _, rest => Number.chars value ++ rest
  | neg operand _, rest => '-' :: operand.charsThen rest
  | bin op left right _, rest =>
    '(' :: left.charsThen (' ' :: op.char :: ' ' :: right.charsThen (')' :: rest))
  | call name arg _, rest => name.toList ++ '(' :: arg.charsThen (')' :: rest)

/-- The expression with every operation in parentheses, which shows how it was read. -/
def text (e : Expr) : String := String.ofList (e.charsThen [])

end Expr

end Calculator
