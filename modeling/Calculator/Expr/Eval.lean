import Calculator.Expr
import Calculator.Fault

/-!
# The value of an expression

Operands are evaluated from left to right and the argument of a call before its name is looked up,
so the leftmost of several faults is the one reported.

* `Operator.apply`, `Elementary.apply`, `Elementary.applyNamed`: single steps
* `Expr.eval`: the value of an expression
-/

namespace Calculator

/-- The result of an operation. Dividing by either zero is a fault. -/
def Operator.apply : Operator → Float → Float → Except Fault Float
  | .add, a, b => .ok (a + b)
  | .sub, a, b => .ok (a - b)
  | .mul, a, b => .ok (a * b)
  | .div, a, b => if b == 0.0 then .error .divisionByZero else .ok (a / b)

/-- The value of a function, a fault outside its domain. -/
def Elementary.apply (f : Elementary) (x : Float) : Except Fault Float :=
  if f.accepts x then .ok (f.value x) else .error (.outsideDomain f x)

/-- The value of the function that a name calls. -/
def Elementary.applyNamed (name : String) (x : Float) : Except Fault Float :=
  match Elementary.named? name with
  | some f => f.apply x
  | none => .error (.unknownFunction name)

namespace Expr

/-- The value of an expression, put through further steps. A left operand is evaluated with the
operation on it as one more step, so a chain of operations of any length is walked without going
deeper for each of them. -/
def evalThen : Expr → List (Float → Except Fault Float) → Except Fault Float
  | lit value _, steps => steps.foldlM (fun x step => step x) value
  | neg operand _, steps => do
    let x ← operand.evalThen []
    steps.foldlM (fun x step => step x) (-x)
  | bin op left right _, steps =>
    left.evalThen ((fun x => do op.apply x (← right.evalThen [])) :: steps)
  | call name arg _, steps => do
    let x ← arg.evalThen []
    let y ← Elementary.applyNamed name x
    steps.foldlM (fun x step => step x) y

/-- The value of an expression, or the first fault on the way to it. -/
def eval (e : Expr) : Except Fault Float := e.evalThen []

end Expr

end Calculator
