import Calculator.Expr.Parser
import Calculator.Source
import Calculator.Token.Lexer

/-!
# The value of an expression as it is written
-/

namespace Calculator

/-- The value of an expression, or the fault of the first stage that fails: screening comes first,
then the tokens, the expression they form and its value. -/
def evaluate (expression : String) : Except Fault Float := do
  let source ← Source.screen expression
  let tokens ← tokenize source
  let e ← parse tokens
  e.eval

example : (evaluate "1 0 - 2 * --3").toOption = some 4.0 := by decide +kernel

end Calculator
