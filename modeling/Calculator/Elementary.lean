import Calculator.Text.Case

/-!
# Elementary functions

The functions of one number that the calculator knows. The values themselves are those of the
platform's mathematical library; this file says on which arguments a function is defined.

* `Elementary.accepts`: the domain of a function
* `Elementary.value`: its value there
* `Elementary.table`, `Elementary.named?`: the names by which functions are called
-/

namespace Calculator

/-- A function of one number, angles in radians. -/
inductive Elementary where
  | sin
  | cos
  | tan
  | asin
  | acos
  | atan
  | log10
  | ln
  | exp
  deriving DecidableEq, Repr

namespace Elementary

/-- The name by which a function is reported. -/
def name : Elementary → String
  | sin => "sin"
  | cos => "cos"
  | tan => "tan"
  | asin => "asin"
  | acos => "acos"
  | atan => "atan"
  | log10 => "log10"
  | ln => "ln"
  | exp => "exp"

/-- Whether an argument lies in the domain of a function. The inverse sine and cosine are defined
between -1 and 1, the logarithms above zero, and neither is defined at NaN. -/
def accepts : Elementary → Float → Bool
  | asin, x => decide (-1.0 ≤ x) && decide (x ≤ 1.0)
  | acos, x => decide (-1.0 ≤ x) && decide (x ≤ 1.0)
  | log10, x => decide (0.0 < x)
  | ln, x => decide (0.0 < x)
  | _, _ => true

/-- The value of a function in its domain. -/
def value : Elementary → Float → Float
  | sin => Float.sin
  | cos => Float.cos
  | tan => Float.tan
  | asin => Float.asin
  | acos => Float.acos
  | atan => Float.atan
  | log10 => Float.log10
  | ln => Float.log
  | exp => Float.exp

/-- The functions by the names under which expressions call them. The plain logarithm is the
decimal one. -/
def table : List (String × Elementary) :=
  [("sin", sin), ("cos", cos), ("tan", tan), ("asin", asin), ("acos", acos), ("atan", atan),
    ("log", log10), ("log10", log10), ("ln", ln), ("exp", exp)]

/-- The function that a name calls, in any case. -/
def named? (name : String) : Option Elementary :=
  (table.find? fun entry => entry.1.toList = Text.lowercase name.toList).map Prod.snd

end Elementary

end Calculator
