import Calculator.Fault

/-!
# Screening

Before an expression is cut into tokens, its white space is removed and every other character is
checked. White space may therefore stand anywhere, even inside a number or a name.

* `Source.isAccepted`: the characters of expressions
* `Source.screen`: an expression without its white space, or the first foreign character in it
-/

namespace Calculator.Source

/-- The characters of expressions that are neither digits nor letters. -/
def marks : List Char := ['.', '+', '-', '*', '/', '(', ')', '^', ',']

/-- The letters that function names and exponents are made of, in lower case. -/
def letters : List Char := ['e', 's', 'i', 'n', 'c', 'o', 't', 'a', 'l', 'g', 'x', 'p']

/-- Whether a character occurs in expressions. -/
def isAccepted (c : Char) : Bool :=
  c.isDigit || marks.contains c || c.isAlpha && letters.contains c.toLower

/-- Whether a character is neither white space nor accepted. -/
def isForeign (c : Char) : Bool := !Text.isBlank c && !isAccepted c

/-- A text without its white space. -/
def strip (cs : List Char) : List Char := cs.filter fun c => !Text.isBlank c

/-- An expression without its white space. The first foreign character is a fault. -/
def screen (expression : String) : Except Fault String :=
  match expression.toList.zipIdx.find? fun entry => isForeign entry.1 with
  | some (char, index) => .error (.foreignCharacter char index)
  | none => .ok (String.ofList (strip expression.toList))

end Calculator.Source
