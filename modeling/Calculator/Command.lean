import Calculator.Text.Blank
import Calculator.Text.Case

/-!
# Commands

A line is a memory command or else an expression. The command words `ms`, `mr` and `mc` begin with a
letter that no expression contains.
-/

namespace Calculator

/-- What a line asks for. -/
inductive Command where
  | evaluate (expression : String)
  /-- Store the number that a text denotes, or the last result if there is no text. -/
  | store (value : Option String)
  | retrieve
  | clear
  deriving DecidableEq, Repr

namespace Command

/-- The first word of a text without white space at its ends, and what follows it without the white
space between the two. -/
def splitWord (cs : List Char) : List Char × List Char :=
  (cs.takeWhile fun c => !Text.isBlank c, Text.trim (cs.dropWhile fun c => !Text.isBlank c))

/-- The command on a line. Command words may be written in any case, and only `ms` may be followed
by something. -/
def ofLine (line : String) : Command :=
  let trimmed := Text.trim line.toList
  let (word, rest) := splitWord trimmed
  let word := Text.lowercase word
  if word = ['m', 's'] then store (if rest = [] then none else some (String.ofList rest))
  else if word = ['m', 'r'] ∧ rest = [] then retrieve
  else if word = ['m', 'c'] ∧ rest = [] then clear
  else evaluate (String.ofList trimmed)

example : ofLine " MS\t2 3 " = store (some "2 3") := by decide +kernel

example : ofLine "mr 1" = evaluate "mr 1" := by decide +kernel

end Command

end Calculator
