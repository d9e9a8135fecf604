import Calculator.Elementary
import Calculator.Token

/-!
# Faults

Everything that can be wrong with an expression, with the text of a number, or with what an
expression asks for. A fault is kept as its cause; `Fault.message` is the one place that puts
causes into words.
-/

namespace Calculator

/-- What can be wrong with the form of an expression. -/
inductive Flaw where
  /-- A word that starts like a number and is none. -/
  | malformedNumber (word : String) (pos : Nat)
  /-- A character that starts no token. -/
  | strayCharacter (char : Char) (pos : Nat)
  | empty
  | endsEarly
  | tooDeep (limit : Nat)
  | emptyGroup (pos : Nat)
  /-- An operator without a meaning. -/
  | unsupported (symbol : Symbol) (pos : Nat)
  /-- A token where the grammar has no place for it. -/
  | misplaced (symbol : Symbol) (pos : Nat)
  deriving DecidableEq

/-- The cause of a failure. -/
inductive Fault where
  /-- A character that no expression contains, and its index among the characters. -/
  | foreignCharacter (char : Char) (index : Nat)
  | unclosedGroup
  | unopenedGroup
  /-- A name that neither a number nor a group follows. -/
  | missingArgument (name : String)
  | unknownFunction (name : String)
  | divisionByZero
  | malformed (flaw : Flaw)
  | outsideDomain (function : Elementary) (value : Float)
  | notScientific (text : String)
  | notNumeric (text : String)
  deriving DecidableEq

namespace Flaw

/-- A flaw in words. -/
def details : Flaw → String
  | malformedNumber word pos => s!"malformed number '{word}' at position {pos}"
  | strayCharacter char pos => s!"unexpected '{char}' at position {pos}"
  | empty => "empty expression"
  | endsEarly => "unexpected end of expression"
  | tooDeep limit => s!"parentheses nested deeper than {limit} levels"
  | emptyGroup pos => s!"empty parentheses at position {pos}"
  | unsupported symbol pos => s!"unsupported operator '{symbol.text}' at position {pos}"
  | misplaced symbol pos => s!"unexpected '{symbol.text}' at position {pos}"

end Flaw

namespace Fault

/-- A fault in words. -/
def message : Fault → String
  | foreignCharacter char index => s!"Invalid character '{char}' at position {index}."
  | unclosedGroup => "Mismatched parentheses: unmatched '('."
  | unopenedGroup => "Mismatched parentheses: unmatched ')'."
  | missingArgument name => s!"Invalid argument for function {name}."
  | unknownFunction name => s!"Unknown function: {name}."
  | divisionByZero => "Division by zero."
  | malformed flaw => s!"Invalid expression: {flaw.details}."
  | outsideDomain function value =>
    s!"Invalid input for {function.name}: {Number.text value} is outside its domain."
  | notScientific text => s!"Invalid scientific notation format: '{text}'."
  | notNumeric text => s!"Invalid numeric value: '{text}'."

end Fault

end Calculator
