import Calculator.Number
import Calculator.Operator

/-!
# Tokens

A token is a symbol of the expression language at the place where it stands in the source, counted
in bytes. Carets and commas are symbols, though no expression contains them.
-/

namespace Calculator

/-- A symbol of the expression language. A name is kept as it is written. -/
inductive Symbol where
  | number (value : Float)
  | name (word : String)
  | plus
  | minus
  | star
  | slash
  | lparen
  | rparen
  | caret
  | comma
  deriving DecidableEq

namespace Symbol

/-- How a symbol is shown. -/
def text : Symbol → String
  | number value => Number.text value
  | name word => word
  | plus => "+"
  | minus => "-"
  | star => "*"
  | slash => "/"
  | lparen => "("
  | rparen => ")"
  | caret => "^"
  | comma => ","

/-- The operator that a symbol stands for between two operands. -/
def operator? : Symbol → Option Operator
  | plus => some .add
  | minus => some .sub
  | star => some .mul
  | slash => some .div
  | _ => none

end Symbol

/-- A symbol and the byte at which it starts. -/
structure Token where
  symbol : Symbol
  pos : Nat
  deriving DecidableEq

end Calculator
