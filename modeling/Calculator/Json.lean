import Calculator.Number

/-!
# JSON bodies

A body is one JSON object on one line, whose values are numbers, texts and null.

* `Json.number`: how numbers are written
* `Json.quote`: how texts are written
* `Json.object`: a body
-/

namespace Calculator.Json

/-- A value in a body. -/
inductive Value where
  | null
  | number (value : Float)
  | text (value : String)
  deriving DecidableEq

/-! ## Numbers -/

/-- Numbers have a point or an exponent: they are written without an exponent from `1e-5` up to, but
not including, `1e16`, whole numbers then end in a point and a zero, an exponent has a sign, and of
two equally near decimals the even one is taken. -/
def number : Layout where
  isPositional := fun place => decide (-5 ≤ place ∧ place < 16)
  pointZero := true
  plus := true
  tie := .toEven

example : String.ofList (number.write 1e15) = "1000000000000000.0" := by decide +kernel

example : String.ofList (number.write 1e16) = "1e+16" := by decide +kernel

example : String.ofList (number.write 1e-5) = "0.00001" := by decide +kernel

example : String.ofList (number.write (-1.5e-7)) = "-1.5e-7" := by decide +kernel

example : String.ofList (number.write 911735058593749.25) = "911735058593749.2" := by
  decide +kernel

/-! ## Texts -/

/-- A hexadecimal digit, in lower case. -/
def hexDigit (n : Nat) : Char := Nat.digitChar (n % 16)

/-- What stands for a character inside a text: an escape for a quotation mark, a backslash and the
control characters below the space, and otherwise the character itself. -/
def escape (c : Char) : List Char :=
  if c = '"' then ['\\', '"']
  else if c = '\\' then ['\\', '\\']
  else if c = '\x08' then ['\\', 'b']
  else if c = '\x0c' then ['\\', 'f']
  else if c = '\n' then ['\\', 'n']
  else if c = '\r' then ['\\', 'r']
  else if c = '\t' then ['\\', 't']
  else if c.toNat < 0x20 then ['\\', 'u', '0', '0', hexDigit (c.toNat / 16), hexDigit c.toNat]
  else [c]

/-- A text between quotation marks. -/
def quote (cs : List Char) : List Char := '"' :: (cs.flatMap escape ++ ['"'])

/-! ## Bodies -/

namespace Value

/-- A value as it is written. Numbers that are not finite have no text in JSON and become null. -/
def chars : Value → List Char
  | null => "null".toList
  | number value => if Binary64.isFinite value then Json.number.write value else "null".toList
  | text value => quote value.toList

end Value

/-- A field as it is written. -/
def field (entry : String × Value) : List Char := quote entry.1.toList ++ ':' :: entry.2.chars

/-- The object with the given fields, in order. -/
def object (fields : List (String × Value)) : List Char :=
  ['\x7b'] ++ [','].intercalate (fields.map field) ++ ['\x7d']

end Calculator.Json
