/-!
# Lines

A line ends with a line feed, or with a carriage return and a line feed. The last line may lack an
end, and a carriage return that stands alone belongs to its line.

* `Text.lines`: the lines of a text
* `Text.readable`: the part of a file of bytes that is text
-/

namespace Calculator.Text

/-- The lines of a text, without their ends. -/
def lines : List Char → List (List Char)
  | [] => []
  | '\n' :: cs => [] :: lines cs
  | '\r' :: '\n' :: cs => [] :: lines cs
  | c :: cs => match lines cs with
    | [] => [[c]]
    | line :: rest => (c :: line) :: rest

example : lines "a\r\n\rb\n\nc\r".toList = ["a", "\rb", "", "c\r"].map String.toList := by
  decide

/-! ## Bytes -/

/-- Bytes cut behind each line feed. -/
def byteLines : List UInt8 → List (List UInt8)
  | [] => []
  | b :: bs =>
    if b = 10 then [b] :: byteLines bs
    else match byteLines bs with
      | [] => [[b]]
      | line :: rest => (b :: line) :: rest

/-- The text that bytes encode in UTF-8. -/
def decode? (bytes : List UInt8) : Option (List Char) :=
  (String.fromUTF8? bytes.toByteArray).map String.toList

/-- The texts of pieces, up to the first piece that encodes none. -/
def decodeWhile : List (List UInt8) → List Char
  | [] => []
  | piece :: pieces => match decode? piece with
    | some cs => cs ++ decodeWhile pieces
    | none => []

/-- The text that bytes encode, up to the first line that encodes none. -/
def readable (bytes : List UInt8) : List Char := decodeWhile (byteLines bytes)

end Calculator.Text
