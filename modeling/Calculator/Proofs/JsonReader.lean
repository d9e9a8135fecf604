import Calculator.Decimal.Numeral

/-!
# Reading JSON

A reader of JSON texts: null, truth values, numbers, texts, arrays and objects, with white space
around every mark. It reads all of JSON and not only what replies are made of, so that it can stand
for whoever receives a reply. Numbers become the nearest doubles.

* `Json.Data`: what a JSON text stands for
* `Json.readText?`: a text with its escapes
* `Json.readNumber?`: a number
* `Json.decode?`: what a whole text stands for
-/

namespace Calculator.Json

/-- What a JSON text stands for. The members of an object are kept in their order. -/
inductive Data where
  | null
  | bool (value : Bool)
  | number (value : Float)
  | text (value : String)
  | array (items : List Data)
  | object (members : List (String × Data))

/-- A function that reads something from the front of a text and returns it with the text after
it. -/
abbrev Reader (α : Type) := List Char → Option (α × List Char)

/-- Whether a character may stand around marks. -/
def isSpace (c : Char) : Bool := [' ', '\t', '\n', '\r'].contains c

/-- A text without the white space in front. -/
def skip (cs : List Char) : List Char := cs.dropWhile isSpace

/-! ## Texts -/

/-- The value of a hexadecimal digit. -/
def hexValue? (c : Char) : Option Nat :=
  if c.isDigit then some (c.toNat - '0'.toNat)
  else if 'a' ≤ c ∧ c ≤ 'f' then some (c.toNat - 'a'.toNat + 10)
  else if 'A' ≤ c ∧ c ≤ 'F' then some (c.toNat - 'A'.toNat + 10)
  else none

/-- Four hexadecimal digits. -/
def readUnit? : Reader Nat
  | a :: b :: c :: d :: rest => do
    let a ← hexValue? a
    let b ← hexValue? b
    let c ← hexValue? c
    let d ← hexValue? d
    return (((a * 16 + b) * 16 + c) * 16 + d, rest)
  | _ => none

/-- The character behind `\u`. One above `U+FFFF` is written as a pair of surrogates, which stand
for no character on their own. -/
def readCode? : Reader Char := fun cs => do
  let (unit, rest) ← readUnit? cs
  if 0xD800 ≤ unit ∧ unit < 0xDC00 then
    match rest with
    | '\\' :: 'u' :: rest => do
      let (low, rest) ← readUnit? rest
      if 0xDC00 ≤ low ∧ low < 0xE000 then
        return (Char.ofNat (0x10000 + (unit - 0xD800) * 0x400 + (low - 0xDC00)), rest)
      else none
    | _ => none
  else if 0xDC00 ≤ unit ∧ unit < 0xE000 then none
  else return (Char.ofNat unit, rest)

/-- The characters that have an escape of one letter, with that letter. -/
def shortEscapes : List (Char × Char) :=
  [('"', '"'), ('\\', '\\'), ('/', '/'), ('b', '\x08'), ('f', '\x0c'), ('n', '\n'), ('r', '\r'),
    ('t', '\t')]

/-- The character behind a backslash. -/
def readEscape? : Reader Char
  | 'u' :: rest => readCode? rest
  | c :: rest => (shortEscapes.lookup c).map fun d => (d, rest)
  | [] => none

/-- The characters up to the closing quotation mark, of which there are fewer than `room`. Control
characters have to be escaped. -/
def readText? : (room : Nat) → Reader (List Char)
  | 0, _ => none
  | _ + 1, [] => none
  | room + 1, c :: rest =>
    if c = '"' then some ([], rest)
    else if c = '\\' then do
      let (d, rest) ← readEscape? rest
      let (ds, rest) ← readText? room rest
      return (d :: ds, rest)
    else if c.toNat < 0x20 then none
    else do
      let (ds, rest) ← readText? room rest
      return (c :: ds, rest)

/-! ## Numbers -/

/-- The characters of numbers. -/
def isNumberChar (c : Char) : Bool := c.isDigit || ['+', '-', '.', 'e', 'E'].contains c

/-- Whether a numeral has the form that JSON wants: no superfluous zero in front, and digits on
both sides of a point. -/
def isStrict (n : Numeral) : Bool :=
  (n.whole = ['0'] || n.whole.head?.any (· != '0')) && n.fraction != some []

/-- The minus sign at the front of a text, if there is one, and the text after it. -/
def splitMinus : List Char → Option Sign × List Char
  | '-' :: cs => (some .minus, cs)
  | cs => (none, cs)

/-- A number, taken as far as its characters go. -/
def readNumber? : Reader Float := fun cs => do
  let (sign, digits) := splitMinus cs
  let n ← (Numeral.ofChars? (digits.takeWhile isNumberChar)).filter isStrict
  return (Sign.apply sign n.toFloat, digits.dropWhile isNumberChar)

/-! ## Values -/

/-- A word, if it stands in front. -/
def readWord? (word : List Char) (data : Data) : Reader Data := fun cs =>
  if word.isPrefixOf cs then some (data, cs.drop word.length) else none

section Series

variable {α : Type} (readItem? : Reader α) (close : Char)

/-- One to `room` items with commas between them, and the mark that closes them. -/
def readItems? : (room : Nat) → Reader (List α)
  | 0, _ => none
  | room + 1, cs => do
    let (item, rest) ← readItem? cs
    match skip rest with
    | [] => none
    | c :: rest =>
      if c = close then return ([item], rest)
      else if c = ',' then do
        let (items, rest) ← readItems? room rest
        return (item :: items, rest)
      else none

/-- Any number of items with commas between them, and the mark that closes them. -/
def readSeries? : Reader (List α) := fun cs =>
  match skip cs with
  | [] => none
  | c :: rest => if c = close then some ([], rest) else readItems? readItem? close cs.length cs

end Series

/-- A name, a colon and a value. -/
def readMember? (readValue? : Reader Data) : Reader (String × Data) := fun cs =>
  match skip cs with
  | '"' :: rest => do
    let (name, rest) ← readText? rest.length rest
    match skip rest with
    | ':' :: rest => do
      let (value, rest) ← readValue? rest
      return ((String.ofList name, value), rest)
    | _ => none
  | _ => none

/-- A value of any kind, nested less than `room` deep. -/
def readValue? : (room : Nat) → Reader Data
  | 0, _ => none
  | room + 1, cs => match skip cs with
    | '"' :: rest => (readText? rest.length rest).map fun (text, rest) =>
      (.text (String.ofList text), rest)
    | '\x7b' :: rest => (readSeries? (readMember? (readValue? room)) '\x7d' rest).map
      fun (members, rest) => (.object members, rest)
    | '[' :: rest => (readSeries? (readValue? room) ']' rest).map fun (items, rest) =>
      (.array items, rest)
    | 'n' :: rest => readWord? ['u', 'l', 'l'] .null rest
    | 't' :: rest => readWord? ['r', 'u', 'e'] (.bool true) rest
    | 'f' :: rest => readWord? ['a', 'l', 's', 'e'] (.bool false) rest
    | cs => (readNumber? cs).map fun (x, rest) => (.number x, rest)

/-- What a whole text stands for, if it is JSON. -/
def decode? (text : String) : Option Data := do
  let (data, rest) ← readValue? (text.toList.length + 1) text.toList
  if skip rest = [] then return data else none

example : decode? " [ 1 , -0.5e+1, \x7b\"a\\u00e9\\ud83d\\ude00\" : [ ] , \"\":true\x7d]\r\n" =
    some (.array [.number 1.0, .number (-5.0),
      .object [("aé😀", .array []), ("", .bool true)]]) := by
  rfl

example : ["01", "1.", "+1", "[1,]", "\"\t\"", "\"\\ud83d\"", "null null"].all
    (fun text => (decode? text).isNone) = true := by
  rfl

end Calculator.Json
