import Calculator.Scientific

/-!
# The command line

The words of a command line are read from left to right, and the first word that settles the matter
ends the reading. Short options may be joined in one word, long options are written out, and behind
the word `--` no word is an option. A word that is no option is the expression, or the name of a
file of expressions if the option for files is given.

* `Settings`: what a command line asks for
* `Settings.ofWords`: how it is read
-/

namespace Calculator

/-- Where the lines come from. -/
inductive Input where
  | expression (line : String)
  | file (path : String)
  | standardInput
  deriving DecidableEq, Repr

/-- What a command line asks for: the form of the replies, the number of places of results in
scientific notation, and the lines. -/
structure Settings where
  json : Bool
  places : Nat
  input : Input
  deriving DecidableEq, Repr

/-- What a command line comes to if it gives no settings. -/
inductive Stop where
  | version
  | help
  | misuse
  deriving DecidableEq, Repr

namespace Settings

/-! ## Words -/

/-- An option. Only the one for the number of places has a value. -/
inductive Switch where
  | file
  | json
  | places
  | verbose
  | version
  | help
  deriving DecidableEq, Repr

/-- The options by their letters and by their names. -/
def switches : List (Char × String × Switch) :=
  [('f', "file", .file), ('j', "json", .json), ('p', "precision", .places),
    ('v', "verbose", .verbose), ('V', "version", .version), ('h', "help", .help)]

/-- The option with a letter. -/
def ofLetter? (c : Char) : Option Switch :=
  (switches.find? fun entry => entry.1 = c).map (·.2.2)

/-- The option with a name. -/
def ofName? (name : List Char) : Option Switch :=
  (switches.find? fun entry => entry.2.1.toList = name).map (·.2.2)

/-- Whether a word is not the value of the option before it. A dash alone is no option. -/
def isOption : List Char → Bool
  | '-' :: _ :: _ => true
  | _ => false

/-- The number of places that a text gives: a number below `2 ^ 64`, perhaps behind a plus sign. -/
def places? (text : List Char) : Option Nat :=
  let (sign, digits) := Sign.split text
  let n := Nat.ofDigitChars 10 digits 0
  if sign ≠ some .minus ∧ digits ≠ [] ∧ digits.all Char.isDigit ∧ n < UInt64.size then some n
  else none

/-! ## Reading -/

/-- What the words read so far ask for. -/
structure Draft where
  file : Bool
  json : Bool
  places : Option Nat
  operand : Option String
  deriving DecidableEq, Repr

namespace Draft

/-- The draft before the first word. -/
def blank : Draft := ⟨false, false, none, none⟩

/-- The draft with an option that has no value. Only the one for more messages may be repeated, and
it changes no reply. -/
def set (d : Draft) : Switch → Except Stop Draft
  | .file => if d.file then .error .misuse else .ok { d with file := true }
  | .json => if d.json then .error .misuse else .ok { d with json := true }
  | .verbose => .ok d
  | .version => .error .version
  | .help => .error .help
  | .places => .error .misuse

/-- The draft with a number of places. -/
def setPlaces (d : Draft) (text : List Char) : Except Stop Draft :=
  match d.places, places? text with
  | none, some n => .ok { d with places := some n }
  | _, _ => .error .misuse

/-- The draft with a word that is no option. -/
def setOperand (d : Draft) (word : List Char) : Except Stop Draft :=
  match d.operand with
  | none => .ok { d with operand := some (String.ofList word) }
  | some _ => .error .misuse

/-- The draft with a word of short options, and whether the last of them lacks its value. What
stands behind the letter of an option with a value is the value, an equals sign before it left
out. -/
def setLetters (d : Draft) : List Char → Except Stop (Draft × Bool)
  | [] => .ok (d, false)
  | c :: cs => match ofLetter? c, cs with
    | none, _ => .error .misuse
    | some .places, [] => .ok (d, true)
    | some .places, '=' :: value => (d.setPlaces value).map (·, false)
    | some .places, value => (d.setPlaces value).map (·, false)
    | some switch, cs => do (← d.set switch).setLetters cs

/-- The draft with a long option, and whether it lacks its value. -/
def setName (d : Draft) (text : List Char) : Except Stop (Draft × Bool) :=
  match ofName? (text.takeWhile (· ≠ '=')), text.dropWhile (· ≠ '=') with
  | none, _ => .error .misuse
  | some .places, [] => .ok (d, true)
  | some .places, _ :: value => (d.setPlaces value).map (·, false)
  | some switch, [] => (d.set switch).map (·, false)
  | some _, _ :: _ => .error .misuse

/-- The draft with words of which none is an option. -/
def setOperands (d : Draft) : List (List Char) → Except Stop Draft
  | [] => .ok d
  | word :: words => do (← d.setOperand word).setOperands words

/-- The draft with more words. If `awaiting` holds, the option before them lacks its value. -/
def setWords (d : Draft) (awaiting : Bool) : List (List Char) → Except Stop Draft
  | [] => if awaiting then .error .misuse else .ok d
  | word :: words =>
    if awaiting then
      if isOption word then .error .misuse
      else do (← d.setPlaces word).setWords false words
    else match word with
      | ['-', '-'] => d.setOperands words
      | '-' :: '-' :: text => do
        let (d, awaiting) ← d.setName text
        d.setWords awaiting words
      | '-' :: c :: cs => do
        let (d, awaiting) ← d.setLetters (c :: cs)
        d.setWords awaiting words
      | _ => do (← d.setOperand word).setWords false words

/-- The number of places, which the environment gives if no word does. -/
def placesOr (d : Draft) (environment : Option String) : Except Stop Nat :=
  match d.places, environment with
  | some n, _ => .ok n
  | none, none => .ok Scientific.defaultPlaces
  | none, some text => match places? text.toList with
    | some n => .ok n
    | none => .error .misuse

/-- Where the lines come from. The option for files takes the place of the expression for a path, so
there has to be one. -/
def input (d : Draft) : Except Stop Input :=
  match d.file, d.operand with
  | false, none => .ok .standardInput
  | false, some line => .ok (.expression line)
  | true, none => .error .misuse
  | true, some path => .ok (.file path)

end Draft

/-- The settings that the words of a command line give. The number of places may also come from the
environment. -/
def ofWords (words : List String) (environment : Option String) : Except Stop Settings := do
  let d ← Draft.blank.setWords false (words.map String.toList)
  let places ← d.placesOr environment
  let input ← d.input
  return ⟨d.json, places, input⟩

example : (ofWords ["-jp=3", "1"] none).toOption = some ⟨true, 3, .expression "1"⟩ := by
  decide +kernel

example : (ofWords ["--", "-f"] (some "2")).toOption = some ⟨false, 2, .expression "-f"⟩ := by
  decide +kernel

example : (ofWords ["-jj", "1"] none).toOption = none := by decide +kernel

end Settings

end Calculator
