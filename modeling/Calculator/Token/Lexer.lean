import Calculator.Fault

/-!
# From text to tokens

A source is cut into lexemes from left to right, each as long as it can be. The letter `e` before a
digit belongs to a number, so `1e5` is one number and `e5` a malformed one, while `1exp` is a number
and a name.

* `Lexeme.first`: the lexeme at the front of a text
* `tokenize`: the tokens of a source, or the first fault in it
-/

namespace Calculator

/-- A piece of a source. -/
inductive Lexeme where
  | gap (word : List Char)
  | number (word : List Char)
  | name (word : List Char)
  | mark (char : Char) (symbol : Symbol)
  | stray (char : Char)
  deriving DecidableEq

namespace Lexeme

/-- The characters of a lexeme. -/
def chars : Lexeme → List Char
  | gap word => word
  | number word => word
  | name word => word
  | mark char _ => [char]
  | stray char => [char]

/-! ## The longest lexeme at the front -/

/-- Whether a character may stand between tokens. -/
def isGap (c : Char) : Bool :=
  c == ' ' || c == '\t' || c == '\r' || c == '\n' || c == '\x0c'

/-- Whether a number starts or goes on at the front of a text: with a digit, with a point, or with
an `e` that stands before a digit. -/
def goesOn : List Char → Bool
  | 'e' :: d :: _ => d.isDigit
  | c :: _ => c.isDigit || c == '.'
  | [] => false

/-- The longest number word at the front of a text, and the text after it. -/
def splitNumber : List Char → List Char × List Char
  | [] => ([], [])
  | c :: cs =>
    if goesOn (c :: cs) then
      let (word, rest) := splitNumber cs
      (c :: word, rest)
    else ([], c :: cs)

/-- The symbol that a character spells on its own. -/
def mark? : Char → Option Symbol
  | '+' => some .plus
  | '-' => some .minus
  | '*' => some .star
  | '/' => some .slash
  | '(' => some .lparen
  | ')' => some .rparen
  | '^' => some .caret
  | ',' => some .comma
  | _ => none

/-- The lexeme at the front of a text with the first character `c`, and the text after it. -/
def first (c : Char) (cs : List Char) : Lexeme × List Char :=
  if isGap c then (gap (c :: cs.takeWhile isGap), cs.dropWhile isGap)
  else if goesOn (c :: cs) then
    let (word, rest) := splitNumber (c :: cs)
    (number word, rest)
  else if c.isAlpha then (name (c :: cs.takeWhile Char.isAlpha), cs.dropWhile Char.isAlpha)
  else match mark? c with
    | some symbol => (mark c symbol, cs)
    | none => (stray c, cs)

theorem splitNumber_append (cs : List Char) : (splitNumber cs).1 ++ (splitNumber cs).2 = cs := by
  induction cs with
  | nil => rfl
  | cons c cs ih =>
    unfold splitNumber
    split
    · simpa using ih
    · rfl

theorem chars_first_append (c : Char) (cs : List Char) :
    (first c cs).1.chars ++ (first c cs).2 = c :: cs := by
  unfold first
  split
  · simp [chars]
  · split
    · exact splitNumber_append (c :: cs)
    · split
      · simp [chars]
      · split <;> rfl

theorem chars_first_ne_nil (c : Char) (cs : List Char) : (first c cs).1.chars ≠ [] := by
  unfold first
  split
  · simp [chars]
  · split
    · next h => simp [chars, splitNumber, h]
    · split
      · simp [chars]
      · split <;> simp [chars]

theorem length_first_le (c : Char) (cs : List Char) : (first c cs).2.length ≤ cs.length := by
  have happend := congrArg List.length (chars_first_append c cs)
  have hpos := List.length_pos_iff.mpr (chars_first_ne_nil c cs)
  simp only [List.length_append, List.length_cons] at happend
  omega

/-! ## What a lexeme means -/

/-- The symbol of the lexeme at a place, none for a gap. -/
def symbol? (pos : Nat) : Lexeme → Except Fault (Option Symbol)
  | gap _ => .ok none
  | number word => match Numeral.ofChars? word with
    | some n => .ok (some (.number n.toFloat))
    | none => .error (.malformed (.malformedNumber (String.ofList word) pos))
  | name word => .ok (some (.name (String.ofList word)))
  | mark _ symbol => .ok (some symbol)
  | stray char => .error (.malformed (.strayCharacter char pos))

end Lexeme

/-- The tokens of a text that starts at the given byte. A lexeme that is no fault has one byte for
each of its characters. -/
def tokensFrom (pos : Nat) : List Char → Except Fault (List Token)
  | [] => .ok []
  | c :: cs =>
    let next := Lexeme.first c cs
    match next.1.symbol? pos with
    | .error fault => .error fault
    | .ok symbol =>
      (tokensFrom (pos + next.1.chars.length) next.2).map (symbol.toList.map (⟨·, pos⟩) ++ ·)
termination_by cs => cs.length
decreasing_by exact Nat.lt_succ_of_le (Lexeme.length_first_le c cs)

/-- The tokens of a source, or the first fault in it. -/
def tokenize (source : String) : Except Fault (List Token) := tokensFrom 0 source.toList

example : (tokenize "1e5 1exp").toOption =
    some [⟨.number 100000.0, 0⟩, ⟨.number 1.0, 4⟩, ⟨.name "exp", 5⟩] := by decide +kernel

end Calculator
