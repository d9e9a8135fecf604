/-!
# Upper and lower case

Names and command words are compared without regard to case. Only the letters of ASCII have a case
here; all other characters stay as they are.
-/

namespace Calculator.Text

/-- A text with its ASCII letters in lower case. -/
def lowercase (cs : List Char) : List Char := cs.map Char.toLower

end Calculator.Text
