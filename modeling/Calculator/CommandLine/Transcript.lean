import Calculator.CommandLine.Settings
import Calculator.Session
import Calculator.Text.Lines

/-!
# Runs of the program

What the program writes and how it ends is a function of its command line and of what it finds
around itself.

* `Transcript`: what a run leaves behind
* `Transcript.ofDialogue`: how replies are written
* `run`: the program
-/

namespace Calculator

/-- What a run writes to standard output and to standard error, and its exit status. -/
structure Transcript where
  output : String
  errors : String
  status : Nat
  deriving DecidableEq, Repr

/-- What a run finds around itself: the number of places in the environment, the bytes of the files
and of standard input. -/
structure Surroundings where
  places : Option String
  file : String → Option (List UInt8)
  input : List UInt8

namespace Transcript

/-- Texts as lines. -/
def unlines (texts : List String) : String := String.join (texts.map (· ++ "\n"))

/-- JSON bodies all go to standard output, plain texts that report a failure to standard error. The
status is 0 if every line has a reply that reports no failure, and 101 if the replies break off. -/
def ofDialogue (json : Bool) (d : Dialogue) : Transcript where
  output := unlines <|
    if json then d.replies.map Reply.json
    else (d.replies.filter fun r => !r.isError).map Reply.text
  errors := unlines <| if json then [] else (d.replies.filter Reply.isError).map Reply.text
  status := if !d.complete then 101 else if d.replies.any Reply.isError then 1 else 0

/-- How the program is called. -/
def usage : String :=
  "Usage: exprcalc [-f] [-j] [-p N] [-v] [-V] [-h] [EXPRESSION]\n"

/-- The run of a command line without settings. -/
def ofStop : Stop → Transcript
  | .version => ⟨"exprcalc 0.1.0\n", "", 0⟩
  | .help => ⟨usage, "", 0⟩
  | .misuse => ⟨"", usage, 2⟩

/-- The run that finds no text under a path. -/
def unreadable (path : String) : Transcript where
  output := ""
  errors := s!"Failed to read the input file '{path}'. Perhaps this file does not exist?\n"
  status := 1

end Transcript

/-- The lines of a text that are executed: those on which something stands. -/
def executable (text : List Char) : List String :=
  ((Text.lines text).filter fun line => Text.trim line ≠ []).map String.ofList

/-- The run that executes lines in a session of its own. -/
def Settings.execute (s : Settings) (lines : List String) : Transcript :=
  .ofDialogue s.json ((Session.new s.places).run Memory.empty lines)

/-- The program. A file has to be text as a whole, while standard input is read as far as it is
text. -/
def run (words : List String) (around : Surroundings) : Transcript :=
  match Settings.ofWords words around.places with
  | .error stop => .ofStop stop
  | .ok settings => match settings.input with
    | .expression line => settings.execute [line]
    | .standardInput => settings.execute (executable (Text.readable around.input))
    | .file path => match (around.file path).bind Text.decode? with
      | some text => settings.execute (executable text)
      | none => .unreadable path

end Calculator
