import Calculator.CommandLine.Transcript

/-!
# The executable

Everything but reading and writing is done by `run`. Standard input is answered line by line, so
that the program can be talked to.
-/

namespace Calculator

/-- The bytes of a file, if it can be read. -/
def readFile? (path : String) : IO (Option (List UInt8)) :=
  try return some (← IO.FS.readBinFile path).toList
  catch _ => return none

/-- Writes what a run leaves behind. -/
def Transcript.print (t : Transcript) : IO Unit := do
  let out ← IO.getStdout
  out.putStr t.output
  out.flush
  (← IO.getStderr).putStr t.errors

/-- The bytes of standard input up to the next line feed, this included, behind those in `before`,
which come last byte first. -/
partial def readLine (before : List UInt8) : IO (List UInt8) := do
  match (← (← IO.getStdin).read 1).toList with
  | [b] => if b = 10 then return (b :: before).reverse else readLine (b :: before)
  | _ => return before.reverse

/-- Executes the lines of standard input up to the first that is not text. `status` is the exit
status if all later lines succeed. -/
partial def converse (json : Bool) (s : Session) (m : Memory) (status : UInt32) : IO UInt32 := do
  match Text.decode? (← readLine []) with
  | none => return status
  | some [] => return status
  | some text =>
    match executable text with
    | [] => converse json s m status
    | line :: _ => match s.execute m line with
      | none => return (Transcript.ofDialogue json ⟨[], false⟩).status.toUInt32
      | some step =>
        let transcript := Transcript.ofDialogue json ⟨[step.reply], true⟩
        transcript.print
        converse json step.session step.memory (max status transcript.status.toUInt32)

/-- Runs the program with the words of its command line and answers with the exit status. -/
def start (words : List String) : IO UInt32 := do
  let environment ← IO.getEnv "EXPRCALC_PRECISION"
  match Settings.ofWords words environment with
  | .ok ⟨json, places, .standardInput⟩ => converse json (Session.new places) Memory.empty 0
  | .ok ⟨_, _, .file path⟩ =>
    let bytes ← readFile? path
    finish (run words ⟨environment, fun _ => bytes, []⟩)
  | _ => finish (run words ⟨environment, fun _ => none, []⟩)
where
  finish (t : Transcript) : IO UInt32 := do
    t.print
    return t.status.toUInt32

end Calculator

/-- Runs the program. -/
def main (words : List String) : IO UInt32 := Calculator.start words
