import Calculator.Proofs.CommandLine
import Calculator.Proofs.JsonLine
import Calculator.Proofs.Session.Unanswered
import Calculator.Proofs.Text.Encoding

/-!
# Runs over the lines of a text

A text is executed in the same way whether it is a file or standard input: the lines on which
something stands are answered one after the other in a session of their own.

* `Session.Answers`: the replies to several lines
* `Transcript.lines_unlines_json`: bodies are written on a line each
* `run_file_eq_run_input`: runs over a file and over standard input
-/

namespace Calculator

namespace Session

variable {s : Session} {m : Memory} {lines : List String} {replies : List Reply}

/-- The replies to lines that are executed one after the other. -/
inductive Answers : Session → Memory → List String → List Reply → Prop
  | nil {s : Session} {m : Memory} : Answers s m [] []
  | cons {s : Session} {m : Memory} {line : String} {lines : List String} {step : Step}
    {replies : List Reply} (h : s.execute m line = some step)
    (hlines : Answers step.session step.memory lines replies) :
    Answers s m (line :: lines) (step.reply :: replies)

theorem Answers.run_eq (h : s.Answers m lines replies) : s.run m lines = ⟨replies, true⟩ := by
  induction h with
  | nil => rfl
  | cons h _ ih => rw [run_cons h, ih]

theorem Answers.length_eq (h : s.Answers m lines replies) : replies.length = lines.length := by
  induction h with
  | nil => rfl
  | cons _ _ ih => rw [List.length_cons, List.length_cons, ih]

/-- No line breaks a session off that has no more places than can be written. -/
theorem exists_answers (hplaces : s.places ≤ Scientific.maxPlaces) (m : Memory)
    (lines : List String) : ∃ replies, s.Answers m lines replies := by
  induction lines generalizing s m with
  | nil => exact ⟨[], .nil⟩
  | cons line lines ih =>
    obtain ⟨step, hstep⟩ := exists_execute hplaces m line
    rw [← (executes_of_execute hstep).places_eq] at hplaces
    obtain ⟨replies, hreplies⟩ := ih hplaces step.memory
    exact ⟨step.reply :: replies, .cons hstep hreplies⟩

end Session

/-! ## What is written -/

namespace Transcript

variable {json : Bool} {replies : List Reply}

/-- Each body is a line of its own. -/
theorem lines_unlines_json (replies : List Reply) :
    Text.lines (unlines (replies.map Reply.json)).toList = replies.map fun r => r.json.toList := by
  have hjoin : (unlines (replies.map Reply.json)).toList =
      (replies.map fun r => r.json.toList).flatMap (· ++ ['\n']) := by
    rw [unlines, String.toList_join, List.map_map, List.flatMap_map, List.flatMap_map]
    exact congrArg (List.flatMap · replies) (funext fun r => String.toList_append)
  rw [hjoin]
  refine Text.lines_flatMap fun line hline => ?_
  obtain ⟨r, -, rfl⟩ := List.mem_map.mp hline
  exact r.json_one_line

theorem status_ofDialogue_eq_zero_iff :
    (ofDialogue json ⟨replies, true⟩).status = 0 ↔ ∀ r ∈ replies, r.isError = false := by
  show (if replies.any Reply.isError then 1 else 0) = 0 ↔ _
  rw [ite_eq_right_iff]
  simp

end Transcript

section Runs

variable {text : List Char} {json : Bool} {places : Nat} {words : List String}
  {around : Surroundings}

theorem run_of_file {path : String}
    (h : Settings.ofWords words around.places = .ok ⟨json, places, .file path⟩)
    (hbytes : around.file path = some (Text.encode text)) :
    run words around =
      .ofDialogue json ((Session.new places).run Memory.empty (executable text)) := by
  rw [run, h]
  dsimp only
  rw [hbytes, Option.bind_some, Text.decode?_encode]
  rfl

theorem run_of_standardInput
    (h : Settings.ofWords words around.places = .ok ⟨json, places, .standardInput⟩)
    (hbytes : around.input = Text.encode text) :
    run words around =
      .ofDialogue json ((Session.new places).run Memory.empty (executable text)) := by
  rw [run, h]
  dsimp only
  rw [hbytes, Text.readable_encode]
  rfl

end Runs

/-- The lines on which something stands. -/
def Text.written (lines : List (List Char)) : List String :=
  (lines.filter fun line => trim line ≠ []).map String.ofList

/-- A file and standard input that hold the same text are executed in the same way, although
standard input may be read line by line: the lines on which something stands get a reply each, in a
session of their own. -/
theorem run_file_eq_run_input (text : List Char) (json : Bool) {places : Nat}
    (hplaces : places ≤ Scientific.maxPlaces) {words words' : List String}
    {around around' : Surroundings} {path : String}
    (hfile : Settings.ofWords words around.places = .ok ⟨json, places, .file path⟩)
    (hbytes : around.file path = some (Text.encode text))
    (hinput : Settings.ofWords words' around'.places = .ok ⟨json, places, .standardInput⟩)
    (hbytes' : around'.input = Text.encode text) :
    run words around = run words' around' ∧
      ∃ lines replies, Text.Lines text lines ∧
        lines = (Text.decodeEach (Text.byteLines around'.input)).map Text.chomp ∧
        (Session.new places).Answers Memory.empty (Text.written lines) replies ∧
        replies.length = (Text.written lines).length ∧
        (json = true →
          (run words around).output = Transcript.unlines (replies.map Reply.json) ∧
          Text.lines (run words around).output.toList = replies.map (fun r => r.json.toList) ∧
          (run words around).errors = "") ∧
        (json = false →
          (run words around).output =
            Transcript.unlines ((replies.filter fun r => !r.isError).map Reply.text) ∧
          (run words around).errors =
            Transcript.unlines ((replies.filter Reply.isError).map Reply.text)) ∧
        ((run words around).status = 0 ↔ ∀ r ∈ replies, r.isError = false) := by
  obtain ⟨replies, hreplies⟩ :=
    (Session.new places).exists_answers hplaces Memory.empty (executable text)
  have hrun : run words around = .ofDialogue json ⟨replies, true⟩ := by
    rw [run_of_file hfile hbytes, hreplies.run_eq]
  have hrun' : run words' around' = .ofDialogue json ⟨replies, true⟩ := by
    rw [run_of_standardInput hinput hbytes', hreplies.run_eq]
  have hread : Text.lines text =
      (Text.decodeEach (Text.byteLines around'.input)).map Text.chomp := by
    rw [← Text.lines_readable, hbytes', Text.readable_encode]
  refine ⟨hrun.trans hrun'.symm, Text.lines text, replies, Text.lines_eq_iff.mp rfl, hread,
    hreplies, hreplies.length_eq, ?_, ?_, ?_⟩
  · rintro rfl
    rw [hrun]
    exact ⟨rfl, Transcript.lines_unlines_json replies, rfl⟩
  · rintro rfl
    rw [hrun]
    exact ⟨rfl, rfl⟩
  · rw [hrun]
    exact Transcript.status_ofDialogue_eq_zero_iff

/-- Of four lines, one is blank and one fails, and the last one lacks an end. -/
theorem run_file_eq_run_input_four :
    run (Settings.wordsFor false 6 ++ ["-f", "--", "lines"])
        ⟨none, fun _ => some (Text.encode "ms 5\r\n \n2/0\nmr".toList), []⟩ =
      run (Settings.wordsFor false 6)
        ⟨none, fun _ => none, Text.encode "ms 5\r\n \n2/0\nmr".toList⟩ ∧
    (run (Settings.wordsFor false 6 ++ ["-f", "--", "lines"])
        ⟨none, fun _ => some (Text.encode "ms 5\r\n \n2/0\nmr".toList), []⟩).output =
      "Value stored in memory\n5\n" ∧
    (run (Settings.wordsFor false 6 ++ ["-f", "--", "lines"])
        ⟨none, fun _ => some (Text.encode "ms 5\r\n \n2/0\nmr".toList), []⟩).errors =
      "Error: Division by zero.\n" := by
  have hplaces : 6 ≤ Scientific.maxPlaces := by decide
  have hlt : 6 < UInt64.size := by decide
  obtain ⟨hsame, lines, replies, hlines, -, hreplies, -, -, hplain, -⟩ :=
    @run_file_eq_run_input "ms 5\r\n \n2/0\nmr".toList false 6 hplaces _ _
      ⟨none, fun _ => some (Text.encode "ms 5\r\n \n2/0\nmr".toList), []⟩
      ⟨none, fun _ => none, Text.encode "ms 5\r\n \n2/0\nmr".toList⟩ "lines"
      (Settings.ofWords_file false hlt "lines" none) rfl
      (Settings.ofWords_standardInput false hlt none) rfl
  have hrun : (Session.new 6).run Memory.empty
      (Text.written (Text.lines "ms 5\r\n \n2/0\nmr".toList)) =
        ⟨[.acknowledged "Value stored in memory", .failed Fault.divisionByZero.message,
          .retrieved (some 5.0)], true⟩ := by
    decide +kernel
  rw [hlines.lines_eq, hreplies.run_eq] at hrun
  obtain rfl := congrArg Dialogue.replies hrun
  refine ⟨hsame, (hplain rfl).1.trans ?_, (hplain rfl).2.trans ?_⟩
  · decide +kernel
  · decide +kernel

end Calculator
