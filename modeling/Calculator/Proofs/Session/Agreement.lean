import Calculator.Proofs.Screening
import Calculator.Proofs.Session.Unanswered
import Calculator.Proofs.Text.Trim

/-!
# Lines and expressions

A line is either a command of the memory or an expression. No expression that can be screened is a
command of the memory, and a session replies to an expression with what its evaluation comes to,
although white space is taken off the ends of a line before it is evaluated.

* `evaluate_trim`: white space around an expression does not matter
* `Command.exists_letter`: commands of the memory begin with a letter that no expression contains
* `Session.agrees_with_evaluate`: how a session replies to a line
-/

namespace Calculator

/-! ## White space at the ends -/

theorem Source.isForeign_eq_false {c : Char} (h : Text.isBlank c = true) : isForeign c = false := by
  rw [isForeign, h]
  rfl

theorem Source.strip_eq_nil {cs : List Char} (h : ∀ c ∈ cs, Text.isBlank c = true) :
    strip cs = [] := by
  rw [strip, List.filter_eq_nil_iff]
  exact fun c hc => by simp [h c hc]

theorem Source.strip_trim (cs : List Char) : strip (Text.trim cs) = strip cs := by
  obtain ⟨front, back, hcs, hfront, hback⟩ := Text.exists_trim cs
  conv_rhs => rw [hcs]
  rw [strip_append, strip_append, strip_eq_nil hfront, strip_eq_nil hback, List.nil_append,
    List.append_nil]

/-- Trimming keeps the value of an expression. -/
theorem evaluate_trim {expression : String} {x : Float} (h : evaluate expression = .ok x) :
    evaluate (String.ofList (Text.trim expression.toList)) = .ok x := by
  obtain ⟨front, back, hcs, -, -⟩ := Text.exists_trim expression.toList
  obtain ⟨source, -, -, hscreen, -⟩ := exists_stages_of_evaluate h
  obtain ⟨haccepted, -⟩ := Source.screen_eq_ok_iff.mp hscreen
  rw [← h]
  refine evaluate_congr (fun c hc => haccepted c ?_) haccepted ?_
  · rw [String.toList_ofList] at hc
    rw [hcs]
    exact List.mem_append_right _ (List.mem_append_left _ hc)
  · rw [String.toList_ofList, Source.strip_trim]

/-! ## Commands of the memory -/

namespace Command

variable {line : String}

theorem ofLine_eq_evaluate {expression : String} (h : ofLine line = .evaluate expression) :
    expression = String.ofList (Text.trim line.toList) := by
  unfold ofLine at h
  dsimp only at h
  split_ifs at h
  exact (evaluate.inj h).symm

/-- A command of the memory begins with a letter that stands in no expression. -/
theorem exists_letter (h : ∀ expression, ofLine line ≠ .evaluate expression) :
    ∃ front c rest, line.toList = front ++ c :: rest ∧ (∀ b ∈ front, Text.isBlank b = true) ∧
      (c = 'm' ∨ c = 'M') := by
  obtain ⟨front, back, hcs, hfront, -⟩ := Text.exists_trim line.toList
  obtain ⟨d, hword⟩ : ∃ d, Text.lowercase (splitWord (Text.trim line.toList)).1 = ['m', d] := by
    unfold ofLine at h
    dsimp only at h
    split at h
    · next hstore => exact ⟨'s', hstore⟩
    · split at h
      · next hretrieve => exact ⟨'r', hretrieve.1⟩
      · split at h
        · next hclear => exact ⟨'c', hclear.1⟩
        · exact absurd rfl (h _)
  obtain ⟨c, cs, hsplit, hc, -⟩ := List.map_eq_cons_iff.mp hword
  obtain ⟨rest, hrest⟩ : ∃ rest, Text.trim line.toList = c :: rest := by
    have happend := List.takeWhile_append_dropWhile (p := fun c => !Text.isBlank c)
      (l := Text.trim line.toList)
    rw [show (Text.trim line.toList).takeWhile _ = c :: cs from hsplit] at happend
    exact ⟨_, happend.symm⟩
  rw [hrest] at hcs
  exact ⟨front, c, rest ++ back, hcs, hfront, eq_or_eq_toUpper_of_toLower_eq hc⟩

end Command

/-! ## Replies to lines -/

namespace Session

variable {line : String}

theorem evaluate_of_ne_evaluate (h : ∀ expression, Command.ofLine line ≠ .evaluate expression) :
    ∃ front c rest, line.toList = front ++ c :: rest ∧ (∀ b ∈ front, Text.isBlank b = true) ∧
      (c = 'm' ∨ c = 'M') ∧ evaluate line = .error (.foreignCharacter c front.length) := by
  obtain ⟨front, c, rest, hline, hfront, hc⟩ := Command.exists_letter h
  have hforeign : Source.isForeign c = true := by
    rcases hc with rfl | rfl <;> decide
  exact ⟨front, c, rest, hline, hfront, hc, evaluate_of_foreign hline
    (fun b hb => Source.isForeign_eq_false (hfront b hb)) hforeign⟩

theorem execute_of_evaluate_eq_error {expression : String} {fault : Fault} (s : Session)
    (m : Memory) (hcommand : Command.ofLine line = .evaluate expression) (hne : expression ≠ "")
    (hfault : Calculator.evaluate expression = .error fault) :
    s.execute m line = some ⟨.failed fault.message, s, m⟩ := by
  rw [execute, hcommand]
  show (Reply.calculate? s.places expression).map _ = _
  rw [Reply.calculate?, if_neg hne, hfault]
  rfl

theorem execute_of_evaluate_eq_ok {expression scientific : String} {x : Float} (s : Session)
    (m : Memory) (hcommand : Command.ofLine line = .evaluate expression)
    (hvalue : Calculator.evaluate expression = .ok x)
    (hscientific : Scientific.text? s.places x = some scientific) :
    s.execute m line = some ⟨.calculated x scientific, { s with lastResult := some x }, m⟩ := by
  have hne : expression ≠ "" := by
    rintro rfl
    rw [evaluate_empty] at hvalue
    cases hvalue
  rw [execute, hcommand]
  show (Reply.calculate? s.places expression).map _ = _
  rw [Reply.calculate?, if_neg hne, hvalue]
  show (Reply.ofResult? s.places x).map _ = _
  rw [Reply.ofResult?, hscientific]
  rfl

/-- A line that is a command of the memory is no expression: its first character that is not white
space is foreign to expressions. The reply to a line with a value shows that value, which becomes
the last result. What keeps any other line that is not blank from having a value, its trimmed text
being evaluated, is told in the reply, and nothing changes. -/
theorem agrees_with_evaluate (s : Session) (m : Memory) (line : String)
    (hplaces : s.places ≤ Scientific.maxPlaces) :
    ((∀ expression, Command.ofLine line ≠ .evaluate expression) →
      ∃ front c rest, line.toList = front ++ c :: rest ∧ (∀ b ∈ front, Text.isBlank b = true) ∧
        (c = 'm' ∨ c = 'M') ∧
        Calculator.evaluate line = .error (.foreignCharacter c front.length)) ∧
    (∀ x, Calculator.evaluate line = .ok x →
      Command.ofLine line = .evaluate (String.ofList (Text.trim line.toList)) ∧
        ∃ scientific, Scientific.text? s.places x = some scientific ∧
          s.execute m line =
            some ⟨.calculated x scientific, { s with lastResult := some x }, m⟩) ∧
    ∀ fault, Text.trim line.toList ≠ [] →
      (∃ expression, Command.ofLine line = .evaluate expression) →
      Calculator.evaluate (String.ofList (Text.trim line.toList)) = .error fault →
      s.execute m line = some ⟨.failed fault.message, s, m⟩ := by
  refine ⟨evaluate_of_ne_evaluate, fun x hvalue => ?_, fun fault hne hexpression hfault => ?_⟩
  · have hexpression : ∃ expression, Command.ofLine line = .evaluate expression := by
      by_contra hnone
      obtain ⟨front, c, rest, -, -, -, herror⟩ := evaluate_of_ne_evaluate (not_exists.mp hnone)
      rw [hvalue] at herror
      cases herror
    obtain ⟨expression, hcommand⟩ := hexpression
    obtain rfl := Command.ofLine_eq_evaluate hcommand
    obtain ⟨scientific, hscientific⟩ := exists_scientific hplaces x
    exact ⟨hcommand, scientific, hscientific,
      execute_of_evaluate_eq_ok s m hcommand (evaluate_trim hvalue) hscientific⟩
  · obtain ⟨expression, hcommand⟩ := hexpression
    obtain rfl := Command.ofLine_eq_evaluate hcommand
    refine execute_of_evaluate_eq_error s m hcommand (fun hempty => hne ?_) hfault
    exact String.ofList_eq_empty_iff.mp hempty

/-- A command behind white space, an expression with white space in it, and one without a value. -/
theorem agrees_with_evaluate_three :
    Calculator.evaluate " \tMs inf" = .error (.foreignCharacter 'M' 2) ∧
    (new 6).execute Memory.empty "2 +3 " =
      some ⟨.calculated 5.0 "5.000000e0", ⟨6, some 5.0⟩, Memory.empty⟩ ∧
    (new 6).execute Memory.empty " 1/ 0" =
      some ⟨.failed Fault.divisionByZero.message, new 6, Memory.empty⟩ := by
  have hplaces : (new 6).places ≤ Scientific.maxPlaces := by decide
  refine ⟨?_, ?_, ?_⟩
  · have hcommand : Command.ofLine " \tMs inf" = .store (some "inf") := by decide +kernel
    obtain ⟨front, c, rest, hline, hfront, hc, hfault⟩ :=
      (agrees_with_evaluate (new 6) Memory.empty " \tMs inf" hplaces).1 (by simp [hcommand])
    have hchars : " \tMs inf".toList = [' ', '\t', 'M', 's', ' ', 'i', 'n', 'f'] := by decide
    rw [hchars] at hline
    -- Of the characters of the line, only the third stands behind white space and is that letter.
    rcases front with _ | ⟨a, _ | ⟨b, _ | ⟨d, front⟩⟩⟩
    · cases hline
      exact absurd hc (by decide)
    · cases hline
      exact absurd hc (by decide)
    · cases hline
      exact hfault
    · obtain rfl : 'M' = d := (List.cons.inj (List.cons.inj (List.cons.inj hline).2).2).1
      exact absurd (hfront 'M' (by simp)) (by decide)
  · have hvalue : Calculator.evaluate "2 +3 " = .ok 5.0 := by decide +kernel
    have hscientific : Scientific.text? 6 5.0 = some "5.000000e0" := by decide +kernel
    obtain ⟨-, scientific, htext, hstep⟩ :=
      (agrees_with_evaluate (new 6) Memory.empty "2 +3 " hplaces).2.1 5.0 hvalue
    obtain rfl := Option.some.inj (htext.symm.trans hscientific)
    exact hstep
  · exact (agrees_with_evaluate (new 6) Memory.empty " 1/ 0" hplaces).2.2 .divisionByZero
      (by decide +kernel) ⟨"1/ 0", by decide +kernel⟩ (by decide +kernel)

end Session

end Calculator
