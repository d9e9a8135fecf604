import Calculator.Proofs.Balance
import Calculator.Proofs.Compose

/-!
# What screening decides

A foreign character is found before anything else is looked at. An expression without one is
evaluated without its white space, so how it is spaced does not show in any way, and none of the
later stages calls a character foreign.

* `evaluate_of_foreign`: the first foreign character
* `evaluate_congr`: expressions that differ in white space
* `Fault.IsOfForm`, `Fault.isOfForm_of_parse`: the faults of the stages behind the screening
* `evaluate_screened`: foreign characters come first, and white space never matters
-/

namespace Calculator

/-! ## Foreign characters -/

theorem Source.exists_first_foreign {cs : List Char} (h : ∃ c ∈ cs, isForeign c = true) :
    ∃ front c rest, cs = front ++ c :: rest ∧ (∀ b ∈ front, isForeign b = false) ∧
      isForeign c = true := by
  obtain ⟨c, hc⟩ := Option.isSome_iff_exists.mp (List.find?_isSome.mpr h)
  obtain ⟨hforeign, front, rest, hcs, hfront⟩ := List.find?_eq_some_iff_append.mp hc
  exact ⟨front, c, rest, hcs, fun b hb => by simpa using hfront b hb, hforeign⟩

theorem evaluate_of_foreign {expression : String} {front rest : List Char} {c : Char}
    (h : expression.toList = front ++ c :: rest)
    (hfront : ∀ b ∈ front, Source.isForeign b = false) (hc : Source.isForeign c = true) :
    evaluate expression = .error (.foreignCharacter c front.length) := by
  rw [evaluate, Source.screen_of_foreign h hfront hc]
  rfl

/-! ## White space -/

theorem Source.strip_strip (cs : List Char) : strip (strip cs) = strip cs := by
  simp [strip]

theorem Source.isForeign_of_mem_strip {cs : List Char} (h : ∀ c ∈ cs, isForeign c = false) :
    ∀ c ∈ strip cs, isForeign c = false :=
  fun c hc => h c (List.mem_of_mem_filter hc)

theorem evaluate_congr {expression expression' : String}
    (h : ∀ c ∈ expression.toList, Source.isForeign c = false)
    (h' : ∀ c ∈ expression'.toList, Source.isForeign c = false)
    (hstrip : Source.strip expression.toList = Source.strip expression'.toList) :
    evaluate expression = evaluate expression' := by
  rw [evaluate, evaluate, Source.screen_eq_ok_iff.mpr ⟨h, rfl⟩,
    Source.screen_eq_ok_iff.mpr ⟨h', rfl⟩, hstrip]

/-! ## The stages behind the screening -/

/-- The faults that come from the form of an expression. -/
inductive Fault.IsOfForm : Fault → Prop
  | unclosedGroup : IsOfForm .unclosedGroup
  | unopenedGroup : IsOfForm .unopenedGroup
  | missingArgument (name : String) : IsOfForm (.missingArgument name)
  | malformed (flaw : Flaw) : IsOfForm (.malformed flaw)

theorem Lexeme.isOfForm_of_symbol? {pos : Nat} {lexeme : Lexeme} {fault : Fault}
    (h : lexeme.symbol? pos = .error fault) : fault.IsOfForm := by
  cases lexeme with
  | number word =>
    rw [symbol?] at h
    split at h
    · cases h
    · cases h
      exact .malformed _
  | stray char =>
    cases h
    exact .malformed _
  | _ => cases h

theorem isOfForm_of_tokensFrom {pos : Nat} {cs : List Char} {fault : Fault}
    (h : tokensFrom pos cs = .error fault) : fault.IsOfForm := by
  fun_induction tokensFrom pos cs with
  | case1 pos => cases h
  | case2 pos c cs next fault' hfault =>
    cases h
    exact Lexeme.isOfForm_of_symbol? hfault
  | case3 pos c cs next symbol hsymbol ih => exact ih (error_of_map_eq_error h)

theorem isOfForm_of_imbalance? {tokens : List Token} {depth : Nat} {fault : Fault}
    (h : imbalance? depth tokens = some fault) : fault.IsOfForm := by
  cases imbalance?_eq_iff.mp h with
  | unopened => exact .unopenedGroup
  | unclosed => exact .unclosedGroup

/-- Parsing finds faults of form, but for a call behind a complete expression, whose value may be
the fault. -/
theorem isOfForm_of_parse {tokens : List Token} {fault : Fault}
    (h : parse tokens = .error fault) : fault.IsOfForm ∨ fault.IsOfValue := by
  cases hbalance : imbalance? 0 tokens with
  | some fault' =>
    rw [parse_of_imbalance hbalance] at h
    cases h
    exact .inl (isOfForm_of_imbalance? hbalance)
  | none =>
    cases (balanced_iff.mpr hbalance).explained h with
    | malformed flaw => exact .inl (.malformed flaw)
    | missingArgument name => exact .inl (.missingArgument name)
    | value name pos later call begins within fails =>
      exact .inr (call.tree.isOfValue_of_eval fails)
    | unopened => exact .inl .unopenedGroup
    | unclosed => exact .inl .unclosedGroup

theorem fault_of_accepted {expression : String} {fault : Fault}
    (haccepted : ∀ c ∈ expression.toList, Source.isForeign c = false)
    (h : evaluate expression = .error fault) : fault.IsOfForm ∨ fault.IsOfValue := by
  rw [evaluate, Source.screen_eq_ok_iff.mpr ⟨haccepted, rfl⟩] at h
  rcases error_of_bind_eq_error h with hscreen | ⟨source, -, h⟩
  · cases hscreen
  rcases error_of_bind_eq_error h with htokens | ⟨tokens, -, h⟩
  · exact .inl (isOfForm_of_tokensFrom htokens)
  rcases error_of_bind_eq_error h with hparse | ⟨e, -, heval⟩
  · exact isOfForm_of_parse hparse
  · exact .inr (e.isOfValue_of_eval heval)

/-- The first foreign character of an expression is reported, at its index among the characters,
whatever else is wrong with it. Without one, the outcome is that of the expression with its white
space removed and of every other that differs from it in white space only, in all that is told about
a fault, and no character is called foreign. -/
theorem evaluate_screened (expression : String) :
    ((∃ c ∈ expression.toList, Source.isForeign c = true) →
      ∃ front c rest, expression.toList = front ++ c :: rest ∧
        (∀ b ∈ front, Source.isForeign b = false) ∧ Source.isForeign c = true ∧
        evaluate expression = .error (.foreignCharacter c front.length)) ∧
    ((∀ c ∈ expression.toList, Source.isForeign c = false) →
      evaluate expression = evaluate (String.ofList (Source.strip expression.toList)) ∧
      (∀ c index, evaluate expression ≠ .error (.foreignCharacter c index)) ∧
      ∀ other : String, (∀ c ∈ other.toList, Source.isForeign c = false) →
        Source.strip other.toList = Source.strip expression.toList →
        evaluate other = evaluate expression) := by
  refine ⟨fun hforeign => ?_, fun haccepted => ⟨?_, fun c index hfault => ?_, ?_⟩⟩
  · obtain ⟨front, c, rest, hsplit, hfront, hc⟩ := Source.exists_first_foreign hforeign
    exact ⟨front, c, rest, hsplit, hfront, hc, evaluate_of_foreign hsplit hfront hc⟩
  · refine evaluate_congr haccepted ?_ ?_
    · rw [String.toList_ofList]
      exact Source.isForeign_of_mem_strip haccepted
    · rw [String.toList_ofList, Source.strip_strip]
  · rcases fault_of_accepted haccepted hfault with hform | hvalue
    · cases hform
    · cases hvalue
  · exact fun other hother hstrip => evaluate_congr hother haccepted hstrip

/-- A foreign character between two parentheses that do not match, and white space inside a name
and a number. -/
theorem evaluate_screened_two :
    evaluate ")é(" = .error (.foreignCharacter 'é' 1) ∧
    evaluate "lo g 1\t0(1 0 0 )" = evaluate "log10(100)" := by
  constructor
  · obtain ⟨front, c, rest, hsplit, hfront, hc, hfault⟩ :=
      (evaluate_screened ")é(").1 ⟨'é', by decide, by decide⟩
    have hchars : ")é(".toList = [')', 'é', '('] := by decide
    rw [hchars] at hsplit
    rcases front with _ | ⟨a, _ | ⟨b, front⟩⟩
    · cases hsplit
      exact absurd hc (by decide)
    · cases hsplit
      exact hfault
    · obtain rfl : 'é' = b := (List.cons.inj (List.cons.inj hsplit).2).1
      exact absurd (hfront 'é' (by simp)) (by decide)
  · have hscreen : Source.screen "lo g 1\t0(1 0 0 )" = .ok "log10(100)" := by decide +kernel
    have hscreen' : Source.screen "log10(100)" = .ok "log10(100)" := by decide +kernel
    exact ((evaluate_screened "log10(100)").2 (Source.screen_eq_ok_iff.mp hscreen').1).2.2 _
      (Source.screen_eq_ok_iff.mp hscreen).1 (by decide +kernel)

end Calculator
