import Calculator.Proofs.Binary64.Sign
import Calculator.Proofs.Flat
import Calculator.Proofs.NumberText
import Calculator.Proofs.Session.Step
import Calculator.Proofs.Text.Trim

/-!
# Numbers that are typed back in

What is shown of a number can be used again. As an expression it has the number as its value, if the
number is finite, and behind `ms` it puts the number into the memory, unless it is NaN.

* `Number.exists_magnitude`: a number is shown as its magnitude behind its sign
* `Number.ofText?_text`: the memory reads back every number but NaN
* `Number.evaluate_text_of_isFinite`: an expression reads back every finite number
* `Number.restores`: what is shown of a number restores it
-/

namespace Calculator

/-! ## White space -/

/-- What numbers and names go on with is not blank. -/
theorem Lexeme.isBlank_eq_false {c : Char} (h : separates c = false) : Text.isBlank c = false := by
  have hclass : c.isDigit = true ∨ c = '.' ∨ c.isAlpha = true := by
    by_contra hno
    simp only [not_or, Bool.not_eq_true] at hno
    rw [separates_iff.mpr hno] at h
    cases h
  rcases hclass with hdigit | rfl | halpha
  · exact isBlank_eq_false_of_isDigit hdigit
  · decide
  · exact isBlank_eq_false_of_isAlpha halpha

namespace Number

variable {x : Float}

/-! ## Magnitudes -/

theorem chars_of_isNegative (hnan : Binary64.isNaN x = false)
    (hsign : Binary64.isNegative x = true) : chars x = '-' :: chars (-x) := by
  rw [chars, chars, hnan, Binary64.isNaN_neg hnan, Binary64.isFinite_neg hnan,
    Binary64.isNegative_neg hnan, hsign, Layout.write, Layout.write, Binary64.code_neg hnan,
    Binary64.isNegative_neg hnan, hsign]
  cases Binary64.isFinite x <;> rfl

/-- A number is shown as its magnitude behind its sign. -/
theorem exists_magnitude (hnan : Binary64.isNaN x = false) : ∃ sign y, x = Sign.apply sign y ∧
    chars x = sign.toList.map Sign.char ++ chars y ∧ Binary64.isNaN y = false ∧
      Binary64.isNegative y = false ∧ Binary64.isFinite y = Binary64.isFinite x := by
  cases hsign : Binary64.isNegative x with
  | false => exact ⟨none, x, rfl, rfl, hnan, hsign, rfl⟩
  | true =>
    refine ⟨some .minus, -x, (Binary64.neg_neg_eq_self hnan).symm, chars_of_isNegative hnan hsign,
      Binary64.isNaN_neg hnan, ?_, Binary64.isFinite_neg hnan⟩
    rw [Binary64.isNegative_neg hnan, hsign]
    rfl

/-- Infinity is shown by its name. -/
theorem chars_of_infinite (hnan : Binary64.isNaN x = false) (hsign : Binary64.isNegative x = false)
    (hfinite : Binary64.isFinite x = false) : chars x = ['i', 'n', 'f'] ∧ infinity = x := by
  constructor
  · rw [chars, hnan, hfinite, hsign]
    rfl
  · rw [infinity, ← Binary64.code_eq_infinityCode hnan hfinite, Binary64.ofCode_code hsign]

/-- A magnitude is shown without a sign and without white space. -/
theorem separates_of_mem_chars (hnan : Binary64.isNaN x = false)
    (hsign : Binary64.isNegative x = false) :
    chars x ≠ [] ∧ ∀ c ∈ chars x, Lexeme.separates c = false := by
  cases hfinite : Binary64.isFinite x with
  | false =>
    rw [(chars_of_infinite hnan hsign hfinite).1]
    exact ⟨by simp, by simp [Lexeme.separates]⟩
  | true =>
    obtain ⟨hne, hchars, -⟩ := exists_numeral_of_chars hfinite hsign
    refine ⟨hne, fun c hc => ?_⟩
    have hclass : c.isDigit = true ∨ c = '.' := by simpa using hchars c hc
    rcases hclass with hdigit | rfl
    · simp [Lexeme.separates, hdigit]
    · rfl

/-! ## Read by the memory -/

theorem isAlpha_of_mem_infinityNames {cs : List Char} (h : Text.lowercase cs ∈ infinityNames) :
    ∀ c ∈ cs, c.isAlpha = true := by
  apply isAlpha_of_lowercase
  simp only [infinityNames, List.mem_cons, List.not_mem_nil, or_false] at h
  rcases h with hname | hname <;> rw [hname] <;> exact List.all_eq_true.mp rfl

/-- A text of digits and points is not the name of infinity. -/
theorem lowercase_not_mem_infinityNames {cs : List Char} (hne : cs ≠ [])
    (h : ∀ c ∈ cs, (c.isDigit || c == '.') = true) : Text.lowercase cs ∉ infinityNames := by
  intro hmem
  obtain ⟨c, cs, rfl⟩ := List.exists_cons_of_ne_nil hne
  have hc := isAlpha_of_mem_infinityNames hmem c List.mem_cons_self
  have hclass := h c List.mem_cons_self
  rw [Lexeme.isDigit_eq_false_of_isAlpha hc, Bool.false_or, beq_iff_eq] at hclass
  rw [hclass] at hc
  exact absurd hc (by decide)

theorem unsigned?_chars (hnan : Binary64.isNaN x = false) (hsign : Binary64.isNegative x = false) :
    unsigned? (chars x) = some x := by
  cases hfinite : Binary64.isFinite x with
  | false =>
    obtain ⟨hchars, hx⟩ := chars_of_infinite hnan hsign hfinite
    rw [hchars, unsigned?, if_pos (by decide), hx]
  | true =>
    obtain ⟨hne, hchars, n, hn, hx⟩ := exists_numeral_of_chars hfinite hsign
    rw [unsigned?, if_neg (lowercase_not_mem_infinityNames hne hchars), hn, Option.map_some, hx]

theorem split_chars (hnan : Binary64.isNaN x = false) (hsign : Binary64.isNegative x = false)
    (sign : Option Sign) :
    Sign.split (sign.toList.map Sign.char ++ chars x) = (sign, chars x) := by
  obtain ⟨-, hchars⟩ := separates_of_mem_chars hnan hsign
  refine Sign.split_append sign fun c hc => ⟨?_, ?_⟩ <;>
  · rintro rfl
    exact absurd (hchars _ (List.mem_of_mem_head? hc)) (by decide)

/-- Nothing that is shown of a number is blank. -/
theorem isBlank_of_mem_chars (hnan : Binary64.isNaN x = false) :
    chars x ≠ [] ∧ ∀ c ∈ chars x, Text.isBlank c = false := by
  obtain ⟨sign, y, -, hchars, hnany, hsigny, -⟩ := exists_magnitude hnan
  obtain ⟨hne, hseparates⟩ := separates_of_mem_chars hnany hsigny
  rw [hchars]
  refine ⟨by simp [hne], ?_⟩
  rw [List.forall_mem_append]
  refine ⟨?_, fun c hc => Lexeme.isBlank_eq_false (hseparates c hc)⟩
  simp only [List.forall_mem_map]
  rintro (_ | _) - <;> decide

/-- The memory reads back what is shown of a number. -/
theorem ofText?_text (hnan : Binary64.isNaN x = false) : ofText? (text x) = some x := by
  obtain ⟨-, hblank⟩ := isBlank_of_mem_chars hnan
  obtain ⟨sign, y, hx, hchars, hnany, hsigny, -⟩ := exists_magnitude hnan
  rw [ofText?, text, String.toList_ofList, Text.trim_eq_self_of_forall_mem hblank, hchars,
    split_chars hnany hsigny]
  show (unsigned? (chars y)).map (Sign.apply sign) = some x
  rw [unsigned?_chars hnany hsigny, Option.map_some, ← hx]

/-! ## Read in an expression -/

/-- A finite number is shown as a number behind at most one sign. -/
theorem exists_signedLiteral (hfinite : Binary64.isFinite x = true) :
    ∃ o : SignedLiteral, o.chars = chars x ∧ o.value = x := by
  obtain ⟨sign, y, hx, hchars, hnany, hsigny, hfinitey⟩ :=
    exists_magnitude (Binary64.isNaN_eq_false_of_isFinite hfinite)
  obtain ⟨-, hword, n, hn, hy⟩ := exists_numeral_of_chars (hfinitey.trans hfinite) hsigny
  refine ⟨⟨sign.toList, ⟨chars y, n, Lexeme.splitNumber_eq_self hword, hn⟩⟩, hchars.symm, ?_⟩
  refine Eq.trans ?_ (hy ▸ hx).symm
  rcases sign with _ | _ | _ <;> rfl

/-- As an expression, what is shown of a finite number has that number as its value. -/
theorem evaluate_text_of_isFinite (hfinite : Binary64.isFinite x = true) :
    evaluate (text x) = .ok x := by
  obtain ⟨o, hchars, hvalue⟩ := exists_signedLiteral hfinite
  rw [text, ← hchars, o.evaluate_chars, hvalue]

end Number

/-! ## Stored again -/

/-- What stands behind `ms` is stored. -/
theorem Command.ofLine_store {cs : List Char} (hne : cs ≠ [])
    (hblank : ∀ c ∈ cs, Text.isBlank c = false) :
    ofLine ("ms " ++ String.ofList cs) = store (some (String.ofList cs)) := by
  have hline : ("ms " ++ String.ofList cs).toList = ['m', 's', ' '] ++ cs := by
    rw [String.toList_append, String.toList_ofList, String.toList_ofList]
  have hword : splitWord (['m', 's', ' '] ++ cs) = (['m', 's'], cs) := by
    show (['m', 's'], Text.trim (' ' :: cs)) = (['m', 's'], cs)
    rw [Text.trim_cons_of_isBlank (by decide), Text.trim_eq_self_of_forall_mem hblank]
  have htrim : Text.trim (['m', 's', ' '] ++ cs) = ['m', 's', ' '] ++ cs := by
    refine Text.trim_eq_self ?_ fun c hc => hblank c ?_
    · rintro c ⟨⟩
      decide
    · rw [List.getLast?_append_of_ne_nil _ hne] at hc
      exact List.mem_of_mem_getLast? hc
  rw [ofLine, hline, htrim]
  dsimp only
  rw [hword, if_pos (show Text.lowercase ['m', 's'] = ['m', 's'] by decide), if_neg hne]

/-- The number that a reply shows, if it shows one. -/
def Reply.shown? : Reply → Option Float
  | calculated result _ => some result
  | retrieved value => value
  | _ => none

theorem Reply.text_of_shown? {r : Reply} {x : Float} (h : r.shown? = some x) :
    r.text = Number.text x := by
  cases r with
  | calculated result _ => rw [← Option.some.inj h, text]
  | retrieved value =>
    obtain rfl : value = some x := h
    rfl
  | _ => cases h

/-- What is shown of a number restores it. As an expression it has the number as its value, if that
is finite. The memory takes it as the number, unless that is NaN, and so does any session to which
it is given behind `ms` after it was shown as a result or as what was retrieved. -/
theorem Number.restores (x : Float) :
    (Binary64.isFinite x = true → evaluate (text x) = .ok x) ∧
    (Binary64.isNaN x = false →
      (∀ m : Memory, m.storeText (text x) = .ok (x, ⟨some x⟩)) ∧
      ∀ r : Reply, r.shown? = some x → ∀ (s : Session) (m : Memory),
        s.execute m ("ms " ++ r.text) =
          some ⟨.acknowledged "Value stored in memory", s, ⟨some x⟩⟩) := by
  refine ⟨evaluate_text_of_isFinite, fun hnan => ?_⟩
  have hstore : ∀ m : Memory, m.store x = .ok ⟨some x⟩ := by
    intro m
    rw [Memory.store, hnan]
    rfl
  refine ⟨fun m => ?_, fun r hr s m => ?_⟩
  · rw [Memory.storeText, ofText?_text hnan]
    dsimp only
    rw [hstore]
    rfl
  · obtain ⟨hne, hblank⟩ := isBlank_of_mem_chars hnan
    have hcommand : Command.ofLine ("ms " ++ r.text) = .store (some (text x)) := by
      rw [Reply.text_of_shown? hr]
      exact Command.ofLine_store hne hblank
    rw [Session.execute, hcommand]
    dsimp only
    rw [Memory.map_storeText_of_some (ofText?_text hnan), hstore]
    rfl

/-- The least of the subnormal numbers with a sign, and an infinity, whose name is no expression. -/
theorem Number.restores_extremes :
    evaluate (text (-Float.ofBits 1)) = .ok (-Float.ofBits 1) ∧
      (Session.new 6).execute Memory.empty ("ms " ++ (Reply.retrieved (some (-infinity))).text) =
        some ⟨.acknowledged "Value stored in memory", Session.new 6, ⟨some (-infinity)⟩⟩ :=
  ⟨(restores (-Float.ofBits 1)).1 (by decide),
    ((restores (-infinity)).2 (by decide +kernel)).2 (.retrieved (some (-infinity))) rfl
      (Session.new 6) Memory.empty⟩

end Calculator
