import Calculator.Proofs.Decimal.Nearest
import Calculator.Proofs.Numerals
import Calculator.Proofs.Restoring
import Calculator.Proofs.Session.Run

/-!
# The readers of numbers

A number can be read as a literal of an expression, in scientific notation and by the memory. The
memory takes the most texts, and what another reader takes it takes as the same number.

* `Number.SpelledBy`: the texts of numbers for the memory
* `Number.ofText?_eq_some_iff`: what the memory reads, with white space around it
* `exists_denotes_of_tokenize`: what is a single number for the lexer
* `Memory.storeText_reads`: the memory and the other readers
-/

namespace Calculator

/-- The text spells a number for the memory: a sign or none, and behind it a name of infinity in any
case or a numeral. -/
inductive Number.SpelledBy : Float → List Char → Prop
  | infinity (sign : Option Sign) {name : List Char} (hname : Text.lowercase name ∈ infinityNames) :
    SpelledBy (Sign.apply sign infinity) (sign.toList.map Sign.char ++ name)
  | numeral (sign : Option Sign) {n : Numeral} {cs : List Char} (h : n.SpelledBy cs) :
    SpelledBy (Sign.apply sign n.toFloat) (sign.toList.map Sign.char ++ cs)

variable {x : Float} {n : Numeral} {cs : List Char}

/-! ## The characters of numbers -/

theorem Sign.isBlank_char (sign : Sign) : Text.isBlank sign.char = false := by
  cases sign <;> decide

theorem forall_mem_signed {p : Char → Prop} {sign : Option Sign} (hsign : ∀ s : Sign, p s.char)
    (hcs : ∀ c ∈ cs, p c) : ∀ c ∈ sign.toList.map Sign.char ++ cs, p c := by
  simp only [List.forall_mem_append, List.forall_mem_map]
  exact ⟨fun s _ => hsign s, hcs⟩

theorem Exponent.MarkedBy.isBlank {exponent : Option Exponent} (h : MarkedBy exponent cs) :
    ∀ c ∈ cs, Text.isBlank c = false := by
  cases h with
  | none => simp
  | some hmarker hne hdigits =>
    rw [List.forall_mem_cons]
    constructor
    · rcases hmarker with rfl | rfl <;> decide
    · exact forall_mem_signed Sign.isBlank_char fun c hc =>
        isBlank_eq_false_of_isDigit (hdigits c hc)

theorem Numeral.SpelledBy.isBlank (h : n.SpelledBy cs) : ∀ c ∈ cs, Text.isBlank c = false := by
  obtain ⟨-, hdigits, marked, rfl, hmarked⟩ := h
  rw [List.forall_mem_append]
  refine ⟨fun c hc => ?_, hmarked.isBlank⟩
  rcases mem_plainChars hc with hmem | rfl
  · exact isBlank_eq_false_of_isDigit (hdigits c hmem)
  · decide

namespace Number

/-- There is no white space in a number. -/
theorem SpelledBy.isBlank (h : SpelledBy x cs) : ∀ c ∈ cs, Text.isBlank c = false := by
  cases h with
  | infinity sign hname =>
    exact forall_mem_signed Sign.isBlank_char fun c hc =>
      isBlank_eq_false_of_isAlpha (isAlpha_of_mem_infinityNames hname c hc)
  | numeral sign h => exact forall_mem_signed Sign.isBlank_char h.isBlank

/-- A numeral has a digit, which no name of infinity has. -/
theorem lowercase_not_mem_of_spelledBy (h : n.SpelledBy cs) :
    Text.lowercase cs ∉ infinityNames := by
  intro hmem
  obtain ⟨hne, hdigits, marked, rfl, -⟩ := h
  obtain ⟨c, hc⟩ := List.exists_mem_of_ne_nil _ hne
  have halpha : c.isAlpha = true := by
    apply isAlpha_of_mem_infinityNames hmem
    apply List.mem_append_left
    exact mem_plainChars_of_mem hc
  have hdigit := hdigits c hc
  rw [Lexeme.isDigit_eq_false_of_isAlpha halpha] at hdigit
  simp at hdigit

/-! ## What the memory reads -/

/-- A number for the memory is not NaN. -/
theorem SpelledBy.isNaN (h : SpelledBy x cs) : Binary64.isNaN x = false := by
  have hsigned : ∀ sign y, Binary64.isNaN y = false →
      Binary64.isNaN (Sign.apply sign y) = false := by
    intro sign y hy
    rcases sign with _ | _ | _
    · exact hy
    · exact hy
    · exact Binary64.isNaN_neg hy
  cases h with
  | infinity sign hname => exact hsigned sign Number.infinity (by decide)
  | @numeral sign n _ h => exact hsigned sign _ n.isNearest_toFloat.number

theorem SpelledBy.ofText?_eq {front back : List Char} (h : SpelledBy x cs)
    (hfront : ∀ c ∈ front, Text.isBlank c = true) (hback : ∀ c ∈ back, Text.isBlank c = true) :
    ofText? (String.ofList (front ++ (cs ++ back))) = some x := by
  unfold ofText?
  rw [String.toList_ofList, Text.trim_append hfront hback h.isBlank]
  cases h with
  | @infinity sign name hname =>
    have hhead : ∀ c ∈ name.head?, c ≠ '+' ∧ c ≠ '-' := by
      intro c hc
      have halpha := isAlpha_of_mem_infinityNames hname c (List.mem_of_mem_head? hc)
      constructor <;> exact Lexeme.ne_of_property halpha (by decide)
    simp [Sign.split_append sign hhead, unsigned?, hname]
  | numeral sign h =>
    simp [Sign.split_append sign h.head_ne_sign, unsigned?, lowercase_not_mem_of_spelledBy h,
      h.ofChars?_eq]

theorem exists_spelledBy_of_ofText? {text : String} (h : ofText? text = some x) :
    ∃ front cs back, text.toList = front ++ (cs ++ back) ∧
      (∀ c ∈ front, Text.isBlank c = true) ∧ (∀ c ∈ back, Text.isBlank c = true) ∧
      SpelledBy x cs := by
  obtain ⟨front, back, htext, hfront, hback⟩ := Text.exists_trim text.toList
  refine ⟨front, Text.trim text.toList, back, htext, hfront, hback, ?_⟩
  unfold ofText? at h
  generalize Text.trim text.toList = cs at h
  cases hsplit : Sign.split cs with
  | mk sign rest =>
    rw [hsplit] at h
    rw [Sign.eq_append_of_split hsplit]
    obtain ⟨y, hy, rfl⟩ := Option.map_eq_some_iff.mp h
    unfold unsigned? at hy
    split at hy
    · next hname =>
      rw [← Option.some.inj hy]
      exact .infinity sign hname
    · obtain ⟨n, hn, rfl⟩ := Option.map_eq_some_iff.mp hy
      exact .numeral sign (Numeral.ofChars?_eq_some_iff_spelledBy.mp hn)

/-- The memory reads what spells a number with nothing but white space around it. -/
theorem ofText?_eq_some_iff {text : String} :
    ofText? text = some x ↔ ∃ front cs back, text.toList = front ++ (cs ++ back) ∧
      (∀ c ∈ front, Text.isBlank c = true) ∧ (∀ c ∈ back, Text.isBlank c = true) ∧
      SpelledBy x cs := by
  constructor
  · exact exists_spelledBy_of_ofText?
  · intro ⟨front, cs, back, htext, hfront, hback, h⟩
    have hread := h.ofText?_eq hfront hback
    rwa [← htext, String.ofList_toList] at hread

end Number

/-! ## What the other readers read -/

theorem isBlank_of_isGap {c : Char} (h : Lexeme.isGap c = true) : Text.isBlank c = true := by
  simp only [Lexeme.isGap, Bool.or_eq_true, beq_iff_eq, or_assoc] at h
  rcases h with rfl | rfl | rfl | rfl | rfl <;> decide

/-- What is a single number for the lexer denotes a numeral, with at most gaps around it. -/
theorem exists_denotes_of_tokenize {text : String} {pos : Nat}
    (h : tokenize text = .ok [⟨.number x, pos⟩]) :
    ∃ front word back n, text.toList = front ++ (word ++ back) ∧ IsGapWord front ∧
      IsGapWord back ∧ Denotes word n ∧ n.toFloat = x := by
  obtain ⟨pieces, last, hcut, hlast, hspelled⟩ := exists_cut_of_tokenize h
  generalize text.toList = cs at hcut ⊢
  cases hspelled with
  | @cons _ p more _ _ hsymbol hmore =>
    cases hmore
    cases hcut with
    | cons hgap hword hmore =>
      cases hmore
      obtain ⟨front, word⟩ := p
      dsimp only at hsymbol hgap
      cases hsymbol with
      | @number _ n _ _ hvalue =>
        exact ⟨front, word, last, n, List.append_assoc _ _ _, hgap, hlast, hvalue, rfl⟩
      | mark hmark => exact absurd rfl ((ne_of_mark? hmark).1 _)

theorem Scientific.spelledBy_of_ofText {text : String} (h : ofText text = .ok x) :
    Number.SpelledBy x text.toList := by
  obtain ⟨sign, n, marker, e, hbuilt, rfl⟩ := exists_built_of_ofChars? (ofText_eq_ok_iff.mp h)
  rw [hbuilt.chars]
  refine .numeral sign ⟨hbuilt.digits.1, hbuilt.digits.2, _, rfl, ?_⟩
  rw [hbuilt.exponent]
  exact .some hbuilt.marker hbuilt.exponentDigits.1 hbuilt.exponentDigits.2

/-! ## The memory and the other readers -/

/-- A number in a text is never refused, since it is not NaN. -/
theorem Memory.storeText_eq_ok_iff {m stored : Memory} {text : String} :
    m.storeText text = .ok (x, stored) ↔ stored = ⟨some x⟩ ∧ Number.ofText? text = some x := by
  cases hx : Number.ofText? text with
  | none => simp [storeText_of_none hx]
  | some y =>
    obtain ⟨front, cs, back, -, -, -, hy⟩ := Number.ofText?_eq_some_iff.mp hx
    have hstored : m.storeText text = .ok (y, ⟨some y⟩) := by
      unfold storeText store
      simp [hx, hy.isNaN, Except.map]
    rw [hstored]
    constructor
    · intro h
      obtain ⟨rfl, rfl⟩ := Prod.mk.inj (Except.ok.inj h)
      exact ⟨rfl, rfl⟩
    · rintro ⟨rfl, hyx⟩
      rw [Option.some.inj hyx]

/-- What is a single number for the lexer or is read in scientific notation, the memory takes as the
same number, whatever white space is around it. The memory takes a text exactly if that is a sign or
none and a name of infinity or a numeral, with nothing but white space around them. It then holds
the number, and any other text is a fault that keeps the text as it is and leaves everything
unchanged. -/
theorem Memory.storeText_reads :
    (∀ text w, (∃ pos, tokenize text = .ok [⟨.number w, pos⟩]) ∨ Scientific.ofText text = .ok w →
      ∀ front back, (∀ c ∈ front, Text.isBlank c = true) → (∀ c ∈ back, Text.isBlank c = true) →
        ∀ m : Memory, m.storeText (String.ofList (front ++ (text.toList ++ back))) =
          .ok (w, ⟨some w⟩)) ∧
    (∀ text x (m stored : Memory), m.storeText text = .ok (x, stored) ↔ stored = ⟨some x⟩ ∧
      ∃ front cs back, text.toList = front ++ (cs ++ back) ∧
        (∀ c ∈ front, Text.isBlank c = true) ∧ (∀ c ∈ back, Text.isBlank c = true) ∧
        Number.SpelledBy x cs) ∧
    (∀ text, (∀ x front cs back, text.toList = front ++ (cs ++ back) →
        (∀ c ∈ front, Text.isBlank c = true) → (∀ c ∈ back, Text.isBlank c = true) →
        ¬ Number.SpelledBy x cs) →
      (∀ m : Memory, m.storeText text = .error (.notNumeric text)) ∧
        ∀ d : Desk, d.act (.storeText text) = d) ∧
    ∀ text, (Fault.notNumeric text).message = s!"Invalid numeric value: '{text}'." := by
  refine ⟨fun text w h front back hfront hback m => ?_, fun text x m stored => ?_,
    fun text hnone => ?_, fun text => rfl⟩
  · rw [storeText_eq_ok_iff, Number.ofText?_eq_some_iff, String.toList_ofList]
    refine ⟨rfl, ?_⟩
    rcases h with ⟨pos, htokens⟩ | hscientific
    · obtain ⟨gap, word, gap', n, htext, hgap, hgap', hdenotes, rfl⟩ :=
        exists_denotes_of_tokenize htokens
      have hspelled := Number.SpelledBy.numeral none (Numeral.spelledBy_of_denotes hdenotes)
      refine ⟨front ++ gap, word, gap' ++ back, by simp [htext], ?_, ?_, hspelled⟩
      · exact List.forall_mem_append.mpr ⟨hfront, fun c hc => isBlank_of_isGap (hgap c hc)⟩
      · exact List.forall_mem_append.mpr ⟨fun c hc => isBlank_of_isGap (hgap' c hc), hback⟩
    · exact ⟨front, text.toList, back, rfl, hfront, hback,
        Scientific.spelledBy_of_ofText hscientific⟩
  · rw [storeText_eq_ok_iff, Number.ofText?_eq_some_iff]
  · have hx : Number.ofText? text = none := by
      rw [Option.eq_none_iff_forall_ne_some]
      intro x hx
      obtain ⟨front, cs, back, htext, hfront, hback, hcs⟩ := Number.ofText?_eq_some_iff.mp hx
      exact hnone x front cs back htext hfront hback hcs
    exact ⟨storeText_of_none hx, Desk.act_storeText_of_none hx⟩

/-- A literal between a no-break space and the end of its line, a zero with a sign in scientific
notation, and a word that is no number. -/
theorem Memory.storeText_reads_three :
    empty.storeText "\u00a0.5e2\n" = .ok (50.0, ⟨some 50.0⟩) ∧
      empty.storeText "-0E5" = .ok (-0.0, ⟨some (-0.0)⟩) ∧
      (Desk.new [6]).act (.storeText " nan") = Desk.new [6] := by
  have htokens : tokenize ".5e2" = .ok [⟨.number 50.0, 0⟩] := by decide +kernel
  have hscientific : Scientific.ofText "-0E5" = .ok (-0.0) := by decide +kernel
  have hliteral := storeText_reads.1 ".5e2" 50.0 (.inl ⟨0, htokens⟩) ['\u00a0'] ['\n']
    (List.all_eq_true.mp rfl) (List.all_eq_true.mp rfl) empty
  have hzero := storeText_reads.1 "-0E5" (-0.0) (.inr hscientific) [] [] (by simp) (by simp) empty
  have hnan : empty.storeText " nan" = .error (.notNumeric " nan") := by decide +kernel
  refine ⟨?_, ?_, (storeText_reads.2.2.1 " nan" ?_).2 (Desk.new [6])⟩
  · have htext : String.ofList (['\u00a0'] ++ (".5e2".toList ++ ['\n'])) = "\u00a0.5e2\n" := by
      decide +kernel
    rwa [htext] at hliteral
  · simpa using hzero
  · intro x front cs back htext hfront hback hcs
    have hstored := (storeText_reads.2.1 " nan" x empty ⟨some x⟩).mpr
      ⟨rfl, front, cs, back, htext, hfront, hback, hcs⟩
    rw [hnan] at hstored
    simp at hstored

end Calculator
