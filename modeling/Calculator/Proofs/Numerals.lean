import Calculator.Proofs.Overlap

/-!
# Numerals in full

The readers of numbers outside expressions take more numerals than expressions do: the exponent may
be marked by a capital letter, and it may have a sign. What they read as a numeral is told here by
the characters alone.

* `Exponent.MarkedBy`, `Numeral.SpelledBy`: the texts of exponents and of numerals
* `Numeral.ofChars?_eq_some_iff_spelledBy`: what is read as a numeral
-/

namespace Calculator

/-- What is written behind the digits of a numeral: nothing if there is no exponent, and otherwise
the marker, in either case, perhaps a sign, and one or more digits. -/
inductive Exponent.MarkedBy : Option Exponent → List Char → Prop
  | none : MarkedBy none []
  | some {x : Exponent} {marker : Char} (hmarker : marker = 'e' ∨ marker = 'E')
    (hne : x.digits ≠ []) (hdigits : ∀ c ∈ x.digits, c.isDigit = true) :
    MarkedBy (some x) (marker :: (x.sign.toList.map Sign.char ++ x.digits))

/-- The text spells a numeral: digits with at most one point in front of them, among them or behind
them, at least one digit in total, and what marks the exponent. -/
structure Numeral.SpelledBy (n : Numeral) (cs : List Char) : Prop where
  ne_nil : n.digits ≠ []
  isDigit : ∀ c ∈ n.digits, c.isDigit = true
  chars : ∃ marked, cs = plainChars n.whole n.fraction ++ marked ∧
    Exponent.MarkedBy n.exponent marked

theorem mem_plainChars_of_mem {whole : List Char} {fraction : Option (List Char)} {c : Char}
    (h : c ∈ whole ++ fraction.getD []) : c ∈ plainChars whole fraction := by
  unfold plainChars
  cases fraction with
  | none => simpa using h
  | some digits =>
    simp only [Option.getD_some, List.mem_append, List.mem_cons] at h ⊢
    tauto

theorem Exponent.ofChars?_append {x : Exponent} (hne : x.digits ≠ [])
    (hdigits : ∀ c ∈ x.digits, c.isDigit = true) :
    ofChars? (x.sign.toList.map Sign.char ++ x.digits) = some x := by
  have hsplit := Sign.split_append x.sign fun c hc =>
    ne_sign_of_isDigit (hdigits c (List.mem_of_mem_head? hc))
  unfold ofChars?
  simp only [hsplit]
  rw [if_pos ⟨hne, List.all_eq_true.mpr hdigits⟩]

namespace Numeral

variable {n : Numeral} {cs : List Char}

theorem SpelledBy.ofChars?_eq (h : n.SpelledBy cs) : ofChars? cs = some n := by
  obtain ⟨hne, hdigits, marked, rfl, hmarked⟩ := h
  obtain ⟨whole, fraction, exponent⟩ := n
  cases hmarked with
  | none => rw [ofChars?_append hne hdigits (by simp)]
  | @some x marker hmarker hnil hall =>
    have hhead : ∀ c ∈ (marker :: (x.sign.toList.map Sign.char ++ x.digits)).head?,
        c.isDigit = false ∧ c ≠ '.' := by
      rcases hmarker with rfl | rfl <;> simp
    rw [ofChars?_append hne hdigits hhead]
    dsimp only
    rw [if_pos hmarker, Exponent.ofChars?_append hnil hall]
    simp

theorem spelledBy_of_ofChars? (h : ofChars? cs = some n) : n.SpelledBy cs := by
  obtain ⟨hne, hdigits, ⟨hnone, hcs⟩ | ⟨marker, rest, x, hx, hmarker, hrest, hcs⟩⟩ :=
    chars_of_ofChars? h
  · refine ⟨hne, hdigits, [], by simpa using hcs, ?_⟩
    rw [hnone]
    exact .none
  · obtain ⟨rfl, hnil, hall⟩ := Exponent.chars_of_ofChars? hrest
    refine ⟨hne, hdigits, _, hcs, ?_⟩
    rw [hx]
    exact .some hmarker hnil hall

/-- A text is read as a numeral exactly if it spells it. -/
theorem ofChars?_eq_some_iff_spelledBy : ofChars? cs = some n ↔ n.SpelledBy cs :=
  ⟨spelledBy_of_ofChars?, SpelledBy.ofChars?_eq⟩

/-- The text of a numeral begins with a digit or with a point, and so with no sign. -/
theorem SpelledBy.head_ne_sign (h : n.SpelledBy cs) : ∀ c ∈ cs.head?, c ≠ '+' ∧ c ≠ '-' := by
  obtain ⟨hne, hdigits, marked, rfl, -⟩ := h
  obtain ⟨whole, fraction, exponent⟩ := n
  obtain ⟨hwhole, -⟩ := List.forall_mem_append.mp hdigits
  cases whole with
  | cons d whole => simpa [plainChars] using ne_sign_of_isDigit (hwhole d List.mem_cons_self)
  | nil =>
    cases fraction with
    | none => simp [digits] at hne
    | some fraction => simp [plainChars]

/-- What an expression takes as a number spells the same numeral. -/
theorem spelledBy_of_denotes (h : Denotes cs n) : n.SpelledBy cs :=
  ofChars?_eq_some_iff_spelledBy.mp (ofChars?_of_denotes h)

end Numeral

theorem Scientific.ofText_eq_ok_iff {text : String} {y : Float} :
    ofText text = .ok y ↔ ofChars? text.toList = some y := by
  unfold ofText
  split
  · next hx => simp [hx]
  · next hx => simp [hx]

end Calculator
