import Calculator.Proofs.NumberText

/-!
# Number words

What the lexer takes as one number is a word over digits, points, and an `e` with a digit behind it.
Not each such word denotes a number: `1.2.3` and `e5` are words of this kind as well.

* `NumberWord`, `StartsNumber`: number words, and the texts in front of which one goes on
* `NumberWord.splitNumber_append`: the longest number word at the front of a text
* `Numeral.ofChars?_eq_some_iff`: a number word is read as the numeral that it denotes
-/

namespace Calculator

/-- The words over digits, points, and pairs of an `e` and a digit. -/
inductive NumberWord : List Char → Prop
  | nil : NumberWord []
  | digit {c : Char} {cs : List Char} (hc : c.isDigit = true) (h : NumberWord cs) :
    NumberWord (c :: cs)
  | point {cs : List Char} (h : NumberWord cs) : NumberWord ('.' :: cs)
  | exponent {d : Char} {cs : List Char} (hd : d.isDigit = true) (h : NumberWord cs) :
    NumberWord ('e' :: d :: cs)

/-- A digit, a point, or an `e` before a digit stands at the front of a text. -/
inductive StartsNumber : List Char → Prop
  | digit {c : Char} {cs : List Char} (hc : c.isDigit = true) : StartsNumber (c :: cs)
  | point {cs : List Char} : StartsNumber ('.' :: cs)
  | exponent {d : Char} {cs : List Char} (hd : d.isDigit = true) : StartsNumber ('e' :: d :: cs)

theorem goesOn_iff {cs : List Char} : Lexeme.goesOn cs = true ↔ StartsNumber cs := by
  constructor
  · intro h
    unfold Lexeme.goesOn at h
    split at h
    · exact .exponent h
    · rcases Bool.or_eq_true_iff.mp h with hdigit | hpoint
      · exact .digit hdigit
      · rw [beq_iff_eq.mp hpoint]
        exact .point
    · cases h
  · rintro (hc | - | hd)
    · next c cs =>
      have he : c ≠ 'e' := Lexeme.ne_of_property hc (by decide)
      rw [Lexeme.goesOn_of_ne he, hc, Bool.true_or]
    · rfl
    · exact hd

theorem goesOn_eq_false_iff {cs : List Char} : Lexeme.goesOn cs = false ↔ ¬ StartsNumber cs := by
  rw [← goesOn_iff, Bool.not_eq_true]

namespace NumberWord

variable {word after : List Char}

theorem startsNumber_append (h : NumberWord word) (hne : word ≠ []) (after : List Char) :
    StartsNumber (word ++ after) := by
  cases h with
  | nil => exact absurd rfl hne
  | digit hc _ => exact .digit hc
  | point _ => exact .point
  | exponent hd _ => exact .exponent hd

theorem splitNumber_append (h : NumberWord word) (hafter : ¬ StartsNumber after) :
    Lexeme.splitNumber (word ++ after) = (word, after) := by
  have hcons : ∀ {c : Char} {cs : List Char}, StartsNumber (c :: (cs ++ after)) →
      Lexeme.splitNumber (cs ++ after) = (cs, after) →
      Lexeme.splitNumber (c :: (cs ++ after)) = (c :: cs, after) := by
    intro c cs hstart hsplit
    rw [Lexeme.splitNumber, if_pos (goesOn_iff.mpr hstart), hsplit]
  induction h with
  | nil =>
    cases after with
    | nil => rfl
    | cons c cs =>
      have hstop := goesOn_eq_false_iff.mpr hafter
      rw [List.nil_append, Lexeme.splitNumber, hstop]
      rfl
  | digit hc _ ih => exact hcons (.digit hc) ih
  | point _ ih => exact hcons .point ih
  | exponent hd _ ih => exact hcons (.exponent hd) (hcons (.digit hd) ih)

/-- Some number word, perhaps the empty one, is cut off from every text. -/
theorem exists_append (cs : List Char) :
    ∃ word after, cs = word ++ after ∧ NumberWord word ∧ ¬ StartsNumber after := by
  by_cases hstart : StartsNumber cs
  · cases hstart with
    | digit hc =>
      next c cs =>
      obtain ⟨word, after, rfl, hword, hafter⟩ := exists_append cs
      exact ⟨c :: word, after, rfl, .digit hc hword, hafter⟩
    | point =>
      next cs =>
      obtain ⟨word, after, rfl, hword, hafter⟩ := exists_append cs
      exact ⟨'.' :: word, after, rfl, .point hword, hafter⟩
    | exponent hd =>
      next d cs =>
      obtain ⟨word, after, rfl, hword, hafter⟩ := exists_append cs
      exact ⟨'e' :: d :: word, after, rfl, .exponent hd hword, hafter⟩
  · exact ⟨[], cs, rfl, .nil, hstart⟩
termination_by cs.length

theorem exists_of_startsNumber {cs : List Char} (h : StartsNumber cs) :
    ∃ word after, cs = word ++ after ∧ word ≠ [] ∧ NumberWord word ∧ ¬ StartsNumber after := by
  obtain ⟨word, after, rfl, hword, hafter⟩ := exists_append cs
  refine ⟨word, after, rfl, ?_, hword, hafter⟩
  rintro rfl
  exact hafter h

/-- No number word is made of letters alone. -/
theorem not_alpha (h : NumberWord word) (hne : word ≠ []) :
    ¬ ∀ c ∈ word, c.isAlpha = true := by
  intro halpha
  have hdigit : ∀ d ∈ word, d.isDigit = false := fun d hd =>
    Lexeme.isDigit_eq_false_of_isAlpha (halpha d hd)
  cases h with
  | nil => exact hne rfl
  | digit hc _ => simp [hc] at hdigit
  | point _ => simp at halpha
  | exponent hd _ => simp [hd] at hdigit

/-- The characters that occur in number words. -/
theorem mem (h : NumberWord word) : ∀ c ∈ word, c.isDigit = true ∨ c = '.' ∨ c = 'e' := by
  induction h with
  | nil => simp
  | digit hc _ ih => exact List.forall_mem_cons.mpr ⟨.inl hc, ih⟩
  | point _ ih => exact List.forall_mem_cons.mpr ⟨.inr (.inl rfl), ih⟩
  | exponent hd _ ih =>
    exact List.forall_mem_cons.mpr ⟨.inr (.inr rfl), List.forall_mem_cons.mpr ⟨.inl hd, ih⟩⟩

theorem append (h : NumberWord word) (h' : NumberWord after) : NumberWord (word ++ after) := by
  induction h with
  | nil => exact h'
  | digit hc _ ih => exact .digit hc ih
  | point _ ih => exact .point ih
  | exponent hd _ ih => exact .exponent hd ih

theorem of_isDigit (h : ∀ c ∈ word, c.isDigit = true) : NumberWord word := by
  induction word with
  | nil => exact .nil
  | cons c cs ih =>
    obtain ⟨hc, hcs⟩ := List.forall_mem_cons.mp h
    exact .digit hc (ih hcs)

theorem toNat_lt (h : NumberWord word) : ∀ c ∈ word, c.toNat < 128 := by
  intro c hc
  rcases h.mem c hc with hdigit | rfl | rfl
  · exact (toNat_of_isDigit hdigit).2.trans_lt (by decide)
  · decide
  · decide

end NumberWord

/-! ## What a number word denotes -/

theorem Denotes.numberWord {word : List Char} {n : Numeral} (h : Denotes word n) :
    NumberWord word := by
  obtain ⟨hword, -, hdigits, hexponent⟩ := h
  obtain ⟨whole, fraction, exponent⟩ := n
  obtain ⟨hwhole, hfraction⟩ := List.forall_mem_append.mp hdigits
  rw [hword]
  refine .append (.append (.of_isDigit hwhole) ?_) ?_
  · cases fraction with
    | none => exact .nil
    | some digits => exact .point (.of_isDigit hfraction)
  · cases exponent with
    | none => exact .nil
    | some x =>
      obtain ⟨-, hne, hall⟩ := hexponent x rfl
      obtain ⟨d, ds, hx⟩ := List.exists_cons_of_ne_nil hne
      rw [hx] at hall
      obtain ⟨hd, hds⟩ := List.forall_mem_cons.mp hall
      show NumberWord ('e' :: x.digits)
      rw [hx]
      exact .exponent hd (.of_isDigit hds)

/-- A text is the point and the digits that are split from it and what follows them. -/
theorem Numeral.splitFraction_eq (cs : List Char) :
    cs = plainChars [] (splitFraction cs).1 ++ (splitFraction cs).2 ∧
      ∀ c ∈ (splitFraction cs).1.getD [], c.isDigit = true := by
  unfold splitFraction
  split
  · next cs =>
    refine ⟨?_, fun c => List.mem_takeWhile_imp⟩
    show '.' :: cs = '.' :: (cs.takeWhile Char.isDigit ++ cs.dropWhile Char.isDigit)
    rw [List.takeWhile_append_dropWhile]
  · exact ⟨rfl, by simp⟩

namespace Numeral

/-- What is read as a numeral is digits with perhaps a point, and perhaps a marker and an exponent
behind it. -/
theorem chars_of_ofChars? {cs : List Char} {n : Numeral} (hn : ofChars? cs = some n) :
    n.digits ≠ [] ∧ (∀ c ∈ n.digits, c.isDigit = true) ∧
      ((n.exponent = none ∧ cs = plainChars n.whole n.fraction) ∨
        ∃ marker rest x, n.exponent = some x ∧ (marker = 'e' ∨ marker = 'E') ∧
          Exponent.ofChars? rest = some x ∧
          cs = plainChars n.whole n.fraction ++ marker :: rest) := by
  obtain ⟨happend, hfraction⟩ := splitFraction_eq (cs.dropWhile Char.isDigit)
  have hcs := (List.takeWhile_append_dropWhile (p := Char.isDigit) (l := cs)).symm
  rw [happend] at hcs
  have hwhole : ∀ c ∈ cs.takeWhile Char.isDigit, c.isDigit = true := fun c => List.mem_takeWhile_imp
  unfold ofChars? at hn
  generalize cs.takeWhile Char.isDigit = whole at *
  generalize splitFraction (cs.dropWhile Char.isDigit) = split at *
  obtain ⟨fraction, rest⟩ := split
  dsimp only at *
  split at hn
  · cases hn
  next hne =>
  have hdigits := List.forall_mem_append.mpr ⟨hwhole, hfraction⟩
  rw [← List.append_assoc, ← plainChars_eq_append] at hcs
  cases rest with
  | nil =>
    cases hn
    exact ⟨hne, hdigits, .inl ⟨rfl, hcs.trans (List.append_nil _)⟩⟩
  | cons marker rest =>
    dsimp only at hn
    split at hn
    · next hmarker =>
      obtain ⟨x, hx, rfl⟩ := Option.map_eq_some_iff.mp hn
      exact ⟨hne, hdigits, .inr ⟨marker, rest, x, rfl, hmarker, hx, hcs⟩⟩
    · cases hn

theorem denotes_of_ofChars? {word : List Char} {n : Numeral} (h : NumberWord word)
    (hn : ofChars? word = some n) : Denotes word n := by
  obtain ⟨hne, hdigits, ⟨hexponent, hword⟩ | ⟨marker, rest, x, hexponent, hmarker, hx, rfl⟩⟩ :=
    chars_of_ofChars? hn
  · exact ⟨by rw [hexponent, hword, exponentChars, List.append_nil], hne, hdigits,
      by simp [hexponent]⟩
  · have hmem : ∀ c ∈ marker :: rest, c.isDigit = true ∨ c = '.' ∨ c = 'e' := fun c hc =>
      h.mem c (List.mem_append_right _ hc)
    obtain rfl : marker = 'e' := by
      rcases hmarker with rfl | rfl
      · rfl
      · exact absurd (hmem 'E' List.mem_cons_self) (by decide)
    obtain ⟨hsign, rfl, hnil, hall⟩ :=
      (Exponent.ofChars?_eq_some_iff (List.forall_mem_cons.mp hmem).2).mp hx
    refine ⟨by rw [hexponent, exponentChars], hne, hdigits, ?_⟩
    rw [hexponent]
    rintro _ ⟨⟩
    exact ⟨hsign, hnil, hall⟩

/-- A number word is read as the numeral that it denotes. -/
theorem ofChars?_eq_some_iff {word : List Char} {n : Numeral} (h : NumberWord word) :
    ofChars? word = some n ↔ Denotes word n :=
  ⟨denotes_of_ofChars? h, ofChars?_of_denotes⟩

theorem ofChars?_eq_none_iff {word : List Char} (h : NumberWord word) :
    ofChars? word = none ↔ ∀ n, ¬ Denotes word n := by
  rw [Option.eq_none_iff_forall_ne_some]
  exact forall_congr' fun n => not_congr (ofChars?_eq_some_iff h)

end Numeral

end Calculator
