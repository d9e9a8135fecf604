import Calculator.Proofs.Reading
import Calculator.Proofs.Words

/-!
# The ten of `log10`

A number in front of a group is told from the ten of `log10` by its value and by the distance to the
parenthesis. That is as good as looking at the text: two bytes hold neither a longer spelling of
ten nor a shorter one with a gap behind it.

* `StandsAt`: a text at a byte of a source
* `Spelled.exists_words_of_adjacent`: two tokens that follow each other, in the source
* `Denotes.eq_ten_of_length_le`: ten has one spelling of at most two characters
* `ten_before_paren_iff`: the test on tokens and the text
-/

namespace Calculator

/-! ## Places in a source -/

/-- A text stands in a source at a byte. -/
def StandsAt (source : String) (pos : Nat) (text : List Char) : Prop :=
  ∃ front rest, source.toList = front ++ (text ++ rest) ∧ byteLength front = pos

theorem byteLength_eq_zero_iff {cs : List Char} : byteLength cs = 0 ↔ cs = [] := by
  rw [byteLength, String.utf8ByteSize_eq_zero_iff, String.ofList_eq_empty_iff]

/-- At one byte of a text there is only one rest. -/
theorem append_inj_of_byteLength {front front' rest rest' : List Char}
    (h : front ++ rest = front' ++ rest') (hlength : byteLength front = byteLength front') :
    front = front' ∧ rest = rest' := by
  rcases List.append_eq_append_iff.mp h with ⟨more, rfl, rfl⟩ | ⟨more, rfl, rfl⟩
  · rw [byteLength_append] at hlength
    obtain rfl : more = [] := byteLength_eq_zero_iff.mp (by omega)
    exact ⟨(List.append_nil _).symm, rfl⟩
  · rw [byteLength_append] at hlength
    obtain rfl : more = [] := byteLength_eq_zero_iff.mp (by omega)
    exact ⟨List.append_nil _, rfl⟩

/-! ## Tokens in their source -/

/-- The last of the tokens come from the last of the pieces, behind all that is in front of them. -/
theorem Spelled.exists_append {before after : List Token} : ∀ {pos : Nat} {pieces : List Piece},
    Spelled pos pieces (before ++ after) → ∃ front back, pieces = front ++ back ∧
      Spelled (pos + byteLength (charsOf front)) back after := by
  induction before with
  | nil => exact fun {pos pieces} h => ⟨[], pieces, rfl, h⟩
  | cons t before ih =>
    rintro pos _ (_ | @⟨_, p, more, symbol, _, hsymbol, hmore⟩)
    obtain ⟨front, back, rfl, hback⟩ := ih hmore
    refine ⟨p :: front, back, rfl, ?_⟩
    rwa [charsOf, List.flatMap_cons, ← charsOf, byteLength_append, ← Nat.add_assoc]

theorem Cut.exists_append {front back : List Piece} : ∀ {text rest : List Char},
    Cut (front ++ back) text rest → ∃ middle, text = charsOf front ++ middle ∧
      Cut back middle rest := by
  induction front with
  | nil => exact fun {text rest} h => ⟨text, rfl, h⟩
  | cons p front ih =>
    rintro _ rest (_ | ⟨-, -, hmore⟩)
    obtain ⟨middle, rfl, hback⟩ := ih hmore
    refine ⟨middle, ?_, hback⟩
    rw [charsOf_cons, Piece.chars]
    simp only [List.append_assoc]

/-- Two tokens that follow each other are two words with at most a gap between them. -/
theorem exists_words_of_adjacent {source : String} {before after : List Token} {t t' : Token}
    (h : tokenize source = .ok (before ++ t :: t' :: after)) :
    ∃ front word gap word' rest, source.toList = front ++ (word ++ (gap ++ (word' ++ rest))) ∧
      byteLength front = t.pos ∧ CutOff word (gap ++ (word' ++ rest)) ∧
      Spelling word t.symbol ∧ IsGapWord gap ∧ CutOff word' rest ∧ Spelling word' t'.symbol ∧
      t'.pos = t.pos + word.length + gap.length := by
  obtain ⟨pieces, last, hcut, -, hspelled⟩ := exists_cut_of_tokenize h
  obtain ⟨front, back, rfl, hback⟩ := hspelled.exists_append
  obtain ⟨middle, htext, hcut'⟩ := hcut.exists_append
  obtain _ | @⟨_, p, more, symbol, _, hsymbol, hmore⟩ := hback
  obtain _ | @⟨_, p', more', symbol', _, hsymbol', -⟩ := hmore
  obtain _ | ⟨hgap, hword, hcut''⟩ := hcut'
  obtain _ | @⟨_, _, rest, _, hgap', hword', -⟩ := hcut''
  rw [Piece.chars, List.append_assoc] at hword
  refine ⟨charsOf front ++ p.gap, p.word, p'.gap, p'.word, rest, ?_, ?_, hword, hsymbol, hgap',
    hword', hsymbol', ?_⟩
  · rw [htext, Piece.chars, Piece.chars]
    simp only [List.append_assoc]
  · rw [byteLength_append, Nat.zero_add]
  · show 0 + byteLength (charsOf front) + byteLength p.chars + byteLength p'.gap =
      0 + byteLength (charsOf front) + byteLength p.gap + p.word.length + p'.gap.length
    rw [Piece.chars, byteLength_append, hword.byteLength_eq, hgap'.byteLength_eq]
    omega

/-! ## Spellings of ten -/

/-- The characters that occur in number words. -/
def numberChars : List Char := ['0', '1', '2', '3', '4', '5', '6', '7', '8', '9', '.', 'e']

theorem NumberWord.mem_numberChars {word : List Char} (h : NumberWord word) :
    ∀ c ∈ word, c ∈ numberChars := by
  intro c hc
  rcases h.mem c hc with hdigit | rfl | rfl
  · obtain ⟨hlow, hhigh⟩ := toNat_of_isDigit hdigit
    rw [← Char.ofNat_toNat c]
    interval_cases c.toNat <;> decide
  · decide
  · decide

/-- Ten has one spelling of at most two characters. -/
theorem Denotes.eq_ten_of_length_le {word : List Char} {n : Numeral} (h : Denotes word n)
    (hlength : word.length ≤ 2) (hten : n.toFloat = 10.0) : word = ['1', '0'] := by
  have hmem := h.numberWord.mem_numberChars
  have hread := Numeral.ofChars?_of_denotes h
  have hvalue : (Numeral.ofChars? word).map Numeral.toFloat = some 10.0 := by
    rw [hread, Option.map_some, hten]
  match word, hlength with
  | [], _ => cases hread
  | [c], _ =>
    have hone : numberChars.all fun c =>
        (Numeral.ofChars? [c]).map Numeral.toFloat ≠ some 10.0 := by decide +kernel
    exact absurd hvalue (by simpa using List.all_eq_true.mp hone c (hmem c (by simp)))
  | [c, d], _ =>
    have htwo : numberChars.all fun c => numberChars.all fun d =>
        (Numeral.ofChars? [c, d]).map Numeral.toFloat = some 10.0 → [c, d] = ['1', '0'] := by
      decide +kernel
    have hc := List.all_eq_true.mp htwo c (hmem c (by simp))
    exact of_decide_eq_true (List.all_eq_true.mp hc d (hmem d (by simp))) hvalue

theorem Spelling.exists_denotes {word : List Char} {value : Float}
    (h : Spelling word (.number value)) : ∃ n, Denotes word n ∧ value = n.toFloat := by
  cases h with
  | number _ _ hvalue => exact ⟨_, hvalue, rfl⟩
  | mark hmark => exact absurd rfl ((ne_of_mark? hmark).1 value)

theorem Spelling.eq_lparen {word : List Char} (h : Spelling word .lparen) : word = ['('] := by
  cases h with
  | mark hmark =>
    unfold Lexeme.mark? at hmark
    split at hmark <;> simp_all

theorem Spelling.eq_ten {value : Float} (h : Spelling ['1', '0'] (.number value)) :
    value = 10.0 := by
  obtain ⟨n, hdenotes, rfl⟩ := h.exists_denotes
  have hread : (Numeral.ofChars? ['1', '0']).map Numeral.toFloat = some 10.0 := by decide +kernel
  rw [Numeral.ofChars?_of_denotes hdenotes] at hread
  exact Option.some.inj hread

/-! ## The test -/

/-- Before a parenthesis, a token has the value ten and the distance of two bytes exactly if `10`
with the parenthesis right behind it is what the source has there. With a name in front that is
`log` in upper or lower case, this is what makes a call of `log10`. -/
theorem ten_before_paren_iff {source : String} {before after : List Token} {value : Float}
    {pos parenPos : Nat}
    (h : tokenize source = .ok (before ++ ⟨.number value, pos⟩ :: ⟨.lparen, parenPos⟩ :: after)) :
    (value = 10.0 ∧ parenPos = pos + 2 ↔ StandsAt source pos ['1', '0', '(']) ∧
    ∀ name, isLog10 name value pos parenPos = true ↔
      Text.lowercase name.toList = ['l', 'o', 'g'] ∧ StandsAt source pos ['1', '0', '('] := by
  obtain ⟨front, word, gap, paren, rest, htext, hfront, hword, hnumber, hgap, hparen, hlparen,
    hpos⟩ := exists_words_of_adjacent h
  obtain rfl := hlparen.eq_lparen
  have htest : value = 10.0 ∧ parenPos = pos + 2 ↔ StandsAt source pos ['1', '0', '('] := by
    constructor
    · rintro ⟨hten, hdistance⟩
      have hlength : word.length + gap.length = 2 := by
        rw [hdistance] at hpos
        change pos + 2 = pos + word.length + gap.length at hpos
        omega
      obtain ⟨n, hdenotes, rfl⟩ := hnumber.exists_denotes
      obtain rfl := hdenotes.eq_ten_of_length_le (by omega) hten
      obtain rfl : gap = [] := List.length_eq_zero_iff.mp (by simpa using hlength)
      exact ⟨front, rest, htext, hfront⟩
    · rintro ⟨front', rest', htext', hfront'⟩
      obtain ⟨-, hrest⟩ := append_inj_of_byteLength (htext.symm.trans htext')
        (hfront.trans hfront'.symm)
      -- Behind `10` the parenthesis ends the number, so the word there is no other.
      have hcut : CutOff ['1', '0'] ('(' :: rest') :=
        .number (by simp) (.digit rfl (.digit rfl .nil)) (not_starts_of_mark? rfl rest').1
      obtain ⟨rfl, hgapRest⟩ := hword.append_inj hcut hrest
      cases gap with
      | nil => exact ⟨hnumber.eq_ten, hpos⟩
      | cons c gap =>
        obtain ⟨rfl, -⟩ := List.cons.inj hgapRest
        exact absurd (hgap '(' List.mem_cons_self) (by decide)
  exact ⟨htest, fun name => isLog10_iff.trans (and_congr_right fun _ => htest)⟩

/-- Of the three tens before a parenthesis in `1e1(10 (LOG10(` only the last is written as it has to
be. -/
theorem ten_before_paren_iff_log10 :
    tokenize "1e1(10 (LOG10(" = .ok [⟨.number 10.0, 0⟩, ⟨.lparen, 3⟩, ⟨.number 10.0, 4⟩,
      ⟨.lparen, 7⟩, ⟨.name "LOG", 8⟩, ⟨.number 10.0, 11⟩, ⟨.lparen, 13⟩] ∧
    ¬ StandsAt "1e1(10 (LOG10(" 0 ['1', '0', '('] ∧
    ¬ StandsAt "1e1(10 (LOG10(" 4 ['1', '0', '('] ∧
    StandsAt "1e1(10 (LOG10(" 11 ['1', '0', '('] ∧ isLog10 "LOG" 10.0 11 13 = true := by
  have htokens : tokenize "1e1(10 (LOG10(" = .ok [⟨.number 10.0, 0⟩, ⟨.lparen, 3⟩,
      ⟨.number 10.0, 4⟩, ⟨.lparen, 7⟩, ⟨.name "LOG", 8⟩, ⟨.number 10.0, 11⟩, ⟨.lparen, 13⟩] := by
    decide +kernel
  have hspelled := @ten_before_paren_iff _ [] _ _ _ _ htokens
  have hgap := @ten_before_paren_iff _ [⟨.number 10.0, 0⟩, ⟨.lparen, 3⟩] _ _ _ _ htokens
  have hlast := @ten_before_paren_iff _ [⟨.number 10.0, 0⟩, ⟨.lparen, 3⟩, ⟨.number 10.0, 4⟩,
    ⟨.lparen, 7⟩, ⟨.name "LOG", 8⟩] _ _ _ _ htokens
  have hstands := hlast.1.mp ⟨rfl, rfl⟩
  exact ⟨htokens, fun h => absurd (hspelled.1.mpr h).2 (by decide),
    fun h => absurd (hgap.1.mpr h).2 (by decide), hstands,
    (hlast.2 "LOG").mpr ⟨by decide +kernel, hstands⟩⟩

end Calculator
