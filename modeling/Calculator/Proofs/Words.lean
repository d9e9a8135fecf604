import Calculator.Proofs.NumberWords

/-!
# The words of a source

A source is words with gaps between them. It is cut in one way only: each word is a number word, a
word of letters or a mark, and goes on for as long as it can. The tokens are what the words stand
for, at the bytes at which they start.

* `NumberWord`, `StartsNumber`, `StartsName`: numbers and names as texts
* `CutOff`: a word that is cut off in front of a text
* `Spelling`, `Stuck`: what a word stands for, and what is no token
* `Cut`, `Spelled`: a source and its words, words and their tokens
* `tokenize_eq_iff_cut`: the tokens or the fault of a source, by the way in which it is cut
-/

namespace Calculator

/-! ## Words -/

/-- A letter stands at the front of a text. -/
def StartsName (cs : List Char) : Prop := ∃ c ∈ cs.head?, c.isAlpha = true

/-- The characters may stand between words. -/
def IsGapWord (gap : List Char) : Prop := ∀ c ∈ gap, Lexeme.isGap c = true

/-- A word in front of a text is cut off there: it is a number word that does not go on in the text,
a word of letters that does not go on and is not the `e` of a number, or a mark. -/
inductive CutOff : (word after : List Char) → Prop
  | number {word after : List Char} (hne : word ≠ []) (hword : NumberWord word)
    (hafter : ¬ StartsNumber after) : CutOff word after
  | name {word after : List Char} (hne : word ≠ []) (hword : ∀ c ∈ word, c.isAlpha = true)
    (hafter : ¬ StartsName after) (hnumber : ¬ StartsNumber (word ++ after)) : CutOff word after
  | mark {c : Char} {symbol : Symbol} {after : List Char} (hmark : Lexeme.mark? c = some symbol) :
    CutOff [c] after

/-- What a word stands for. -/
inductive Spelling : List Char → Symbol → Prop
  | number {word : List Char} {n : Numeral} (hne : word ≠ []) (hword : NumberWord word)
    (hvalue : Denotes word n) : Spelling word (.number n.toFloat)
  | name {word : List Char} (hne : word ≠ []) (hword : ∀ c ∈ word, c.isAlpha = true) :
    Spelling word (.name (String.ofList word))
  | mark {c : Char} {symbol : Symbol} (hmark : Lexeme.mark? c = some symbol) : Spelling [c] symbol

/-- What stands at the front of a text at byte `pos` is no token: a number word that denotes no
number, or a character that is in no gap and that no word starts with. -/
inductive Stuck (pos : Nat) : List Char → Fault → Prop
  | malformed {word after : List Char} (hne : word ≠ []) (hword : NumberWord word)
    (hafter : ¬ StartsNumber after) (hvalue : ∀ n, ¬ Denotes word n) :
    Stuck pos (word ++ after) (.malformed (.malformedNumber (String.ofList word) pos))
  | stray {c : Char} {after : List Char} (hgap : Lexeme.isGap c = false)
    (hnumber : ¬ StartsNumber (c :: after)) (hname : ¬ StartsName (c :: after))
    (hmark : Lexeme.mark? c = none) :
    Stuck pos (c :: after) (.malformed (.strayCharacter c pos))

/-! ## Sources -/

/-- A word and the gap in front of it. -/
structure Piece where
  gap : List Char
  word : List Char

/-- The characters of a piece. -/
def Piece.chars (p : Piece) : List Char := p.gap ++ p.word

/-- Pieces are cut off from a text one after the other, and a rest is left. -/
inductive Cut : List Piece → (text rest : List Char) → Prop
  | nil {text : List Char} : Cut [] text text
  | cons {p : Piece} {more : List Piece} {after rest : List Char} (hgap : IsGapWord p.gap)
    (hword : CutOff p.word after) (hmore : Cut more after rest) :
    Cut (p :: more) (p.chars ++ after) rest

/-- The number of bytes that encode a text. -/
def byteLength (cs : List Char) : Nat := (String.ofList cs).utf8ByteSize

/-- The tokens of pieces from the byte `pos` on. -/
inductive Spelled : (pos : Nat) → List Piece → List Token → Prop
  | nil {pos : Nat} : Spelled pos [] []
  | cons {pos : Nat} {p : Piece} {more : List Piece} {symbol : Symbol} {ts : List Token}
    (hsymbol : Spelling p.word symbol) (hmore : Spelled (pos + byteLength p.chars) more ts) :
    Spelled pos (p :: more) (⟨symbol, pos + byteLength p.gap⟩ :: ts)

/-- A mark is in no other class of characters, and one byte long. -/
theorem not_starts_of_mark? {c : Char} {symbol : Symbol} (h : Lexeme.mark? c = some symbol)
    (cs : List Char) : ¬ StartsNumber (c :: cs) ∧ ¬ StartsName (c :: cs) ∧
      Lexeme.isGap c = false ∧ c.toNat < 128 := by
  unfold Lexeme.mark? at h
  split at h <;> cases h <;>
    exact ⟨goesOn_eq_false_iff.mp ((Lexeme.goesOn_of_ne (by decide) _).trans (by decide)),
      by simp [StartsName], by decide, by decide⟩

/-- No mark is a number or a name. -/
theorem ne_of_mark? {c : Char} {symbol : Symbol} (h : Lexeme.mark? c = some symbol) :
    (∀ value, symbol ≠ .number value) ∧ ∀ word, symbol ≠ .name word := by
  unfold Lexeme.mark? at h
  split at h <;> cases h <;> simp

/-! ## Words that are cut off -/

theorem Lexeme.first_numberWord {c : Char} {cs after : List Char} (hword : NumberWord (c :: cs))
    (hafter : ¬ StartsNumber after) : first c (cs ++ after) = (number (c :: cs), after) := by
  have hgoesOn : goesOn (c :: (cs ++ after)) = true :=
    goesOn_iff.mpr (hword.startsNumber_append (by simp) after)
  rw [first, if_neg (by simp [isGap_eq_false_of_goesOn hgoesOn]), if_pos hgoesOn,
    ← List.cons_append, hword.splitNumber_append hafter]

theorem not_startsName_iff {cs : List Char} :
    ¬ StartsName cs ↔ ∀ c ∈ cs.head?, c.isAlpha = false := by
  simp [StartsName]

theorem isDigit_head_of_not_startsNumber {after : List Char} (h : ¬ StartsNumber ('e' :: after)) :
    ∀ d ∈ after.head?, d.isDigit = false := by
  cases after with
  | nil => simp
  | cons d after =>
    rintro _ ⟨⟩
    exact Bool.eq_false_iff.mpr fun hd => h (.exponent hd)

namespace CutOff

variable {word after : List Char}

theorem not_startsNumber (h : CutOff word after) (hword : NumberWord word) :
    ¬ StartsNumber after := by
  cases h with
  | number _ _ hafter => exact hafter
  | name hne halpha _ _ => exact absurd halpha (hword.not_alpha hne)
  | mark hmark =>
    exact absurd (hword.startsNumber_append (by simp) []) (not_starts_of_mark? hmark _).1

theorem not_startsName (h : CutOff word after) (hne : word ≠ [])
    (halpha : ∀ c ∈ word, c.isAlpha = true) :
    ¬ StartsName after ∧ ¬ StartsNumber (word ++ after) := by
  cases h with
  | number _ hword _ => exact absurd halpha (hword.not_alpha hne)
  | name _ _ hafter hnumber => exact ⟨hafter, hnumber⟩
  | mark hmark => exact absurd ⟨_, rfl, halpha _ (by simp)⟩ (not_starts_of_mark? hmark []).2.1

/-- The lexeme at the front ends with the word. -/
theorem exists_first (h : CutOff word after) : ∃ c cs lexeme, word = c :: cs ∧
    Lexeme.isGap c = false ∧ Lexeme.first c (cs ++ after) = (lexeme, after) := by
  cases h with
  | number hne hword hafter =>
    obtain ⟨c, cs, rfl⟩ := List.exists_cons_of_ne_nil hne
    have hstart := goesOn_iff.mpr (hword.startsNumber_append hne after)
    exact ⟨c, cs, _, rfl, Lexeme.isGap_eq_false_of_goesOn hstart,
      Lexeme.first_numberWord hword hafter⟩
  | name hne halpha hafter hnumber =>
    obtain ⟨c, cs, rfl⟩ := List.exists_cons_of_ne_nil hne
    have hgap := Lexeme.isGap_eq_false (by decide) (halpha c List.mem_cons_self)
    refine ⟨c, cs, _, rfl, hgap, Lexeme.first_name halpha (not_startsName_iff.mp hafter) ?_⟩
    rintro rfl rfl
    exact isDigit_head_of_not_startsNumber hnumber
  | mark hmark =>
    exact ⟨_, _, _, rfl, (not_starts_of_mark? hmark []).2.2.1, Lexeme.first_of_mark? hmark after⟩

/-- Only one word is cut off from a text. -/
theorem append_inj {word' after' : List Char} (h : CutOff word after) (h' : CutOff word' after')
    (happend : word ++ after = word' ++ after') : word = word' ∧ after = after' := by
  obtain ⟨c, cs, lexeme, rfl, -, hfirst⟩ := h.exists_first
  obtain ⟨c', cs', lexeme', rfl, -, hfirst'⟩ := h'.exists_first
  rw [List.cons_append, List.cons_append] at happend
  obtain ⟨rfl, happend'⟩ := List.cons.inj happend
  rw [happend', hfirst'] at hfirst
  obtain rfl : after' = after := (Prod.mk.inj hfirst).2
  exact ⟨congrArg _ (List.append_cancel_right happend'), rfl⟩

theorem tokensFrom_append {symbol : Symbol} (h : CutOff word after) (hsymbol : Spelling word symbol)
    (pos : Nat) : tokensFrom pos (word ++ after) =
      (tokensFrom (pos + word.length) after).map (⟨symbol, pos⟩ :: ·) := by
  cases hsymbol with
  | number hne hword hvalue =>
    next n =>
    obtain ⟨c, cs, rfl⟩ := List.exists_cons_of_ne_nil hne
    have hsymbol : (Lexeme.number (c :: cs)).symbol? pos = .ok (some (.number n.toFloat)) := by
      rw [Lexeme.symbol?, Numeral.ofChars?_of_denotes hvalue]
    rw [List.cons_append, tokensFrom_cons,
      Lexeme.first_numberWord hword (h.not_startsNumber hword)]
    show (Lexeme.number (c :: cs)).symbol? pos >>= _ = _
    rw [hsymbol]
    rfl
  | name hne halpha =>
    obtain ⟨hafter, hnumber⟩ := h.not_startsName hne halpha
    refine tokensFrom_name hne halpha (not_startsName_iff.mp hafter) ?_ pos
    rintro rfl
    exact isDigit_head_of_not_startsNumber hnumber
  | mark hmark => exact tokensFrom_of_mark? hmark pos after

end CutOff

/-- What denotes a numeral is one token, if nothing is behind it. -/
theorem Denotes.tokensFrom_eq {word : List Char} {n : Numeral} (h : Denotes word n) (pos : Nat) :
    tokensFrom pos word = .ok [⟨.number n.toFloat, pos⟩] := by
  have hne : word ≠ [] := by
    rintro rfl
    cases Numeral.ofChars?_of_denotes h
  have hcut : CutOff word [] := .number hne h.numberWord (by rintro ⟨⟩)
  have htokens := hcut.tokensFrom_append (.number hne h.numberWord h) pos
  rw [List.append_nil] at htokens
  rw [htokens, tokensFrom_nil]
  rfl

theorem Stuck.tokensFrom_eq {pos : Nat} {text : List Char} {fault : Fault}
    (h : Stuck pos text fault) : tokensFrom pos text = .error fault := by
  cases h with
  | malformed hne hword hafter hvalue =>
    obtain ⟨c, cs, rfl⟩ := List.exists_cons_of_ne_nil hne
    rw [List.cons_append, tokensFrom_cons, Lexeme.first_numberWord hword hafter]
    show (Lexeme.number (c :: cs)).symbol? pos >>= _ = _
    rw [Lexeme.symbol?, Numeral.ofChars?_eq_none_iff hword |>.mpr hvalue]
    rfl
  | stray hgap hnumber hname hmark =>
    next c after =>
    have hstray : Lexeme.first c after = (.stray c, after) := by
      have halpha := not_startsName_iff.mp hname c rfl
      rw [Lexeme.first, if_neg (by simp [hgap]), goesOn_eq_false_iff.mpr hnumber,
        if_neg (by decide), if_neg (by simp [halpha]), hmark]
    rw [tokensFrom_cons, hstray]
    rfl

/-- Where no gap is, a word is cut off that stands for a symbol, or there is no token. -/
theorem exists_cutOff_or_stuck {c : Char} (hgap : Lexeme.isGap c = false) (cs : List Char) :
    (∃ word after symbol, c :: cs = word ++ after ∧ CutOff word after ∧ Spelling word symbol) ∨
      ∀ pos, ∃ fault, Stuck pos (c :: cs) fault := by
  by_cases hnumber : StartsNumber (c :: cs)
  · obtain ⟨word, after, happend, hne, hword, hafter⟩ := NumberWord.exists_of_startsNumber hnumber
    cases hvalue : Numeral.ofChars? word with
    | none =>
      rw [happend]
      exact .inr fun pos =>
        ⟨_, .malformed hne hword hafter ((Numeral.ofChars?_eq_none_iff hword).mp hvalue)⟩
    | some n =>
      exact .inl ⟨word, after, _, happend, .number hne hword hafter,
        .number hne hword ((Numeral.ofChars?_eq_some_iff hword).mp hvalue)⟩
  by_cases hname : StartsName (c :: cs)
  · obtain ⟨_, ⟨⟩, halpha⟩ := hname
    have hne : (c :: cs).takeWhile Char.isAlpha ≠ [] := by
      rw [List.takeWhile_cons_of_pos halpha]
      simp
    have hword : ∀ d ∈ (c :: cs).takeWhile Char.isAlpha, d.isAlpha = true :=
      fun d => List.mem_takeWhile_imp
    have hafter : ¬ StartsName ((c :: cs).dropWhile Char.isAlpha) := by
      rw [not_startsName_iff]
      intro d hd
      have hstop := List.head?_dropWhile_not Char.isAlpha (c :: cs)
      rw [hd] at hstop
      exact hstop
    have happend := (List.takeWhile_append_dropWhile (p := Char.isAlpha) (l := c :: cs)).symm
    exact .inl ⟨_, _, _, happend, .name hne hword hafter (happend ▸ hnumber), .name hne hword⟩
  · cases hmark : Lexeme.mark? c with
    | none => exact .inr fun pos => ⟨_, .stray hgap hnumber hname hmark⟩
    | some symbol => exact .inl ⟨[c], cs, symbol, rfl, .mark hmark, .mark hmark⟩

/-! ## Bytes -/

theorem byteLength_append (cs ds : List Char) :
    byteLength (cs ++ ds) = byteLength cs + byteLength ds := by
  rw [byteLength, String.ofList_append, String.utf8ByteSize_append, byteLength, byteLength]

theorem byteLength_eq_length {cs : List Char} (h : ∀ c ∈ cs, c.toNat < 128) :
    byteLength cs = cs.length := by
  induction cs with
  | nil => rfl
  | cons c cs ih =>
    obtain ⟨hc, hcs⟩ := List.forall_mem_cons.mp h
    have hsize : c.utf8Size = 1 := Char.utf8Size_eq_one_iff.mpr (by
      rw [UInt32.le_iff_toNat_le]
      exact Nat.le_of_lt_succ hc)
    rw [← List.singleton_append, byteLength_append, ih hcs, byteLength,
      ← String.singleton_eq_ofList, String.utf8ByteSize_singleton, hsize, List.length_append,
      List.length_singleton]

theorem IsGapWord.byteLength_eq {gap : List Char} (h : IsGapWord gap) :
    byteLength gap = gap.length := by
  refine byteLength_eq_length fun c hc => ?_
  have hgap := h c hc
  simp only [Lexeme.isGap, Bool.or_eq_true, beq_iff_eq, or_assoc] at hgap
  rcases hgap with rfl | rfl | rfl | rfl | rfl <;> decide

theorem CutOff.byteLength_eq {word after : List Char} (h : CutOff word after) :
    byteLength word = word.length := by
  apply byteLength_eq_length
  cases h with
  | number _ hword _ => exact hword.toNat_lt
  | name _ halpha _ _ => exact fun c hc => (toNat_of_isAlpha (halpha c hc)).2.trans_lt (by decide)
  | mark hmark => simpa using (not_starts_of_mark? hmark []).2.2.2

/-! ## Cutting a source -/

/-- The characters of pieces. -/
def charsOf (pieces : List Piece) : List Char := pieces.flatMap Piece.chars

theorem charsOf_cons (p : Piece) (more : List Piece) :
    charsOf (p :: more) = p.gap ++ (p.word ++ charsOf more) := by
  rw [charsOf, List.flatMap_cons, ← charsOf, Piece.chars, List.append_assoc]

theorem Cut.chars_append {pieces : List Piece} {text rest : List Char} (h : Cut pieces text rest) :
    charsOf pieces ++ rest = text := by
  induction h with
  | nil => rfl
  | cons _ _ _ ih => rw [charsOf, List.flatMap_cons, List.append_assoc, ← charsOf, ih]

theorem tokensFrom_gapWord {gap : List Char} (h : IsGapWord gap) (pos : Nat) (cs : List Char) :
    tokensFrom pos (gap ++ cs) = tokensFrom (pos + byteLength gap) cs := by
  rw [← tokensFrom_dropWhile_isGap, ← tokensFrom_dropWhile_isGap (pos + byteLength gap),
    h.byteLength_eq, List.takeWhile_append_of_pos h, List.dropWhile_append_of_pos h,
    List.length_append, Nat.add_assoc]

/-- The tokens of a text from which pieces are cut off are those of the pieces and those of the
rest. -/
theorem Cut.tokensFrom_eq {pieces : List Piece} {text rest : List Char} (h : Cut pieces text rest) :
    ∀ {pos : Nat} {tokens : List Token}, Spelled pos pieces tokens → tokensFrom pos text =
      (tokensFrom (pos + byteLength (charsOf pieces)) rest).map (tokens ++ ·) := by
  induction h with
  | @nil text =>
    rintro pos tokens ⟨⟩
    show tokensFrom pos text = (tokensFrom pos text).map _
    cases tokensFrom pos text <;> rfl
  | @cons p more after rest hgap hword _ ih =>
    rintro pos tokens (_ | @⟨_, _, _, symbol, ts, hsymbol, hmore⟩)
    have hlater := ih hmore
    rw [Piece.chars, byteLength_append, ← Nat.add_assoc] at hlater
    rw [Piece.chars, List.append_assoc, tokensFrom_gapWord hgap, hword.tokensFrom_append hsymbol,
      ← hword.byteLength_eq, hlater, charsOf_cons, byteLength_append, byteLength_append,
      ← Nat.add_assoc, ← Nat.add_assoc]
    cases tokensFrom _ rest <;> rfl

/-- Every text is cut into words, up to its last gap or to something that is no token. -/
theorem exists_cut (pos : Nat) (text : List Char) : ∃ pieces rest tokens,
    Cut pieces text rest ∧ Spelled pos pieces tokens ∧ (IsGapWord rest ∨ ∃ gap more fault,
      rest = gap ++ more ∧ IsGapWord gap ∧
        Stuck (pos + byteLength (charsOf pieces ++ gap)) more fault) := by
  have hgap : IsGapWord (text.takeWhile Lexeme.isGap) := fun c => List.mem_takeWhile_imp
  have hsplit := (List.takeWhile_append_dropWhile (p := Lexeme.isGap) (l := text)).symm
  generalize text.takeWhile Lexeme.isGap = gap at hgap hsplit
  cases hrest : text.dropWhile Lexeme.isGap with
  | nil =>
    rw [hrest, List.append_nil] at hsplit
    exact ⟨[], text, [], .nil, .nil, .inl (hsplit ▸ hgap)⟩
  | cons c cs =>
    have hstop := List.head?_dropWhile_not Lexeme.isGap text
    rw [hrest] at hstop hsplit
    rcases exists_cutOff_or_stuck hstop cs with ⟨word, after, symbol, happend, hword, hsymbol⟩ | h
    · -- What is left behind the word is shorter, so it is cut by recursion.
      have htext : text = Piece.chars ⟨gap, word⟩ ++ after := by
        rw [Piece.chars, List.append_assoc, hsplit, happend]
      have hlength : after.length < text.length := by
        obtain ⟨d, ds, -, hcons, -⟩ := hword.exists_first
        rw [htext, Piece.chars, hcons]
        simp
        omega
      obtain ⟨pieces, rest, tokens, hcut, hspelled, hends⟩ :=
        exists_cut (pos + byteLength (Piece.chars ⟨gap, word⟩)) after
      refine ⟨⟨gap, word⟩ :: pieces, rest, _, ?_, .cons hsymbol hspelled, ?_⟩
      · rw [htext]
        exact .cons hgap hword hcut
      · refine hends.imp_right fun ⟨gap', more, fault, happend', hgap', hstuck⟩ => ?_
        rw [Nat.add_assoc, ← byteLength_append, ← List.append_assoc] at hstuck
        exact ⟨gap', more, fault, happend', hgap', hstuck⟩
    · obtain ⟨fault, hstuck⟩ := h (pos + byteLength gap)
      exact ⟨[], text, [], .nil, .nil, .inr ⟨gap, _, fault, hsplit, hgap, hstuck⟩⟩
termination_by text.length

/-! ## The tokens of a source -/

variable {source : String} {pieces : List Piece} {tokens : List Token}

theorem Cut.tokenize_eq_ok {last : List Char} (h : Cut pieces source.toList last)
    (hlast : IsGapWord last) (hspelled : Spelled 0 pieces tokens) :
    tokenize source = .ok tokens := by
  rw [tokenize, h.tokensFrom_eq hspelled, ← List.append_nil last, tokensFrom_gapWord hlast,
    tokensFrom_nil]
  exact congrArg _ tokens.append_nil

theorem Cut.tokenize_eq_error {gap rest : List Char} {fault : Fault}
    (h : Cut pieces source.toList (gap ++ rest)) (hgap : IsGapWord gap)
    (hspelled : Spelled 0 pieces tokens)
    (hstuck : Stuck (byteLength (charsOf pieces ++ gap)) rest fault) :
    tokenize source = .error fault := by
  rw [byteLength_append] at hstuck
  rw [tokenize, h.tokensFrom_eq hspelled, tokensFrom_gapWord hgap, Nat.zero_add,
    hstuck.tokensFrom_eq]
  rfl

theorem exists_cut_of_tokenize (h : tokenize source = .ok tokens) :
    ∃ pieces last, Cut pieces source.toList last ∧ IsGapWord last ∧ Spelled 0 pieces tokens := by
  obtain ⟨pieces, rest, ts, hcut, hspelled, hgap | ⟨gap, more, fault, hrest, hgap, hstuck⟩⟩ :=
    exists_cut 0 source.toList
  · obtain rfl : ts = tokens := Except.ok.inj ((hcut.tokenize_eq_ok hgap hspelled).symm.trans h)
    exact ⟨pieces, rest, hcut, hgap, hspelled⟩
  · rw [hrest] at hcut
    rw [Nat.zero_add] at hstuck
    rw [hcut.tokenize_eq_error hgap hspelled hstuck] at h
    cases h

/-- Tokens stand one behind the other. -/
theorem Cut.pairwise_pos {text rest : List Char} (h : Cut pieces text rest) :
    ∀ {pos : Nat} {tokens : List Token}, Spelled pos pieces tokens →
      (∀ t ∈ tokens, pos ≤ t.pos) ∧ tokens.Pairwise (·.pos < ·.pos) := by
  induction h with
  | nil =>
    rintro pos _ ⟨⟩
    exact ⟨by simp, .nil⟩
  | @cons p more after rest hgap hword _ ih =>
    rintro pos _ (_ | @⟨_, _, _, symbol, ts, hsymbol, hmore⟩)
    obtain ⟨hle, hpairwise⟩ := ih hmore
    have hchars : byteLength p.gap < byteLength p.chars := by
      obtain ⟨c, cs, -, hcons, -⟩ := hword.exists_first
      have hlength := hword.byteLength_eq
      rw [hcons] at hlength
      rw [Piece.chars, byteLength_append, hcons, hlength, List.length_cons]
      omega
    have hlt : ∀ t ∈ ts, pos + byteLength p.gap < t.pos := by
      intro t ht
      have hpos := hle t ht
      omega
    refine ⟨List.forall_mem_cons.mpr ⟨Nat.le_add_right _ _, ?_⟩, .cons hlt hpairwise⟩
    intro t ht
    have hpos := hlt t ht
    omega

end Calculator
