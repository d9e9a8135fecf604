import Calculator.Proofs.Compose
import Calculator.Proofs.Words

/-!
# Cutting a source with its names in another case

A name in another case is still one word, so a source is cut at the same places, unless one of its
names is a single `e`: before a digit that would be the `e` of a number, as an `E` is not. The
tokens are the same up to the case of the names.

* `CaseAt`: texts that differ in the case of letters at certain places
* `SameButCase`, `Piece.Recased`: words and pieces in another case
* `Cut.recased`, `Spelled.exists_recased`: how a text is cut, and the tokens of the pieces
* `tokenize_of_caseAt`: the tokens of a source with its names in another case
-/

namespace Calculator

/-! ## Texts in another case -/

/-- Texts that differ only in the case of letters at certain places, counted from `pos`. -/
inductive CaseAt (place : Nat → Prop) : (pos : Nat) → List Char → List Char → Prop
  | nil {pos : Nat} : CaseAt place pos [] []
  | cons {pos : Nat} {c c' : Char} {cs cs' : List Char} (hcase : c.toLower = c'.toLower)
    (hplace : c ≠ c' → place pos) (h : CaseAt place (pos + 1) cs cs') :
    CaseAt place pos (c :: cs) (c' :: cs')

theorem isBlank_eq_of_toLower_eq {c c' : Char} (h : c.toLower = c'.toLower) :
    Text.isBlank c = Text.isBlank c' := by
  rcases eq_or_isAlpha_of_toLower_eq h with rfl | ⟨halpha, halpha'⟩
  · rfl
  · rw [isBlank_eq_false_of_isAlpha halpha, isBlank_eq_false_of_isAlpha halpha']

namespace CaseAt

variable {place place' : Nat → Prop} {pos : Nat} {cs cs' ds text' : List Char}

theorem lowercase_eq (h : CaseAt place pos cs cs') : Text.lowercase cs = Text.lowercase cs' := by
  induction h with
  | nil => rfl
  | cons hcase _ _ ih => exact congrArg₂ List.cons hcase ih

theorem mono (h : CaseAt place pos cs cs') (hplace : ∀ k, pos ≤ k → place k → place' k) :
    CaseAt place' pos cs cs' := by
  induction h with
  | nil => exact .nil
  | cons hcase hp _ ih =>
    exact .cons hcase (fun hne => hplace _ le_rfl (hp hne))
      (ih fun k hk => hplace k (Nat.le_of_succ_le hk))

theorem eq_self (h : CaseAt place pos cs cs')
    (hplace : ∀ k, pos ≤ k → k < pos + cs.length → ¬ place k) : cs' = cs := by
  induction h with
  | nil => rfl
  | @cons pos c c' cs cs' hcase hp _ ih =>
    have hc : c = c' := by
      by_contra hne
      exact hplace pos le_rfl (by simp) (hp hne)
    rw [hc, ih fun k hk hlt => hplace k (Nat.le_of_succ_le hk) (by rw [List.length_cons]; omega)]

theorem append_left (h : CaseAt place pos (cs ++ ds) text') :
    ∃ cs' ds', text' = cs' ++ ds' ∧ CaseAt place pos cs cs' ∧
      CaseAt place (pos + cs.length) ds ds' := by
  induction cs generalizing pos text' with
  | nil => exact ⟨[], text', rfl, .nil, h⟩
  | cons c cs ih =>
    cases h with
    | cons hcase hplace h =>
      obtain ⟨cs', ds', rfl, hcs, hds⟩ := ih h
      rw [Nat.add_right_comm] at hds
      exact ⟨_ :: cs', ds', rfl, .cons hcase hplace hcs, hds⟩

/-- Places counted without the white space in front of them are places without white space. -/
theorem strip (hlower : Text.lowercase cs = Text.lowercase cs')
    (hplace : ∀ i, cs[i]? ≠ cs'[i]? → place (pos + (Source.strip (cs.take i)).length)) :
    CaseAt place pos (Source.strip cs) (Source.strip cs') := by
  induction cs generalizing pos cs' with
  | nil =>
    obtain rfl : cs' = [] := List.map_eq_nil_iff.mp hlower.symm
    exact .nil
  | cons c cs ih =>
    obtain ⟨c', cs', rfl, hcase, hlater⟩ := List.map_eq_cons_iff.mp hlower.symm
    have hblank := isBlank_eq_of_toLower_eq hcase.symm
    cases hc : Text.isBlank c with
    | true =>
      rw [Source.strip, Source.strip, List.filter_cons_of_neg (by simp [hc]),
        List.filter_cons_of_neg (by simp [← hblank, hc])]
      refine ih hlater.symm fun i hi => ?_
      have hnext := hplace (i + 1) hi
      rwa [List.take_succ_cons, Source.strip, List.filter_cons_of_neg (by simp [hc])] at hnext
    | false =>
      rw [strip_mark hc, strip_mark (hblank ▸ hc)]
      refine .cons hcase.symm (fun hne => ?_) (ih hlater.symm fun i hi => ?_)
      · exact hplace 0 (by simpa using hne)
      · have hnext := hplace (i + 1) hi
        rw [List.take_succ_cons, strip_mark hc, List.length_cons] at hnext
        rwa [Nat.add_assoc, Nat.add_comm 1]

end CaseAt

/-! ## Words in another case -/

/-- Words that are equal, but that a word of letters may be in another case. -/
def SameButCase (word word' : List Char) : Prop :=
  word = word' ∨ (∀ c ∈ word, c.isAlpha = true) ∧ Text.lowercase word = Text.lowercase word'

/-- Pieces with the same gap, and words in another case behind it. -/
structure Piece.Recased (p p' : Piece) : Prop where
  gap : p.gap = p'.gap
  word : SameButCase p.word p'.word

/-- No word is a single `e`, in either case. -/
def Unmistakable (pieces : List Piece) : Prop := ∀ p ∈ pieces, Text.lowercase p.word ≠ ['e']

/-- A word of letters is no number, unless it is an `e` before a digit. -/
theorem not_startsNumber_of_isAlpha {word : List Char} (hne : word ≠ [])
    (halpha : ∀ c ∈ word, c.isAlpha = true) (he : word ≠ ['e']) (rest : List Char) :
    ¬ StartsNumber (word ++ rest) := by
  obtain ⟨c, cs, rfl⟩ := List.exists_cons_of_ne_nil hne
  obtain ⟨hc, hcs⟩ := List.forall_mem_cons.mp halpha
  rw [← goesOn_eq_false_iff]
  by_cases hce : c = 'e'
  · subst hce
    cases cs with
    | nil => exact absurd rfl he
    | cons d cs => exact Lexeme.isDigit_eq_false_of_isAlpha (hcs d List.mem_cons_self)
  · have hpoint : c ≠ '.' := Lexeme.ne_of_property hc (by decide)
    rw [List.cons_append, Lexeme.goesOn_of_ne hce, Lexeme.isDigit_eq_false_of_isAlpha hc,
      Bool.false_or, beq_eq_false_iff_ne]
    exact hpoint

namespace SameButCase

variable {word word' : List Char}

theorem lowercase_eq (h : SameButCase word word') :
    Text.lowercase word = Text.lowercase word' := by
  rcases h with rfl | ⟨-, hcase⟩
  · rfl
  · exact hcase

theorem ne_nil (h : SameButCase word word') (hne : word ≠ []) : word' ≠ [] := by
  rintro rfl
  exact hne (List.map_eq_nil_iff.mp h.lowercase_eq)

theorem eq_of_not_alpha (h : SameButCase word word') (hword : ¬ ∀ c ∈ word, c.isAlpha = true) :
    word = word' :=
  h.resolve_right fun halpha => hword halpha.1

theorem isAlpha (h : SameButCase word word') (hword : ∀ c ∈ word, c.isAlpha = true) :
    ∀ c ∈ word', c.isAlpha = true := by
  apply isAlpha_of_lowercase
  rw [← h.lowercase_eq]
  intro d hd
  obtain ⟨c, hc, rfl⟩ := List.mem_map.mp hd
  rw [c.isAlpha_toLower_eq_isAlpha]
  exact hword c hc

theorem byteLength_eq (h : SameButCase word word') : byteLength word = byteLength word' := by
  rcases h with rfl | h
  · rfl
  have hlow : ∀ {cs : List Char}, (∀ c ∈ cs, c.isAlpha = true) → byteLength cs = cs.length :=
    fun halpha => byteLength_eq_length fun c hc =>
      (toNat_of_isAlpha (halpha c hc)).2.trans_lt (by decide)
  have hlength := congrArg List.length h.2
  rw [Text.lowercase, Text.lowercase, List.length_map, List.length_map] at hlength
  rw [hlow h.1, hlow (isAlpha (.inr h) h.1), hlength]

end SameButCase

/-! ## Where an expression is cut -/

theorem lowercase_charsOf {pieces pieces' : List Piece}
    (h : List.Forall₂ Piece.Recased pieces pieces') :
    Text.lowercase (charsOf pieces) = Text.lowercase (charsOf pieces') := by
  induction h with
  | nil => rfl
  | @cons p p' more more' hp _ ih =>
    have hword := hp.word.lowercase_eq
    simp only [Text.lowercase] at hword ih ⊢
    simp only [charsOf_cons, List.map_append, hp.gap, hword, ih]

theorem StartsName.of_lowercase_eq {cs cs' : List Char}
    (h : Text.lowercase cs = Text.lowercase cs') (hstart : StartsName cs') : StartsName cs := by
  obtain ⟨c', hc', halpha⟩ := hstart
  have hhead := congrArg List.head? h
  rw [Text.lowercase, Text.lowercase, List.head?_map, List.head?_map, hc'] at hhead
  obtain ⟨c, hc, hcase⟩ := Option.map_eq_some_iff.mp hhead
  refine ⟨c, hc, ?_⟩
  rw [← c.isAlpha_toLower_eq_isAlpha, hcase, c'.isAlpha_toLower_eq_isAlpha, halpha]

theorem SameButCase.eq_of_mark? {c : Char} {symbol : Symbol} {word' : List Char}
    (h : SameButCase [c] word') (hmark : Lexeme.mark? c = some symbol) : word' = [c] := by
  refine (h.eq_of_not_alpha fun halpha => ?_).symm
  exact (not_starts_of_mark? hmark []).2.1 ⟨c, rfl, halpha c List.mem_cons_self⟩

section Cutting

variable {pieces pieces' : List Piece} {text last : List Char}

/-- A word in another case starts no number, unless it is one. -/
theorem CutOff.startsNumber_of_recased {word word' after : List Char} (h : CutOff word after)
    (hcase : SameButCase word word') (he : Text.lowercase word ≠ ['e']) {rest : List Char}
    (hstart : StartsNumber (word' ++ rest)) : StartsNumber (word ++ after) := by
  cases h with
  | number hne hword _ => exact hword.startsNumber_append hne after
  | name hne halpha _ _ =>
    have he' : word' ≠ ['e'] := by
      rintro rfl
      exact he hcase.lowercase_eq
    exact absurd hstart
      (not_startsNumber_of_isAlpha (hcase.ne_nil hne) (hcase.isAlpha halpha) he' rest)
  | mark hmark =>
    rw [hcase.eq_of_mark? hmark] at hstart
    exact absurd hstart (not_starts_of_mark? hmark rest).1

theorem Cut.startsNumber_of_recased (h : Cut pieces text last)
    (hpieces : List.Forall₂ Piece.Recased pieces pieces') (he : Unmistakable pieces)
    (hstart : StartsNumber (charsOf pieces' ++ last)) : StartsNumber text := by
  cases h with
  | nil =>
    cases hpieces
    exact hstart
  | @cons p more after _ hgap hword _ =>
    cases hpieces with
    | @cons _ p' _ more' hp _ =>
    rw [charsOf_cons, ← hp.gap, List.append_assoc, List.append_assoc] at hstart
    rw [Piece.chars, List.append_assoc]
    cases hgaps : p.gap with
    | nil =>
      rw [hgaps] at hstart
      exact hword.startsNumber_of_recased hp.word (he p List.mem_cons_self) hstart
    | cons c gap =>
      -- Neither does a number start in a gap.
      rw [hgaps] at hstart
      have hc := Lexeme.isGap_eq_false_of_goesOn (goesOn_iff.mpr hstart)
      rw [hgap c (hgaps ▸ List.mem_cons_self)] at hc
      cases hc

/-- A word in another case is cut off like the word itself. -/
theorem CutOff.recased {word word' after after' : List Char} (h : CutOff word after)
    (hcase : SameButCase word word') (he : Text.lowercase word ≠ ['e'])
    (hnumber : StartsNumber after' → StartsNumber after)
    (hname : StartsName after' → StartsName after) : CutOff word' after' := by
  cases h with
  | number hne hword hafter =>
    rw [← hcase.eq_of_not_alpha (hword.not_alpha hne)]
    exact .number hne hword (mt hnumber hafter)
  | name hne halpha hafter hstart =>
    refine .name (hcase.ne_nil hne) (hcase.isAlpha halpha) (mt hname hafter) fun hstart' => ?_
    exact hstart ((CutOff.name hne halpha hafter hstart).startsNumber_of_recased hcase he hstart')
  | mark hmark =>
    rw [hcase.eq_of_mark? hmark]
    exact .mark hmark

/-- A text with its names in another case is cut at the same places. -/
theorem Cut.recased (h : Cut pieces text last)
    (hpieces : List.Forall₂ Piece.Recased pieces pieces') (he : Unmistakable pieces) :
    Cut pieces' (charsOf pieces' ++ last) last := by
  induction h generalizing pieces' with
  | nil =>
    cases hpieces
    exact .nil
  | @cons p more after last hgap hword hmore ih =>
    cases hpieces with
    | @cons _ p' _ more' hp hpieces =>
    obtain ⟨hep, hemore⟩ := List.forall_mem_cons.mp he
    have hlower : Text.lowercase after = Text.lowercase (charsOf more' ++ last) := by
      have hcharsOf := lowercase_charsOf hpieces
      rw [← hmore.chars_append]
      simp only [Text.lowercase] at hcharsOf ⊢
      rw [List.map_append, List.map_append, hcharsOf]
    have hcut := hword.recased hp.word hep (hmore.startsNumber_of_recased hpieces hemore)
      (StartsName.of_lowercase_eq hlower)
    have htext : charsOf (p' :: more') ++ last = p'.chars ++ (charsOf more' ++ last) := by
      rw [charsOf, List.flatMap_cons, ← charsOf, List.append_assoc]
    rw [htext]
    exact .cons (hp.gap ▸ hgap) hcut (ih hpieces hemore)

end Cutting

/-! ## The tokens of an expression in another case -/

/-- A symbol with its name in lower case, if it is one. -/
def Symbol.lowercase : Symbol → Symbol
  | name word => name (String.ofList (Text.lowercase word.toList))
  | symbol => symbol

/-- A token with its name in lower case. -/
def Token.lowercase (t : Token) : Token := { t with symbol := t.symbol.lowercase }

theorem Spelling.exists_recased {word word' : List Char} {symbol : Symbol}
    (h : Spelling word symbol) (hcase : SameButCase word word') :
    ∃ symbol', Spelling word' symbol' ∧ symbol'.lowercase = symbol.lowercase := by
  cases h with
  | number hne hword hvalue =>
    rw [← hcase.eq_of_not_alpha (hword.not_alpha hne)]
    exact ⟨_, .number hne hword hvalue, rfl⟩
  | name hne halpha =>
    refine ⟨_, .name (hcase.ne_nil hne) (hcase.isAlpha halpha), ?_⟩
    rw [Symbol.lowercase, Symbol.lowercase, String.toList_ofList, String.toList_ofList,
      hcase.lowercase_eq]
  | mark hmark =>
    rw [hcase.eq_of_mark? hmark]
    exact ⟨_, .mark hmark, rfl⟩

theorem Spelled.exists_recased {pos : Nat} {pieces pieces' : List Piece} {ts : List Token}
    (h : Spelled pos pieces ts) (hpieces : List.Forall₂ Piece.Recased pieces pieces') :
    ∃ ts', Spelled pos pieces' ts' ∧ ts'.map Token.lowercase = ts.map Token.lowercase := by
  induction h generalizing pieces' with
  | nil =>
    cases hpieces
    exact ⟨[], .nil, rfl⟩
  | @cons pos p more symbol ts hsymbol _ ih =>
    cases hpieces with
    | @cons _ p' _ more' hp hpieces =>
    obtain ⟨ts', hspelled, hts⟩ := ih hpieces
    obtain ⟨symbol', hsymbol', hlower⟩ := hsymbol.exists_recased hp.word
    have hchars : byteLength p.chars = byteLength p'.chars := by
      rw [Piece.chars, Piece.chars, byteLength_append, byteLength_append, hp.gap,
        hp.word.byteLength_eq]
    rw [hchars] at hspelled
    refine ⟨_, .cons hsymbol' hspelled, ?_⟩
    rw [List.map_cons, List.map_cons, hts, Token.lowercase, Token.lowercase, hlower, hp.gap]

theorem Spelled.exists_name {pos : Nat} {pieces : List Piece} {ts : List Token}
    (h : Spelled pos pieces ts) : ∀ p ∈ pieces, (∀ c ∈ p.word, c.isAlpha = true) →
      ∃ namePos, ⟨.name (String.ofList p.word), namePos⟩ ∈ ts := by
  induction h with
  | nil => simp
  | @cons pos p more symbol ts hsymbol _ ih =>
    obtain ⟨gap, word⟩ := p
    refine List.forall_mem_cons.mpr ⟨fun halpha => ?_, fun q hq halpha => ?_⟩
    · cases hsymbol with
      | number hne hword _ => exact absurd halpha (hword.not_alpha hne)
      | name _ _ => exact ⟨_, List.mem_cons_self⟩
      | mark hmark =>
        exact absurd ⟨_, rfl, halpha _ (by simp)⟩ (not_starts_of_mark? hmark []).2.1
    · obtain ⟨namePos, hmem⟩ := ih q hq halpha
      exact ⟨namePos, List.mem_cons_of_mem _ hmem⟩

theorem Spelling.eq_of_name {word : List Char} {name : String} (h : Spelling word (.name name)) :
    name = String.ofList word ∧ ∀ c ∈ word, c.isAlpha = true := by
  cases h with
  | name _ halpha => exact ⟨rfl, halpha⟩
  | mark hmark => exact absurd rfl ((ne_of_mark? hmark).2 _)

/-! ## Letters in names -/

/-- The character with an index among those of a source lies in one of the names. -/
def InName (tokens : List Token) (index : Nat) : Prop :=
  ∃ word pos, ⟨.name word, pos⟩ ∈ tokens ∧ pos ≤ index ∧ index < pos + word.length

theorem InName.of_cons {t : Token} {ts : List Token} {index : Nat}
    (h : InName (t :: ts) index) :
    (∃ word, t.symbol = .name word ∧ t.pos ≤ index ∧ index < t.pos + word.length) ∨
      InName ts index := by
  obtain ⟨word, pos, hmem, hplace⟩ := h
  rcases List.mem_cons.mp hmem with rfl | hmem
  · exact .inl ⟨word, rfl, hplace⟩
  · exact .inr ⟨word, pos, hmem, hplace⟩

/-- If letters change their case in names only, the text still consists of pieces, with the same
gaps and with words in another case. -/
theorem Cut.exists_recased {pieces : List Piece} {text last : List Char}
    (h : Cut pieces text last) : ∀ {pos : Nat} {ts : List Token} {text' : List Char},
      Spelled pos pieces ts → CaseAt (InName ts) pos text text' →
      ∃ pieces', List.Forall₂ Piece.Recased pieces pieces' ∧ text' = charsOf pieces' ++ last := by
  induction h with
  | nil =>
    rintro pos ts text' ⟨⟩ hcase
    exact ⟨[], .nil, hcase.eq_self fun k _ _ ⟨_, _, hmem, _⟩ => nomatch hmem⟩
  | @cons p more after last hgap hword hmore ih =>
    rintro pos ts text' (_ | @⟨_, _, _, symbol, ts, hsymbol, hspelled⟩) hcase
    rw [Piece.chars, byteLength_append, hgap.byteLength_eq, hword.byteLength_eq,
      ← Nat.add_assoc] at hspelled
    rw [hgap.byteLength_eq, Piece.chars, List.append_assoc] at hcase
    have hbefore : ∀ k, k < pos + p.gap.length + p.word.length → ¬ InName ts k := by
      rintro k hk ⟨word, wordPos, hmem, hle, -⟩
      have hlater := (hmore.pairwise_pos hspelled).1 _ hmem
      exact absurd (hlater.trans hle) (Nat.not_le_of_lt hk)
    -- Neither the gap nor a word that is no name has a place in a name, so they stay as they are.
    obtain ⟨gap', rest', rfl, hgapCase, hcase⟩ := hcase.append_left
    obtain ⟨word', after', rfl, hwordCase, hcase⟩ := hcase.append_left
    have hgap' : gap' = p.gap := by
      refine hgapCase.eq_self fun k _ hk hname => ?_
      rcases hname.of_cons with ⟨word, -, hle, -⟩ | hname
      · exact absurd hle (Nat.not_le_of_lt hk)
      · exact hbefore k (Nat.lt_add_right _ hk) hname
    have hword' : SameButCase p.word word' := by
      by_cases halpha : ∀ c ∈ p.word, c.isAlpha = true
      · exact .inr ⟨halpha, hwordCase.lowercase_eq⟩
      · refine .inl (hwordCase.eq_self fun k _ hk hname => ?_).symm
        rcases hname.of_cons with ⟨word, rfl, -⟩ | hname
        · exact halpha hsymbol.eq_of_name.2
        · exact hbefore k hk hname
    obtain ⟨more', hmore', rfl⟩ := ih hspelled <| hcase.mono fun k hk hname => by
      refine hname.of_cons.resolve_left ?_
      rintro ⟨word, rfl, -, hlt⟩
      rw [hsymbol.eq_of_name.1, String.length_ofList] at hlt
      exact absurd hlt (Nat.not_lt_of_le hk)
    refine ⟨⟨gap', word'⟩ :: more', .cons ⟨hgap'.symm, hword'⟩ hmore', ?_⟩
    rw [charsOf_cons, List.append_assoc, List.append_assoc]

/-- A source whose names are in another case has the same tokens up to that case, if none of the
names is a single `e`. -/
theorem tokenize_of_caseAt {source source' : String} {ts : List Token}
    (h : tokenize source = .ok ts)
    (he : ∀ word pos, ⟨.name word, pos⟩ ∈ ts → Text.lowercase word.toList ≠ ['e'])
    (hcase : CaseAt (InName ts) 0 source.toList source'.toList) :
    ∃ ts', tokenize source' = .ok ts' ∧ ts'.map Token.lowercase = ts.map Token.lowercase := by
  obtain ⟨pieces, last, hcut, hlast, hspelled⟩ := exists_cut_of_tokenize h
  obtain ⟨pieces', hpieces, hsource'⟩ := hcut.exists_recased hspelled hcase
  have hunmistakable : Unmistakable pieces := by
    intro p hp hlower
    have halpha := @isAlpha_of_lowercase p.word (by simp [hlower])
    obtain ⟨pos, hmem⟩ := hspelled.exists_name p hp halpha
    exact he _ pos hmem (by rwa [String.toList_ofList])
  obtain ⟨ts', hspelled', hlower⟩ := hspelled.exists_recased hpieces
  have hcut' := hcut.recased hpieces hunmistakable
  rw [← hsource'] at hcut'
  exact ⟨ts', hcut'.tokenize_eq_ok hlast hspelled', hlower⟩

end Calculator
