import Calculator.Proofs.Compose
import Calculator.Proofs.Words

/-!
# Screened text in front of the lexer

The screening and the lexer have each their own classes of characters. What passes the screening has
no white space, and whatever comes next in it starts a token: a digit or a point starts a number, a
letter a name or a number, and every other character is a mark. So the lexer finds no gap and
nothing stray in it, and only a number word that denotes no number can be wrong.

* `Source.starts_of_isAccepted`: an accepted character starts a token
* `Cut.exists_words`: a text without gaps is cut into words that touch
* `tokenize_screened`: the tokens of a screened text, or the malformed number in it
-/

namespace Calculator

/-! ## Accepted characters -/

namespace Source

theorem isAccepted_of_screen {expression source : String} (h : screen expression = .ok source) :
    ∀ c ∈ source.toList, isAccepted c = true := by
  obtain ⟨hforeign, rfl⟩ := screen_eq_ok_iff.mp h
  rw [String.toList_ofList]
  intro c hc
  obtain ⟨hmem, hblank⟩ := List.mem_filter.mp hc
  have hno := hforeign c hmem
  rw [isForeign, hblank, Bool.true_and, Bool.not_eq_false'] at hno
  exact hno

theorem screen_eq_self {source : String} (h : ∀ c ∈ source.toList, isAccepted c = true) :
    screen source = .ok source :=
  screen_eq_ok_iff.mpr
    ⟨fun c hc => isForeign_of_isAccepted (h c hc), by rw [strip_eq_self h, String.ofList_toList]⟩

/-- An accepted character starts a number or a name, or it is a mark. -/
theorem starts_of_isAccepted {c : Char} (h : isAccepted c = true) (cs : List Char) :
    StartsNumber (c :: cs) ∨ StartsName (c :: cs) ∨ ∃ symbol, Lexeme.mark? c = some symbol := by
  simp only [isAccepted, Bool.or_eq_true, Bool.and_eq_true] at h
  rcases h with (hdigit | hmark) | ⟨halpha, -⟩
  · exact .inl (.digit hdigit)
  · have hmem : c ∈ marks := by simpa using hmark
    simp only [marks, List.mem_cons, List.not_mem_nil, or_false] at hmem
    rcases hmem with rfl | rfl | rfl | rfl | rfl | rfl | rfl | rfl | rfl
    · exact .inl .point
    all_goals exact .inr (.inr ⟨_, rfl⟩)
  · exact .inr (.inl ⟨c, rfl, halpha⟩)

theorem isGap_eq_false_of_isAccepted {c : Char} (h : isAccepted c = true) :
    Lexeme.isGap c = false := by
  by_contra hgap
  simp only [Bool.not_eq_false, Lexeme.isGap, Bool.or_eq_true, beq_iff_eq, or_assoc] at hgap
  rcases hgap with rfl | rfl | rfl | rfl | rfl <;> revert h <;> decide

end Source

/-! ## Words that touch -/

/-- A word with no gap in front of it. -/
def Piece.ofWord (word : List Char) : Piece := ⟨[], word⟩

theorem charsOf_map_ofWord (words : List (List Char)) :
    charsOf (words.map Piece.ofWord) = words.flatten := by
  induction words with
  | nil => rfl
  | cons word words ih =>
    rw [List.map_cons, charsOf_cons, ih, List.flatten_cons, Piece.ofWord, List.nil_append]

theorem IsGapWord.eq_nil {gap : List Char} (h : IsGapWord gap)
    (hno : ∀ c ∈ gap, Lexeme.isGap c = false) : gap = [] := by
  refine List.eq_nil_iff_forall_not_mem.mpr fun c hc => ?_
  have hgap := h c hc
  rw [hno c hc] at hgap
  cases hgap

theorem Cut.exists_words {pieces : List Piece} {text rest : List Char} (h : Cut pieces text rest)
    (hno : ∀ c ∈ text, Lexeme.isGap c = false) :
    ∃ words : List (List Char), pieces = words.map Piece.ofWord := by
  induction h with
  | nil => exact ⟨[], rfl⟩
  | @cons p more after rest hgap _ _ ih =>
    obtain ⟨hp, hafter⟩ := List.forall_mem_append.mp hno
    obtain ⟨words, rfl⟩ := ih hafter
    obtain ⟨gap, word⟩ := p
    obtain rfl := hgap.eq_nil (List.forall_mem_append.mp hp).1
    exact ⟨word :: words, rfl⟩

/-! ## The lexer on screened text -/

/-- Accepted characters are cut into words, or there is a number word among them that denotes no
number. -/
theorem exists_words_or_malformed {source : String}
    (h : ∀ c ∈ source.toList, Source.isAccepted c = true) :
    (∃ tokens, ∃ words : List (List Char), tokenize source = .ok tokens ∧
      words.flatten = source.toList ∧ Cut (words.map Piece.ofWord) source.toList [] ∧
      Spelled 0 (words.map Piece.ofWord) tokens) ∨
    ∃ front word after, source.toList = front ++ (word ++ after) ∧ word ≠ [] ∧ NumberWord word ∧
      ¬ StartsNumber after ∧ (∀ n, ¬ Denotes word n) ∧ tokenize source =
        .error (.malformed (.malformedNumber (String.ofList word) (byteLength front))) := by
  have hno : ∀ c ∈ source.toList, Lexeme.isGap c = false := fun c hc =>
    Source.isGap_eq_false_of_isAccepted (h c hc)
  obtain ⟨pieces, rest, tokens, hcut, hspelled, hrest⟩ := exists_cut 0 source.toList
  obtain ⟨words, rfl⟩ := hcut.exists_words hno
  have hchars := hcut.chars_append
  rw [charsOf_map_ofWord] at hchars
  rw [← hchars, List.forall_mem_append] at h hno
  rcases hrest with hgap | ⟨gap, more, fault, rfl, hgap, hstuck⟩
  · obtain rfl := hgap.eq_nil hno.2
    rw [List.append_nil] at hchars
    exact .inl ⟨tokens, words, hcut.tokenize_eq_ok hgap hspelled, hchars, hcut, hspelled⟩
  · rw [List.forall_mem_append] at h hno
    obtain rfl := hgap.eq_nil hno.2.1
    rw [Nat.zero_add] at hstuck
    have hfault := hcut.tokenize_eq_error hgap hspelled hstuck
    rw [List.append_nil, charsOf_map_ofWord] at hstuck
    cases hstuck with
    | @malformed word after hne hword hafter hvalue =>
      exact .inr ⟨words.flatten, word, after, hchars.symm, hne, hword, hafter, hvalue, hfault⟩
    | @stray c after hgap hnumber hname hmark =>
      rcases Source.starts_of_isAccepted (h.2.2 c List.mem_cons_self) after with
        hstart | hstart | ⟨symbol, hsymbol⟩
      · exact absurd hstart hnumber
      · exact absurd hstart hname
      · rw [hsymbol] at hmark
        cases hmark

/-- What passes the screening has no white space and passes it again unchanged. It has tokens, each
of them the word at its place, and these words touch and make up the whole text. Or the lexer comes
to a number word that denotes no number and calls it malformed. It never comes to a character that
starts no token. -/
theorem tokenize_screened {expression source : String} (h : Source.screen expression = .ok source) :
    (∀ c ∈ source.toList, Text.isBlank c = false) ∧
    Source.screen source = .ok source ∧
    ((∃ tokens, ∃ words : List (List Char), tokenize source = .ok tokens ∧
        words.flatten = source.toList ∧ Cut (words.map Piece.ofWord) source.toList [] ∧
        Spelled 0 (words.map Piece.ofWord) tokens) ∨
      ∃ front word after, source.toList = front ++ (word ++ after) ∧ word ≠ [] ∧ NumberWord word ∧
        ¬ StartsNumber after ∧ (∀ n, ¬ Denotes word n) ∧ tokenize source =
          .error (.malformed (.malformedNumber (String.ofList word) (byteLength front)))) ∧
    (∀ c pos, tokenize source ≠ .error (.malformed (.strayCharacter c pos))) ∧
    ∀ word pos, (Flaw.malformedNumber word pos).details =
      s!"malformed number '{word}' at position {pos}" := by
  have haccepted := Source.isAccepted_of_screen h
  have hcases := exists_words_or_malformed haccepted
  refine ⟨fun c hc => isBlank_eq_false_of_isAccepted (haccepted c hc),
    Source.screen_eq_self haccepted, hcases, fun c pos hstray => ?_, fun _ _ => rfl⟩
  rcases hcases with ⟨tokens, words, htokens, -⟩ | ⟨front, word, after, -, -, -, -, -, hfault⟩
  · rw [hstray] at htokens
    cases htokens
  · rw [hstray] at hfault
    cases hfault

/-- White space inside a number and a name leaves no gap, and an `e` that comes to stand before a
digit starts a number. -/
theorem tokenize_screened_two :
    (Source.screen "1 0*l o\u2003g" = .ok "10*log" ∧
      ∃ tokens, ∃ words : List (List Char), tokenize "10*log" = .ok tokens ∧
        words.flatten = "10*log".toList ∧ Spelled 0 (words.map Piece.ofWord) tokens) ∧
    Source.screen "+e 5" = .ok "+e5" ∧
      ∃ word pos, tokenize "+e5" = .error (.malformed (.malformedNumber word pos)) := by
  have hlog : Source.screen "1 0*l o\u2003g" = .ok "10*log" := by decide +kernel
  have hexponent : Source.screen "+e 5" = .ok "+e5" := by decide +kernel
  refine ⟨⟨hlog, ?_⟩, hexponent, ?_⟩
  · rcases (tokenize_screened hlog).2.2.1 with
      ⟨tokens, words, htokens, hwords, -, hspelled⟩ | ⟨_, _, _, -, -, -, -, -, hfault⟩
    · exact ⟨tokens, words, htokens, hwords, hspelled⟩
    · have hok : (tokenize "10*log").toOption.isSome = true := by decide +kernel
      rw [hfault] at hok
      cases hok
  · rcases (tokenize_screened hexponent).2.2.1 with
      ⟨tokens, words, htokens, -⟩ | ⟨_, _, _, -, -, -, -, -, hfault⟩
    · have hno : (tokenize "+e5").toOption = none := by decide +kernel
      rw [htokens] at hno
      cases hno
    · exact ⟨_, _, hfault⟩

end Calculator
