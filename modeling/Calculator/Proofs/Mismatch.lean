import Calculator.Proofs.Balance
import Calculator.Proofs.Compose

/-!
# Parentheses that do not match

The parser counts the parentheses among its tokens before it reads anything. They are those of the
text, in which white space and everything else stand between them, so what is wrong with them can be
told from the text alone.

* `Parenthesized`: tokens with the parentheses of a text
* `evaluate_unbalanced`: parentheses that do not match are reported, whatever else is wrong
-/

namespace Calculator

/-! ## The parentheses of a text and of its tokens -/

theorem opens_eq_count (tokens : List Token) : opens tokens = (parenChars tokens).count '(' := by
  rw [parenChars, List.count_filterMap, opens]
  refine List.countP_congr fun t _ => ?_
  cases h : t.symbol <;> simp

theorem closes_eq_count (tokens : List Token) : closes tokens = (parenChars tokens).count ')' := by
  rw [parenChars, List.count_filterMap, closes]
  refine List.countP_congr fun t _ => ?_
  cases h : t.symbol <;> simp

theorem count_parens {c : Char} (h : isParen c = true) (cs : List Char) :
    (parens cs).count c = cs.count c :=
  List.count_filter h

/-- Tokens have the parentheses of a text, in the same order. -/
def Parenthesized (cs : List Char) (tokens : List Token) : Prop := parenChars tokens = parens cs

theorem parenthesized_of_tokenize {cs : List Char} {tokens : List Token}
    (h : tokenize (String.ofList (Source.strip cs)) = .ok tokens) : Parenthesized cs tokens := by
  rw [tokenize, String.toList_ofList] at h
  rw [Parenthesized, parenChars_of_tokensFrom 0 _ _ h, parens_strip]

namespace Parenthesized

variable {cs : List Char} {tokens : List Token} (h : Parenthesized cs tokens)

include h

theorem opens_eq : opens tokens = cs.count '(' := by
  rw [opens_eq_count, h, count_parens rfl]

theorem closes_eq : closes tokens = cs.count ')' := by
  rw [closes_eq_count, h, count_parens rfl]

/-- The parentheses up to a place in the text are those up to some token. -/
theorem exists_tokens {front : List Char} (hfront : front <+: cs) :
    ∃ before, before <+: tokens ∧ Parenthesized front before := by
  have hparens : parens front <+: parenChars tokens := by
    rw [h]
    exact hfront.filter isParen
  obtain ⟨before, hbefore, heq⟩ := List.prefix_filterMap_iff.mp hparens
  exact ⟨before, hbefore, heq.symm⟩

/-- The parentheses up to a token are those up to some place in the text. -/
theorem exists_chars {before : List Token} (hbefore : before <+: tokens) :
    ∃ front, front <+: cs ∧ Parenthesized front before := by
  have hparens : parenChars before <+: parens cs := by
    rw [← h]
    exact hbefore.filterMap _
  obtain ⟨front, hfront, heq⟩ := List.prefix_filter_iff.mp hparens
  exact ⟨front, hfront, heq⟩

end Parenthesized

/-! ## Unbalanced texts -/

/-- If the parentheses of a text do not match, this is what is reported, although any number of
other things may be wrong with its tokens. A `)` is named if there are more of them than of `(` up
to some place, and otherwise a `(`. -/
theorem evaluate_unbalanced {expression : String} {tokens : List Token}
    (haccepted : ∀ c ∈ expression.toList, Source.isForeign c = false)
    (htokens : tokenize (String.ofList (Source.strip expression.toList)) = .ok tokens) :
    ((∃ front, front <+: expression.toList ∧ front.count '(' < front.count ')') →
      evaluate expression = .error .unopenedGroup) ∧
    ((∀ front, front <+: expression.toList → front.count ')' ≤ front.count '(') →
      expression.toList.count ')' ≠ expression.toList.count '(' →
      evaluate expression = .error .unclosedGroup) ∧
    Fault.message .unopenedGroup = "Mismatched parentheses: unmatched ')'." ∧
    Fault.message .unclosedGroup = "Mismatched parentheses: unmatched '('." := by
  have hparens := parenthesized_of_tokenize htokens
  have hevaluate : ∀ fault, Tally 0 tokens (some fault) →
      evaluate expression = .error fault := by
    intro fault htally
    have hparse := parse_of_imbalance (imbalance?_eq_iff.mpr htally)
    rw [evaluate, Source.screen_eq_ok_iff.mpr ⟨haccepted, rfl⟩]
    show (tokenize _ >>= _) = _
    rw [htokens]
    show (parse tokens >>= _) = _
    rw [hparse]
    rfl
  refine ⟨?_, fun hsane hne => ?_, rfl, rfl⟩
  · rintro ⟨front, hfront, hmore⟩
    obtain ⟨before, hbefore, hsame⟩ := hparens.exists_tokens hfront
    refine hevaluate _ (.unopened before hbefore ?_)
    rw [hsame.opens_eq, hsame.closes_eq]
    exact hmore
  · have hsane' : ∀ before, before <+: tokens → closes before ≤ opens before + 0 := by
      intro before hbefore
      obtain ⟨front, hfront, hsame⟩ := hparens.exists_chars hbefore
      rw [hsame.opens_eq, hsame.closes_eq]
      exact hsane front hfront
    refine hevaluate _ (.unclosed hsane' (Nat.lt_of_le_of_ne (hsane' tokens List.prefix_rfl) ?_))
    rw [hparens.opens_eq, hparens.closes_eq]
    exact hne

/-- Two texts in which a name, an operator and an empty group are wrong as well. -/
theorem evaluate_unbalanced_two :
    evaluate "( no ) * ) (" = .error .unopenedGroup ∧
    evaluate "1 + sin( ( ) * 2" = .error .unclosedGroup := by
  have hscreen : Source.screen "( no ) * ) (" = .ok "(no)*)(" := by decide +kernel
  have hscreen' : Source.screen "1 + sin( ( ) * 2" = .ok "1+sin(()*2" := by decide +kernel
  constructor
  · exact (@evaluate_unbalanced _ [⟨.lparen, 0⟩, ⟨.name "no", 1⟩, ⟨.rparen, 3⟩, ⟨.star, 4⟩,
      ⟨.rparen, 5⟩, ⟨.lparen, 6⟩] (Source.screen_eq_ok_iff.mp hscreen).1 (by decide +kernel)).1
      ⟨"( no ) * )".toList, by decide +kernel, by decide +kernel⟩
  · refine (@evaluate_unbalanced _ [⟨.number 1.0, 0⟩, ⟨.plus, 1⟩, ⟨.name "sin", 2⟩, ⟨.lparen, 5⟩,
      ⟨.lparen, 6⟩, ⟨.rparen, 7⟩, ⟨.star, 8⟩, ⟨.number 2.0, 9⟩]
      (Source.screen_eq_ok_iff.mp hscreen').1 (by decide +kernel)).2.1 (fun front hfront => ?_)
      (by decide +kernel)
    have hall : ∀ front ∈ "1 + sin( ( ) * 2".toList.inits, front.count ')' ≤ front.count '(' := by
      decide +kernel
    exact hall front ((List.mem_inits _ _).mpr hfront)

end Calculator
