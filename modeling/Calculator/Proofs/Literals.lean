import Calculator.Proofs.Decimal.Nearest
import Calculator.Proofs.Words

/-!
# Number literals

Every number word is one lexeme, but only those that denote a numeral are tokens. The value of the
token is the double nearest to what the word denotes, however long it is.

* `tokenize_numberWord`: what becomes of a source that is one number word
-/

namespace Calculator

open Binary64 (IsNearest)

/-- A source that is a number word has tokens exactly if the word is digits with at most one point,
perhaps followed by an `e` and the digits of an exponent. There is then one token, at the front, and
its value is the double nearest to the number that the word denotes. Any other number word is
malformed as a whole. -/
theorem tokenize_numberWord {word : List Char} (h : NumberWord word) (hne : word ≠ []) :
    ((∃ ts, tokenize (String.ofList word) = .ok ts) ↔ ∃ n, Denotes word n) ∧
    (∀ n, Denotes word n → ∃ x,
      tokenize (String.ofList word) = .ok [⟨.number x, 0⟩] ∧ IsNearest n.value x) ∧
    ((∀ n, ¬ Denotes word n) → tokenize (String.ofList word) =
      .error (.malformed (.malformedNumber (String.ofList word) 0))) ∧
    (Flaw.malformedNumber (String.ofList word) 0).details =
      s!"malformed number '{String.ofList word}' at position {0}" := by
  have hend : ¬ StartsNumber [] := by rintro ⟨⟩
  have hnumber : ∀ n, Denotes word n →
      tokenize (String.ofList word) = .ok [⟨.number n.toFloat, 0⟩] := by
    intro n hn
    rw [tokenize, String.toList_ofList, hn.tokensFrom_eq]
  have hmalformed : (∀ n, ¬ Denotes word n) → tokenize (String.ofList word) =
      .error (.malformed (.malformedNumber (String.ofList word) 0)) := by
    intro hnone
    have hstuck := (@Stuck.malformed 0 word [] hne h hend hnone).tokensFrom_eq
    rw [List.append_nil] at hstuck
    rw [tokenize, String.toList_ofList, hstuck]
  refine ⟨⟨?_, ?_⟩, fun n hn => ⟨n.toFloat, hnumber n hn, n.isNearest_toFloat⟩, hmalformed, rfl⟩
  · rintro ⟨ts, hts⟩
    by_contra hnone
    rw [hmalformed (not_exists.mp hnone)] at hts
    cases hts
  · rintro ⟨n, hn⟩
    exact ⟨_, hnumber n hn⟩

/-- `9007199254740993` lies half-way between two doubles, and `1.2.3` is no number. -/
theorem tokenize_numberWord_tie :
    tokenize "9007199254740993" = .ok [⟨.number 9007199254740992.0, 0⟩] ∧
    IsNearest 9007199254740993 9007199254740992.0 ∧
    tokenize "1.2.3" = .error (.malformed (.malformedNumber "1.2.3" 0)) := by
  have hdigits : ∀ c ∈ "9007199254740993".toList, c.isDigit = true :=
    List.all_eq_true.mp (by decide)
  have htokens : tokenize "9007199254740993" = .ok [⟨.number 9007199254740992.0, 0⟩] := by
    decide +kernel
  obtain ⟨x, hx, hnearest⟩ := (tokenize_numberWord (.of_isDigit hdigits) (by decide)).2.1
    ⟨"9007199254740993".toList, none, none⟩
    ⟨(List.append_nil _).symm, by decide, hdigits, by simp⟩
  rw [String.ofList_toList, htokens] at hx
  obtain rfl : 9007199254740992.0 = x := by simpa using hx
  have hpoints : NumberWord ['1', '.', '2', '.', '3'] :=
    .digit rfl (.point (.digit rfl (.point (.digit rfl .nil))))
  refine ⟨htokens, ?_, (tokenize_numberWord hpoints (by simp)).2.2.1
    ((Numeral.ofChars?_eq_none_iff hpoints).mp (by decide))⟩
  have hvalue : Numeral.value ⟨"9007199254740993".toList, none, none⟩ = 9007199254740993 := by
    decide +kernel
  rwa [hvalue] at hnearest

end Calculator
