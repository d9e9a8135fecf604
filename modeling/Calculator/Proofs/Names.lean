import Calculator.Proofs.Lexing

/-!
# Names in a text

A function name is a word of letters, but the decimal logarithm may be written with its base behind
it, as a name and a number.

* `eq_of_toLower_eq`: lower case changes nothing but letters
* `eq_or_eq_toUpper_of_toLower_eq`: and leaves only two choices for a letter
* `exists_log_of_lowercase`: the name `log10` in any case
* `tokensFrom_log10`: how it is cut
-/

namespace Calculator

/-! ## Case -/

theorem eq_of_toLower_eq {c d : Char} (h : c.toLower = d) (hd : d.isAlpha = false) : c = d := by
  have hupper : ¬ c.isUpper := by
    intro hupper
    rw [← h, Char.isAlpha_toLower_eq_isAlpha, Char.isAlpha, hupper] at hd
    cases hd
  rw [← h, Char.toLower_eq_of_not_isUpper hupper]

theorem eq_or_eq_toUpper_of_toLower_eq {c d : Char} (h : c.toLower = d) :
    c = d ∨ c = d.toUpper := by
  by_cases hupper : c.isUpper = true
  · have hlower : ¬ c.isLower = true := Char.not_isLower_of_isUpper hupper
    rw [← h, Char.toUpper_toLower_eq_toUpper, Char.toUpper_eq_of_not_isLower hlower]
    exact .inr rfl
  · rw [← h, Char.toLower_eq_of_not_isUpper hupper]
    exact .inl rfl

theorem eq_or_isAlpha_of_toLower_eq {c c' : Char} (h : c.toLower = c'.toLower) :
    c = c' ∨ c.isAlpha = true ∧ c'.isAlpha = true := by
  have hsame : c.isAlpha = c'.isAlpha := by
    rw [← c.isAlpha_toLower_eq_isAlpha, h, c'.isAlpha_toLower_eq_isAlpha]
  cases halpha : c.isAlpha with
  | true => exact .inr ⟨rfl, hsame ▸ halpha⟩
  | false =>
    have hlower : c.toLower.isAlpha = false := c.isAlpha_toLower_eq_isAlpha.trans halpha
    exact .inl ((eq_of_toLower_eq rfl hlower).trans (eq_of_toLower_eq h.symm hlower).symm)

theorem isAlpha_of_lowercase {name : List Char} (h : ∀ d ∈ Text.lowercase name, d.isAlpha = true) :
    ∀ c ∈ name, c.isAlpha = true :=
  fun c hc => c.isAlpha_toLower_eq_isAlpha.symm.trans (h _ (List.mem_map_of_mem hc))

theorem exists_log_of_lowercase {name : List Char}
    (h : Text.lowercase name = ['l', 'o', 'g', '1', '0']) :
    ∃ log, name = log ++ ['1', '0'] ∧ Text.lowercase log = ['l', 'o', 'g'] := by
  rw [show ['l', 'o', 'g', '1', '0'] = ['l', 'o', 'g'] ++ ['1', '0'] from rfl, Text.lowercase,
    List.map_eq_append_iff] at h
  obtain ⟨log, ten, rfl, hlower, hten⟩ := h
  obtain ⟨one, zeros, rfl, hone, hzeros⟩ := List.map_eq_cons_iff.mp hten
  obtain ⟨zero, rest, rfl, hzero, hrest⟩ := List.map_eq_cons_iff.mp hzeros
  obtain rfl := List.map_eq_nil_iff.mp hrest
  rw [eq_of_toLower_eq hone (by decide), eq_of_toLower_eq hzero (by decide)]
  exact ⟨log, rfl, hlower⟩

/-! ## Tokens -/

theorem tokensFrom_ten (pos : Nat) (rest : List Char) :
    tokensFrom pos ('1' :: '0' :: '(' :: rest) =
      (tokensFrom (pos + 2) ('(' :: rest)).map (⟨.number 10.0, pos⟩ :: ·) := by
  have hten : (⟨['1', '0'], none, none⟩ : Numeral).toFloat = 10.0 := by decide +kernel
  have hnumber := @tokensFrom_number ['1', '0'] ('(' :: rest) ⟨['1', '0'], none, none⟩ (by simp)
    rfl rfl (by simp; decide) pos
  rwa [hten] at hnumber

/-- The name `log10` in front of a group is cut into a name and the number ten. -/
theorem tokensFrom_log10 {log : List Char} (h : Text.lowercase log = ['l', 'o', 'g']) (pos : Nat)
    (rest : List Char) :
    tokensFrom pos (log ++ '1' :: '0' :: '(' :: rest) =
      (tokensFrom (pos + log.length + 2) ('(' :: rest)).map fun later =>
        ⟨.name (String.ofList log), pos⟩ :: ⟨.number 10.0, pos + log.length⟩ :: later := by
  have halpha : ∀ c ∈ log, c.isAlpha = true := isAlpha_of_lowercase (by simp [h])
  rw [tokensFrom_name (by rintro rfl; cases h) halpha (by simp) (by rintro rfl; cases h),
    tokensFrom_ten]
  cases tokensFrom (pos + log.length + 2) ('(' :: rest) <;> rfl

end Calculator
