import Mathlib
import Calculator.Proofs.Outcome
import Calculator.Token.Lexer

/-!
# Cutting texts that are put together

A text is cut into the same tokens whatever stands behind it, as long as that does not begin with a
character that a number or a name goes on with.

* `Lexeme.separates`: the characters behind which nothing goes on
* `tokensFrom_append`: the tokens of two texts, one behind the other
* `tokensFrom_add`: the tokens of a text further behind
-/

namespace Calculator

section Words

variable {α : Type} {p : α → Bool} {rest : List α}

theorem takeWhile_append_of_head (h : ∀ a ∈ rest.head?, p a = false) (l : List α) :
    (l ++ rest).takeWhile p = l.takeWhile p := by
  induction l with
  | nil =>
    cases rest with
    | nil => rfl
    | cons a rest => simp [h a rfl]
  | cons a l ih =>
    rw [List.cons_append, List.takeWhile_cons, List.takeWhile_cons, ih]

theorem dropWhile_append_of_head (h : ∀ a ∈ rest.head?, p a = false) (l : List α) :
    (l ++ rest).dropWhile p = l.dropWhile p ++ rest := by
  induction l with
  | nil =>
    cases rest with
    | nil => rfl
    | cons a rest => simp [h a rfl]
  | cons a l ih =>
    rw [List.cons_append, List.dropWhile_cons, List.dropWhile_cons, ih]
    split <;> rfl

theorem span_append {word : List α} (hword : ∀ a ∈ word, p a = true)
    (hrest : ∀ a ∈ rest.head?, p a = false) :
    (word ++ rest).takeWhile p = word ∧ (word ++ rest).dropWhile p = rest := by
  rw [takeWhile_append_of_head hrest, dropWhile_append_of_head hrest,
    List.takeWhile_eq_self_iff.mpr hword, List.dropWhile_eq_nil_iff.mpr hword]
  exact ⟨rfl, rfl⟩

end Words

/-! ## Digits and letters by their code points -/

theorem toNat_of_isDigit {c : Char} (h : c.isDigit = true) : 0x30 ≤ c.toNat ∧ c.toNat ≤ 0x39 := by
  rw [Char.isDigit_iff_toNat] at h
  simpa using h

theorem toNat_of_isAlpha {c : Char} (h : c.isAlpha = true) : 0x41 ≤ c.toNat ∧ c.toNat ≤ 0x7A := by
  simp only [Char.isAlpha, Char.isUpper, Char.isLower, Bool.or_eq_true, Bool.and_eq_true,
    decide_eq_true_eq, ge_iff_le, UInt32.le_iff_toNat_le] at h
  rw [Char.toNat]
  simp at h ⊢
  omega

/-! ## Lexemes -/

namespace Lexeme

/-- Whether no number and no name goes on with a character. -/
def separates (c : Char) : Bool := !c.isDigit && c != '.' && !c.isAlpha

theorem separates_iff {c : Char} :
    separates c = true ↔ c.isDigit = false ∧ c ≠ '.' ∧ c.isAlpha = false := by
  simp [separates, and_assoc]

theorem goesOn_of_ne {c : Char} (h : c ≠ 'e') (cs : List Char) :
    goesOn (c :: cs) = (c.isDigit || c == '.') := by
  unfold goesOn
  split
  · next heq => exact absurd (List.cons.inj heq).1 h
  · next heq => rw [(List.cons.inj heq).1]
  · next heq => cases heq

section Behind

variable {rest : List Char} (h : ∀ d ∈ rest.head?, separates d = true)

include h

theorem goesOn_rest : goesOn rest = false := by
  cases rest with
  | nil => rfl
  | cons d rest =>
    obtain ⟨hdigit, hpoint, halpha⟩ := separates_iff.mp (h d rfl)
    have he : d ≠ 'e' := by
      rintro rfl
      exact absurd halpha (by decide)
    simp [goesOn_of_ne he, hdigit, hpoint]

theorem goesOn_cons_append (c : Char) (cs : List Char) :
    goesOn (c :: (cs ++ rest)) = goesOn (c :: cs) := by
  by_cases he : c = 'e'
  · subst he
    cases cs with
    | cons d cs => rfl
    | nil =>
      cases rest with
      | nil => rfl
      | cons d rest => exact (separates_iff.mp (h d rfl)).1
  · rw [goesOn_of_ne he, goesOn_of_ne he]

theorem splitNumber_append_rest (cs : List Char) :
    splitNumber (cs ++ rest) = ((splitNumber cs).1, (splitNumber cs).2 ++ rest) := by
  induction cs with
  | nil =>
    rw [List.nil_append]
    cases rest with
    | nil => rfl
    | cons d rest =>
      unfold splitNumber
      rw [goesOn_rest h]
      rfl
  | cons c cs ih =>
    rw [List.cons_append]
    unfold splitNumber
    rw [goesOn_cons_append h, ih]
    split <;> rfl

/-- The lexeme at the front ends where the text ended before. -/
theorem first_append {c : Char} (hgap : isGap c = false ∨ ∀ d ∈ rest.head?, isGap d = false)
    (cs : List Char) : first c (cs ++ rest) = ((first c cs).1, (first c cs).2 ++ rest) := by
  have halpha : ∀ d ∈ rest.head?, d.isAlpha = false := fun d hd => (separates_iff.mp (h d hd)).2.2
  unfold first
  rw [goesOn_cons_append h, ← List.cons_append, splitNumber_append_rest h,
    takeWhile_append_of_head halpha, dropWhile_append_of_head halpha]
  split
  · next hc =>
    have hrest := hgap.resolve_left (by simp [hc])
    rw [takeWhile_append_of_head hrest, dropWhile_append_of_head hrest]
  · split
    · rfl
    · split
      · rfl
      · cases mark? c <;> rfl

end Behind

/-! ## The lexemes one by one -/

/-- A property that one character has and another has not tells them apart. -/
theorem ne_of_property {p : Char → Bool} {c d : Char} (hc : p c = true) (hd : p d = false) :
    c ≠ d := by
  rintro rfl
  rw [hd] at hc
  cases hc

theorem isGap_eq_false {p : Char → Bool} (h : [' ', '\t', '\r', '\n', '\x0c'].any p = false)
    {c : Char} (hc : p c = true) : isGap c = false := by
  have hne : ∀ d ∈ [' ', '\t', '\r', '\n', '\x0c'], c ≠ d := fun d hd =>
    ne_of_property hc (by simpa using List.any_eq_false.mp h d hd)
  simpa [isGap, and_assoc] using hne

theorem first_of_mark? {c : Char} {symbol : Symbol} (h : mark? c = some symbol) (cs : List Char) :
    first c cs = (mark c symbol, cs) := by
  unfold mark? at h
  split at h <;> cases h <;>
    rw [first, if_neg (by decide), goesOn_of_ne (by decide), if_neg (by decide),
      if_neg (by decide)] <;>
    rfl

theorem isDigit_eq_false_of_isAlpha {c : Char} (h : c.isAlpha = true) : c.isDigit = false := by
  rw [Bool.eq_false_iff]
  intro hdigit
  have halpha := toNat_of_isAlpha h
  have hdigit := toNat_of_isDigit hdigit
  omega

/-- A word of letters is a name, unless it is an `e` in front of a digit. -/
theorem first_name {c : Char} {cs rest : List Char} (halpha : ∀ d ∈ c :: cs, d.isAlpha = true)
    (hrest : ∀ d ∈ rest.head?, d.isAlpha = false)
    (he : c = 'e' → cs = [] → ∀ d ∈ rest.head?, d.isDigit = false) :
    first c (cs ++ rest) = (name (c :: cs), rest) := by
  have hc := halpha c List.mem_cons_self
  have hcs : ∀ d ∈ cs, d.isAlpha = true := fun d hd => halpha d (List.mem_cons_of_mem c hd)
  have hnumber : goesOn (c :: (cs ++ rest)) = false := by
    by_cases h : c = 'e'
    · subst h
      cases cs with
      | cons d cs => exact isDigit_eq_false_of_isAlpha (hcs d List.mem_cons_self)
      | nil =>
        cases rest with
        | nil => rfl
        | cons d rest => exact he rfl rfl d rfl
    · have hpoint : c ≠ '.' := by
        rintro rfl
        cases hc
      simp [goesOn_of_ne h, isDigit_eq_false_of_isAlpha hc, hpoint]
  rw [first, if_neg (by simp [isGap_eq_false (by decide) hc]), if_neg (by simp [hnumber]),
    if_pos hc, (span_append hcs hrest).1, (span_append hcs hrest).2]

/-- A word of digits and points is a number word as a whole. -/
theorem splitNumber_eq_self {word : List Char} (h : ∀ d ∈ word, (d.isDigit || d == '.') = true) :
    splitNumber word = (word, []) := by
  induction word with
  | nil => rfl
  | cons d word ih =>
    have hd := h d List.mem_cons_self
    have he : d ≠ 'e' := ne_of_property (p := fun d => d.isDigit || d == '.') hd (by decide)
    unfold splitNumber
    rw [goesOn_of_ne he, hd, ih fun d' hd' => h d' (List.mem_cons_of_mem d hd')]
    rfl

theorem goesOn_of_splitNumber {word : List Char} (hne : word ≠ [])
    (h : splitNumber word = (word, [])) : goesOn word = true := by
  obtain ⟨c, cs, rfl⟩ := List.exists_cons_of_ne_nil hne
  by_contra hgoesOn
  unfold splitNumber at h
  rw [if_neg hgoesOn] at h
  cases h

theorem isGap_eq_false_of_goesOn {c : Char} {cs : List Char} (h : goesOn (c :: cs) = true) :
    isGap c = false := by
  by_cases he : c = 'e'
  · subst he
    rfl
  · rw [goesOn_of_ne he] at h
    exact @isGap_eq_false (fun d => d.isDigit || d == '.') (by decide) c h

/-- What is a number word as a whole is a number. -/
theorem first_number {c : Char} {cs rest : List Char}
    (hword : splitNumber (c :: cs) = (c :: cs, []))
    (hrest : ∀ d ∈ rest.head?, separates d = true) :
    first c (cs ++ rest) = (number (c :: cs), rest) := by
  have hgoesOn := goesOn_of_splitNumber (by simp) hword
  rw [first, if_neg (by simp [isGap_eq_false_of_goesOn hgoesOn]), goesOn_cons_append hrest,
    if_pos hgoesOn, ← List.cons_append, splitNumber_append_rest hrest, hword]
  rfl

end Lexeme

/-! ## Tokens -/

theorem tokensFrom_nil (pos : Nat) : tokensFrom pos [] = .ok [] := by
  rw [tokensFrom]

/-- The tokens of a text, by the lexeme at its front. -/
theorem tokensFrom_cons (pos : Nat) (c : Char) (cs : List Char) :
    tokensFrom pos (c :: cs) = (Lexeme.first c cs).1.symbol? pos >>= fun symbol =>
      (tokensFrom (pos + (Lexeme.first c cs).1.chars.length) (Lexeme.first c cs).2).map
        (symbol.toList.map (⟨·, pos⟩) ++ ·) := by
  rw [tokensFrom]
  cases (Lexeme.first c cs).1.symbol? pos <;> rfl

theorem tokensFrom_dropWhile_isGap (pos : Nat) (cs : List Char) :
    tokensFrom (pos + (cs.takeWhile Lexeme.isGap).length) (cs.dropWhile Lexeme.isGap) =
      tokensFrom pos cs := by
  cases cs with
  | nil => rfl
  | cons c cs =>
    by_cases hgap : Lexeme.isGap c = true
    · rw [tokensFrom_cons, Lexeme.first, if_pos hgap, List.takeWhile_cons_of_pos hgap,
        List.dropWhile_cons_of_pos hgap]
      show _ = (tokensFrom (pos + (c :: cs.takeWhile Lexeme.isGap).length) _).map _
      cases tokensFrom (pos + (c :: cs.takeWhile Lexeme.isGap).length) _ <;> rfl
    · rw [List.takeWhile_cons_of_neg hgap, List.dropWhile_cons_of_neg hgap]
      rfl

/-- A gap at the front makes no token. -/
theorem tokensFrom_gap (pos : Nat) (cs : List Char) :
    tokensFrom pos (' ' :: cs) = tokensFrom (pos + 1) cs := by
  rw [← tokensFrom_dropWhile_isGap, ← tokensFrom_dropWhile_isGap (pos + 1),
    List.takeWhile_cons_of_pos rfl, List.dropWhile_cons_of_pos rfl, List.length_cons, Nat.add_assoc,
    Nat.add_comm 1]

theorem tokensFrom_of_mark? {c : Char} {symbol : Symbol} (h : Lexeme.mark? c = some symbol)
    (pos : Nat) (cs : List Char) :
    tokensFrom pos (c :: cs) = (tokensFrom (pos + 1) cs).map (⟨symbol, pos⟩ :: ·) := by
  rw [tokensFrom_cons, Lexeme.first_of_mark? h]
  rfl

theorem tokensFrom_name {word rest : List Char} (hne : word ≠ [])
    (halpha : ∀ d ∈ word, d.isAlpha = true) (hrest : ∀ d ∈ rest.head?, d.isAlpha = false)
    (he : word = ['e'] → ∀ d ∈ rest.head?, d.isDigit = false) (pos : Nat) :
    tokensFrom pos (word ++ rest) =
      (tokensFrom (pos + word.length) rest).map (⟨.name (String.ofList word), pos⟩ :: ·) := by
  obtain ⟨c, cs, rfl⟩ := List.exists_cons_of_ne_nil hne
  rw [List.cons_append, tokensFrom_cons,
    Lexeme.first_name halpha hrest fun hc hcs => he (by rw [hc, hcs])]
  rfl

theorem tokensFrom_number {word rest : List Char} {n : Numeral} (hne : word ≠ [])
    (hword : Lexeme.splitNumber word = (word, [])) (hn : Numeral.ofChars? word = some n)
    (hrest : ∀ d ∈ rest.head?, Lexeme.separates d = true) (pos : Nat) :
    tokensFrom pos (word ++ rest) =
      (tokensFrom (pos + word.length) rest).map (⟨.number n.toFloat, pos⟩ :: ·) := by
  obtain ⟨c, cs, rfl⟩ := List.exists_cons_of_ne_nil hne
  have hsymbol : (Lexeme.number (c :: cs)).symbol? pos = .ok (some (.number n.toFloat)) := by
    rw [Lexeme.symbol?, hn]
  rw [List.cons_append, tokensFrom_cons, Lexeme.first_number hword hrest]
  show (Lexeme.number (c :: cs)).symbol? pos >>= _ = _
  rw [hsymbol]
  rfl

theorem tokensFrom_append {rest : List Char}
    (h : ∀ d ∈ rest.head?, Lexeme.separates d = true ∧ Lexeme.isGap d = false) (pos : Nat)
    (cs : List Char) :
    tokensFrom pos (cs ++ rest) = tokensFrom pos cs >>= fun ts =>
      (tokensFrom (pos + cs.length) rest).map (ts ++ ·) := by
  fun_induction tokensFrom pos cs with
  | case1 pos =>
    show tokensFrom pos rest = (tokensFrom pos rest).map _
    cases tokensFrom pos rest <;> rfl
  | case2 pos c cs next fault hfault =>
    rw [List.cons_append, tokensFrom_cons,
      Lexeme.first_append (fun d hd => (h d hd).1) (.inr fun d hd => (h d hd).2)]
    show next.1.symbol? pos >>= _ = _
    rw [hfault]
    rfl
  | case3 pos c cs next symbol hsymbol ih =>
    rw [List.cons_append, tokensFrom_cons,
      Lexeme.first_append (fun d hd => (h d hd).1) (.inr fun d hd => (h d hd).2)]
    show (next.1.symbol? pos >>= fun symbol => (tokensFrom _ (next.2 ++ rest)).map _) = _
    rw [hsymbol, ih]
    have hlength : pos + next.1.chars.length + next.2.length = pos + (c :: cs).length := by
      rw [← Lexeme.chars_first_append c cs, List.length_append, Nat.add_assoc]
    rw [hlength]
    cases tokensFrom (pos + next.1.chars.length) next.2 with
    | error fault => rfl
    | ok ts =>
      cases tokensFrom (pos + (c :: cs).length) rest with
      | error fault => rfl
      | ok ts' => exact congrArg Except.ok (List.append_assoc ..).symm

/-- A token at a place further behind. -/
def Token.shift (k : Nat) (t : Token) : Token := { t with pos := t.pos + k }

theorem Lexeme.symbol?_of_ok {pos : Nat} {lexeme : Lexeme} {symbol : Option Symbol}
    (h : lexeme.symbol? pos = .ok symbol) (pos' : Nat) : lexeme.symbol? pos' = .ok symbol := by
  cases lexeme with
  | number word =>
    cases hword : Numeral.ofChars? word with
    | none => simp [symbol?, hword] at h
    | some n => simpa [symbol?, hword] using h
  | stray char => cases h
  | _ => exact h

theorem tokensFrom_add (k pos : Nat) (cs : List Char) : ∀ ts, tokensFrom pos cs = .ok ts →
    tokensFrom (pos + k) cs = .ok (ts.map (Token.shift k)) := by
  fun_induction tokensFrom pos cs with
  | case1 pos =>
    rintro ts ⟨⟩
    exact tokensFrom_nil _
  | case2 pos c cs next fault hfault => exact fun ts h => nomatch h
  | case3 pos c cs next symbol hsymbol ih =>
    intro ts h
    obtain ⟨later, hlater, rfl⟩ := exists_of_map_eq_ok h
    have hshift := ih later hlater
    rw [Nat.add_right_comm] at hshift
    rw [tokensFrom_cons, Lexeme.symbol?_of_ok hsymbol]
    show (tokensFrom (pos + k + next.1.chars.length) next.2).map _ = _
    rw [hshift]
    cases symbol <;> rfl

end Calculator
