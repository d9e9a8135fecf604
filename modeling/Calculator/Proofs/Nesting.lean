import Calculator.Proofs.Grammar
import Calculator.Proofs.Lexing
import Calculator.Source

/-!
# How deep a text is nested

How deep the groups of a text are nested shows in its parentheses alone, whether they are counted in
the text itself, after screening, or in the tokens.

* `NestsWithin`: a text is nested no deeper than given
* `nestsWithin_parens_iff`, `parens_strip`, `parenChars_of_tokensFrom`: only the parentheses matter
* `Phrase.nestsWithin_append_iff`: the parentheses in a phrase are nested as deep as its groups
-/

namespace Calculator

/-- No place in a text is behind more than `depth` parentheses that are open. -/
def NestsWithin (depth : Nat) (cs : List Char) : Prop :=
  ∀ front, front <+: cs → front.count '(' ≤ front.count ')' + depth

instance (depth : Nat) (cs : List Char) : Decidable (NestsWithin depth cs) :=
  decidable_of_iff (∀ front ∈ cs.inits, front.count '(' ≤ front.count ')' + depth)
    (by simp only [List.mem_inits, NestsWithin])

section Steps

variable {depth : Nat} {cs : List Char}

theorem forall_prefix_cons_iff {α : Type} {P : List α → Prop} {a : α} {l : List α} :
    (∀ front, front <+: a :: l → P front) ↔ P [] ∧ ∀ front, front <+: l → P (a :: front) := by
  simp only [List.prefix_cons_iff]
  constructor
  · exact fun h => ⟨h [] (.inl rfl), fun front hfront => h _ (.inr ⟨front, rfl, hfront⟩)⟩
  · rintro ⟨hnil, hcons⟩ front (rfl | ⟨front, rfl, hfront⟩)
    · exact hnil
    · exact hcons front hfront

theorem nestsWithin_lparen_iff :
    NestsWithin depth ('(' :: cs) ↔ 0 < depth ∧ NestsWithin (depth - 1) cs := by
  unfold NestsWithin
  rw [forall_prefix_cons_iff]
  constructor
  · rintro ⟨-, h⟩
    have hpos := h [] List.nil_prefix
    simp only [List.count_cons_self, List.count_nil] at hpos
    refine ⟨by simp at hpos; omega, fun front hfront => ?_⟩
    have hcount := h front hfront
    simp at hcount hpos
    omega
  · rintro ⟨hpos, h⟩
    refine ⟨by simp, fun front hfront => ?_⟩
    have hcount := h front hfront
    simp
    omega

theorem nestsWithin_rparen_iff :
    NestsWithin depth (')' :: cs) ↔ NestsWithin (depth + 1) cs := by
  unfold NestsWithin
  rw [forall_prefix_cons_iff]
  simp [Nat.add_assoc, Nat.add_comm 1]

theorem nestsWithin_cons_iff {c : Char} (hopen : c ≠ '(') (hclose : c ≠ ')') :
    NestsWithin depth (c :: cs) ↔ NestsWithin depth cs := by
  unfold NestsWithin
  rw [forall_prefix_cons_iff]
  simp [hopen, hclose]

end Steps

/-! ## The parentheses alone -/

def isParen (c : Char) : Bool := c == '(' || c == ')'

theorem isParen_eq_false {p : Char → Bool} (hopen : p '(' = false) (hclose : p ')' = false)
    {c : Char} (hc : p c = true) : isParen c = false := by
  simp [isParen, Lexeme.ne_of_property hc hopen, Lexeme.ne_of_property hc hclose]

/-- The parentheses in a text. -/
def parens (cs : List Char) : List Char := cs.filter isParen

theorem nestsWithin_parens_iff (cs : List Char) : ∀ {depth : Nat},
    NestsWithin depth (parens cs) ↔ NestsWithin depth cs := by
  induction cs with
  | nil => exact Iff.rfl
  | cons c cs ih =>
    intro depth
    by_cases hopen : c = '('
    · subst hopen
      show NestsWithin depth ('(' :: parens cs) ↔ _
      rw [nestsWithin_lparen_iff, nestsWithin_lparen_iff, ih]
    by_cases hclose : c = ')'
    · subst hclose
      show NestsWithin depth (')' :: parens cs) ↔ _
      rw [nestsWithin_rparen_iff, nestsWithin_rparen_iff, ih]
    · have hskip : parens (c :: cs) = parens cs :=
        List.filter_cons_of_neg (by simp [isParen, hopen, hclose])
      rw [hskip, ih, nestsWithin_cons_iff hopen hclose]

theorem parens_append (cs ds : List Char) : parens (cs ++ ds) = parens cs ++ parens ds :=
  List.filter_append ..

theorem parens_eq_nil {cs : List Char} (h : ∀ c ∈ cs, isParen c = false) : parens cs = [] := by
  rw [parens, List.filter_eq_nil_iff]
  exact fun c hc => by simp [h c hc]

/-- Screening keeps the parentheses. -/
theorem parens_strip (cs : List Char) : parens (Source.strip cs) = parens cs := by
  rw [parens, Source.strip, List.filter_filter]
  refine List.filter_congr fun c _ => ?_
  by_cases hc : isParen c = true
  · rw [hc, Bool.true_and]
    rcases (by simpa [isParen] using hc : c = '(' ∨ c = ')') with rfl | rfl <;> rfl
  · simp [hc]

/-- The parentheses among tokens, as characters. -/
def parenChars (ts : List Token) : List Char := ts.filterMap fun t => match t.symbol with
  | .lparen => some '('
  | .rparen => some ')'
  | _ => none

theorem parenChars_append (ts us : List Token) :
    parenChars (ts ++ us) = parenChars ts ++ parenChars us :=
  List.filterMap_append ..

theorem mem_splitNumber {cs : List Char} : ∀ c ∈ (Lexeme.splitNumber cs).1,
    c.isDigit = true ∨ c = '.' ∨ c = 'e' := by
  induction cs with
  | nil => simp [Lexeme.splitNumber]
  | cons c cs ih =>
    unfold Lexeme.splitNumber
    split
    · next hc =>
      intro d hd
      rcases List.mem_cons.mp hd with rfl | hd
      · by_cases he : d = 'e'
        · exact .inr (.inr he)
        · rw [Lexeme.goesOn_of_ne he] at hc
          rcases Bool.or_eq_true_iff.mp hc with hdigit | hpoint
          · exact .inl hdigit
          · exact .inr (.inl (by simpa using hpoint))
      · exact ih d hd
    · simp

theorem parenChars_of_mark? {c : Char} {symbol : Symbol} (h : Lexeme.mark? c = some symbol)
    (pos : Nat) : parenChars [⟨symbol, pos⟩] = parens [c] := by
  unfold Lexeme.mark? at h
  split at h <;> cases h <;> rfl

theorem parens_chars_first {c : Char} {cs : List Char} {pos : Nat} {symbol : Option Symbol}
    (h : (Lexeme.first c cs).1.symbol? pos = .ok symbol) :
    parens (Lexeme.first c cs).1.chars = parenChars (symbol.toList.map (⟨·, pos⟩)) := by
  by_cases hgap : Lexeme.isGap c = true
  · rw [Lexeme.first, if_pos hgap] at h ⊢
    cases h
    refine parens_eq_nil fun d hd => ?_
    have hd : Lexeme.isGap d = true := by
      rcases List.mem_cons.mp hd with rfl | hd
      · exact hgap
      · exact List.mem_takeWhile_imp hd
    exact isParen_eq_false (by decide) (by decide) hd
  by_cases hnumber : Lexeme.goesOn (c :: cs) = true
  · rw [Lexeme.first, if_neg hgap, if_pos hnumber] at h ⊢
    obtain ⟨x, rfl⟩ : ∃ x, symbol = some (.number x) := by
      simp only [Lexeme.symbol?] at h
      split at h
      · next n hn => exact ⟨_, (Except.ok.inj h).symm⟩
      · cases h
    refine parens_eq_nil fun d hd => ?_
    rcases mem_splitNumber d hd with hdigit | rfl | rfl
    · exact isParen_eq_false (by decide) (by decide) hdigit
    · rfl
    · rfl
  by_cases halpha : c.isAlpha = true
  · rw [Lexeme.first, if_neg hgap, if_neg hnumber, if_pos halpha] at h ⊢
    cases h
    refine parens_eq_nil fun d hd => ?_
    have hd : d.isAlpha = true := by
      rcases List.mem_cons.mp hd with rfl | hd
      · exact halpha
      · exact List.mem_takeWhile_imp hd
    exact isParen_eq_false (by decide) (by decide) hd
  · rw [Lexeme.first, if_neg hgap, if_neg hnumber, if_neg halpha] at h ⊢
    cases hmark : Lexeme.mark? c with
    | none => simp [hmark, Lexeme.symbol?] at h
    | some s =>
      rw [hmark] at h
      cases h
      exact (parenChars_of_mark? hmark pos).symm

/-- Cutting a text into tokens keeps the parentheses. -/
theorem parenChars_of_tokensFrom (pos : Nat) (cs : List Char) : ∀ ts, tokensFrom pos cs = .ok ts →
    parenChars ts = parens cs := by
  fun_induction tokensFrom pos cs with
  | case1 pos =>
    rintro ts ⟨⟩
    rfl
  | case2 pos c cs next fault hfault =>
    intro ts h
    cases h
  | case3 pos c cs next symbol hsymbol ih =>
    intro ts h
    obtain ⟨later, hlater, rfl⟩ := exists_of_map_eq_ok h
    rw [parenChars_append, ih later hlater, ← parens_chars_first hsymbol, ← parens_append,
      Lexeme.chars_first_append]

/-! ## Phrases -/

theorem parenChars_runTokens (run : List (Sign × Nat)) : parenChars (runTokens run) = [] := by
  rw [parenChars, List.filterMap_eq_nil_iff]
  intro t ht
  obtain ⟨⟨sign, pos⟩, -, rfl⟩ := List.mem_map.mp ht
  cases sign <;> rfl

/-- The parentheses in a phrase are nested as deep as its groups, and do not show from outside. -/
theorem Phrase.nestsWithin_append_iff {r : Rule} (D : Phrase r) :
    ∀ {depth : Nat} {rest : List Char}, NestsWithin depth (parenChars D.tokens ++ rest) ↔
      D.nesting ≤ depth ∧ NestsWithin depth rest := by
  have hgroup : ∀ {nesting : Nat} {inside : List Token} (before after : List Token),
      parenChars before = ['('] → parenChars after = [')'] →
      (∀ {depth rest}, NestsWithin depth (parenChars inside ++ rest) ↔
        nesting ≤ depth ∧ NestsWithin depth rest) →
      ∀ {depth rest}, NestsWithin depth (parenChars (before ++ (inside ++ after)) ++ rest) ↔
        nesting + 1 ≤ depth ∧ NestsWithin depth rest := by
    intro nesting inside before after hbefore hafter hinside depth rest
    rw [parenChars_append, parenChars_append, hbefore, hafter, List.append_assoc, List.append_assoc,
      List.singleton_append, nestsWithin_lparen_iff, hinside, List.singleton_append,
      nestsWithin_rparen_iff]
    constructor
    · rintro ⟨hpos, hle, h⟩
      rw [Nat.sub_add_cancel hpos] at h
      exact ⟨by omega, h⟩
    · rintro ⟨hle, h⟩
      refine ⟨by omega, by omega, ?_⟩
      rwa [Nat.sub_add_cancel (by omega)]
  induction D with
  | chain first more ihFirst ihMore =>
    intro depth rest
    rw [tokens, parenChars_append, List.append_assoc, ihFirst, ihMore, nesting, Nat.max_le,
      and_assoc]
  | stop => simp [tokens, nesting, parenChars]
  | step op onTier pos next more ihNext ihMore =>
    intro depth rest
    have hop : parenChars (⟨op.symbol, pos⟩ :: (next.tokens ++ more.tokens)) =
        parenChars (next.tokens ++ more.tokens) := by
      cases op <;> rfl
    rw [tokens, hop, parenChars_append, List.append_assoc, ihNext, ihMore, nesting, Nat.max_le,
      and_assoc]
  | signs run body ih =>
    intro depth rest
    rw [tokens, parenChars_append, parenChars_runTokens, List.nil_append, ih, nesting]
  | number value pos => simp [tokens, nesting, parenChars]
  | group opening inside closing ih => exact hgroup [_] [_] rfl rfl ih
  | callNumber name pos value numberPos => simp [tokens, nesting, parenChars]
  | callGroup name pos opening inside closing ih => exact hgroup [_, _] [_] rfl rfl ih
  | callLog10 name isLog pos tenPos inside closing ih => exact hgroup [_, _, _] [_] rfl rfl ih

/-- Groups are nested no deeper than the text from which they were cut. -/
theorem Phrase.nesting_le_of_nestsWithin {r : Rule} {D : Phrase r} {pos depth : Nat}
    {cs : List Char} (h : tokensFrom pos cs = .ok D.tokens) (hdepth : NestsWithin depth cs) :
    D.nesting ≤ depth := by
  rw [← nestsWithin_parens_iff, ← parenChars_of_tokensFrom pos cs _ h,
    ← List.append_nil (parenChars _), D.nestsWithin_append_iff] at hdepth
  exact hdepth.1

end Calculator
