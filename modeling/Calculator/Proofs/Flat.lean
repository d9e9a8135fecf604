import Calculator.Evaluate
import Calculator.Proofs.Compose
import Calculator.Proofs.Words

/-!
# Arithmetic without parentheses

An expression without parentheses and names is operands with operators between them, and an operand
is a number behind any run of signs. Its value is a sum of products, both computed from left to
right; dividing by zero is the only thing that can go wrong.

* `Literal`, `SignedLiteral`, `Flat`: numbers, operands and expressions of this kind
* `Flat.value`: the sum of products
* `Flat.evaluate_text`: the value of the text
-/

namespace Calculator

/-! ## Numbers and operands -/

/-- A number as expressions write it: a word that is cut off as a number as a whole, and the numeral
that it spells. -/
structure Literal where
  word : List Char
  numeral : Numeral
  isNumberWord : Lexeme.splitNumber word = (word, [])
  spells : Numeral.ofChars? word = some numeral

namespace Literal

def value (l : Literal) : Float := l.numeral.toFloat

theorem word_ne_nil (l : Literal) : l.word ≠ [] := by
  intro hnil
  have h := l.spells
  rw [hnil] at h
  cases h

theorem isAccepted_of_mem (l : Literal) : ∀ c ∈ l.word, Source.isAccepted c = true := by
  intro c hc
  have hword : c ∈ (Lexeme.splitNumber l.word).1 := by rwa [l.isNumberWord]
  rcases mem_splitNumber c hword with hdigit | rfl | rfl
  · simp [Source.isAccepted, hdigit]
  · decide
  · decide

theorem numberWord (l : Literal) : NumberWord l.word := by
  obtain ⟨word, after, hword, hnumber, hafter⟩ := NumberWord.exists_append l.word
  have hself := l.isNumberWord
  rw [hword, hnumber.splitNumber_append hafter] at hself
  rwa [hword, ← (Prod.mk.inj hself).1]

theorem denotes (l : Literal) : Denotes l.word l.numeral :=
  Numeral.denotes_of_ofChars? l.numberWord l.spells

/-- A text that denotes a numeral is a number. -/
def ofDenotes {word : List Char} {n : Numeral} (h : Denotes word n) : Literal where
  word := word
  numeral := n
  isNumberWord := by
    have hsplit := @NumberWord.splitNumber_append word [] h.numberWord (by rintro ⟨⟩)
    rwa [List.append_nil] at hsplit
  spells := Numeral.ofChars?_of_denotes h

end Literal

/-- The character of a sign. -/
def Sign.char : Sign → Char
  | plus => '+'
  | minus => '-'

/-- A sign is split from what begins with no other sign. -/
theorem Sign.split_append (sign : Option Sign) {cs : List Char}
    (h : ∀ c ∈ cs.head?, c ≠ '+' ∧ c ≠ '-') :
    split (sign.toList.map Sign.char ++ cs) = (sign, cs) := by
  rcases sign with _ | _ | _
  · exact split_eq_none h
  · simp [split, Sign.char]
  · simp [split, Sign.char]

/-- A number behind a run of signs. -/
structure SignedLiteral where
  signs : List Sign
  literal : Literal

namespace SignedLiteral

/-- The operand as it is written. -/
def chars (o : SignedLiteral) : List Char := o.signs.map Sign.char ++ o.literal.word

/-- The number, negated if the number of minus signs is odd. -/
def value (o : SignedLiteral) : Float :=
  if o.signs.count .minus % 2 = 1 then -o.literal.value else o.literal.value

end SignedLiteral

/-! ## Sums of products -/

/-- The number that an operator makes of two, with nothing forbidden. -/
def Operator.compute : Operator → Float → Float → Float
  | add, x, y => x + y
  | sub, x, y => x - y
  | mul, x, y => x * y
  | div, x, y => x / y

/-- Operations on a number from left to right. -/
def compute (x : Float) (rest : List (Operator × Float)) : Float :=
  rest.foldl (fun x next => next.1.compute x next.2) x

/-- Whether a number is multiplied or divided by what follows. -/
def isFactor (next : Operator × Float) : Bool := next.1.tier = .product

/-- A number multiplied and divided, from left to right, by the longest run of factors that
follows. -/
def product (x : Float) (rest : List (Operator × Float)) : Float :=
  compute x (rest.takeWhile isFactor)

/-- The terms that follow the first term of a sum: each `+` and each `-` with the product that
starts behind it. -/
def terms : List (Operator × Float) → List (Operator × Float)
  | [] => []
  | (op, x) :: rest => if isFactor (op, x) then terms rest else (op, product x rest) :: terms rest

/-- The first product, and then the other terms added to it or subtracted from left to right. -/
def sumOfProducts (x : Float) (rest : List (Operator × Float)) : Float :=
  compute (product x rest) (terms rest)

/-- An expression without parentheses and names. -/
structure Flat where
  first : SignedLiteral
  rest : List (Operator × SignedLiteral)

namespace Flat

/-- The operators with the values of the operands behind them. -/
def values (rest : List (Operator × SignedLiteral)) : List (Operator × Float) :=
  rest.map fun next => (next.1, next.2.value)

/-- What is written behind the first operand. -/
def restChars (rest : List (Operator × SignedLiteral)) : List Char :=
  rest.flatMap fun next => next.1.char :: next.2.chars

/-- The expression as it is written. -/
def text (f : Flat) : String := String.ofList (f.first.chars ++ restChars f.rest)

def value (f : Flat) : Float := sumOfProducts f.first.value (values f.rest)

/-- Some operand behind a `/` is zero, of either sign. -/
def DividesByZero (f : Flat) : Prop :=
  ∃ next ∈ values f.rest, next.1 = .div ∧ (next.2 = 0.0 ∨ next.2 = -0.0)

instance (f : Flat) : Decidable f.DividesByZero :=
  inferInstanceAs (Decidable (∃ next ∈ values f.rest, next.1 = .div ∧ _))

end Flat

/-! ## The phrases of operands and tails -/

theorem Expr.eval_negated (run : List (Sign × Nat)) (e : Expr) :
    (negated run e).eval =
      e.eval.map fun x => if run.countP (·.1 = .minus) % 2 = 1 then -x else x := by
  have hsame : e.eval = e.eval.map fun x => x := by cases e.eval <;> rfl
  cases run with
  | nil => exact hsame
  | cons sign run =>
    rw [negated]
    split
    · exact Expr.eval_neg ..
    · exact hsame

namespace SignedLiteral

variable (o : SignedLiteral) (pos : Nat)

/-- The phrase of an operand at a place. -/
def phrase : Phrase (.level .operand) :=
  .signs (o.signs.zipIdx pos) (.number o.literal.value (pos + o.signs.length))

theorem tokensFrom_signs (signs : List Sign) (pos : Nat) (rest : List Char) :
    tokensFrom pos (signs.map Sign.char ++ rest) =
      (tokensFrom (pos + signs.length) rest).map (runTokens (signs.zipIdx pos) ++ ·) := by
  induction signs generalizing pos with
  | nil =>
    show tokensFrom pos rest = (tokensFrom pos rest).map _
    cases tokensFrom pos rest <;> rfl
  | cons sign signs ih =>
    have hsign : Lexeme.mark? sign.char = some sign.symbol := by cases sign <;> rfl
    rw [List.map_cons, List.cons_append, tokensFrom_of_mark? hsign, ih, List.length_cons,
      Nat.add_right_comm, Nat.add_assoc]
    cases tokensFrom (pos + (signs.length + 1)) rest <;> rfl

/-- An operand is cut off where its number does not go on. -/
theorem tokensFrom_append {after : List Char} (hafter : ¬ StartsNumber after) :
    tokensFrom pos (o.chars ++ after) =
      (tokensFrom (pos + o.chars.length) after).map ((o.phrase pos).tokens ++ ·) := by
  have hcut : CutOff o.literal.word after :=
    .number o.literal.word_ne_nil o.literal.numberWord hafter
  rw [chars, List.append_assoc, tokensFrom_signs,
    hcut.tokensFrom_append (.number o.literal.word_ne_nil o.literal.numberWord o.literal.denotes),
    List.length_append, List.length_map, Nat.add_assoc]
  cases tokensFrom (pos + (o.signs.length + o.literal.word.length)) after with
  | error fault => rfl
  | ok later => simp [Except.map, phrase, Phrase.tokens, Literal.value]

theorem tokensFrom_chars {rest : List Char} (hrest : ∀ d ∈ rest.head?, Lexeme.separates d = true) :
    tokensFrom pos (o.chars ++ rest) =
      (tokensFrom (pos + o.chars.length) rest).map ((o.phrase pos).tokens ++ ·) :=
  o.tokensFrom_append pos (goesOn_eq_false_iff.mp (Lexeme.goesOn_rest hrest))

theorem eval_phrase : Expr.eval (o.phrase pos).tree = .ok o.value := by
  have hcount : (o.signs.zipIdx pos).countP (·.1 = .minus) = o.signs.count .minus := by
    show _ = o.signs.countP (· = .minus)
    rw [← List.zipIdx_map_fst pos o.signs, List.countP_map, List.zipIdx_map_fst]
    rfl
  show (negated (o.signs.zipIdx pos) (.lit o.literal.value _)).eval = _
  rw [Expr.eval_negated, hcount, value]
  rfl

theorem isAccepted_of_mem : ∀ c ∈ o.chars, Source.isAccepted c = true := by
  simp only [chars, List.forall_mem_append, List.forall_mem_map]
  refine ⟨fun sign _ => ?_, o.literal.isAccepted_of_mem⟩
  cases sign <;> decide

end SignedLiteral

namespace Flat

/-- The factors that follow an operand, up to the first `+` or `-` between operands. -/
def productTail (pos : Nat) : List (Operator × SignedLiteral) → Phrase (.tail .product)
  | [] => .stop
  | (op, o) :: rest =>
    if h : op.tier = .product then
      .step op h pos (o.phrase (pos + 1)) (productTail (pos + 1 + o.chars.length) rest)
    else .stop

/-- The terms that follow an operand, behind its factors. -/
def sumTail (pos : Nat) : List (Operator × SignedLiteral) → Phrase (.tail .sum)
  | [] => .stop
  | (op, o) :: rest =>
    let next := pos + 1 + o.chars.length
    if h : op.tier = .sum then
      .step op h pos (@Phrase.chain .product (o.phrase (pos + 1)) (productTail next rest))
        (sumTail next rest)
    else sumTail next rest

variable {op : Operator}

theorem productTail_factor (h : op.tier = .product) (pos : Nat) (o : SignedLiteral)
    (rest : List (Operator × SignedLiteral)) :
    productTail pos ((op, o) :: rest) = .step op h pos (o.phrase (pos + 1))
      (productTail (pos + 1 + o.chars.length) rest) := by
  rw [productTail, dif_pos h]

theorem productTail_term (h : op.tier = .sum) (pos : Nat) (o : SignedLiteral)
    (rest : List (Operator × SignedLiteral)) : productTail pos ((op, o) :: rest) = .stop := by
  rw [productTail, dif_neg (by simp [h])]

theorem sumTail_factor (h : op.tier = .product) (pos : Nat) (o : SignedLiteral)
    (rest : List (Operator × SignedLiteral)) :
    sumTail pos ((op, o) :: rest) = sumTail (pos + 1 + o.chars.length) rest := by
  rw [sumTail, dif_neg (by simp [h])]

theorem sumTail_term (h : op.tier = .sum) (pos : Nat) (o : SignedLiteral)
    (rest : List (Operator × SignedLiteral)) :
    sumTail pos ((op, o) :: rest) = .step op h pos
      (@Phrase.chain .product (o.phrase (pos + 1)) (productTail (pos + 1 + o.chars.length) rest))
      (sumTail (pos + 1 + o.chars.length) rest) := by
  rw [sumTail, dif_pos h]

theorem separates_restChars (rest : List (Operator × SignedLiteral)) :
    ∀ d ∈ (restChars rest).head?, Lexeme.separates d = true := by
  cases rest with
  | nil => simp [restChars]
  | cons next rest =>
    rintro d ⟨⟩
    cases next.1 <;> decide

theorem tokensFrom_restChars (rest : List (Operator × SignedLiteral)) : ∀ pos,
    tokensFrom pos (restChars rest) =
      .ok ((productTail pos rest).tokens ++ (sumTail pos rest).tokens) := by
  induction rest with
  | nil => exact tokensFrom_nil
  | cons next rest ih =>
    intro pos
    obtain ⟨op, o⟩ := next
    have hop : Lexeme.mark? op.char = some op.symbol := by cases op <;> rfl
    show tokensFrom pos (op.char :: (o.chars ++ restChars rest)) = _
    rw [tokensFrom_of_mark? hop, o.tokensFrom_chars _ (separates_restChars rest), ih]
    cases htier : op.tier with
    | product =>
      rw [productTail_factor htier, sumTail_factor htier]
      simp only [Except.map, Phrase.tokens, List.cons_append, List.append_assoc]
      rfl
    | sum =>
      rw [productTail_term htier, sumTail_term htier]
      simp only [Except.map, Phrase.tokens, List.nil_append, List.append_assoc]
      rfl

/-! ## Values -/

/-- Whether a division at this place is by zero. -/
def divides (next : Operator × Float) : Bool := next.1 = .div && next.2 == 0.0

/-- A number, unless something was divided by zero on the way to it. -/
def checked (bad : Bool) (x : Float) : Except Fault Float :=
  if bad then .error .divisionByZero else .ok x

theorem apply_eq_checked (op : Operator) (x y : Float) :
    op.apply x y = checked (divides (op, y)) (op.compute x y) := by
  cases op with
  | div => simp [Operator.apply, checked, divides, Operator.compute]
  | _ => rfl

theorem beq_zero_iff {x : Float} : (x == 0.0) = true ↔ x = 0.0 ∨ x = -0.0 := by
  rw [Float.beq_iff_ne_nan_and_eq]
  constructor
  · rintro ⟨-, -, heq | ⟨heq, -⟩ | ⟨heq, -⟩⟩
    · exact .inl heq
    · exact .inl (heq.trans (by decide))
    · exact .inr (heq.trans (by decide))
  · rintro (rfl | rfl) <;> decide

/-- One more operation, on operands whose values are known so far. -/
theorem eval_bin_checked {left right : Expr} {bad bad' : Bool} {x y : Float} (op : Operator)
    (pos : Nat) (hleft : left.eval = checked bad x) (hright : right.eval = checked bad' y) :
    (Expr.bin op left right pos).eval =
      checked (bad || (bad' || divides (op, y))) (op.compute x y) := by
  rw [Expr.eval_bin, hleft, hright]
  cases bad with
  | true => rfl
  | false =>
    cases bad' with
    | true => rfl
    | false => exact apply_eq_checked op x y

theorem eval_productTail (rest : List (Operator × SignedLiteral)) :
    ∀ (pos : Nat) {left : Expr} {bad : Bool} {x : Float}, left.eval = checked bad x →
      Expr.eval ((productTail pos rest).tree left) =
        checked (bad || ((values rest).takeWhile isFactor).any divides)
          (product x (values rest)) := by
  induction rest with
  | nil =>
    intro pos left bad x hleft
    rw [productTail, Phrase.tree, hleft]
    simp [values, product, compute]
  | cons next rest ih =>
    intro pos left bad x hleft
    obtain ⟨op, o⟩ := next
    cases htier : op.tier with
    | product =>
      have ho : Expr.eval (o.phrase (pos + 1)).tree = checked false o.value := o.eval_phrase _
      rw [productTail_factor htier]
      refine (ih _ (eval_bin_checked op pos hleft ho)).trans ?_
      simp [values, product, compute, isFactor, htier, Bool.or_assoc]
    | sum =>
      rw [productTail_term htier, Phrase.tree, hleft]
      simp [values, product, compute, isFactor, htier]

theorem eval_sumTail (rest : List (Operator × SignedLiteral)) :
    ∀ (pos : Nat) {left : Expr} {bad : Bool} {x : Float}, left.eval = checked bad x →
      Expr.eval ((sumTail pos rest).tree left) =
        checked (bad || ((values rest).dropWhile isFactor).any divides)
          (compute x (terms (values rest))) := by
  induction rest with
  | nil =>
    intro pos left bad x hleft
    rw [sumTail, Phrase.tree, hleft]
    simp [values, terms, compute]
  | cons next rest ih =>
    intro pos left bad x hleft
    obtain ⟨op, o⟩ := next
    cases htier : op.tier with
    | product =>
      rw [sumTail_factor htier, ih _ hleft]
      simp [values, terms, isFactor, htier]
    | sum =>
      have ho : Expr.eval (o.phrase (pos + 1)).tree = checked false o.value := o.eval_phrase _
      have hterm := eval_productTail rest (pos + 1 + o.chars.length) ho
      have hdivides : ∀ y, divides (op, y) = false := by
        intro y
        cases op <;> cases htier <;> rfl
      have hany : (values rest).any divides = (((values rest).takeWhile isFactor).any divides ||
          ((values rest).dropWhile isFactor).any divides) := by
        rw [← List.any_append, List.takeWhile_append_dropWhile]
      have hvalues : values ((op, o) :: rest) = (op, o.value) :: values rest := rfl
      have hfactor : ¬ isFactor (op, o.value) = true := by simp [isFactor, htier]
      rw [sumTail_term htier]
      refine (ih _ (eval_bin_checked op pos hleft hterm)).trans ?_
      rw [hvalues, List.dropWhile_cons_of_neg hfactor, List.any_cons, hdivides, hdivides, hany,
        terms, if_neg hfactor, Bool.or_false, Bool.false_or, Bool.false_or, Bool.or_assoc]
      rfl

/-! ## The whole -/

theorem nesting_productTail (rest : List (Operator × SignedLiteral)) : ∀ pos,
    (productTail pos rest).nesting = 0 := by
  induction rest with
  | nil => exact fun _ => rfl
  | cons next rest ih =>
    intro pos
    rw [productTail]
    split
    · show max 0 (productTail _ rest).nesting = 0
      rw [ih, Nat.max_self]
    · rfl

theorem nesting_sumTail (rest : List (Operator × SignedLiteral)) : ∀ pos,
    (sumTail pos rest).nesting = 0 := by
  induction rest with
  | nil => exact fun _ => rfl
  | cons next rest ih =>
    intro pos
    rw [sumTail]
    split
    · show max (max 0 (productTail _ rest).nesting) (sumTail _ rest).nesting = 0
      rw [nesting_productTail, ih, Nat.max_self, Nat.max_self]
    · exact ih _

/-- The derivation of an expression without parentheses. -/
def derivation (f : Flat) : Derivation :=
  @Phrase.chain .sum
    (@Phrase.chain .product (f.first.phrase 0) (productTail (0 + f.first.chars.length) f.rest))
    (sumTail (0 + f.first.chars.length) f.rest)

variable (f : Flat)

theorem isAccepted_of_mem : ∀ c ∈ f.first.chars ++ restChars f.rest,
    Source.isAccepted c = true := by
  simp only [List.forall_mem_append, restChars, List.forall_mem_flatMap, List.forall_mem_cons]
  refine ⟨f.first.isAccepted_of_mem, fun next _ => ⟨?_, next.2.isAccepted_of_mem⟩⟩
  cases next.1 <;> decide

theorem spells_text : Spells f.text.toList f.derivation where
  accepted := by
    rw [text, String.toList_ofList]
    exact fun c hc => Source.isForeign_of_isAccepted (f.isAccepted_of_mem c hc)
  cut := by
    rw [text, String.toList_ofList, strip_eq_self f.isAccepted_of_mem,
      f.first.tokensFrom_chars 0 (separates_restChars f.rest), tokensFrom_restChars]
    simp only [Except.map, ← List.append_assoc]
    rfl

theorem nesting_derivation : f.derivation.nesting = 0 := by
  show max (max 0 (productTail _ f.rest).nesting) (sumTail _ f.rest).nesting = 0
  rw [nesting_productTail, nesting_sumTail, Nat.max_self, Nat.max_self]

theorem eval_derivation :
    Expr.eval f.derivation.tree = checked ((values f.rest).any divides) f.value := by
  have hfirst : Expr.eval (f.first.phrase 0).tree = checked false f.first.value :=
    f.first.eval_phrase 0
  refine (eval_sumTail f.rest _ (eval_productTail f.rest _ hfirst)).trans ?_
  rw [Bool.false_or, ← List.any_append, List.takeWhile_append_dropWhile]
  rfl

theorem any_divides_iff : (values f.rest).any divides = true ↔ f.DividesByZero := by
  simp [DividesByZero, divides, beq_zero_iff]

/-- The value of an expression without parentheses is its sum of products, computed from left to
right. Only dividing by an operand that is zero, of either sign, is a fault. -/
theorem evaluate_text :
    evaluate f.text = if f.DividesByZero then .error .divisionByZero else .ok f.value := by
  rw [f.spells_text.evaluate (by rw [f.nesting_derivation]; exact Nat.zero_le _), f.eval_derivation,
    checked]
  simp only [f.any_divides_iff]

example : evaluate "8/4-2*--3+1" = .ok (-3.0) := by decide +kernel

end Flat

/-- A number behind signs, and nothing else. -/
theorem SignedLiteral.evaluate_chars (o : SignedLiteral) :
    evaluate (String.ofList o.chars) = .ok o.value := by
  have htext : String.ofList o.chars = Flat.text ⟨o, []⟩ := by
    rw [Flat.text]
    exact congrArg String.ofList (List.append_nil _).symm
  have hnesting : (Flat.derivation ⟨o, []⟩).nesting ≤ maxNesting := by
    rw [Flat.nesting_derivation]
    exact Nat.zero_le _
  rw [htext, (Flat.spells_text ⟨o, []⟩).evaluate hnesting, Flat.eval_derivation]
  rfl

end Calculator
