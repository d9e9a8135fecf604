import Calculator.Proofs.Reading

/-!
# What the parser looks at

A reader of expressions decides by the tokens that it takes. Of those behind them it asks only
whether the first is an operator that it has to take as well, and behind `log10` whether it is the
parenthesis of an argument.

* `stops_readProduct`, `stops_readSum`: no operator of its own is left in front of a reader
* `Level.result_reader_append`: what a reader takes, it takes in front of anything that ends it
* `readSum_lookahead`: both together, for sums and for products
-/

namespace Calculator

/-! ## Where the readers stop -/

section Stops

variable {operator? : Symbol → Option Operator} {readItem readGroup : Reader Expr}
  {origin tokens rest : List Token} {left e : Expr}

/-- The first of the tokens, if there is one, is nothing that `operator?` takes for an operator. -/
def StopsBefore (operator? : Symbol → Option Operator) (tokens : List Token) : Prop :=
  ∀ t ∈ tokens.head?, operator? t.symbol = none

theorem stops_readChain {h : tokens.length < origin.length}
    (hresult : (readChain operator? readItem left tokens h).result = .ok (e, rest)) :
    StopsBefore operator? rest := by
  fun_induction readChain operator? readItem left tokens h with
  | case1 left h =>
    cases hresult
    rintro t ⟨⟩
  | case2 left t tokens h hop =>
    cases hresult
    rintro t' ⟨⟩
    exact hop
  | case3 left t tokens h op hop fault unread hfail => cases hresult
  | case4 left t tokens h op hop right later shorter hdone h' ih => exact ih hresult

/-- A chain leaves what its last operand leaves. -/
theorem readChain_leaves {P : List Token → Prop}
    (hitem : ∀ tokens e rest, (readItem tokens).result = .ok (e, rest) → P rest)
    {h : tokens.length < origin.length} (htokens : P tokens)
    (hresult : (readChain operator? readItem left tokens h).result = .ok (e, rest)) : P rest := by
  fun_induction readChain operator? readItem left tokens h with
  | case1 left h =>
    cases hresult
    exact htokens
  | case2 left t tokens h hop =>
    cases hresult
    exact htokens
  | case3 left t tokens h op hop fault unread hfail => cases hresult
  | case4 left t tokens h op hop right later shorter hdone h' ih =>
    exact ih (hitem tokens right later (by rw [hdone]; rfl)) hresult

/-- What a level reads begins with an operand, and a chain goes on behind it. -/
theorem exists_chain_of_readLevel
    (hresult : (readLevel operator? readItem tokens).result = .ok (e, rest)) :
    ∃ left later h, (readItem tokens).result = .ok (left, later) ∧
      (@readChain operator? readItem tokens left later h).result = .ok (e, rest) := by
  cases hfirst : (readItem tokens).result with
  | error fault =>
    rw [result_readLevel_of_error hfirst] at hresult
    cases hresult
  | ok first =>
    obtain ⟨h, hchain⟩ := result_readLevel_of_ok hfirst
    exact ⟨first.1, first.2, h, rfl, hchain ▸ hresult⟩

theorem stops_readProduct (hresult : (readProduct readGroup tokens).result = .ok (e, rest)) :
    StopsBefore Symbol.factorOperator? rest := by
  obtain ⟨left, later, h, -, hchain⟩ := exists_chain_of_readLevel hresult
  exact stops_readChain hchain

theorem stops_readSum (hresult : (readSum readGroup tokens).result = .ok (e, rest)) :
    StopsBefore Symbol.operator? rest := by
  obtain ⟨left, later, h, hleft, hchain⟩ := exists_chain_of_readLevel hresult
  have hfactor : StopsBefore Symbol.factorOperator? rest :=
    readChain_leaves (fun _ _ _ => stops_readProduct) (stops_readProduct hleft) hchain
  have hterm : StopsBefore Symbol.termOperator? rest := stops_readChain hchain
  intro t ht
  have := hfactor t ht
  have := hterm t ht
  cases hsymbol : t.symbol <;>
    simp_all [Symbol.factorOperator?, Symbol.termOperator?, Symbol.operator?]

end Stops

/-! ## What follows -/

namespace Level

theorem ends_sum_iff {rest : List Token} :
    (chain .sum).Ends rest ↔
      ∀ t ∈ rest.head?, t.symbol.operator? = none ∧ t.symbol ≠ .lparen := by
  cases rest with
  | nil => simp
  | cons t rest => cases hsymbol : t.symbol <;> simp [goesOn, Symbol.operator?, hsymbol]

theorem ends_product_iff {rest : List Token} :
    (chain .product).Ends rest ↔
      ∀ t ∈ rest.head?, t.symbol.factorOperator? = none ∧ t.symbol ≠ .lparen := by
  cases rest with
  | nil => simp
  | cons t rest => cases hsymbol : t.symbol <;> simp [goesOn, Symbol.factorOperator?, hsymbol]

/-- A phrase that is not nested too deep, in front of something that ends it. -/
theorem result_reader {l : Level} (D : Phrase (.level l)) {room : Nat} (hnesting : D.nesting ≤ room)
    (rest : List Token) (hrest : l.Ends rest) :
    (l.reader room (D.tokens ++ rest)).result = .ok (D.tree, rest) := by
  have hreads : (l.reader room (D.tokens ++ rest)).result = _ := D.reads room rest hrest
  rw [hreads, Phrase.outcome_of_le hnesting]
  rfl

/-- A reader that leaves exactly `rest` has taken a phrase, and takes the same one in front of
anything that ends it. -/
theorem result_reader_append {l : Level} {room : Nat} {ts rest : List Token} {e : Expr}
    (h : (l.reader room (ts ++ rest)).result = .ok (e, rest)) :
    ts ≠ [] ∧ ∀ rest', l.Ends rest' →
      (l.reader room (ts ++ rest')).result = .ok (e, rest') := by
  obtain ⟨D, hnesting, htokens, rfl⟩ := exists_phrase_of_reader h
  obtain rfl := List.append_cancel_right htokens
  obtain ⟨t, ts, hts, -⟩ := D.head_tokens_ne_rparen l rfl
  exact ⟨by simp [hts], fun rest' hrest' => result_reader D hnesting rest' hrest'⟩

end Level

/-- Reading an expression takes at least one token and stops in front of no operator, and what is
read does not depend on what follows, as long as that begins with neither an operator nor a `(`:
behind `log 10` a parenthesis opens an argument. It is the same with products and their two
operators. -/
theorem readSum_lookahead (depth : Nat) (ts rest : List Token) (e : Expr) :
    ((readSum (groupAt depth) (ts ++ rest)).result = .ok (e, rest) →
      ts ≠ [] ∧ (∀ t ∈ rest.head?, t.symbol.operator? = none) ∧
      ∀ rest', (∀ t ∈ rest'.head?, t.symbol.operator? = none ∧ t.symbol ≠ .lparen) →
        (readSum (groupAt depth) (ts ++ rest')).result = .ok (e, rest')) ∧
    ((readProduct (groupAt depth) (ts ++ rest)).result = .ok (e, rest) →
      ts ≠ [] ∧ (∀ t ∈ rest.head?, t.symbol.factorOperator? = none) ∧
      ∀ rest', (∀ t ∈ rest'.head?, t.symbol.factorOperator? = none ∧ t.symbol ≠ .lparen) →
        (readProduct (groupAt depth) (ts ++ rest')).result = .ok (e, rest')) := by
  constructor
  · intro h
    obtain ⟨hne, happend⟩ := @Level.result_reader_append (.chain .sum) _ _ _ _ h
    exact ⟨hne, stops_readSum h, fun rest' hrest' => happend rest' (Level.ends_sum_iff.mpr hrest')⟩
  · intro h
    obtain ⟨hne, happend⟩ := @Level.result_reader_append (.chain .product) _ _ _ _ h
    exact ⟨hne, stops_readProduct h,
      fun rest' hrest' => happend rest' (Level.ends_product_iff.mpr hrest')⟩

/-- The call in `1-log 10` stays that call when a comma takes the place of a parenthesis. The
product `3*-sin(2)`, at a depth that leaves room for one group, is the same in front of a plus
sign and in front of a name. -/
theorem readSum_lookahead_log :
    ((readSum (groupAt 128) [⟨.number 1.0, 0⟩, ⟨.minus, 1⟩, ⟨.name "log", 2⟩, ⟨.number 10.0, 6⟩,
        ⟨.rparen, 8⟩]).result =
      .ok (.bin .sub (.lit 1.0 0) (.call "log" (.lit 10.0 6) 2) 1, [⟨.rparen, 8⟩]) ∧
    (readSum (groupAt 128) [⟨.number 1.0, 0⟩, ⟨.minus, 1⟩, ⟨.name "log", 2⟩, ⟨.number 10.0, 6⟩,
        ⟨.comma, 8⟩]).result =
      .ok (.bin .sub (.lit 1.0 0) (.call "log" (.lit 10.0 6) 2) 1, [⟨.comma, 8⟩])) ∧
    (readProduct (groupAt 127) [⟨.number 3.0, 0⟩, ⟨.star, 1⟩, ⟨.minus, 2⟩, ⟨.name "sin", 3⟩,
        ⟨.lparen, 6⟩, ⟨.number 2.0, 7⟩, ⟨.rparen, 8⟩, ⟨.plus, 9⟩]).result =
      .ok (.bin .mul (.lit 3.0 0) (.neg (.call "sin" (.lit 2.0 7) 3) 2) 1, [⟨.plus, 9⟩]) ∧
    (readProduct (groupAt 127) [⟨.number 3.0, 0⟩, ⟨.star, 1⟩, ⟨.minus, 2⟩, ⟨.name "sin", 3⟩,
        ⟨.lparen, 6⟩, ⟨.number 2.0, 7⟩, ⟨.rparen, 8⟩, ⟨.name "ln", 9⟩]).result =
      .ok (.bin .mul (.lit 3.0 0) (.neg (.call "sin" (.lit 2.0 7) 3) 2) 1, [⟨.name "ln", 9⟩]) := by
  have hsum := Level.result_reader
    (.operation .sub 1 (.signs [] (.number 1.0 0)) (.signs [] (.callNumber "log" 2 10.0 6)))
    (Nat.zero_le 0) [⟨.rparen, 8⟩] rfl
  have hproduct := Level.result_reader
    (@Phrase.chain .product (.signs [] (.number 3.0 0)) (.step .mul rfl 1
      (.signs [(.minus, 2)] (.callGroup "sin" 3 6 (.alone (.signs [] (.number 2.0 7))) 8)) .stop))
    (Nat.le_refl 1) [⟨.plus, 9⟩] rfl
  exact ⟨⟨hsum, ((readSum_lookahead 128 _ _ _).1 hsum).2.2 [⟨.comma, 8⟩] (by decide)⟩, hproduct,
    ((readSum_lookahead 127 _ _ _).2 hproduct).2.2 [⟨.name "ln", 9⟩] (by decide)⟩

end Calculator
