import Calculator.Proofs.Reading

/-!
# The parser and the grammar

The parser accepts what the grammar derives, no more and no less, up to the depth at which it gives
up. Its tree is the tree of the derivation, of which there is only one.

* `parse_iff_derives`: the parser against the grammar
-/

namespace Calculator

/-! ## Balance -/

theorem imbalance?_cons_of_ne {t : Token} (hopen : t.symbol ≠ .lparen) (hclose : t.symbol ≠ .rparen)
    (depth : Nat) (tokens : List Token) :
    imbalance? depth (t :: tokens) = imbalance? depth tokens := by
  obtain ⟨symbol, pos⟩ := t
  cases symbol with
  | lparen => exact absurd rfl hopen
  | rparen => exact absurd rfl hclose
  | _ => cases depth <;> rfl

theorem imbalance?_operator_cons (op : Operator) (pos depth : Nat) (rest : List Token) :
    imbalance? depth (⟨op.symbol, pos⟩ :: rest) = imbalance? depth rest := by
  apply imbalance?_cons_of_ne <;> cases op <;> simp [Operator.symbol]

theorem imbalance?_runTokens_append (run : List (Sign × Nat)) (depth : Nat) (rest : List Token) :
    imbalance? depth (runTokens run ++ rest) = imbalance? depth rest := by
  induction run with
  | nil => rfl
  | cons sign run ih =>
    rw [← ih]
    obtain ⟨sign, pos⟩ := sign
    apply imbalance?_cons_of_ne <;> cases sign <;> simp [Sign.symbol]

/-- The parentheses in a phrase do not show from outside. -/
theorem Phrase.imbalance?_tokens_append {r : Rule} (D : Phrase r) : ∀ depth rest,
    imbalance? depth (D.tokens ++ rest) = imbalance? depth rest := by
  induction D with
  | chain first more ihFirst ihMore =>
    intro depth rest
    rw [tokens, List.append_assoc, ihFirst, ihMore]
  | stop => exact fun _ _ => rfl
  | step op onTier pos next more ihNext ihMore =>
    intro depth rest
    rw [tokens, List.cons_append, List.append_assoc, imbalance?_operator_cons, ihNext, ihMore]
  | signs run body ih =>
    intro depth rest
    rw [tokens, List.append_assoc, imbalance?_runTokens_append, ih]
  | number value pos => exact fun _ _ => rfl
  | group opening inside closing ih =>
    intro depth rest
    rw [tokens, List.cons_append, List.append_assoc, List.singleton_append]
    exact ih (depth + 1) _
  | callNumber name pos value numberPos => exact fun _ _ => rfl
  | callGroup name pos opening inside closing ih =>
    intro depth rest
    rw [tokens, List.cons_append, List.cons_append, List.append_assoc, List.singleton_append]
    exact ih (depth + 1) _
  | callLog10 name isLog pos tenPos inside closing ih =>
    intro depth rest
    rw [tokens, List.cons_append, List.cons_append, List.cons_append, List.append_assoc,
      List.singleton_append]
    exact ih (depth + 1) _

theorem Phrase.imbalance?_tokens (D : Derivation) : imbalance? 0 D.tokens = none := by
  have h := D.imbalance?_tokens_append 0 []
  rwa [List.append_nil] at h

/-! ## The whole -/

theorem parse_of_imbalance {tokens : List Token} {fault : Fault}
    (h : imbalance? 0 tokens = some fault) : parse tokens = .error fault := by
  rw [parse, h]

/-- What parsing balanced tokens comes to, by what reading them from the front comes to. -/
theorem parse_of_balanced {tokens : List Token} (h : imbalance? 0 tokens = none)
    (hne : tokens ≠ []) :
    parse tokens = match ((Level.chain .sum).reader maxNesting tokens).result with
      | .error fault => .error fault
      | .ok (e, []) => .ok e
      | .ok (_, t :: rest) => .error (leftover (groupAt 0) t rest).1 := by
  have hreader : (Level.chain .sum).reader maxNesting = readSum (groupAt 0) := rfl
  rw [parse, h, hreader]
  simp only [if_neg hne]
  cases readSum (groupAt 0) tokens with
  | fail fault rest => rfl
  | done e rest shorter => cases rest <;> rfl

/-- Parsing the tokens of a derivation. -/
theorem parse_tokens (D : Derivation) : parse D.tokens = D.outcome maxNesting := by
  obtain ⟨t, ts, htokens, -⟩ := D.head_tokens_ne_rparen _ rfl
  have hreads : ((Level.chain .sum).reader maxNesting D.tokens).result = _ :=
    List.append_nil D.tokens ▸ D.reads maxNesting [] trivial
  rw [parse_of_balanced D.imbalance?_tokens (by rw [htokens]; simp), hreads]
  cases D.outcome maxNesting <;> rfl

/-- What the parser accepts has a derivation. -/
theorem exists_derivation_of_parse {tokens : List Token} {e : Expr} (h : parse tokens = .ok e) :
    ∃ D : Derivation, D.tokens = tokens ∧ D.nesting ≤ maxNesting ∧ D.tree = e := by
  cases hbalance : imbalance? 0 tokens with
  | some fault =>
    rw [parse_of_imbalance hbalance] at h
    cases h
  | none =>
    by_cases hne : tokens = []
    · subst hne
      cases h
    · rw [parse_of_balanced hbalance hne] at h
      split at h
      · cases h
      · next e' hresult =>
        cases h
        obtain ⟨D, hnesting, rfl, rfl⟩ := exists_phrase_of_reader hresult
        exact ⟨D, (List.append_nil _).symm, hnesting, rfl⟩
      · cases h

/-- The parser accepts exactly what the grammar derives with groups nested at most `maxNesting`
deep. There is at most one derivation of the tokens, and the result is its tree. What can only be
derived with deeper groups is refused for its depth. -/
theorem parse_iff_derives (tokens : List Token) :
    (∀ e, parse tokens = .ok e ↔
      ∃ D : Derivation, D.tokens = tokens ∧ D.nesting ≤ maxNesting ∧ D.tree = e) ∧
    (∀ D D' : Derivation, D.tokens = tokens → D'.tokens = tokens → D = D') ∧
    (∀ D : Derivation, D.tokens = tokens → maxNesting < D.nesting →
      parse tokens = .error (.malformed (.tooDeep maxNesting))) ∧
    (Flaw.tooDeep maxNesting).details = "parentheses nested deeper than 128 levels" := by
  refine ⟨fun e => ⟨exists_derivation_of_parse, ?_⟩, fun D D' h h' => ?_, fun D h hdeep => ?_, rfl⟩
  · rintro ⟨D, rfl, hnesting, rfl⟩
    rw [parse_tokens, D.outcome_of_le hnesting]
  · exact (D.eq_of_tokens_append D' (congrArg (· ++ []) (h.trans h'.symm)) trivial trivial).1
  · rw [← h, parse_tokens, D.outcome_of_lt hdeep]

/-- The call `-LOG10(1)`, and a number in 129 groups. -/
theorem parse_iff_derives_log10 :
    parse [⟨.minus, 0⟩, ⟨.name "LOG", 1⟩, ⟨.number 10.0, 4⟩, ⟨.lparen, 6⟩, ⟨.number 1.0, 7⟩,
      ⟨.rparen, 8⟩] = .ok (.neg (.call "LOG10" (.lit 1.0 7) 1) 0) ∧
    parse (Nat.repeat (fun D => Phrase.alone (.signs [] (.group 0 D 0))) 129
      (.alone (.signs [] (.number 1.0 0)))).tokens =
      .error (.malformed (.tooDeep 128)) :=
  ⟨((parse_iff_derives _).1 _).mpr
    ⟨.chain (.chain (.signs [(.minus, 0)]
      (.callLog10 "LOG" (by decide) 1 4 (.alone (.signs [] (.number 1.0 7))) 8)) .stop) .stop,
      rfl, by decide, rfl⟩,
    (parse_iff_derives _).2.2.1 _ rfl (by decide +kernel)⟩

end Calculator
