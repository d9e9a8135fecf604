import Mathlib
import Calculator.Proofs.Grammar
import Calculator.Proofs.Outcome

/-!
# Readers and phrases

The readers of the parser against the phrases of the grammar, level by level.

* `Reading.result`: what a reading comes to, without the tokens behind a fault
* `Phrase.reads`: a reader finds a phrase that is nested no deeper than it may go, and fails on a
  deeper one
* `exists_phrase_of_reader`: whatever a reader finds is a phrase
-/

namespace Calculator

namespace Reading

variable {α β : Type} {tokens : List Token}

/-- What a reading comes to: a value and the tokens after it, or a fault. -/
def result : Reading α tokens → Except Fault (α × List Token)
  | done value rest _ => .ok (value, rest)
  | fail fault _ => .error fault

@[simp] theorem result_done (value : α) (rest : List Token) (h : rest.length < tokens.length) :
    (done value rest h).result = .ok (value, rest) := rfl

@[simp] theorem result_fail (fault : Fault) (rest : List Token) :
    (fail fault rest : Reading α tokens).result = .error fault := rfl

@[simp] theorem result_map (f : α → β) (r : Reading α tokens) :
    (r.map f).result = r.result.map fun (value, rest) => (f value, rest) := by
  cases r <;> rfl

theorem exists_done {r : Reading α tokens} {value : α} {rest : List Token}
    (h : r.result = .ok (value, rest)) : ∃ shorter, r = done value rest shorter := by
  cases r with
  | done value' rest' shorter =>
    cases h
    exact ⟨shorter, rfl⟩
  | fail => cases h

theorem exists_fail {r : Reading α tokens} {fault : Fault} (h : r.result = .error fault) :
    ∃ rest, r = fail fault rest := by
  cases r with
  | done => cases h
  | fail fault' rest =>
    cases h
    exact ⟨rest, rfl⟩

@[simp] theorem result_extend {later : List Token} (h : later.length ≤ tokens.length)
    (r : Reading α later) : (r.extend h).result = r.result := by
  cases r <;> rfl

end Reading

/-! ## The readers of the levels -/

/-- The operators on a tier. -/
def Tier.operator? : Tier → Symbol → Option Operator
  | sum => Symbol.termOperator?
  | product => Symbol.factorOperator?

theorem Tier.operator?_eq_some_iff {tier : Tier} {s : Symbol} {op : Operator} :
    tier.operator? s = some op ↔ s = op.symbol ∧ op.tier = tier := by
  cases tier <;> cases s <;> cases op <;>
    simp [Tier.operator?, Symbol.termOperator?, Symbol.factorOperator?, Operator.symbol,
      Operator.tier]

theorem Level.Ends.operator? {tier : Tier} {t : Token} {rest : List Token}
    (h : (Level.chain tier).Ends (t :: rest)) : tier.operator? t.symbol = none := by
  revert h
  cases tier <;> cases hsymbol : t.symbol <;>
    simp [Level.goesOn, Tier.operator?, Symbol.termOperator?, Symbol.factorOperator?, hsymbol]

/-- The reader of a level, with `room` levels of groups left. -/
def Level.reader (room : Nat) : Level → Reader Expr
  | chain .sum => readSum (readGroup room)
  | chain .product => readProduct (readGroup room)
  | operand => readOperand (readGroup room)
  | primary => readPrimary (readGroup room)

theorem Level.reader_chain (room : Nat) (tier : Tier) :
    (chain tier).reader room = readLevel tier.operator? (tier.operand.reader room) := by
  cases tier <;> rfl

/-! ## The steps of the readers -/

section Steps

variable {operator? : Symbol → Option Operator} {readItem readGroup : Reader Expr}
  {origin tokens rest : List Token} {left right : Expr} {t : Token} {op : Operator} {fault : Fault}

theorem result_readChain_of_none (hop : operator? t.symbol = none)
    (h : (t :: tokens).length < origin.length) :
    (readChain operator? readItem left (t :: tokens) h).result = .ok (left, t :: tokens) := by
  rw [readChain]
  split
  · rfl
  · simp_all

theorem result_readChain_of_error (hop : operator? t.symbol = some op)
    (hright : (readItem tokens).result = .error fault)
    (h : (t :: tokens).length < origin.length) :
    (readChain operator? readItem left (t :: tokens) h).result = .error fault := by
  obtain ⟨unread, hfail⟩ := Reading.exists_fail hright
  rw [readChain]
  split
  · simp_all
  · rw [hfail]
    rfl

theorem result_readChain_of_ok (hop : operator? t.symbol = some op)
    (hright : (readItem tokens).result = .ok (right, rest))
    (h : (t :: tokens).length < origin.length) :
    ∃ h', (readChain operator? readItem left (t :: tokens) h).result =
      (@readChain operator? readItem origin (.bin op left right t.pos) rest h').result := by
  obtain ⟨shorter, hdone⟩ := Reading.exists_done hright
  simp only [List.length_cons] at h
  refine ⟨by omega, ?_⟩
  rw [readChain]
  split
  · simp_all
  · next op' hop' =>
    obtain rfl : op' = op := by simpa [hop] using hop'.symm
    rw [hdone]

theorem result_readLevel_of_error (hleft : (readItem tokens).result = .error fault) :
    (readLevel operator? readItem tokens).result = .error fault := by
  obtain ⟨unread, hfail⟩ := Reading.exists_fail hleft
  rw [readLevel, hfail]
  rfl

theorem result_readLevel_of_ok (hleft : (readItem tokens).result = .ok (left, rest)) :
    ∃ h, (readLevel operator? readItem tokens).result =
      (@readChain operator? readItem tokens left rest h).result := by
  obtain ⟨shorter, hdone⟩ := Reading.exists_done hleft
  refine ⟨shorter, ?_⟩
  rw [readLevel, hdone]

theorem beq_ten_iff {x : Float} : (x == 10.0) = true ↔ x = 10.0 := by
  rw [Float.beq_iff_ne_nan_and_eq]
  constructor
  · rintro ⟨-, -, heq | ⟨-, hzero⟩ | ⟨-, hzero⟩⟩
    · exact heq
    · exact absurd hzero (by decide)
    · exact absurd hzero (by decide)
  · rintro rfl
    exact ⟨by decide, by decide, .inl rfl⟩

theorem isLog10_iff {name : String} {value : Float} {pos parenPos : Nat} :
    isLog10 name value pos parenPos = true ↔
      Text.lowercase name.toList = ['l', 'o', 'g'] ∧ value = 10.0 ∧ parenPos = pos + 2 := by
  simp [isLog10, beq_ten_iff, and_assoc]

theorem result_readOperand (tokens : List Token) :
    (readOperand readGroup tokens).result =
      (readPrimary readGroup (tokens.dropWhile Token.isSign)).result.map fun (operand, rest) =>
        (signed (tokens.takeWhile Token.isSign) operand, rest) := by
  rw [readOperand, Reading.result_extend, Reading.result_map]

theorem result_readPrimary_lparen (pos : Nat) (tokens : List Token) :
    (readPrimary readGroup (⟨.lparen, pos⟩ :: tokens)).result = (readGroup tokens).result := by
  rw [readPrimary, Reading.result_extend]

theorem result_readPrimary_name (word : String) (pos : Nat) (tokens : List Token) :
    (readPrimary readGroup (⟨.name word, pos⟩ :: tokens)).result =
      (readCall readGroup word pos tokens).result := by
  rw [readPrimary, Reading.result_extend]

theorem result_readCall_lparen (name : String) (pos parenPos : Nat) (tokens : List Token) :
    (readCall readGroup name pos (⟨.lparen, parenPos⟩ :: tokens)).result =
      (readGroup tokens).result.map fun (arg, rest) => (.call name arg pos, rest) := by
  rw [readCall, Reading.result_extend, Reading.result_map]

theorem result_readCall_log10 {name : String} {value : Float} {numberPos parenPos : Nat}
    (h : isLog10 name value numberPos parenPos = true) (pos : Nat) (tokens : List Token) :
    (readCall readGroup name pos
        (⟨.number value, numberPos⟩ :: ⟨.lparen, parenPos⟩ :: tokens)).result =
      (readGroup tokens).result.map fun (arg, rest) => (.call (name ++ "10") arg pos, rest) := by
  rw [readCall, if_pos h, Reading.result_extend, Reading.result_map]

theorem result_readCall_number {name : String} {value : Float} {numberPos : Nat}
    (h : ∀ parenPos later, tokens = ⟨.lparen, parenPos⟩ :: later →
      isLog10 name value numberPos parenPos = false) (pos : Nat) :
    (readCall readGroup name pos (⟨.number value, numberPos⟩ :: tokens)).result =
      .ok (.call name (.lit value numberPos) pos, tokens) := by
  cases tokens with
  | nil => rfl
  | cons t later =>
    obtain ⟨symbol, parenPos⟩ := t
    cases symbol with
    | lparen =>
      rw [readCall, if_neg (by simp [h parenPos later rfl])]
      rfl
    | _ => rfl

theorem result_readCall_of_missing {t : Token} (hnumber : ∀ value, t.symbol ≠ .number value)
    (hparen : t.symbol ≠ .lparen) (name : String) (pos : Nat) (tokens : List Token) :
    (readCall readGroup name pos (t :: tokens)).result = .error (.missingArgument name) := by
  obtain ⟨symbol, tokenPos⟩ := t
  cases symbol with
  | number value => exact absurd rfl (hnumber value)
  | lparen => exact absurd rfl hparen
  | _ => rfl

theorem result_readPrimary_of_misplaced {t : Token} (hnumber : ∀ value, t.symbol ≠ .number value)
    (hname : ∀ word, t.symbol ≠ .name word) (hparen : t.symbol ≠ .lparen) (tokens : List Token) :
    (readPrimary readGroup (t :: tokens)).result = .error (misplaced t) := by
  obtain ⟨symbol, tokenPos⟩ := t
  cases symbol with
  | number value => exact absurd rfl (hnumber value)
  | name word => exact absurd rfl (hname word)
  | lparen => exact absurd rfl hparen
  | _ => rfl

/-- All that can become of a call. -/
theorem result_readCall_cases (name : String) (pos : Nat) (tokens : List Token) :
    (∃ tenPos later, Text.lowercase name.toList = ['l', 'o', 'g'] ∧
      tokens = ⟨.number 10.0, tenPos⟩ :: ⟨.lparen, tenPos + 2⟩ :: later ∧
      (readCall readGroup name pos tokens).result =
        (readGroup later).result.map fun (arg, rest) => (.call (name ++ "10") arg pos, rest)) ∨
    (∃ value numberPos later, tokens = ⟨.number value, numberPos⟩ :: later ∧
      (readCall readGroup name pos tokens).result =
        .ok (.call name (.lit value numberPos) pos, later)) ∨
    (∃ parenPos later, tokens = ⟨.lparen, parenPos⟩ :: later ∧
      (readCall readGroup name pos tokens).result =
        (readGroup later).result.map fun (arg, rest) => (.call name arg pos, rest)) ∨
    (readCall readGroup name pos tokens).result = .error (.missingArgument name) := by
  fun_cases readCall readGroup name pos tokens with
  | case1 value numberPos parenPos later hlog =>
    obtain ⟨hname, rfl, rfl⟩ := isLog10_iff.mp hlog
    exact .inl ⟨numberPos, later, hname, rfl, result_readCall_log10 hlog pos later⟩
  | case2 value numberPos parenPos later hlog =>
    exact .inr (.inl ⟨value, numberPos, _, rfl, result_readCall_number (by simpa using hlog) pos⟩)
  | case3 value numberPos later hparen =>
    exact .inr (.inl ⟨value, numberPos, later, rfl,
      result_readCall_number (fun parenPos rest heq => (hparen parenPos rest heq).elim) pos⟩)
  | case4 parenPos later =>
    exact .inr (.inr (.inl ⟨parenPos, later, rfl, result_readCall_lparen name pos parenPos later⟩))
  | case5 t later hnumberParen hnumber hparen =>
    exact .inr (.inr (.inr (result_readCall_of_missing
      (fun value h => hnumber value t.pos (by rw [← h])) (fun h => hparen t.pos (by rw [← h])) ..)))
  | case6 => exact .inr (.inr (.inr rfl))

/-- All that can become of a primary. -/
theorem result_readPrimary_cases (tokens : List Token) :
    (∃ value pos later, tokens = ⟨.number value, pos⟩ :: later ∧
      (readPrimary readGroup tokens).result = .ok (.lit value pos, later)) ∨
    (∃ pos later, tokens = ⟨.lparen, pos⟩ :: later ∧
      (readPrimary readGroup tokens).result = (readGroup later).result) ∨
    (∃ word pos later, tokens = ⟨.name word, pos⟩ :: later ∧
      (readPrimary readGroup tokens).result = (readCall readGroup word pos later).result) ∨
    (∃ t later, tokens = t :: later ∧
      (readPrimary readGroup tokens).result = .error (misplaced t)) ∨
    (readPrimary readGroup tokens).result = .error (.malformed .endsEarly) := by
  fun_cases readPrimary readGroup tokens with
  | case1 value pos later => exact .inl ⟨value, pos, later, rfl, rfl⟩
  | case2 pos later => exact .inr (.inl ⟨pos, later, rfl, result_readPrimary_lparen pos later⟩)
  | case3 word pos later =>
    exact .inr (.inr (.inl ⟨word, pos, later, rfl, result_readPrimary_name word pos later⟩))
  | case4 t later hnumber hparen hname =>
    exact .inr (.inr (.inr (.inl ⟨t, later, rfl, result_readPrimary_of_misplaced
      (fun value h => hnumber value t.pos (by rw [← h]))
      (fun word h => hname word t.pos (by rw [← h]))
      (fun h => hparen t.pos (by rw [← h])) later⟩)))
  | case5 => exact .inr (.inr (.inr (.inr rfl)))

theorem result_closeGroup (r : Reading Expr tokens) :
    (closeGroup readGroup r).result = match r.result with
      | .error fault => .error fault
      | .ok (_, []) => .error .unclosedGroup
      | .ok (inside, t :: rest) =>
        if t.symbol = .rparen then .ok (inside, rest)
        else .error (leftover readGroup t rest).1 := by
  cases r with
  | fail fault rest => rfl
  | done inside rest shorter =>
    cases rest with
    | nil => rfl
    | cons t rest =>
      by_cases h : t.symbol = .rparen
      · simp [closeGroup, h]
      · simp [closeGroup, h]

/-- Tokens begin with a `)` or they do not. -/
theorem rparen_or_ne (tokens : List Token) :
    (∃ pos later, tokens = ⟨.rparen, pos⟩ :: later) ∨ ∀ t ∈ tokens.head?, t.symbol ≠ .rparen := by
  rcases tokens with _ | ⟨⟨symbol, pos⟩, later⟩
  · exact .inr (by simp)
  · by_cases h : symbol = .rparen
    · exact .inl ⟨pos, later, by rw [h]⟩
    · exact .inr (by simpa using h)

theorem result_readGroup_zero (tokens : List Token) :
    (Calculator.readGroup 0 tokens).result = .error (.malformed (.tooDeep maxNesting)) := rfl

theorem result_readGroup_of_rparen (room pos : Nat) (tokens : List Token) :
    (Calculator.readGroup (room + 1) (⟨.rparen, pos⟩ :: tokens)).result =
      .error (.malformed (.emptyGroup pos)) := rfl

theorem result_readGroup_succ (room : Nat) (h : ∀ t ∈ tokens.head?, t.symbol ≠ .rparen) :
    (Calculator.readGroup (room + 1) tokens).result =
      (closeGroup (Calculator.readGroup room)
        (readSum (Calculator.readGroup room) tokens)).result := by
  rw [Calculator.readGroup]
  split
  · next t ht =>
    rw [Option.filter_eq_some_iff] at ht
    simp_all
  · rfl

end Steps

/-! ## Phrases are read -/

/-- What reading comes to by each rule: the reader of a level, or the chain that goes on with an
operand on its left, has the given outcome on `tokens` and leaves `rest`. -/
def Rule.Reads (room : Nat) :
    (r : Rule) → Except Fault r.Meaning → (tokens rest : List Token) → Prop
  | level l, outcome, tokens, rest => (l.reader room tokens).result = outcome.map (·, rest)
  | tail tier, outcome, tokens, rest => ∀ origin left h,
    (@readChain tier.operator? (tier.operand.reader room) origin left tokens h).result =
      outcome.map fun after => (after left, rest)

namespace Phrase

/-- What reading a phrase comes to with `room` levels of groups left. -/
def outcome {r : Rule} (room : Nat) (D : Phrase r) : Except Fault r.Meaning :=
  if D.nesting ≤ room then .ok D.tree else .error (.malformed (.tooDeep maxNesting))

variable {r : Rule} {room : Nat} {rest : List Token}

theorem outcome_of_le {D : Phrase r} (h : D.nesting ≤ room) : D.outcome room = .ok D.tree :=
  if_pos h

theorem outcome_of_lt {D : Phrase r} (h : room < D.nesting) :
    D.outcome room = .error (.malformed (.tooDeep maxNesting)) :=
  if_neg (by omega)

/-- The outcome of a phrase with two parts, the first of which is read before the second. -/
theorem outcome_of_parts {r₁ r₂ : Rule} (D : Phrase r) (first : Phrase r₁) (second : Phrase r₂)
    (meaning : r₁.Meaning → r₂.Meaning → r.Meaning)
    (hnesting : D.nesting = max first.nesting second.nesting)
    (htree : D.tree = meaning first.tree second.tree) :
    D.outcome room = first.outcome room >>= fun x => (second.outcome room).map (meaning x) := by
  by_cases hfirst : first.nesting ≤ room
  · rw [outcome_of_le hfirst]
    by_cases hsecond : second.nesting ≤ room
    · rw [outcome_of_le hsecond, outcome_of_le (by omega), htree]
      rfl
    · rw [outcome_of_lt (by omega), outcome_of_lt (by omega)]
      rfl
  · rw [outcome_of_lt (by omega), outcome_of_lt (by omega)]
    rfl

theorem outcome_chain {tier : Tier} (first : Phrase (.level tier.operand))
    (more : Phrase (.tail tier)) :
    (chain first more).outcome room =
      first.outcome room >>= fun left => (more.outcome room).map fun after => after left :=
  outcome_of_parts (chain first more) first more (fun left after => after left) rfl rfl

theorem outcome_step {tier : Tier} (op : Operator) (onTier : op.tier = tier) (pos : Nat)
    (next : Phrase (.level tier.operand)) (more : Phrase (.tail tier)) :
    (step op onTier pos next more).outcome room = next.outcome room >>= fun right =>
      (more.outcome room).map fun after left => after (.bin op left right pos) :=
  outcome_of_parts (step op onTier pos next more) next more
    (fun right after left => after (.bin op left right pos)) rfl rfl

theorem outcome_signs (run : List (Sign × Nat)) (body : Phrase (.level .primary)) :
    (signs run body).outcome room = (body.outcome room).map (negated run) := by
  rw [outcome, outcome, nesting, tree]
  split <;> rfl

/-- The first token of an expression neither closes a group nor is missing. -/
theorem head_tokens_ne_rparen {r : Rule} (D : Phrase r) : ∀ l, r = .level l →
    ∃ t ts, D.tokens = t :: ts ∧ t.symbol ≠ .rparen := by
  induction D with
  | chain first more ihFirst ihMore =>
    rintro l -
    obtain ⟨t, ts, hfirst, ht⟩ := ihFirst _ rfl
    exact ⟨t, ts ++ more.tokens, by rw [tokens, hfirst, List.cons_append], ht⟩
  | stop => rintro l ⟨⟩
  | step op onTier pos next more => rintro l ⟨⟩
  | signs run body ih =>
    rintro l -
    cases run with
    | nil => exact ih _ rfl
    | cons sign run => exact ⟨_, _, rfl, by rcases sign with ⟨⟨⟩, _⟩ <;> simp [Sign.symbol]⟩
  | _ =>
    rintro l -
    exact ⟨_, _, rfl, by simp⟩

/-- A group is read one level deeper than what is inside of it. -/
theorem result_readGroup {inside : Derivation}
    (hinside : ∀ room rest, (Level.chain .sum).Ends rest →
      (Rule.level (.chain .sum)).Reads room (inside.outcome room) (inside.tokens ++ rest) rest)
    (room closing : Nat) (rest : List Token) :
    (readGroup room (inside.tokens ++ ⟨.rparen, closing⟩ :: rest)).result =
      if inside.nesting + 1 ≤ room then .ok (inside.tree, rest)
      else .error (.malformed (.tooDeep maxNesting)) := by
  cases room with
  | zero => rw [result_readGroup_zero, if_neg (by omega)]
  | succ room =>
    have hread :
        (readSum (readGroup room) (inside.tokens ++ ⟨.rparen, closing⟩ :: rest)).result = _ :=
      hinside room _ (Level.ends_rparen _ closing rest)
    obtain ⟨t, ts, htokens, ht⟩ := inside.head_tokens_ne_rparen _ rfl
    rw [result_readGroup_succ room (by simp [htokens, ht]), result_closeGroup, hread]
    by_cases hn : inside.nesting ≤ room
    · rw [outcome_of_le hn, if_pos (by omega)]
      rfl
    · rw [outcome_of_lt (by omega), if_neg (by omega)]
      rfl

theorem signed_runTokens (run : List (Sign × Nat)) (operand : Expr) :
    signed (runTokens run) operand = negated run operand := by
  cases run with
  | nil => rfl
  | cons sign run =>
    have hcount : (runTokens (sign :: run)).countP (·.symbol == .minus) =
        (sign :: run).countP (·.1 = .minus) := by
      rw [runTokens, List.countP_map]
      refine List.countP_congr fun sign _ => ?_
      rcases sign with ⟨⟨⟩, _⟩ <;> simp [Sign.symbol]
    show (if (runTokens (sign :: run)).countP (·.symbol == .minus) % 2 = 1 then _ else _) = _
    rw [hcount]
    rfl

/-- A reader finds a phrase as a whole if it may go deep enough for it, and otherwise says that it
is too deep. -/
theorem reads (D : Phrase r) : ∀ room rest, r.completes.Ends rest →
    r.Reads room (D.outcome room) (D.tokens ++ rest) rest := by
  induction D with
  | @chain tier first more ihFirst ihMore =>
    intro room rest h
    have hfirst := ihFirst room _ (more.ends_tokens_append h)
    rw [Rule.Reads, Level.reader_chain, tokens, List.append_assoc, outcome_chain]
    cases houtcome : first.outcome room with
    | error fault =>
      rw [houtcome] at hfirst
      exact result_readLevel_of_error hfirst
    | ok left =>
      rw [houtcome] at hfirst
      obtain ⟨h', hchain⟩ := result_readLevel_of_ok hfirst
      rw [hchain, ihMore room rest h]
      cases more.outcome room <;> rfl
  | stop =>
    rintro room rest h origin left h'
    cases rest with
    | nil => simp [tokens, readChain, outcome, nesting, tree, Except.map]
    | cons t rest => exact result_readChain_of_none h.operator? h'
  | @step tier op onTier pos next more ihNext ihMore =>
    rintro room rest h origin left h'
    have hnext := ihNext room _ (more.ends_tokens_append h)
    have hop : tier.operator? op.symbol = some op := Tier.operator?_eq_some_iff.mpr ⟨rfl, onTier⟩
    simp only [tokens, List.cons_append, List.append_assoc] at h' ⊢
    rw [outcome_step]
    cases houtcome : next.outcome room with
    | error fault =>
      rw [houtcome] at hnext
      exact result_readChain_of_error hop hnext h'
    | ok right =>
      rw [houtcome] at hnext
      obtain ⟨h'', hchain⟩ := result_readChain_of_ok hop hnext h'
      rw [hchain, ihMore room rest h]
      cases more.outcome room <;> rfl
  | signs run body ih =>
    intro room rest h
    have hbody : (readPrimary (readGroup room) (body.tokens ++ rest)).result = _ :=
      ih room rest h.primary
    have hhead := body.isSign_head_primary rest
    show (readOperand (readGroup room) _).result = _
    rw [tokens, List.append_assoc, result_readOperand, dropWhile_runTokens_append hhead,
      takeWhile_runTokens_append hhead, hbody, outcome_signs]
    cases body.outcome room with
    | error fault => rfl
    | ok operand => simp [Except.map, signed_runTokens]
  | number value pos =>
    intro room rest h
    rfl
  | group opening inside closing ih =>
    intro room rest h
    show (readPrimary (readGroup room) _).result = _
    rw [tokens, List.cons_append, List.append_assoc, List.singleton_append,
      result_readPrimary_lparen, result_readGroup ih, outcome, nesting]
    split <;> rfl
  | callNumber name pos value numberPos =>
    intro room rest h
    show (readPrimary (readGroup room) _).result = _
    simp only [tokens, List.cons_append, List.nil_append]
    rw [result_readPrimary_name, result_readCall_number]
    · rfl
    · rintro parenPos later rfl
      exact (Level.not_ends_lparen _ _ _ h).elim
  | callGroup name pos opening inside closing ih =>
    intro room rest h
    show (readPrimary (readGroup room) _).result = _
    rw [tokens, List.cons_append, List.cons_append, List.append_assoc, List.singleton_append,
      result_readPrimary_name, result_readCall_lparen, result_readGroup ih, outcome, nesting]
    split <;> rfl
  | callLog10 name isLog pos tenPos inside closing ih =>
    intro room rest h
    show (readPrimary (readGroup room) _).result = _
    rw [tokens, List.cons_append, List.cons_append, List.cons_append, List.append_assoc,
      List.singleton_append, result_readPrimary_name,
      result_readCall_log10 (isLog10_iff.mpr ⟨isLog, rfl, rfl⟩),
      result_readGroup ih, outcome, nesting]
    split <;> rfl

end Phrase

/-! ## What is read is a phrase -/

/-- Whatever the reader finds is a phrase of the level, nested at most `room` deep. -/
def ReadsPhrases (room : Nat) (l : Level) (reader : Reader Expr) : Prop :=
  ∀ tokens e rest, (reader tokens).result = .ok (e, rest) →
    ∃ D : Phrase (.level l), D.nesting ≤ room ∧ tokens = D.tokens ++ rest ∧ D.tree = e

/-- Whatever the reader finds is the inside of a group and the parenthesis that closes it. -/
def ReadsGroups (room : Nat) (reader : Reader Expr) : Prop :=
  ∀ tokens e rest, (reader tokens).result = .ok (e, rest) →
    ∃ (D : Derivation) (closing : Nat), D.nesting + 1 ≤ room ∧
      tokens = D.tokens ++ ⟨.rparen, closing⟩ :: rest ∧ D.tree = e

section Readers

variable {room : Nat} {readItem readGroup : Reader Expr} {tier : Tier}

theorem exists_tail_of_readChain (hitem : ReadsPhrases room tier.operand readItem)
    {origin tokens rest : List Token} {left e : Expr} {h : tokens.length < origin.length}
    (hresult : (readChain tier.operator? readItem left tokens h).result = .ok (e, rest)) :
    ∃ more : Phrase (.tail tier), more.nesting ≤ room ∧ tokens = more.tokens ++ rest ∧
      more.tree left = e := by
  fun_induction readChain tier.operator? readItem left tokens h with
  | case1 left h =>
    cases hresult
    exact ⟨.stop, Nat.zero_le _, rfl, rfl⟩
  | case2 left t tokens h hop =>
    cases hresult
    exact ⟨.stop, Nat.zero_le _, rfl, rfl⟩
  | case3 left t tokens h op hop fault unread hfail => cases hresult
  | case4 left t tokens h op hop right later shorter hdone h' ih =>
    obtain ⟨more, hmore, rfl, rfl⟩ := ih hresult
    obtain ⟨next, hnext, rfl, rfl⟩ := hitem tokens right _ (by rw [hdone]; rfl)
    obtain ⟨hsymbol, htier⟩ := Tier.operator?_eq_some_iff.mp hop
    refine ⟨.step op htier t.pos next more, Nat.max_le.mpr ⟨hnext, hmore⟩, ?_, rfl⟩
    rw [Phrase.tokens, ← hsymbol, List.cons_append, List.append_assoc]

theorem readsPhrases_readLevel (hitem : ReadsPhrases room tier.operand readItem) :
    ReadsPhrases room (.chain tier) (readLevel tier.operator? readItem) := by
  intro tokens e rest hresult
  cases hfirst : (readItem tokens).result with
  | error fault =>
    rw [result_readLevel_of_error hfirst] at hresult
    cases hresult
  | ok first =>
    obtain ⟨left, later⟩ := first
    obtain ⟨shorter, hchain⟩ := result_readLevel_of_ok hfirst
    rw [hchain] at hresult
    obtain ⟨more, hmore, rfl, rfl⟩ := exists_tail_of_readChain hitem hresult
    obtain ⟨first, hnesting, rfl, rfl⟩ := hitem tokens left _ hfirst
    exact ⟨.chain first more, Nat.max_le.mpr ⟨hnesting, hmore⟩, (List.append_assoc ..).symm, rfl⟩

theorem exists_primary_of_readCall (hgroup : ReadsGroups room readGroup) {name : String} {pos : Nat}
    {tokens rest : List Token} {e : Expr}
    (hresult : (readCall readGroup name pos tokens).result = .ok (e, rest)) :
    ∃ D : Phrase (.level .primary), D.nesting ≤ room ∧
      ⟨.name name, pos⟩ :: tokens = D.tokens ++ rest ∧ D.tree = e := by
  rcases @result_readCall_cases readGroup name pos tokens with
    ⟨tenPos, later, hname, rfl, h⟩ | ⟨value, numberPos, later, rfl, h⟩ |
      ⟨parenPos, later, rfl, h⟩ | h
  · rw [h] at hresult
    obtain ⟨⟨arg, unread⟩, harg, heq⟩ := exists_of_map_eq_ok hresult
    cases heq
    obtain ⟨inside, closing, hnesting, rfl, rfl⟩ := hgroup later arg _ harg
    exact ⟨.callLog10 name hname pos tenPos inside closing, hnesting, by simp [Phrase.tokens], rfl⟩
  · rw [h] at hresult
    cases hresult
    exact ⟨.callNumber name pos value numberPos, Nat.zero_le _, rfl, rfl⟩
  · rw [h] at hresult
    obtain ⟨⟨arg, unread⟩, harg, heq⟩ := exists_of_map_eq_ok hresult
    cases heq
    obtain ⟨inside, closing, hnesting, rfl, rfl⟩ := hgroup later arg _ harg
    exact ⟨.callGroup name pos parenPos inside closing, hnesting, by simp [Phrase.tokens], rfl⟩
  · rw [h] at hresult
    cases hresult

theorem readsPhrases_readPrimary (hgroup : ReadsGroups room readGroup) :
    ReadsPhrases room .primary (readPrimary readGroup) := by
  intro tokens e rest hresult
  rcases @result_readPrimary_cases readGroup tokens with
    ⟨value, pos, later, rfl, h⟩ | ⟨pos, later, rfl, h⟩ | ⟨word, pos, later, rfl, h⟩ |
      ⟨t, later, rfl, h⟩ | h
  · rw [h] at hresult
    cases hresult
    exact ⟨.number value pos, Nat.zero_le _, rfl, rfl⟩
  · rw [h] at hresult
    obtain ⟨inside, closing, hnesting, rfl, rfl⟩ := hgroup later e rest hresult
    exact ⟨.group pos inside closing, hnesting, by simp [Phrase.tokens], rfl⟩
  · rw [h] at hresult
    exact exists_primary_of_readCall hgroup hresult
  · rw [h] at hresult
    cases hresult
  · rw [h] at hresult
    cases hresult

theorem readsPhrases_readOperand (hprimary : ReadsPhrases room .primary (readPrimary readGroup)) :
    ReadsPhrases room .operand (readOperand readGroup) := by
  intro tokens e rest hresult
  rw [result_readOperand] at hresult
  obtain ⟨⟨operand, later⟩, hoperand, heq⟩ := exists_of_map_eq_ok hresult
  cases heq
  obtain ⟨body, hnesting, hbody, rfl⟩ := hprimary _ operand _ hoperand
  obtain ⟨run, hrun⟩ :=
    Phrase.exists_runTokens fun t (ht : t ∈ tokens.takeWhile Token.isSign) =>
      List.mem_takeWhile_imp ht
  refine ⟨.signs run body, hnesting, ?_, ?_⟩
  · rw [Phrase.tokens, ← hrun, List.append_assoc, ← hbody, List.takeWhile_append_dropWhile]
  · rw [hrun, Phrase.signed_runTokens]
    rfl

end Readers

theorem readsPhrases_reader {room : Nat} (hgroup : ReadsGroups room (readGroup room)) :
    ∀ l : Level, ReadsPhrases room l (l.reader room) := by
  have hprimary := readsPhrases_readPrimary hgroup
  have hoperand := readsPhrases_readOperand hprimary
  have hproduct := @readsPhrases_readLevel room _ .product hoperand
  have hsum := @readsPhrases_readLevel room _ .sum hproduct
  rintro (⟨⟨⟩⟩ | _ | _)
  · exact hsum
  · exact hproduct
  · exact hoperand
  · exact hprimary

theorem readsGroups_readGroup (room : Nat) : ReadsGroups room (readGroup room) := by
  induction room with
  | zero =>
    intro tokens e rest hresult
    cases hresult
  | succ room ih =>
    intro tokens e rest hresult
    rcases rparen_or_ne tokens with ⟨pos, later, rfl⟩ | hhead
    · rw [result_readGroup_of_rparen] at hresult
      cases hresult
    · rw [result_readGroup_succ room hhead, result_closeGroup] at hresult
      split at hresult
      · cases hresult
      · cases hresult
      · next t later hinside =>
        split at hresult
        · next hclosing =>
          cases hresult
          obtain ⟨D, hnesting, rfl, rfl⟩ := readsPhrases_reader ih (.chain .sum) tokens e _ hinside
          refine ⟨D, t.pos, by omega, ?_, rfl⟩
          rw [← hclosing]
        · cases hresult

/-- What a level's reader finds is a phrase of that level. -/
theorem exists_phrase_of_reader {l : Level} {room : Nat} {tokens rest : List Token} {e : Expr}
    (h : (l.reader room tokens).result = .ok (e, rest)) :
    ∃ D : Phrase (.level l), D.nesting ≤ room ∧ tokens = D.tokens ++ rest ∧ D.tree = e :=
  readsPhrases_reader (readsGroups_readGroup room) l tokens e rest h

end Calculator
