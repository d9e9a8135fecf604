import Calculator.Proofs.Parse

/-!
# Tokens that break off

A reader that has come to the end of some tokens may be waiting for an operand: at the start, behind
signs, or behind an operator. A `)` that it meets there is a fault, whatever that `)` closes.

* `Awaits`: tokens behind which an operand must follow
* `Awaits.operator_of_getLast`: they end with an operator or a sign
* `callFault`, `leftover_name`: the fault of a name behind an expression
* `Awaits.fails`: a `)` behind them is taken for one that closes nothing
-/

namespace Calculator

/-- A place where tokens can begin: with a phrase, with an expression and whatever there is behind
it, or with the inside of a group. -/
inductive Place where
  | rule (r : Rule)
  | whole
  | group

/-- The tokens `front`, which begin at a place, break off where an operand must follow: at the start
of an operand, behind its signs, or behind an operator. Groups that are complete and groups that are
still open may be nested at most `room` deep. A function name behind a complete expression is no
part of it, but what follows is read as a call all the same. -/
inductive Awaits : (room : Nat) → Place → (front : List Token) → Prop
  | first {room : Nat} {tier : Tier} {front : List Token}
    (next : Awaits room (.rule (.level tier.operand)) front) :
    Awaits room (.rule (.level (.chain tier))) front
  | more {room : Nat} {tier : Tier} {front : List Token} (first : Phrase (.level tier.operand))
    (fits : first.nesting ≤ room) (next : Awaits room (.rule (.tail tier)) front) :
    Awaits room (.rule (.level (.chain tier))) (first.tokens ++ front)
  | next {room : Nat} {tier : Tier} {front : List Token} (op : Operator) (onTier : op.tier = tier)
    (pos : Nat) (next : Awaits room (.rule (.level tier.operand)) front) :
    Awaits room (.rule (.tail tier)) (⟨op.symbol, pos⟩ :: front)
  | step {room : Nat} {tier : Tier} {front : List Token} (op : Operator) (onTier : op.tier = tier)
    (pos : Nat) (operand : Phrase (.level tier.operand)) (fits : operand.nesting ≤ room)
    (next : Awaits room (.rule (.tail tier)) front) :
    Awaits room (.rule (.tail tier)) (⟨op.symbol, pos⟩ :: (operand.tokens ++ front))
  | signs {room : Nat} {front : List Token} (run : List (Sign × Nat))
    (next : Awaits room (.rule (.level .primary)) front) :
    Awaits room (.rule (.level .operand)) (runTokens run ++ front)
  | operand {room : Nat} : Awaits room (.rule (.level .primary)) []
  | paren {room : Nat} {front : List Token} (opening : Nat) (next : Awaits room .group front) :
    Awaits room (.rule (.level .primary)) (⟨.lparen, opening⟩ :: front)
  | call {room : Nat} {front : List Token} (name : String) (pos opening : Nat)
    (next : Awaits room .group front) :
    Awaits room (.rule (.level .primary)) (⟨.name name, pos⟩ :: ⟨.lparen, opening⟩ :: front)
  | callLog10 {room : Nat} {front : List Token} (name : String)
    (isLog : Text.lowercase name.toList = ['l', 'o', 'g']) (pos tenPos : Nat)
    (next : Awaits room .group front) :
    Awaits room (.rule (.level .primary))
      (⟨.name name, pos⟩ :: ⟨.number 10.0, tenPos⟩ :: ⟨.lparen, tenPos + 2⟩ :: front)
  | inside {room : Nat} {front : List Token} (nonempty : front ≠ [])
    (next : Awaits room .whole front) : Awaits (room + 1) .group front
  | sum {room : Nat} {front : List Token}
    (next : Awaits room (.rule (.level (.chain .sum))) front) : Awaits room .whole front
  | leftover {room : Nat} {front : List Token} (done : Derivation) (fits : done.nesting ≤ room)
    (name : String) (pos : Nat)
    (next : Awaits room (.rule (.level .primary)) (⟨.name name, pos⟩ :: front)) :
    Awaits room .whole (done.tokens ++ ⟨.name name, pos⟩ :: front)

namespace Awaits

variable {room : Nat} {place : Place} {front : List Token}

/-- What breaks off does not do so at a `)`. -/
theorem head_ne_rparen (h : Awaits room place front) : ∀ t ∈ front.head?, t.symbol ≠ .rparen := by
  induction h with
  | first next ih => exact ih
  | more first fits next ih =>
    obtain ⟨t, ts, htokens, ht⟩ := first.head_tokens_ne_rparen _ rfl
    simp [htokens, ht]
  | next op onTier pos next ih => cases op <;> simp [Operator.symbol]
  | step op onTier pos operand fits next ih => cases op <;> simp [Operator.symbol]
  | signs run next ih =>
    cases run with
    | nil => exact ih
    | cons sign run => rcases sign with ⟨⟨⟩, _⟩ <;> simp [runTokens, Sign.symbol]
  | inside nonempty next ih => exact ih
  | sum next ih => exact ih
  | leftover done fits name pos next ih =>
    obtain ⟨t, ts, htokens, ht⟩ := done.head_tokens_ne_rparen _ rfl
    simp [htokens, ht]
  | _ => simp

theorem ends_tail_append {tier : Tier} (h : Awaits room (.rule (.tail tier)) front)
    (rest : List Token) : tier.operand.Ends (front ++ rest) := by
  cases h with
  | next op onTier pos next =>
    subst onTier
    exact Level.goesOn_symbol_operand op
  | step op onTier pos operand fits next =>
    subst onTier
    exact Level.goesOn_symbol_operand op

theorem isSign_head_primary (h : Awaits room (.rule (.level .primary)) front) (pos : Nat)
    (rest : List Token) :
    ∀ t ∈ (front ++ ⟨.rparen, pos⟩ :: rest).head?, t.isSign = false := by
  cases h <;> simp [Token.isSign]

theorem ne_nil_of_tail {tier : Tier} (h : Awaits room (.rule (.tail tier)) front) : front ≠ [] := by
  cases h <;> simp

theorem ne_nil_of_group (h : Awaits room .group front) : front ≠ [] := by
  cases h with
  | inside nonempty next => exact nonempty

/-- Tokens that break off do so behind an operator or a sign, unless there are none. -/
theorem operator_of_getLast (h : Awaits room place front) :
    ∀ t ∈ front.getLast?, t.symbol.operator?.isSome := by
  have happend : ∀ {before after : List Token}, after ≠ [] →
      (∀ t ∈ after.getLast?, t.symbol.operator?.isSome) →
      ∀ t ∈ (before ++ after).getLast?, t.symbol.operator?.isSome := by
    intro before after hne hafter
    rwa [List.getLast?_append_of_ne_nil _ hne]
  induction h with
  | first next ih => exact ih
  | more first fits next ih => exact happend next.ne_nil_of_tail ih
  | @next room tier front op onTier pos next ih =>
    by_cases hne : front = []
    · subst hne
      cases op <;> simp [Operator.symbol, Symbol.operator?]
    · exact @happend [_] front hne ih
  | @step room tier front op onTier pos operand fits next ih =>
    exact @happend (_ :: operand.tokens) front next.ne_nil_of_tail ih
  | @signs room front run next ih =>
    by_cases hne : front = []
    · subst hne
      intro t ht
      rw [List.append_nil] at ht
      have hsign := Phrase.isSign_of_mem_runTokens (List.mem_of_getLast? ht)
      revert hsign
      cases hsymbol : t.symbol <;> simp [Token.isSign, Symbol.operator?, hsymbol]
    · exact happend hne ih
  | operand => simp
  | paren opening next ih => exact @happend [_] _ next.ne_nil_of_group ih
  | call name pos opening next ih => exact @happend [_, _] _ next.ne_nil_of_group ih
  | callLog10 name isLog pos tenPos next ih => exact @happend [_, _, _] _ next.ne_nil_of_group ih
  | inside nonempty next ih => exact ih
  | sum next ih => exact ih
  | leftover done fits name pos next ih => exact happend (by simp) ih

end Awaits

/-! ## Faults of the readers -/

/-- The inside of a group, or all there is, fails when it is read: the expression at its front does,
or there is something other than a `)` behind it. -/
def WholeFails (room : Nat) (tokens : List Token) (fault : Fault) : Prop :=
  ((Level.chain .sum).reader room tokens).result = .error fault ∨
    ∃ e t rest, ((Level.chain .sum).reader room tokens).result = .ok (e, t :: rest) ∧
      t.symbol ≠ .rparen ∧ (leftover (readGroup room) t rest).1 = fault

/-- Reading the tokens at a place comes to a fault. -/
def Place.Fails (room : Nat) (tokens : List Token) (fault : Fault) : Place → Prop
  | rule (.level l) => (l.reader room tokens).result = .error fault
  | rule (.tail tier) => ∀ origin left h,
    (@readChain tier.operator? (tier.operand.reader room) origin left tokens h).result =
      .error fault
  | whole => WholeFails room tokens fault
  | group => (readGroup room tokens).result = .error fault

/-- The fault of a name behind an expression, by what becomes of it as a call: the fault of reading
the call, else that of its value, else the name has no place there. -/
def callFault (name : String) (pos : Nat) : Except Fault Expr → Fault
  | .error fault => fault
  | .ok call => match call.eval with
    | .error fault => fault
    | .ok _ => .malformed (.misplaced (.name name) pos)

section Leftovers

variable {readGroup : Reader Expr} {tokens : List Token}

theorem leftover_name (name : String) (pos : Nat) :
    (leftover readGroup ⟨.name name, pos⟩ tokens).1 =
      callFault name pos ((readCall readGroup name pos tokens).result.map Prod.fst) := by
  cases hcall : readCall readGroup name pos tokens with
  | fail fault rest =>
    simp only [leftover, hcall]
    rfl
  | done call rest shorter =>
    cases heval : call.eval <;>
      simp [leftover, hcall, heval, Reading.result, Except.map, callFault, misplaced]

theorem leftover_name_of_error {word : String} {pos : Nat} {fault : Fault}
    (h : (readCall readGroup word pos tokens).result = .error fault) :
    (leftover readGroup ⟨.name word, pos⟩ tokens).1 = fault := by
  rw [leftover_name, h]
  rfl

theorem leftover_name_of_ok {word : String} {pos : Nat} {call : Expr} {rest : List Token}
    (h : (readCall readGroup word pos tokens).result = .ok (call, rest)) :
    call.eval = .error (leftover readGroup ⟨.name word, pos⟩ tokens).1 ∨
      (leftover readGroup ⟨.name word, pos⟩ tokens).1 = misplaced ⟨.name word, pos⟩ := by
  rw [leftover_name, h]
  show call.eval = .error (callFault word pos (.ok call)) ∨ callFault word pos (.ok call) = _
  rw [callFault]
  cases call.eval with
  | error fault => exact .inl rfl
  | ok x => exact .inr rfl

theorem leftover_of_ne_name {t : Token} (h : ∀ word, t.symbol ≠ .name word) :
    (leftover readGroup t tokens).1 = misplaced t := by
  unfold leftover
  split
  · next word hword => exact absurd hword (h word)
  · rfl

end Leftovers

theorem result_readGroup_of_wholeFails {room : Nat} {tokens : List Token} {fault : Fault}
    (hhead : ∀ t ∈ tokens.head?, t.symbol ≠ .rparen) (h : WholeFails room tokens fault) :
    (readGroup (room + 1) tokens).result = .error fault := by
  rw [result_readGroup_succ room hhead, result_closeGroup]
  rcases h with hsum | ⟨e, t, rest, hsum, ht, hleftover⟩
  · rw [show (readSum (readGroup room) tokens).result = _ from hsum]
  · rw [show (readSum (readGroup room) tokens).result = _ from hsum]
    simp only [if_neg ht, hleftover]

/-- A `)` where an operand must follow is taken for one that closes nothing. -/
theorem Awaits.fails {room : Nat} {place : Place} {front : List Token} (h : Awaits room place front)
    (closing : Nat) (rest : List Token) :
    place.Fails room (front ++ ⟨.rparen, closing⟩ :: rest) .unopenedGroup := by
  induction h with
  | @first room tier front next ih =>
    show (Level.reader room (.chain tier) _).result = _
    rw [Level.reader_chain]
    exact result_readLevel_of_error ih
  | @more room tier front first fits next ih =>
    have hfirst := first.reads room _ (next.ends_tail_append (⟨.rparen, closing⟩ :: rest))
    rw [Phrase.outcome_of_le fits] at hfirst
    show (Level.reader room (.chain tier) _).result = _
    obtain ⟨h', hchain⟩ := result_readLevel_of_ok hfirst
    rw [Level.reader_chain, List.append_assoc, hchain]
    exact ih _ _ _
  | @next room tier front op onTier pos next ih =>
    intro origin left h
    exact result_readChain_of_error (Tier.operator?_eq_some_iff.mpr ⟨rfl, onTier⟩) ih h
  | @step room tier front op onTier pos operand fits next ih =>
    intro origin left h
    have hoperand := operand.reads room _ (next.ends_tail_append (⟨.rparen, closing⟩ :: rest))
    rw [Phrase.outcome_of_le fits] at hoperand
    simp only [List.cons_append, List.append_assoc] at h ⊢
    obtain ⟨h', hchain⟩ := result_readChain_of_ok (Tier.operator?_eq_some_iff.mpr ⟨rfl, onTier⟩)
      hoperand h
    rw [hchain]
    exact ih _ _ _
  | @signs room front run next ih =>
    have hhead := next.isSign_head_primary closing rest
    have hbody : (readPrimary (readGroup room) _).result = _ := ih
    show (readOperand (readGroup room) _).result = _
    rw [List.append_assoc, result_readOperand, Phrase.dropWhile_runTokens_append hhead, hbody]
    rfl
  | operand => rfl
  | @paren room front opening next ih =>
    have hgroup : (readGroup room _).result = _ := ih
    show (readPrimary (readGroup room) _).result = _
    rw [List.cons_append, result_readPrimary_lparen, hgroup]
  | @call room front name pos opening next ih =>
    have hgroup : (readGroup room _).result = _ := ih
    show (readPrimary (readGroup room) _).result = _
    rw [List.cons_append, List.cons_append, result_readPrimary_name, result_readCall_lparen, hgroup]
    rfl
  | @callLog10 room front name isLog pos tenPos next ih =>
    have hgroup : (readGroup room _).result = _ := ih
    show (readPrimary (readGroup room) _).result = _
    rw [List.cons_append, List.cons_append, List.cons_append, result_readPrimary_name,
      result_readCall_log10 (isLog10_iff.mpr ⟨isLog, rfl, rfl⟩), hgroup]
    rfl
  | @inside room front nonempty next ih =>
    refine result_readGroup_of_wholeFails ?_ ih
    obtain ⟨t, ts, rfl⟩ := List.exists_cons_of_ne_nil nonempty
    exact next.head_ne_rparen
  | sum next ih => exact .inl ih
  | @leftover room front done fits name pos next ih =>
    have hdone := done.reads room (⟨.name name, pos⟩ :: (front ++ ⟨.rparen, closing⟩ :: rest)) rfl
    have hcall : (readPrimary (readGroup room) _).result = _ := ih
    rw [Phrase.outcome_of_le fits] at hdone
    rw [List.cons_append, result_readPrimary_name] at hcall
    rw [List.append_assoc]
    exact .inr ⟨_, _, _, hdone, by simp, leftover_name_of_error hcall⟩

end Calculator
