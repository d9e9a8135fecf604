import Calculator.Proofs.Groups

/-!
# Calls behind an expression

A function name behind a complete expression has no place there. Before the parser says so it reads
what follows as the argument of a call and evaluates the call, and a fault of either goes first. The
fault is the same as if the call stood alone, whatever is in front of it and behind it.

* `Argument`: what a name takes of the tokens behind it
* `Argument.result_readCall`: a call is read as if it stood alone
* `parse_behind`: the fault of tokens that go on behind an expression
* `parse_call_behind`: that of a call behind an expression, also within a group
-/

namespace Calculator

/-! ## Depth and balance -/

theorem NestsWithin.mono {depth depth' : Nat} {cs : List Char} (h : NestsWithin depth cs)
    (hle : depth ≤ depth') : NestsWithin depth' cs :=
  fun front hfront => (h front hfront).trans (Nat.add_le_add_left hle _)

theorem NestsWithin.of_append {depth : Nat} {cs ds : List Char} (h : NestsWithin depth (cs ++ ds)) :
    NestsWithin depth cs :=
  fun front hfront => h front (hfront.trans (List.prefix_append ..))

namespace Grouped

variable {depth : Nat} {ts : List Token}

/-- The parentheses among tokens in groups do not show from outside. -/
theorem imbalance?_append (h : Grouped depth ts) : ∀ opened rest,
    imbalance? opened (ts ++ rest) = imbalance? opened rest := by
  induction h with
  | nil => exact fun _ _ => rfl
  | token hopen hclose more ih =>
    intro opened rest
    rw [List.cons_append, imbalance?_cons_of_ne hopen hclose, ih]
  | @group depth opening closing inside ts within more ihWithin ihMore =>
    intro opened rest
    have hinside : imbalance? (opened + 1) (inside ++ ⟨.rparen, closing⟩ :: (ts ++ rest)) =
        imbalance? opened (ts ++ rest) := ihWithin (opened + 1) _
    rw [group_append, ← ihMore opened rest, ← hinside]
    rfl

theorem balanced (h : Grouped depth ts) : Balanced ts := by
  rw [balanced_iff, ← List.append_nil ts, h.imbalance?_append]
  rfl

end Grouped

theorem nestsWithin_length (cs : List Char) : NestsWithin cs.length cs := fun _ hfront =>
  List.count_le_length.trans (hfront.length_le.trans (Nat.le_add_left ..))

theorem Balanced.imbalance?_append {tokens : List Token} (h : Balanced tokens) (opened : Nat)
    (rest : List Token) : imbalance? opened (tokens ++ rest) = imbalance? opened rest :=
  (h.grouped (nestsWithin_length _)).imbalance?_append opened rest

theorem imbalance?_group {inside : List Token} (h : Balanced inside) (opening closing : Nat) :
    imbalance? 0 (⟨.lparen, opening⟩ :: (inside ++ [⟨.rparen, closing⟩])) = none :=
  h.imbalance?_append 1 [⟨.rparen, closing⟩]

/-! ## Arguments -/

/-- What a function name takes of the tokens behind it as its argument, and what it leaves: a number
or a group, or nothing in front of anything else. A decimal logarithm takes the `10` that belongs to
its name and the group behind it. -/
inductive Argument (name : String) : (argument rest : List Token) → Prop
  | missing {rest : List Token} (lacks : LacksArgument rest) : Argument name [] rest
  | number {value : Float} {numberPos : Nat} {rest : List Token}
    (whole : ∀ parenPos later, rest = ⟨.lparen, parenPos⟩ :: later →
      ¬(Text.lowercase name.toList = ['l', 'o', 'g'] ∧ value = 10.0 ∧ parenPos = numberPos + 2)) :
    Argument name [⟨.number value, numberPos⟩] rest
  | group {opening closing : Nat} {inside rest : List Token} (within : Balanced inside) :
    Argument name (⟨.lparen, opening⟩ :: (inside ++ [⟨.rparen, closing⟩])) rest
  | groupLog10 {tenPos closing : Nat} {inside rest : List Token}
    (isLog : Text.lowercase name.toList = ['l', 'o', 'g']) (within : Balanced inside) :
    Argument name
      (⟨.number 10.0, tenPos⟩ :: ⟨.lparen, tenPos + 2⟩ :: (inside ++ [⟨.rparen, closing⟩])) rest

/-- Behind a name there is always something that it takes, if only nothing. -/
theorem Grouped.exists_argument {depth : Nat} {tokens : List Token} (h : Grouped depth tokens)
    (name : String) : ∃ argument rest, tokens = argument ++ rest ∧ Argument name argument rest := by
  cases h with
  | nil => exact ⟨[], [], rfl, .missing (by simp [LacksArgument])⟩
  | @group depth opening closing inside ts within more =>
    exact ⟨⟨.lparen, opening⟩ :: (inside ++ [⟨.rparen, closing⟩]), ts, by simp,
      .group within.balanced⟩
  | @token _ t ts hopen hclose more =>
    obtain ⟨symbol, pos⟩ := t
    by_cases hnumber : ∃ value, symbol = .number value
    · obtain ⟨value, rfl⟩ := hnumber
      by_cases hlog : ∃ parenPos later, ts = ⟨.lparen, parenPos⟩ :: later ∧
          Text.lowercase name.toList = ['l', 'o', 'g'] ∧ value = 10.0 ∧ parenPos = pos + 2
      · obtain ⟨_, later, rfl, hname, rfl, rfl⟩ := hlog
        cases more with
        | token hopen _ _ => exact absurd rfl hopen
        | @group depth _ closing inside ts within more =>
          exact ⟨⟨.number 10.0, pos⟩ :: ⟨.lparen, pos + 2⟩ :: (inside ++ [⟨.rparen, closing⟩]), ts,
            by simp, .groupLog10 hname within.balanced⟩
      · exact ⟨[⟨.number value, pos⟩], ts, rfl,
          .number fun parenPos later hts hten => hlog ⟨parenPos, later, hts, hten⟩⟩
    · refine ⟨[], _, rfl, .missing ?_⟩
      rintro _ ⟨⟩
      exact ⟨hopen, fun value h => hnumber ⟨value, h⟩⟩

/-- What is behind its argument has no influence on what reading a call comes to. -/
theorem Argument.result_readCall {name : String} {argument rest : List Token}
    (h : Argument name argument rest) {room : Nat} (hnests : NestsWithin room (parenChars argument))
    (pos : Nat) : ∃ outcome : Except Fault Expr,
      (readCall (readGroup room) name pos (argument ++ rest)).result = outcome.map (·, rest) ∧
      (readCall (readGroup room) name pos argument).result = outcome.map (·, []) := by
  have hgroup : ∀ {inside : List Token} (closing : Nat), Balanced inside →
      NestsWithin room ('(' :: parenChars (inside ++ [⟨.rparen, closing⟩])) →
      ∃ outcome : Except Fault Expr,
        (readGroup room (inside ++ ⟨.rparen, closing⟩ :: rest)).result = outcome.map (·, rest) ∧
        (readGroup room (inside ++ [⟨.rparen, closing⟩])).result = outcome.map (·, []) := by
    intro inside closing hinside hnests
    obtain ⟨hpos, hnests⟩ := nestsWithin_lparen_iff.mp hnests
    rw [parenChars_append] at hnests
    exact groupsAlike_readGroup (room - 1) (by omega) (by omega) closing rest []
      (hinside.grouped hnests.of_append)
  cases h with
  | missing lacks =>
    have hnil : LacksArgument [] := by simp [LacksArgument]
    exact ⟨.error (.missingArgument name), lacks.result_readCall name pos,
      hnil.result_readCall name pos⟩
  | @number value numberPos _ whole =>
    refine ⟨.ok (.call name (.lit value numberPos) pos), result_readCall_number ?_ pos, rfl⟩
    intro parenPos later hrest
    exact Bool.eq_false_iff.mpr fun hten => whole parenPos later hrest (isLog10_iff.mp hten)
  | @group opening closing inside _ within =>
    obtain ⟨outcome, hread, halone⟩ := hgroup closing within hnests
    refine ⟨outcome.map (.call name · pos), ?_, ?_⟩
    · rw [List.cons_append, List.append_assoc, List.singleton_append, result_readCall_lparen, hread]
      cases outcome <;> rfl
    · rw [result_readCall_lparen, halone]
      cases outcome <;> rfl
  | @groupLog10 tenPos closing inside _ isLog within =>
    obtain ⟨outcome, hread, halone⟩ := hgroup closing within hnests
    have hten : isLog10 name 10.0 tenPos (tenPos + 2) = true := isLog10_iff.mpr ⟨isLog, rfl, rfl⟩
    refine ⟨outcome.map (.call (name ++ "10") · pos), ?_, ?_⟩
    · rw [List.cons_append, List.cons_append, List.append_assoc, List.singleton_append,
        result_readCall_log10 hten, hread]
      cases outcome <;> rfl
    · rw [result_readCall_log10 hten, halone]
      cases outcome <;> rfl

theorem Argument.imbalance? {name : String} {argument rest : List Token}
    (h : Argument name argument rest) : imbalance? 0 argument = none := by
  cases h with
  | missing lacks => rfl
  | number whole => rfl
  | group within => exact imbalance?_group within _ _
  | groupLog10 isLog within =>
    rw [imbalance?_cons_of_ne (by simp) (by simp)]
    exact imbalance?_group within _ _

/-! ## A primary alone -/

theorem result_readLevel_alone {operator? : Symbol → Option Operator} {readItem : Reader Expr}
    {tokens : List Token} {outcome : Except Fault Expr}
    (h : (readItem tokens).result = outcome.map (·, [])) :
    (readLevel operator? readItem tokens).result = outcome.map (·, []) := by
  cases outcome with
  | error fault => exact result_readLevel_of_error h
  | ok e =>
    obtain ⟨hless, hchain⟩ := result_readLevel_of_ok h
    rw [hchain, readChain]
    rfl

theorem parse_of_readPrimary {t : Token} {tokens : List Token} {outcome : Except Fault Expr}
    (hsign : t.isSign = false) (hbalance : imbalance? 0 (t :: tokens) = none)
    (h : (readPrimary (groupAt 0) (t :: tokens)).result = outcome.map (·, [])) :
    parse (t :: tokens) = outcome := by
  have hoperand : (readOperand (groupAt 0) (t :: tokens)).result = outcome.map (·, []) := by
    rw [result_readOperand, List.dropWhile_cons_of_neg (by simp [hsign]),
      List.takeWhile_cons_of_neg (by simp [hsign]), h]
    cases outcome <;> rfl
  have hsum : ((Level.chain .sum).reader maxNesting (t :: tokens)).result = outcome.map (·, []) :=
    @result_readLevel_alone Symbol.termOperator? _ _ _
      (@result_readLevel_alone Symbol.factorOperator? _ _ _ hoperand)
  rw [parse_of_balanced hbalance (by simp), hsum]
  cases outcome <;> rfl

/-- A call is read as if it stood alone. -/
theorem Argument.result_readCall_eq {name : String} {argument rest : List Token}
    (h : Argument name argument rest) (hnests : NestsWithin maxNesting (parenChars argument))
    (pos : Nat) : (readCall (groupAt 0) name pos (argument ++ rest)).result =
      (parse (⟨.name name, pos⟩ :: argument)).map (·, rest) := by
  obtain ⟨outcome, hcall, halone⟩ : ∃ outcome : Except Fault Expr,
      (readCall (groupAt 0) name pos (argument ++ rest)).result = outcome.map (·, rest) ∧
      (readCall (groupAt 0) name pos argument).result = outcome.map (·, []) :=
    h.result_readCall hnests pos
  have hparse : parse (⟨.name name, pos⟩ :: argument) = outcome := by
    refine parse_of_readPrimary rfl ?_ ?_
    · rw [imbalance?_cons_of_ne (by simp) (by simp), h.imbalance?]
    · rw [result_readPrimary_name, halone]
  rw [hcall, hparse]

/-! ## Behind an expression -/

/-- A token that goes on behind an expression, but not with an operator, is a fault. -/
theorem parse_behind {A tokens : List Token} {e : Expr} {t : Token} (hparse : parse A = .ok e)
    (ht : (Level.chain .sum).Ends (t :: tokens)) (hbalance : imbalance? 0 (t :: tokens) = none) :
    parse (A ++ t :: tokens) = .error (leftover (groupAt 0) t tokens).1 := by
  obtain ⟨D, rfl, hnesting, -⟩ := exists_derivation_of_parse hparse
  have hread : ((Level.chain .sum).reader maxNesting (D.tokens ++ t :: tokens)).result = _ :=
    D.reads maxNesting (t :: tokens) ht
  rw [Phrase.outcome_of_le hnesting] at hread
  rw [parse_of_balanced (by rwa [D.imbalance?_tokens_append]) (by simp), hread]
  rfl

/-- The same in a group. -/
theorem parse_group_behind {A tokens : List Token} {e : Expr} {t : Token} (hparse : parse A = .ok e)
    (hnests : NestsWithin 127 (parenChars A)) (hbalanced : Balanced (A ++ t :: tokens))
    (opening closing : Nat)
    (ht : (Level.chain .sum).Ends (t :: (tokens ++ [⟨.rparen, closing⟩])))
    (hclose : t.symbol ≠ .rparen) :
    parse (⟨.lparen, opening⟩ :: (A ++ t :: tokens ++ [⟨.rparen, closing⟩])) =
      .error (leftover (readGroup 127) t (tokens ++ [⟨.rparen, closing⟩])).1 := by
  obtain ⟨D, rfl, -, -⟩ := exists_derivation_of_parse hparse
  rw [← List.append_nil (parenChars _), D.nestsWithin_append_iff] at hnests
  have hread := D.reads 127 _ ht
  rw [Phrase.outcome_of_le hnests.1] at hread
  have hhead : ∀ t' ∈ (D.tokens ++ t :: (tokens ++ [⟨.rparen, closing⟩])).head?,
      t'.symbol ≠ .rparen := by
    obtain ⟨first, ts, htokens, hfirst⟩ := D.head_tokens_ne_rparen _ rfl
    simp [htokens, hfirst]
  have hgroup := result_readGroup_of_wholeFails hhead (.inr ⟨_, _, _, hread, hclose, rfl⟩)
  refine parse_of_readPrimary rfl (imbalance?_group hbalanced opening closing) ?_
  rw [result_readPrimary_lparen, List.append_assoc, List.cons_append]
  exact hgroup

/-- A function name behind a complete expression `A` is a fault, whatever tokens there are behind
it: that of reading the name and its argument alone, else that of the value of this call, else the
name has no place there. Neither what is in front of the name nor what is behind its argument has
any influence, and one more group around everything leaves the fault as it is. -/
theorem parse_call_behind {A T : List Token} {e : Expr} {name : String} {pos : Nat}
    (hparse : parse A = .ok e) (hbalanced : Balanced (A ++ ⟨.name name, pos⟩ :: T))
    (hnests : NestsWithin 127 (parenChars (A ++ ⟨.name name, pos⟩ :: T))) :
    (∃ argument rest, T = argument ++ rest ∧ Argument name argument rest) ∧
    (∀ argument rest, T = argument ++ rest → Argument name argument rest →
      (readCall (groupAt 0) name pos T).result =
        (parse (⟨.name name, pos⟩ :: argument)).map (·, rest) ∧
      parse (A ++ ⟨.name name, pos⟩ :: T) =
        .error (callFault name pos (parse (⟨.name name, pos⟩ :: argument))) ∧
      ∀ opening closing,
        parse (⟨.lparen, opening⟩ :: (A ++ ⟨.name name, pos⟩ :: T ++ [⟨.rparen, closing⟩])) =
          .error (callFault name pos (parse (⟨.name name, pos⟩ :: argument)))) ∧
    (LacksArgument T → parse (A ++ ⟨.name name, pos⟩ :: T) = .error (.missingArgument name)) ∧
    (Flaw.misplaced (.name name) pos).details = s!"unexpected '{name}' at position {pos}" := by
  obtain ⟨hnestsA, hnestsT, hbalance⟩ : NestsWithin 127 (parenChars A) ∧
      NestsWithin 127 (parenChars T) ∧ imbalance? 0 (⟨.name name, pos⟩ :: T) = none := by
    obtain ⟨D, rfl, -, -⟩ := exists_derivation_of_parse hparse
    rw [parenChars_append] at hnests
    have hbalance := balanced_iff.mp hbalanced
    rw [D.imbalance?_tokens_append] at hbalance
    exact ⟨hnests.of_append, (D.nestsWithin_append_iff.mp hnests).2, hbalance⟩
  have hgrouped : Grouped 127 (⟨.name name, pos⟩ :: T) :=
    (balanced_iff.mpr hbalance).grouped hnestsT
  have hbehind := @parse_behind A T e ⟨.name name, pos⟩ hparse rfl hbalance
  have hbehindGroup := fun opening closing => @parse_group_behind A T e ⟨.name name, pos⟩ hparse
    hnestsA hbalanced opening closing rfl (by simp)
  -- A group takes one level of the depth, which nothing behind the name is in need of.
  have hsame : ∀ closing, (leftover (readGroup 127) ⟨.name name, pos⟩
      (T ++ [⟨.rparen, closing⟩])).1 = (leftover (groupAt 0) ⟨.name name, pos⟩ (T ++ [])).1 :=
    fun closing => leftover_eq
      (fun d hd => groupsAlike_readGroup d (by omega) (show d < 128 by omega)) hgrouped
      (lacksArgument_rparen closing []) (by simp [LacksArgument])
  simp only [List.append_nil] at hsame
  refine ⟨?_, ?_, ?_, rfl⟩
  · cases hgrouped with
    | token _ _ more => exact more.exists_argument name
  · rintro argument rest rfl hargument
    rw [parenChars_append] at hnestsT
    have hcall := hargument.result_readCall_eq (hnestsT.of_append.mono (by decide)) pos
    have hfault : (leftover (groupAt 0) ⟨.name name, pos⟩ (argument ++ rest)).1 =
        callFault name pos (parse (⟨.name name, pos⟩ :: argument)) := by
      rw [leftover_name, hcall]
      cases parse (⟨.name name, pos⟩ :: argument) <;> rfl
    exact ⟨hcall, by rw [hbehind, hfault],
      fun opening closing => by rw [hbehindGroup, hsame, hfault]⟩
  · intro hlacks
    rw [hbehind, leftover_name, hlacks.result_readCall]
    rfl

/-- The tokens of `2 log10(0) 1`, where the logarithm is out of its domain. -/
theorem parse_call_behind_log10 :
    let tokens : List Token := [⟨.number 2.0, 0⟩, ⟨.name "log", 2⟩, ⟨.number 10.0, 5⟩, ⟨.lparen, 7⟩,
      ⟨.number 0.0, 8⟩, ⟨.rparen, 9⟩, ⟨.number 1.0, 11⟩]
    parse tokens = .error (.outsideDomain .log10 0.0) ∧
      parse (⟨.lparen, 0⟩ :: (tokens ++ [⟨.rparen, 12⟩])) = .error (.outsideDomain .log10 0.0) := by
  intro tokens
  have hargument : Argument "log"
      [⟨.number 10.0, 5⟩, ⟨.lparen, 7⟩, ⟨.number 0.0, 8⟩, ⟨.rparen, 9⟩] [⟨.number 1.0, 11⟩] :=
    @Argument.groupLog10 _ _ _ [⟨.number 0.0, 8⟩] _ (by decide) (balanced_iff.mpr rfl)
  have hfault : callFault "log" 2 (parse [⟨.name "log", 2⟩, ⟨.number 10.0, 5⟩, ⟨.lparen, 7⟩,
      ⟨.number 0.0, 8⟩, ⟨.rparen, 9⟩]) = .outsideDomain .log10 0.0 := by
    decide +kernel
  obtain ⟨-, h, hgroup⟩ := (@parse_call_behind [⟨.number 2.0, 0⟩] _ (.lit 2.0 0) "log" 2
    (by decide +kernel) (balanced_iff.mpr rfl) (by decide)).2.1 _ _ rfl hargument
  rw [hfault] at h hgroup
  exact ⟨h, hgroup 0 12⟩

end Calculator
