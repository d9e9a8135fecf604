import Calculator.Proofs.Balance

/-!
# Groups that are read alike

What reading a group comes to depends on what is inside of it and on nothing else: not on the tokens
behind its `)`, and not on how much deeper groups may go, if they may go deep enough for those
inside. That is so for a fault as much as for an expression.

* `Grouped`: tokens whose parentheses match, with the depth of their groups
* `Balanced.grouped`: they are those that are balanced and nested no deeper
* `Alike`: readings of tokens that end differently come to the same
* `groupsAlike_readGroup`: groups are read alike
-/

namespace Calculator

/-! ## Tokens in groups -/

/-- Tokens whose parentheses match, with groups nested at most `depth` deep. -/
inductive Grouped : (depth : Nat) → List Token → Prop
  | nil {depth : Nat} : Grouped depth []
  | token {depth : Nat} {t : Token} {ts : List Token} (hopen : t.symbol ≠ .lparen)
    (hclose : t.symbol ≠ .rparen) (more : Grouped depth ts) : Grouped depth (t :: ts)
  | group {depth opening closing : Nat} {inside ts : List Token} (within : Grouped depth inside)
    (more : Grouped (depth + 1) ts) :
    Grouped (depth + 1) (⟨.lparen, opening⟩ :: (inside ++ ⟨.rparen, closing⟩ :: ts))

/-- Tokens behind `opened` parentheses that lead out of all of them: tokens in groups with a `)` for
each of the parentheses between them, one level of groups more behind each `)`. -/
inductive LeadsOut : (opened depth : Nat) → List Token → Prop
  | last {depth : Nat} {ts : List Token} (h : Grouped depth ts) : LeadsOut 0 depth ts
  | close {opened depth closing : Nat} {inside ts : List Token} (h : Grouped depth inside)
    (more : LeadsOut opened (depth + 1) ts) :
    LeadsOut (opened + 1) depth (inside ++ ⟨.rparen, closing⟩ :: ts)

namespace LeadsOut

variable {opened depth : Nat} {ts : List Token}

theorem token {t : Token} (hopen : t.symbol ≠ .lparen) (hclose : t.symbol ≠ .rparen)
    (h : LeadsOut opened depth ts) : LeadsOut opened depth (t :: ts) := by
  cases h with
  | last h => exact .last (.token hopen hclose h)
  | close h more => exact @close _ _ _ (t :: _) _ (.token hopen hclose h) more

theorem group {opening closing : Nat} {inside : List Token} (within : Grouped depth inside)
    (h : LeadsOut opened (depth + 1) ts) :
    LeadsOut opened (depth + 1) (⟨.lparen, opening⟩ :: (inside ++ ⟨.rparen, closing⟩ :: ts)) := by
  cases h with
  | last h => exact .last (.group within h)
  | @close _ _ closing' inside' ts h more =>
    have hwhole := @close _ _ closing' _ _ (@Grouped.group _ opening closing _ _ within h) more
    rwa [List.cons_append, List.append_assoc] at hwhole

end LeadsOut

/-- Tokens that the scan of the parentheses finds no fault with lead out of the groups that are open
in front of them. -/
theorem leadsOut_of_imbalance? (tokens : List Token) : ∀ opened depth,
    imbalance? opened tokens = none → NestsWithin depth (parenChars tokens) →
      LeadsOut opened depth tokens := by
  induction tokens with
  | nil =>
    intro opened depth h _
    cases opened with
    | zero => exact .last .nil
    | succ opened => cases h
  | cons t tokens ih =>
    intro opened depth h hdepth
    obtain ⟨symbol, pos⟩ := t
    by_cases hopen : symbol = .lparen
    · subst hopen
      obtain ⟨hpos, hdepth⟩ := nestsWithin_lparen_iff.mp hdepth
      obtain ⟨depth, rfl⟩ : ∃ n, depth = n + 1 := ⟨depth - 1, (Nat.sub_add_cancel hpos).symm⟩
      cases ih (opened + 1) depth h hdepth with
      | close within more => exact more.group within
    by_cases hclose : symbol = .rparen
    · subst hclose
      cases opened with
      | zero => cases h
      | succ opened =>
        exact @LeadsOut.close _ _ pos [] _ .nil
          (ih opened (depth + 1) h (nestsWithin_rparen_iff.mp hdepth))
    · rw [imbalance?_cons_of_ne hopen hclose] at h
      have hskip : parenChars (⟨symbol, pos⟩ :: tokens) = parenChars tokens := by
        cases symbol <;> first | rfl | contradiction
      rw [hskip] at hdepth
      exact (ih opened depth h hdepth).token hopen hclose

/-- Balanced tokens are tokens in groups. -/
theorem Balanced.grouped {tokens : List Token} {depth : Nat} (h : Balanced tokens)
    (hdepth : NestsWithin depth (parenChars tokens)) : Grouped depth tokens := by
  cases leadsOut_of_imbalance? tokens 0 depth (balanced_iff.mp h) hdepth with
  | last h => exact h

theorem group_append (opening closing : Nat) (inside ts last : List Token) :
    (⟨.lparen, opening⟩ :: (inside ++ ⟨.rparen, closing⟩ :: ts) : List Token) ++ last =
      ⟨.lparen, opening⟩ :: (inside ++ ⟨.rparen, closing⟩ :: (ts ++ last)) := by
  rw [List.cons_append, List.append_assoc, List.cons_append]

namespace Grouped

variable {depth : Nat} {ts : List Token}

theorem head_ne_rparen (h : Grouped depth ts) : ∀ t ∈ ts.head?, t.symbol ≠ .rparen := by
  cases h with
  | nil => simp
  | token hopen hclose more => simpa using hclose
  | group within more => simp

theorem dropWhile_isSign (h : Grouped depth ts) : Grouped depth (ts.dropWhile Token.isSign) := by
  induction h with
  | nil => exact .nil
  | @token _ t ts hopen hclose more ih =>
    rw [List.dropWhile_cons]
    split
    · exact ih
    · exact .token hopen hclose more
  | group within more _ _ => exact .group within more

end Grouped

/-! ## Readings that come to the same -/

/-- Two readings of tokens that begin alike and end with `last` in the one and `last'` in the other
come to the same: to one fault, or to one expression with the same tokens left in front of the
end. -/
inductive Alike (depth : Nat) (last last' : List Token) :
    Except Fault (Expr × List Token) → Except Fault (Expr × List Token) → Prop
  | fault (fault : Fault) : Alike depth last last' (.error fault) (.error fault)
  | value (e : Expr) {left : List Token} (h : Grouped depth left) :
    Alike depth last last' (.ok (e, left ++ last)) (.ok (e, left ++ last'))

theorem Alike.of_eq {depth : Nat} {last last' : List Token}
    {result result' result₁ result₁' : Except Fault (Expr × List Token)} (h : result = result₁)
    (h' : result' = result₁') (halike : Alike depth last last' result₁ result₁') :
    Alike depth last last' result result' := by
  rwa [h, h']

theorem Alike.map {depth : Nat} {last last' : List Token}
    {result result' : Except Fault (Expr × List Token)} (h : Alike depth last last' result result')
    (f : Expr → Expr) : Alike depth last last' (result.map fun (e, rest) => (f e, rest))
      (result'.map fun (e, rest) => (f e, rest)) := by
  cases h with
  | fault fault => exact .fault fault
  | value e h => exact .value (f e) h

/-- Two readers come to the same on tokens in groups, whatever is behind the next `)`. -/
def ReadAlike (depth : Nat) (read read' : Reader Expr) : Prop :=
  ∀ ⦃ts : List Token⦄ (closing : Nat) (rest rest' : List Token), Grouped depth ts →
    Alike depth (⟨.rparen, closing⟩ :: rest) (⟨.rparen, closing⟩ :: rest')
      (read (ts ++ ⟨.rparen, closing⟩ :: rest)).result
      (read' (ts ++ ⟨.rparen, closing⟩ :: rest')).result

/-- Two readers of groups come to the same on the inside of a group, whatever is behind it. -/
def GroupsAlike (depth : Nat) (read read' : Reader Expr) : Prop :=
  ∀ ⦃inside : List Token⦄ (closing : Nat) (rest rest' : List Token), Grouped depth inside →
    ∃ outcome : Except Fault Expr,
      (read (inside ++ ⟨.rparen, closing⟩ :: rest)).result = outcome.map (·, rest) ∧
      (read' (inside ++ ⟨.rparen, closing⟩ :: rest')).result = outcome.map (·, rest')

theorem GroupsAlike.alike {depth : Nat} {read read' : Reader Expr}
    (h : GroupsAlike depth read read') {inside ts : List Token} (within : Grouped depth inside)
    (more : Grouped (depth + 1) ts) (closing : Nat) (last last' : List Token) :
    Alike (depth + 1) last last'
      (read (inside ++ ⟨.rparen, closing⟩ :: (ts ++ last))).result
      (read' (inside ++ ⟨.rparen, closing⟩ :: (ts ++ last'))).result := by
  obtain ⟨outcome, hread, hread'⟩ := h closing (ts ++ last) (ts ++ last') within
  rw [hread, hread']
  cases outcome with
  | error fault => exact .fault fault
  | ok e => exact .value e more

/-- The tokens do not begin with what can be the argument of a function. -/
def LacksArgument (tokens : List Token) : Prop :=
  ∀ t ∈ tokens.head?, t.symbol ≠ .lparen ∧ ∀ value, t.symbol ≠ .number value

theorem lacksArgument_rparen (closing : Nat) (rest : List Token) :
    LacksArgument (⟨.rparen, closing⟩ :: rest) := by
  rintro _ ⟨⟩
  simp

theorem LacksArgument.result_readCall {readGroup : Reader Expr} {tokens : List Token}
    (h : LacksArgument tokens) (name : String) (pos : Nat) :
    (readCall readGroup name pos tokens).result = .error (.missingArgument name) := by
  cases tokens with
  | nil => rfl
  | cons t tokens =>
    obtain ⟨hparen, hnumber⟩ := h t rfl
    exact result_readCall_of_missing hnumber hparen name pos tokens

/-- A number behind a name is the argument, unless the two are the decimal logarithm. -/
theorem result_readCall_number_append {readGroup : Reader Expr} {name : String} {value : Float}
    {numberPos : Nat} {ts last : List Token} (hlast : LacksArgument last)
    (hts : ∀ parenPos later, ts = ⟨.lparen, parenPos⟩ :: later →
      isLog10 name value numberPos parenPos = false) (pos : Nat) :
    (readCall readGroup name pos (⟨.number value, numberPos⟩ :: (ts ++ last))).result =
      .ok (.call name (.lit value numberPos) pos, ts ++ last) := by
  refine result_readCall_number (fun parenPos later heq => ?_) pos
  cases ts with
  | nil => exact absurd rfl (hlast ⟨.lparen, parenPos⟩ (congrArg List.head? heq)).1
  | cons t ts =>
    obtain ⟨rfl, -⟩ := List.cons.inj heq
    exact hts parenPos ts rfl

section Readers

variable {depth : Nat} {readGroup readGroup' : Reader Expr}
  (hgroup : ∀ d, depth = d + 1 → GroupsAlike d readGroup readGroup')

include hgroup

/-- A call is read alike in front of all that is no argument. -/
theorem alike_readCall {ts last last' : List Token} (h : Grouped depth ts)
    (hlast : LacksArgument last) (hlast' : LacksArgument last') (name : String) (pos : Nat) :
    Alike depth last last' (readCall readGroup name pos (ts ++ last)).result
      (readCall readGroup' name pos (ts ++ last')).result := by
  cases h with
  | nil =>
    rw [List.nil_append, List.nil_append, hlast.result_readCall, hlast'.result_readCall]
    exact .fault _
  | @group depth opening closing inside ts within more =>
    have hinside := (hgroup depth rfl).alike within more closing last last'
    rw [group_append, group_append, result_readCall_lparen, result_readCall_lparen]
    exact hinside.map (.call name · pos)
  | @token _ t ts hopen hclose more =>
    obtain ⟨symbol, tokenPos⟩ := t
    rw [List.cons_append, List.cons_append]
    by_cases hnumber : ∃ value, symbol = .number value
    · obtain ⟨value, rfl⟩ := hnumber
      by_cases hlog : ∃ parenPos later, ts = ⟨.lparen, parenPos⟩ :: later ∧
          isLog10 name value tokenPos parenPos = true
      · obtain ⟨parenPos, later, rfl, hlog⟩ := hlog
        cases more with
        | token hopen _ _ => exact absurd rfl hopen
        | @group depth _ closing inside ts within more =>
          have hinside := (hgroup depth rfl).alike within more closing last last'
          rw [group_append, group_append, result_readCall_log10 hlog, result_readCall_log10 hlog]
          exact hinside.map (.call (name ++ "10") · pos)
      · have hts : ∀ parenPos later, ts = ⟨.lparen, parenPos⟩ :: later →
            isLog10 name value tokenPos parenPos = false := fun parenPos later heq =>
          Bool.eq_false_iff.mpr fun h => hlog ⟨parenPos, later, heq, h⟩
        rw [result_readCall_number_append hlast hts, result_readCall_number_append hlast' hts]
        exact .value _ more
    · have hmissing : ∀ {read : Reader Expr} (later : List Token),
          (readCall read name pos (⟨symbol, tokenPos⟩ :: later)).result =
            .error (.missingArgument name) :=
        result_readCall_of_missing (fun value h => hnumber ⟨value, h⟩) hopen name pos
      rw [hmissing, hmissing]
      exact .fault _

theorem readAlike_readPrimary :
    ReadAlike depth (readPrimary readGroup) (readPrimary readGroup') := by
  intro ts closing rest rest' h
  cases h with
  | nil => exact .fault .unopenedGroup
  | @group depth opening closing' inside ts within more =>
    have hinside := (hgroup depth rfl).alike within more closing'
      (⟨.rparen, closing⟩ :: rest) (⟨.rparen, closing⟩ :: rest')
    rw [group_append, group_append, result_readPrimary_lparen, result_readPrimary_lparen]
    exact hinside
  | @token _ t ts hopen hclose more =>
    obtain ⟨symbol, pos⟩ := t
    rw [List.cons_append, List.cons_append]
    by_cases hnumber : ∃ value, symbol = .number value
    · obtain ⟨value, rfl⟩ := hnumber
      exact .value (.lit value pos) more
    by_cases hname : ∃ word, symbol = .name word
    · obtain ⟨word, rfl⟩ := hname
      rw [result_readPrimary_name, result_readPrimary_name]
      exact alike_readCall hgroup more (lacksArgument_rparen closing rest)
        (lacksArgument_rparen closing rest') word pos
    · have hmisplaced : ∀ {read : Reader Expr} (later : List Token),
          (readPrimary read (⟨symbol, pos⟩ :: later)).result = .error (misplaced ⟨symbol, pos⟩) :=
        result_readPrimary_of_misplaced (fun value h => hnumber ⟨value, h⟩)
          (fun word h => hname ⟨word, h⟩) hopen
      rw [hmisplaced, hmisplaced]
      exact .fault _

omit hgroup in
theorem readAlike_readOperand
    (hprimary : ReadAlike depth (readPrimary readGroup) (readPrimary readGroup')) :
    ReadAlike depth (readOperand readGroup) (readOperand readGroup') := by
  intro ts closing rest rest' h
  have hhead : ∀ rest : List Token, ∀ t ∈ (⟨.rparen, closing⟩ :: rest : List Token).head?,
      t.isSign = false := by
    rintro rest _ ⟨⟩
    rfl
  rw [result_readOperand, result_readOperand, dropWhile_append_of_head (hhead rest),
    dropWhile_append_of_head (hhead rest'), takeWhile_append_of_head (hhead rest),
    takeWhile_append_of_head (hhead rest')]
  exact (hprimary closing rest rest' h.dropWhile_isSign).map _

end Readers

section Chains

variable {depth : Nat} {tier : Tier} {readItem readItem' : Reader Expr}

/-- Chains are read alike if their operands are. -/
theorem alike_readChain (hitem : ReadAlike depth readItem readItem') (closing : Nat)
    (rest rest' : List Token) {origin origin' : List Token} : ∀ (n : Nat) {ts : List Token},
    ts.length ≤ n → Grouped depth ts → ∀ (left : Expr)
      (hlength : (ts ++ ⟨.rparen, closing⟩ :: rest).length < origin.length)
      (hlength' : (ts ++ ⟨.rparen, closing⟩ :: rest').length < origin'.length),
    Alike depth (⟨.rparen, closing⟩ :: rest) (⟨.rparen, closing⟩ :: rest')
      (readChain tier.operator? readItem left (ts ++ ⟨.rparen, closing⟩ :: rest) hlength).result
      (readChain tier.operator? readItem' left (ts ++ ⟨.rparen, closing⟩ :: rest')
        hlength').result := by
  intro n
  induction n with
  | zero =>
    intro ts hn h left hlength hlength'
    obtain rfl := List.length_eq_zero_iff.mp (Nat.le_zero.mp hn)
    have hclose : tier.operator? .rparen = none := by cases tier <;> rfl
    exact .of_eq (result_readChain_of_none hclose hlength)
      (result_readChain_of_none hclose hlength') (.value left .nil)
  | succ n ih =>
    intro ts hn h left hlength hlength'
    cases h with
    | nil => exact @ih [] (Nat.zero_le n) .nil left hlength hlength'
    | group within more =>
      have hopen : tier.operator? .lparen = none := by cases tier <;> rfl
      exact .of_eq (result_readChain_of_none hopen hlength)
        (result_readChain_of_none hopen hlength') (.value left (.group within more))
    | @token _ t ts hopen hclose more =>
      cases hop : tier.operator? t.symbol with
      | none =>
        exact .of_eq (result_readChain_of_none hop hlength) (result_readChain_of_none hop hlength')
          (.value left (.token hopen hclose more))
      | some op =>
        have halike := hitem closing rest rest' more
        generalize hresult : (readItem (ts ++ ⟨.rparen, closing⟩ :: rest)).result = result at halike
        generalize hresult' : (readItem' (ts ++ ⟨.rparen, closing⟩ :: rest')).result = result'
          at halike
        cases halike with
        | fault fault =>
          exact .of_eq (result_readChain_of_error hop hresult hlength)
            (result_readChain_of_error hop hresult' hlength') (.fault fault)
        | @value right later hlater =>
          obtain ⟨shorter, -⟩ := Reading.exists_done hresult
          obtain ⟨hless, hchain⟩ := @result_readChain_of_ok _ _ _ _ _ left _ _ _ hop hresult hlength
          obtain ⟨hless', hchain'⟩ :=
            @result_readChain_of_ok _ _ _ _ _ left _ _ _ hop hresult' hlength'
          simp only [List.length_append, List.length_cons] at hn shorter
          exact .of_eq hchain hchain' (ih (by omega) hlater _ hless hless')

theorem readAlike_readLevel (hitem : ReadAlike depth readItem readItem') :
    ReadAlike depth (readLevel tier.operator? readItem) (readLevel tier.operator? readItem') := by
  intro ts closing rest rest' h
  have halike := hitem closing rest rest' h
  generalize hresult : (readItem (ts ++ ⟨.rparen, closing⟩ :: rest)).result = result at halike
  generalize hresult' : (readItem' (ts ++ ⟨.rparen, closing⟩ :: rest')).result = result' at halike
  cases halike with
  | fault fault =>
    exact .of_eq (result_readLevel_of_error hresult) (result_readLevel_of_error hresult')
      (.fault fault)
  | @value e left hleft =>
    obtain ⟨hless, hchain⟩ := result_readLevel_of_ok hresult
    obtain ⟨hless', hchain'⟩ := result_readLevel_of_ok hresult'
    exact .of_eq hchain hchain'
      (alike_readChain hitem closing rest rest' left.length (Nat.le_refl _) hleft e hless hless')

end Chains

/-! ## Groups -/

/-- Two readers of groups go on alike behind an expression that does not end in front of a `)`. -/
theorem leftover_eq {depth : Nat} {read read' : Reader Expr}
    (hgroup : ∀ d, depth = d + 1 → GroupsAlike d read read') {t : Token} {ts : List Token}
    (h : Grouped depth (t :: ts)) {last last' : List Token} (hlast : LacksArgument last)
    (hlast' : LacksArgument last') :
    (leftover read t (ts ++ last)).1 = (leftover read' t (ts ++ last')).1 := by
  by_cases hname : ∃ word, t.symbol = .name word
  · obtain ⟨symbol, pos⟩ := t
    obtain ⟨word, rfl⟩ := hname
    cases h with
    | token _ _ more =>
      have halike := alike_readCall hgroup more hlast hlast' word pos
      rw [leftover_name, leftover_name]
      generalize (readCall read word pos (ts ++ last)).result = result at halike
      generalize (readCall read' word pos (ts ++ last')).result = result' at halike
      cases halike <;> rfl
  · have hother : ∀ word, t.symbol ≠ .name word := fun word hword => hname ⟨word, hword⟩
    rw [leftover_of_ne_name hother, leftover_of_ne_name hother]

/-- The inside of a group decides what reading the group comes to, if there is room for it. -/
theorem groupsAlike_readGroup (depth : Nat) : ∀ {room room' : Nat}, depth < room → depth < room' →
    GroupsAlike depth (readGroup room) (readGroup room') := by
  induction depth using Nat.strong_induction_on with
  | _ depth ih =>
    intro room room' hroom hroom' inside closing rest rest' h
    obtain ⟨room, rfl⟩ : ∃ n, room = n + 1 := ⟨room - 1, by omega⟩
    obtain ⟨room', rfl⟩ : ∃ n, room' = n + 1 := ⟨room' - 1, by omega⟩
    have hgroup : ∀ d, depth = d + 1 → GroupsAlike d (readGroup room) (readGroup room') :=
      fun d hd => ih d (by omega) (by omega) (by omega)
    by_cases hempty : inside = []
    · subst hempty
      exact ⟨.error (.malformed (.emptyGroup closing)), rfl, rfl⟩
    have hhead : ∀ rest : List Token, ∀ t ∈ (inside ++ ⟨.rparen, closing⟩ :: rest).head?,
        t.symbol ≠ .rparen := by
      intro rest t ht
      rw [List.head?_append_of_ne_nil _ hempty] at ht
      exact h.head_ne_rparen t ht
    have hsum : ReadAlike depth (readSum (readGroup room)) (readSum (readGroup room')) :=
      @readAlike_readLevel _ .sum _ _ (@readAlike_readLevel _ .product _ _
        (readAlike_readOperand (readAlike_readPrimary hgroup)))
    have halike := hsum closing rest rest' h
    rw [result_readGroup_succ room (hhead rest), result_readGroup_succ room' (hhead rest'),
      result_closeGroup, result_closeGroup]
    generalize (readSum (readGroup room) (inside ++ ⟨.rparen, closing⟩ :: rest)).result = result
      at halike
    generalize (readSum (readGroup room') (inside ++ ⟨.rparen, closing⟩ :: rest')).result = result'
      at halike
    cases halike with
    | fault fault => exact ⟨.error fault, rfl, rfl⟩
    | @value e left hleft =>
      cases left with
      | nil => exact ⟨.ok e, rfl, rfl⟩
      | cons t left =>
        have ht : t.symbol ≠ .rparen := hleft.head_ne_rparen t rfl
        refine ⟨.error (leftover (readGroup room) t (left ++ ⟨.rparen, closing⟩ :: rest)).1,
          if_neg ht, ?_⟩
        rw [leftover_eq hgroup hleft (lacksArgument_rparen closing rest)
          (lacksArgument_rparen closing rest')]
        exact if_neg ht

end Calculator
