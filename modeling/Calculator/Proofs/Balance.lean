import Calculator.Proofs.Nesting
import Calculator.Proofs.Unfinished
import Calculator.Proofs.Value

/-!
# Faults of balanced tokens

What the parser can say about tokens whose parentheses match. It never finds a group that is not
closed, but it does find fault with a `)` that stands where an operand should, as in `(1+)`.

* `Balanced`: every parenthesis has its partner
* `Tally`: what the check of the balance finds, by the counts of parentheses
* `Explained`: what there is to every fault of a reader
* `Balanced.parse_fault`: the faults of balanced tokens, and which of them are put down to a `)`
-/

namespace Calculator

/-! ## Balance by counting -/

/-- How many groups the tokens open. -/
def opens (tokens : List Token) : Nat := tokens.countP fun t => t.symbol = .lparen

/-- How many groups the tokens close. -/
def closes (tokens : List Token) : Nat := tokens.countP fun t => t.symbol = .rparen

/-- Every `(` has its `)`: no token has more of the latter than of the former in front of it or at
it, and in the end there are as many. -/
structure Balanced (tokens : List Token) : Prop where
  sane : ∀ front, front <+: tokens → closes front ≤ opens front
  settled : closes tokens = opens tokens

/-- What the parentheses of tokens come to behind `depth` that are open: a `)` with nothing to
close, a `(` that nothing closes, or neither. -/
inductive Tally (depth : Nat) (tokens : List Token) : Option Fault → Prop
  | unopened (front : List Token) (within : front <+: tokens)
    (more : opens front + depth < closes front) : Tally depth tokens (some .unopenedGroup)
  | unclosed (sane : ∀ front, front <+: tokens → closes front ≤ opens front + depth)
    (fewer : closes tokens < opens tokens + depth) : Tally depth tokens (some .unclosedGroup)
  | balanced (sane : ∀ front, front <+: tokens → closes front ≤ opens front + depth)
    (settled : closes tokens = opens tokens + depth) : Tally depth tokens none

namespace Tally

variable {t : Token} {tokens : List Token} {depth : Nat}

/-- One more token in front, behind which as many groups are open as it leaves open. -/
theorem cons {depth' : Nat} {fault? : Option Fault}
    (hstep : ∀ front, opens (t :: front) + depth + closes front =
      closes (t :: front) + (opens front + depth')) (h : Tally depth' tokens fault?) :
    Tally depth (t :: tokens) fault? := by
  have hsane : (∀ front, front <+: tokens → closes front ≤ opens front + depth') →
      ∀ front, front <+: t :: tokens → closes front ≤ opens front + depth := by
    intro hsane
    refine forall_prefix_cons_iff.mpr ⟨by simp [closes], fun front hfront => ?_⟩
    have hcount := hstep front
    have hle := hsane front hfront
    omega
  have hcount := hstep tokens
  cases h with
  | unopened front within more =>
    have hfront := hstep front
    exact .unopened (t :: front) ((List.prefix_cons_inj t).mpr within) (by omega)
  | unclosed sane fewer => exact .unclosed (hsane sane) (by omega)
  | balanced sane settled => exact .balanced (hsane sane) (by omega)

theorem unique {fault? fault?' : Option Fault} (h : Tally depth tokens fault?)
    (h' : Tally depth tokens fault?') : fault? = fault?' := by
  cases h with
  | unopened front within more =>
    cases h' with
    | unopened => rfl
    | unclosed sane | balanced sane => exact absurd (sane front within) (Nat.not_le_of_lt more)
  | unclosed sane fewer =>
    cases h' with
    | unopened front within more => exact absurd (sane front within) (Nat.not_le_of_lt more)
    | unclosed => rfl
    | balanced _ settled => exact absurd settled (Nat.ne_of_lt fewer)
  | balanced sane settled =>
    cases h' with
    | unopened front within more => exact absurd (sane front within) (Nat.not_le_of_lt more)
    | unclosed _ fewer => exact absurd settled (Nat.ne_of_lt fewer)
    | balanced => rfl

end Tally

theorem tally_imbalance? (tokens : List Token) : ∀ depth,
    Tally depth tokens (imbalance? depth tokens) := by
  induction tokens with
  | nil =>
    intro depth
    have hsane : ∀ front, front <+: [] → closes front ≤ opens front + depth := by simp [closes]
    rw [imbalance?]
    split
    · next h => exact .balanced hsane (by rw [h]; rfl)
    · next h => exact .unclosed hsane (by simp [closes, opens]; omega)
  | cons t tokens ih =>
    intro depth
    by_cases hopen : t.symbol = .lparen
    · have hstep : imbalance? depth (t :: tokens) = imbalance? (depth + 1) tokens := by
        rw [imbalance?.eq_def]
        simp only [hopen]
      rw [hstep]
      exact (ih (depth + 1)).cons fun front => by simp [closes, opens, hopen]; omega
    by_cases hclose : t.symbol = .rparen
    · cases depth with
      | zero =>
        have hstep : imbalance? 0 (t :: tokens) = some .unopenedGroup := by
          rw [imbalance?.eq_def]
          simp only [hclose]
        rw [hstep]
        exact .unopened [t] (by simp) (by simp [closes, opens, hclose])
      | succ depth =>
        have hstep : imbalance? (depth + 1) (t :: tokens) = imbalance? depth tokens := by
          rw [imbalance?.eq_def]
          simp only [hclose]
        rw [hstep]
        exact (ih depth).cons fun front => by simp [closes, opens, hclose]; omega
    · rw [imbalance?_cons_of_ne hopen hclose]
      exact (ih depth).cons fun front => by simp [closes, opens, hopen, hclose]; omega

theorem imbalance?_eq_iff {tokens : List Token} {depth : Nat} {fault? : Option Fault} :
    imbalance? depth tokens = fault? ↔ Tally depth tokens fault? := by
  refine ⟨?_, (tally_imbalance? tokens depth).unique⟩
  rintro rfl
  exact tally_imbalance? tokens depth

theorem balanced_iff {tokens : List Token} : Balanced tokens ↔ imbalance? 0 tokens = none := by
  rw [imbalance?_eq_iff]
  refine ⟨fun h => .balanced h.sane h.settled, fun h => ?_⟩
  cases h with
  | balanced sane settled => exact ⟨sane, settled⟩

/-! ## What there is to a fault -/

/-- The groups that are open where tokens begin, as far as the balance of these tokens goes. -/
def Place.opened : Place → Nat
  | group => 1
  | _ => 0

/-- What there is to a fault of reading the tokens at a place. It is one of form, it comes from a
name without an argument or from the value of a call in the tokens, or it is put down to
parentheses: to a `)` where an operand must follow, or to a `(` that nothing closes. -/
inductive Explained (room : Nat) (place : Place) (tokens : List Token) : Fault → Prop
  | malformed (flaw : Flaw) : Explained room place tokens (.malformed flaw)
  | missingArgument (name : String) (pos : Nat) (mem : ⟨.name name, pos⟩ ∈ tokens) :
    Explained room place tokens (.missingArgument name)
  | value {fault : Fault} (name : String) (pos : Nat) (later : List Token)
    (call : Phrase (.level .primary)) (begins : call.tokens = ⟨.name name, pos⟩ :: later)
    (within : call.tokens <:+: tokens) (fails : call.tree.eval = .error fault) :
    Explained room place tokens fault
  | unopened (front : List Token) (closing : Nat) (rest : List Token)
    (split : tokens = front ++ ⟨.rparen, closing⟩ :: rest) (awaits : Awaits room place front) :
    Explained room place tokens .unopenedGroup
  | unclosed (h : ∀ depth, imbalance? (depth + place.opened) tokens = some .unclosedGroup) :
    Explained room place tokens .unclosedGroup

theorem exists_misplaced {t : Token} (h : t.symbol ≠ .rparen) :
    ∃ flaw, misplaced t = .malformed flaw := by
  obtain ⟨symbol, pos⟩ := t
  cases symbol with
  | rparen => exact absurd rfl h
  | _ => exact ⟨_, rfl⟩

/-- A fault at a place is one at a place further ahead. -/
theorem Explained.prepend {room room' : Nat} {place place' : Place} {tokens : List Token}
    {fault : Fault} (h : Explained room place tokens fault) (before : List Token)
    (hawaits : ∀ front closing rest, tokens = front ++ ⟨.rparen, closing⟩ :: rest →
      Awaits room place front → Awaits room' place' (before ++ front))
    (hbalance : ∀ depth, ∃ depth', imbalance? (depth + place'.opened) (before ++ tokens) =
      imbalance? (depth' + place.opened) tokens) :
    Explained room' place' (before ++ tokens) fault := by
  cases h with
  | malformed flaw => exact .malformed flaw
  | missingArgument name pos mem => exact .missingArgument name pos (List.mem_append_right _ mem)
  | value name pos later call begins within fails =>
    exact .value name pos later call begins (within.trans (List.suffix_append ..).isInfix) fails
  | unopened front closing rest split awaits =>
    exact .unopened (before ++ front) closing rest (by rw [split, List.append_assoc])
      (hawaits front closing rest split awaits)
  | unclosed h =>
    refine .unclosed fun depth => ?_
    obtain ⟨depth', heq⟩ := hbalance depth
    rw [heq, h]

section Explanations

variable {room : Nat} {tokens : List Token} {fault : Fault}

theorem explained_readCall
    (hgroup : ∀ tokens fault, (readGroup room tokens).result = .error fault →
      Explained room .group tokens fault)
    {name : String} {pos : Nat}
    (h : (readCall (readGroup room) name pos tokens).result = .error fault) :
    Explained room (.rule (.level .primary)) (⟨.name name, pos⟩ :: tokens) fault := by
  rcases @result_readCall_cases (readGroup room) name pos tokens with
    ⟨tenPos, later, hname, rfl, hcall⟩ | ⟨value, numberPos, later, rfl, hcall⟩ |
      ⟨parenPos, later, rfl, hcall⟩ | hcall
  · rw [hcall] at h
    exact (hgroup later fault (error_of_map_eq_error h)).prepend
      [⟨.name name, pos⟩, ⟨.number 10.0, tenPos⟩, ⟨.lparen, tenPos + 2⟩]
      (fun front _ _ _ next => .callLog10 name hname pos tenPos next) fun depth => ⟨depth, rfl⟩
  · rw [hcall] at h
    cases h
  · rw [hcall] at h
    exact (hgroup later fault (error_of_map_eq_error h)).prepend
      [⟨.name name, pos⟩, ⟨.lparen, parenPos⟩]
      (fun front _ _ _ next => .call name pos parenPos next) fun depth => ⟨depth, rfl⟩
  · rw [hcall] at h
    cases h
    exact .missingArgument name pos List.mem_cons_self

theorem explained_readPrimary
    (hgroup : ∀ tokens fault, (readGroup room tokens).result = .error fault →
      Explained room .group tokens fault)
    (h : (readPrimary (readGroup room) tokens).result = .error fault) :
    Explained room (.rule (.level .primary)) tokens fault := by
  rcases @result_readPrimary_cases (readGroup room) tokens with
    ⟨value, pos, later, rfl, hprimary⟩ | ⟨pos, later, rfl, hprimary⟩ |
      ⟨word, pos, later, rfl, hprimary⟩ | ⟨t, later, rfl, hprimary⟩ | hprimary
  · rw [hprimary] at h
    cases h
  · rw [hprimary] at h
    exact (hgroup later fault h).prepend [⟨.lparen, pos⟩]
      (fun front _ _ _ next => .paren pos next) fun depth => ⟨depth, rfl⟩
  · rw [hprimary] at h
    exact explained_readCall hgroup h
  · rw [hprimary] at h
    cases h
    by_cases hclose : t.symbol = .rparen
    · obtain ⟨symbol, pos⟩ := t
      obtain rfl : symbol = .rparen := hclose
      exact .unopened [] pos later rfl .operand
    · obtain ⟨flaw, hflaw⟩ := exists_misplaced hclose
      rw [hflaw]
      exact .malformed flaw
  · rw [hprimary] at h
    cases h
    exact .malformed _

theorem explained_readOperand
    (hprimary : ∀ tokens fault, (readPrimary (readGroup room) tokens).result = .error fault →
      Explained room (.rule (.level .primary)) tokens fault)
    (h : (readOperand (readGroup room) tokens).result = .error fault) :
    Explained room (.rule (.level .operand)) tokens fault := by
  rw [result_readOperand] at h
  obtain ⟨run, hrun⟩ :=
    Phrase.exists_runTokens fun t (ht : t ∈ tokens.takeWhile Token.isSign) =>
      List.mem_takeWhile_imp ht
  have hbody := hprimary _ fault (error_of_map_eq_error h)
  rw [← @List.takeWhile_append_dropWhile _ Token.isSign tokens, hrun]
  exact hbody.prepend (runTokens run) (fun front _ _ _ next => .signs run next)
    fun depth => ⟨depth, imbalance?_runTokens_append run depth _⟩

theorem explained_readChain {tier : Tier}
    (hitem : ∀ tokens fault, (tier.operand.reader room tokens).result = .error fault →
      Explained room (.rule (.level tier.operand)) tokens fault)
    {origin : List Token} {left : Expr} {hlength : tokens.length < origin.length}
    (h : (readChain tier.operator? (tier.operand.reader room) left tokens hlength).result =
      .error fault) :
    Explained room (.rule (.tail tier)) tokens fault := by
  fun_induction readChain tier.operator? (tier.operand.reader room) left tokens hlength with
  | case1 left hlength => cases h
  | case2 left t tokens hlength hop => cases h
  | case3 left t tokens hlength op hop fault' unread hfail =>
    obtain ⟨hsymbol, htier⟩ := Tier.operator?_eq_some_iff.mp hop
    obtain ⟨symbol, pos⟩ := t
    obtain rfl : symbol = op.symbol := hsymbol
    have hnext := hitem tokens fault (by rw [hfail]; exact h)
    exact hnext.prepend [⟨op.symbol, pos⟩] (fun front _ _ _ next => .next op htier pos next)
      fun depth => ⟨depth, imbalance?_operator_cons op pos depth tokens⟩
  | case4 left t tokens hlength op hop right later shorter hdone hlater ih =>
    obtain ⟨hsymbol, htier⟩ := Tier.operator?_eq_some_iff.mp hop
    obtain ⟨symbol, pos⟩ := t
    obtain rfl : symbol = op.symbol := hsymbol
    have hresult : (tier.operand.reader room tokens).result = .ok (right, later) := by
      rw [hdone]
      rfl
    obtain ⟨operand, fits, rfl, -⟩ := exists_phrase_of_reader hresult
    refine (ih h).prepend (⟨op.symbol, pos⟩ :: operand.tokens)
      (fun front _ _ _ next => .step op htier pos operand fits next) fun depth => ⟨depth, ?_⟩
    rw [List.cons_append, imbalance?_operator_cons, operand.imbalance?_tokens_append]

theorem explained_readLevel {tier : Tier}
    (hitem : ∀ tokens fault, (tier.operand.reader room tokens).result = .error fault →
      Explained room (.rule (.level tier.operand)) tokens fault)
    (h : ((Level.chain tier).reader room tokens).result = .error fault) :
    Explained room (.rule (.level (.chain tier))) tokens fault := by
  rw [Level.reader_chain] at h
  cases hfirst : (tier.operand.reader room tokens).result with
  | error fault' =>
    rw [result_readLevel_of_error hfirst] at h
    cases h
    exact (hitem tokens fault hfirst).prepend [] (fun front _ _ _ next => .first next)
      fun depth => ⟨depth, rfl⟩
  | ok read =>
    obtain ⟨left, later⟩ := read
    obtain ⟨h', hchain⟩ := result_readLevel_of_ok hfirst
    rw [hchain] at h
    obtain ⟨first, fits, rfl, -⟩ := exists_phrase_of_reader hfirst
    exact (explained_readChain hitem h).prepend first.tokens
      (fun front _ _ _ next => .more first fits next)
      fun depth => ⟨depth, first.imbalance?_tokens_append _ _⟩

theorem explained_leftover {done : Derivation} (fits : done.nesting ≤ room)
    (hgroup : ∀ tokens fault, (readGroup room tokens).result = .error fault →
      Explained room .group tokens fault) (word : String) (pos : Nat) (rest : List Token) :
    Explained room .whole (done.tokens ++ ⟨.name word, pos⟩ :: rest)
      (leftover (readGroup room) ⟨.name word, pos⟩ rest).1 := by
  cases hcall : (readCall (readGroup room) word pos rest).result with
  | error fault =>
    rw [leftover_name_of_error hcall]
    refine (explained_readCall hgroup hcall).prepend done.tokens
      (fun front closing later split next => ?_)
      fun depth => ⟨depth, done.imbalance?_tokens_append _ _⟩
    cases front with
    | nil => simp at split
    | cons t front =>
      obtain ⟨rfl, -⟩ := List.cons.inj split
      exact .leftover done fits word pos next
  | ok read =>
    obtain ⟨e, later⟩ := read
    rcases leftover_name_of_ok hcall with heval | hmisplaced
    · rw [← @result_readPrimary_name (readGroup room)] at hcall
      obtain ⟨call, -, hsplit, rfl⟩ := @exists_phrase_of_reader .primary room _ _ _ hcall
      obtain ⟨t, ts, htokens, -⟩ := call.head_tokens_ne_rparen _ rfl
      have hfirst := hsplit
      rw [htokens, List.cons_append] at hfirst
      obtain ⟨rfl, -⟩ := List.cons.inj hfirst
      refine .value word pos ts call htokens ?_ heval
      rw [hsplit]
      exact ⟨done.tokens, later, List.append_assoc ..⟩
    · rw [hmisplaced]
      exact .malformed _

theorem explained_of_wholeFails
    (hgroup : ∀ tokens fault, (readGroup room tokens).result = .error fault →
      Explained room .group tokens fault) (h : WholeFails room tokens fault) :
    Explained room .whole tokens fault := by
  have hprimary := fun tokens fault => @explained_readPrimary room tokens fault hgroup
  have hoperand := fun tokens fault => @explained_readOperand room tokens fault hprimary
  have hproduct := fun tokens fault => @explained_readLevel room tokens fault .product hoperand
  have hsum := fun tokens fault => @explained_readLevel room tokens fault .sum hproduct
  rcases h with h | ⟨e, t, rest, h, ht, hleftover⟩
  · exact (hsum tokens fault h).prepend [] (fun front _ _ _ next => .sum next)
      fun depth => ⟨depth, rfl⟩
  · obtain ⟨done, fits, rfl, -⟩ := exists_phrase_of_reader h
    by_cases hname : ∃ word, t.symbol = .name word
    · obtain ⟨symbol, pos⟩ := t
      obtain ⟨word, rfl⟩ := hname
      rw [← hleftover]
      exact explained_leftover fits hgroup word pos rest
    · rw [leftover_of_ne_name fun word hword => hname ⟨word, hword⟩] at hleftover
      obtain ⟨flaw, hflaw⟩ := exists_misplaced ht
      rw [← hleftover, hflaw]
      exact .malformed flaw

theorem explained_readGroup (room : Nat) : ∀ tokens fault,
    (readGroup room tokens).result = .error fault → Explained room .group tokens fault := by
  induction room with
  | zero =>
    intro tokens fault h
    cases h
    exact .malformed _
  | succ room ih =>
    intro tokens fault h
    rcases rparen_or_ne tokens with ⟨pos, later, rfl⟩ | hhead
    · cases h
      exact .malformed _
    have hwhole : WholeFails room tokens fault ∨ fault = .unclosedGroup ∧
        ∃ e, ((Level.chain .sum).reader room tokens).result = .ok (e, []) := by
      rw [result_readGroup_succ room hhead, result_closeGroup] at h
      split at h
      · next fault' hsum =>
        cases h
        exact .inl (.inl hsum)
      · next e hsum =>
        cases h
        exact .inr ⟨rfl, e, hsum⟩
      · next e t rest hsum =>
        split at h
        · cases h
        · next ht =>
          cases h
          exact .inl (.inr ⟨e, t, rest, hsum, ht, rfl⟩)
    rcases hwhole with hwhole | ⟨rfl, e, hsum⟩
    · refine (explained_of_wholeFails ih hwhole).prepend []
        (fun front closing rest split next => ?_) fun depth => ⟨depth + 1, rfl⟩
      refine .inside ?_ next
      rintro rfl
      exact hhead ⟨.rparen, closing⟩ (by rw [split]; rfl) rfl
    · obtain ⟨inside, -, rfl, -⟩ := exists_phrase_of_reader hsum
      refine .unclosed fun depth => ?_
      rw [inside.imbalance?_tokens_append]
      rfl

end Explanations

/-! ## The faults of balanced tokens -/

/-- Parsing balanced tokens fails where reading them as a whole does. -/
theorem wholeFails_of_parse {tokens : List Token} (hbalance : imbalance? 0 tokens = none)
    (hne : tokens ≠ []) {fault : Fault} :
    parse tokens = .error fault ↔ WholeFails maxNesting tokens fault := by
  rw [parse_of_balanced hbalance hne]
  cases hresult : ((Level.chain .sum).reader maxNesting tokens).result with
  | error fault' => simp [WholeFails, hresult]
  | ok read =>
    obtain ⟨e, rest⟩ := read
    cases rest with
    | nil => simp [WholeFails, hresult]
    | cons t rest =>
      have ht : t.symbol ≠ .rparen := by
        intro ht
        obtain ⟨symbol, pos⟩ := t
        obtain rfl : symbol = .rparen := ht
        obtain ⟨D, -, rfl, -⟩ := exists_phrase_of_reader hresult
        rw [D.imbalance?_tokens_append] at hbalance
        cases hbalance
      simp [WholeFails, hresult, ht, groupAt]

namespace Balanced

variable {tokens : List Token} (h : Balanced tokens)

include h

theorem explained {fault : Fault} (hfails : parse tokens = .error fault) :
    Explained maxNesting .whole tokens fault := by
  by_cases hne : tokens = []
  · subst hne
    cases hfails
    exact .malformed _
  · exact explained_of_wholeFails (explained_readGroup maxNesting)
      ((wholeFails_of_parse (balanced_iff.mp h) hne).mp hfails)

theorem parse_ne_unclosedGroup : parse tokens ≠ .error .unclosedGroup := by
  intro hfails
  cases h.explained hfails with
  | value name pos later call begins within fails => cases call.tree.isOfValue_of_eval fails
  | unclosed hall =>
    have hzero : imbalance? 0 tokens = _ := hall 0
    rw [balanced_iff.mp h] at hzero
    cases hzero

/-- A `)` is taken for one that closes nothing exactly if the tokens up to it break off where an
operand must follow. -/
theorem parse_eq_unopenedGroup_iff : parse tokens = .error .unopenedGroup ↔
    ∃ front closing rest, tokens = front ++ ⟨.rparen, closing⟩ :: rest ∧
      Awaits maxNesting .whole front := by
  constructor
  · intro hfails
    cases h.explained hfails with
    | value name pos later call begins within fails => cases call.tree.isOfValue_of_eval fails
    | unopened front closing rest split awaits => exact ⟨front, closing, rest, split, awaits⟩
  · rintro ⟨front, closing, rest, rfl, awaits⟩
    exact (wholeFails_of_parse (balanced_iff.mp h) (by simp)).mpr (awaits.fails closing rest)

/-- Without an operator or a sign right in front of a `)`, no `)` is taken for one that closes
nothing. -/
theorem parse_ne_unopenedGroup
    (hoperand : ∀ front t closing rest, tokens = front ++ t :: ⟨.rparen, closing⟩ :: rest →
      t.symbol.operator? = none) : parse tokens ≠ .error .unopenedGroup := by
  intro hfails
  obtain ⟨front, closing, rest, hsplit, awaits⟩ := h.parse_eq_unopenedGroup_iff.mp hfails
  rcases List.eq_nil_or_concat front with rfl | ⟨front, t, rfl⟩
  · have hzero : imbalance? 0 tokens = some .unopenedGroup := by
      rw [hsplit]
      rfl
    rw [balanced_iff.mp h] at hzero
    cases hzero
  · have ht := awaits.operator_of_getLast t (by simp)
    rw [List.concat_eq_append, List.append_assoc] at hsplit
    rw [hoperand front t closing rest hsplit] at ht
    cases ht

/-- What is wrong with balanced tokens is never an unclosed group. It is put down to a `)` that
closes nothing exactly if the tokens up to some `)` break off where an operand must follow. Every
other fault is one of form, a name without an argument, or comes from the value of a call that
stands in the tokens. -/
theorem parse_fault :
    parse tokens ≠ .error .unclosedGroup ∧
    (parse tokens = .error .unopenedGroup ↔ ∃ front closing rest,
      tokens = front ++ ⟨.rparen, closing⟩ :: rest ∧ Awaits maxNesting .whole front) ∧
    ∀ fault, parse tokens = .error fault → fault ≠ .unopenedGroup →
      (∃ flaw, fault = .malformed flaw) ∨
      (∃ name pos, fault = .missingArgument name ∧ ⟨.name name, pos⟩ ∈ tokens) ∨
      fault.IsOfValue ∧
        ∃ (name : String) (pos : Nat) (later : List Token) (call : Phrase (.level .primary)),
          call.tokens = ⟨.name name, pos⟩ :: later ∧ call.tokens <:+: tokens ∧
            call.tree.eval = .error fault := by
  refine ⟨h.parse_ne_unclosedGroup, h.parse_eq_unopenedGroup_iff, fun fault hfails hother => ?_⟩
  cases h.explained hfails with
  | malformed flaw => exact .inl ⟨flaw, rfl⟩
  | missingArgument name pos mem => exact .inr (.inl ⟨name, pos, rfl, mem⟩)
  | value name pos later call begins within fails =>
    exact .inr (.inr
      ⟨call.tree.isOfValue_of_eval fails, name, pos, later, call, begins, within, fails⟩)
  | unopened front closing rest split awaits => exact absurd rfl hother
  | unclosed hall => exact absurd hfails h.parse_ne_unclosedGroup

end Balanced

/-- The tokens of `(1+)`, which are balanced. -/
theorem Balanced.parse_fault_operator :
    Balanced [⟨.lparen, 0⟩, ⟨.number 1.0, 1⟩, ⟨.plus, 2⟩, ⟨.rparen, 3⟩] ∧
    parse [⟨.lparen, 0⟩, ⟨.number 1.0, 1⟩, ⟨.plus, 2⟩, ⟨.rparen, 3⟩] = .error .unopenedGroup := by
  have h : Balanced [⟨.lparen, 0⟩, ⟨.number 1.0, 1⟩, ⟨.plus, 2⟩, ⟨.rparen, 3⟩] :=
    balanced_iff.mpr rfl
  have hfront : Awaits maxNesting .whole [⟨.lparen, 0⟩, ⟨.number 1.0, 1⟩, ⟨.plus, 2⟩] :=
    .sum (.first (.first (.signs [] (.paren 0 (.inside (by simp) (.sum
      (@Awaits.more _ .sum _ (@Phrase.chain .product (.signs [] (.number 1.0 1)) .stop) (by decide)
        (.next .add rfl 2 (.first (.signs [] .operand))))))))))
  exact ⟨h, h.parse_fault.2.1.mpr ⟨_, 3, [], rfl, hfront⟩⟩

end Calculator
