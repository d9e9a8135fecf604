import Mathlib.Data.List.Basic
import Mathlib.Data.List.TakeWhile
import Calculator.Expr.Parser

/-!
# The grammar of expressions

The rules, with the levels of precedence from the loosest to the tightest:

* a sum is products with `+` or `-` between them, a product is operands with `*` or `/` between
  them;
* an operand is a primary after any number of signs;
* a primary is a number, a group, a function name with a number or a group behind it, or the name
  `log` with the number ten and a group behind it.

A `Phrase` is a derivation. What it derives (`Phrase.tokens`), the tree it stands for
(`Phrase.tree`) and how deep its groups are nested (`Phrase.nesting`) are read off it without any
parsing. `Phrase.eq_of_tokens_append` says that the grammar is unambiguous.
-/

namespace Calculator

/-- The two levels at which operators stand between operands. -/
inductive Tier where
  | sum
  | product
  deriving DecidableEq

/-- What a phrase is: a chain of operands on one of the tiers, an operand or a primary. -/
inductive Level where
  | chain (tier : Tier)
  | operand
  | primary
  deriving DecidableEq

/-- The operands on a tier. -/
def Tier.operand : Tier → Level
  | sum => .chain .product
  | product => .operand

/-- The rules of the grammar: one for each level, and one for what follows the first operand of a
chain. -/
inductive Rule where
  | level (level : Level)
  | tail (tier : Tier)
  deriving DecidableEq

namespace Operator

/-- The tier on which an operator stands. -/
def tier : Operator → Tier
  | add => .sum
  | sub => .sum
  | mul => .product
  | div => .product

/-- The symbol of an operator. -/
def symbol : Operator → Symbol
  | add => .plus
  | sub => .minus
  | mul => .star
  | div => .slash

end Operator

theorem Operator.symbol_injective : Function.Injective Operator.symbol := by
  intro left right h
  cases left <;> cases right <;> simp_all [Operator.symbol]

/-- The symbol of a sign. -/
def Sign.symbol : Sign → Symbol
  | plus => .plus
  | minus => .minus

/-- A derivation from a rule of the grammar, with the place of every token. -/
inductive Phrase : Rule → Type where
  | chain {tier : Tier} (first : Phrase (.level tier.operand)) (more : Phrase (.tail tier)) :
    Phrase (.level (.chain tier))
  | stop {tier : Tier} : Phrase (.tail tier)
  | step {tier : Tier} (op : Operator) (onTier : op.tier = tier) (pos : Nat)
    (next : Phrase (.level tier.operand)) (more : Phrase (.tail tier)) : Phrase (.tail tier)
  | signs (run : List (Sign × Nat)) (body : Phrase (.level .primary)) : Phrase (.level .operand)
  | number (value : Float) (pos : Nat) : Phrase (.level .primary)
  | group (opening : Nat) (inside : Phrase (.level (.chain .sum))) (closing : Nat) :
    Phrase (.level .primary)
  | callNumber (name : String) (pos : Nat) (value : Float) (numberPos : Nat) :
    Phrase (.level .primary)
  | callGroup (name : String) (pos opening : Nat) (inside : Phrase (.level (.chain .sum)))
    (closing : Nat) : Phrase (.level .primary)
  | callLog10 (name : String) (isLog : Text.lowercase name.toList = ['l', 'o', 'g'])
    (pos tenPos : Nat) (inside : Phrase (.level (.chain .sum))) (closing : Nat) :
    Phrase (.level .primary)

/-- A derivation of a whole expression. -/
abbrev Derivation := Phrase (.level (.chain .sum))

/-- What a phrase stands for: a tree, and for the tail of a chain what becomes of the tree on its
left. -/
abbrev Rule.Meaning : Rule → Type
  | level _ => Expr
  | tail _ => Expr → Expr

/-- The tokens of a run of signs. -/
def runTokens (run : List (Sign × Nat)) : List Token := run.map fun sign => ⟨sign.1.symbol, sign.2⟩

/-- An operand behind a run of signs: negated once, where the run starts, if the number of minus
signs is odd. -/
def negated (run : List (Sign × Nat)) (operand : Expr) : Expr :=
  match run with
  | [] => operand
  | (_, pos) :: _ => if run.countP (·.1 = .minus) % 2 = 1 then .neg operand pos else operand

namespace Phrase

/-- An operand as a whole expression. -/
def alone (operand : Phrase (.level .operand)) : Derivation :=
  @chain .sum (@chain .product operand .stop) .stop

/-- Two operands with an operator between them as a whole expression. -/
def operation (op : Operator) (pos : Nat) (left right : Phrase (.level .operand)) : Derivation :=
  match h : op.tier with
  | .sum =>
    @chain .sum (@chain .product left .stop) (.step op h pos (@chain .product right .stop) .stop)
  | .product => @chain .sum (@chain .product left (.step op h pos right .stop)) .stop

/-- The tokens that a derivation derives. -/
def tokens {r : Rule} : Phrase r → List Token
  | chain first more => first.tokens ++ more.tokens
  | stop => []
  | step op _ pos next more => ⟨op.symbol, pos⟩ :: (next.tokens ++ more.tokens)
  | signs run body => runTokens run ++ body.tokens
  | number value pos => [⟨.number value, pos⟩]
  | group opening inside closing =>
    ⟨.lparen, opening⟩ :: (inside.tokens ++ [⟨.rparen, closing⟩])
  | callNumber name pos value numberPos => [⟨.name name, pos⟩, ⟨.number value, numberPos⟩]
  | callGroup name pos opening inside closing =>
    ⟨.name name, pos⟩ :: ⟨.lparen, opening⟩ :: (inside.tokens ++ [⟨.rparen, closing⟩])
  | callLog10 name _ pos tenPos inside closing =>
    ⟨.name name, pos⟩ :: ⟨.number 10.0, tenPos⟩ :: ⟨.lparen, tenPos + 2⟩ ::
      (inside.tokens ++ [⟨.rparen, closing⟩])

/-- The tree of a derivation. Chains associate to the left and groups leave no node. -/
def tree {r : Rule} : Phrase r → r.Meaning
  | chain first more => more.tree first.tree
  | stop => fun left => left
  | step op _ pos next more => fun left => more.tree (.bin op left next.tree pos)
  | signs run body => negated run body.tree
  | number value pos => Expr.lit value pos
  | group _ inside _ => inside.tree
  | callNumber name pos value numberPos => Expr.call name (.lit value numberPos) pos
  | callGroup name pos _ inside _ => Expr.call name inside.tree pos
  | callLog10 name _ pos _ inside _ => Expr.call (name ++ "10") inside.tree pos

/-- How deep the groups in a derivation are nested. -/
def nesting {r : Rule} : Phrase r → Nat
  | chain first more => max first.nesting more.nesting
  | stop => 0
  | step _ _ _ next more => max next.nesting more.nesting
  | signs _ body => body.nesting
  | number _ _ => 0
  | group _ inside _ => inside.nesting + 1
  | callNumber _ _ _ _ => 0
  | callGroup _ _ _ inside _ => inside.nesting + 1
  | callLog10 _ _ _ _ inside _ => inside.nesting + 1

variable (op : Operator) (pos : Nat) (left right : Phrase (.level .operand))

theorem tokens_alone : left.alone.tokens = left.tokens := by
  show (left.tokens ++ []) ++ [] = left.tokens
  rw [List.append_nil, List.append_nil]

theorem nesting_alone : left.alone.nesting = left.nesting := by
  show max (max left.nesting 0) 0 = left.nesting
  rw [Nat.max_zero, Nat.max_zero]

theorem tokens_operation :
    (operation op pos left right).tokens = left.tokens ++ ⟨op.symbol, pos⟩ :: right.tokens := by
  cases op <;> simp [operation, Operator.tier, tokens] <;> rfl

theorem tree_operation :
    (operation op pos left right).tree = Expr.bin op left.tree right.tree pos := by
  cases op <;> rfl

theorem nesting_operation :
    (operation op pos left right).nesting = max left.nesting right.nesting := by
  cases op <;> simp [operation, Operator.tier, nesting] <;> rfl

end Phrase

/-! ## Where phrases end -/

/-- Whether a symbol behind a phrase of a level would be read as part of it. -/
def Level.goesOn : Level → Symbol → Bool
  | _, .lparen => true
  | .chain _, .star => true
  | .chain _, .slash => true
  | .chain .sum, .plus => true
  | .chain .sum, .minus => true
  | _, _ => false

/-- The level of the phrases that a rule completes. -/
def Rule.completes : Rule → Level
  | level l => l
  | tail tier => .chain tier

/-- The tokens do not begin with one that would be read as part of a phrase in front of them. -/
def Level.Ends (l : Level) : List Token → Prop
  | [] => True
  | t :: _ => l.goesOn t.symbol = false

namespace Level

@[simp] theorem ends_nil (l : Level) : l.Ends [] := trivial

@[simp] theorem ends_cons {l : Level} {t : Token} {rest : List Token} :
    l.Ends (t :: rest) ↔ l.goesOn t.symbol = false := Iff.rfl

theorem ends_rparen (l : Level) (pos : Nat) (rest : List Token) :
    l.Ends (⟨.rparen, pos⟩ :: rest) := by
  rcases l with ⟨⟨⟩⟩ | _ | _ <;> rfl

theorem not_ends_lparen (l : Level) (pos : Nat) (rest : List Token) :
    ¬ l.Ends (⟨.lparen, pos⟩ :: rest) := by
  rcases l with ⟨⟨⟩⟩ | _ | _ <;> simp [goesOn]

theorem Ends.operand {tier : Tier} {rest : List Token} (h : (chain tier).Ends rest) :
    tier.operand.Ends rest := by
  cases rest with
  | nil => trivial
  | cons t rest =>
    revert h
    cases tier <;> cases hsymbol : t.symbol <;> simp [goesOn, Tier.operand, hsymbol]

theorem Ends.primary {l : Level} {rest : List Token} (h : l.Ends rest) : primary.Ends rest := by
  cases rest with
  | nil => trivial
  | cons t rest =>
    revert h
    cases hsymbol : t.symbol <;> simp [goesOn, hsymbol]

theorem goesOn_symbol_operand (op : Operator) : op.tier.operand.goesOn op.symbol = false := by
  cases op <;> rfl

end Level

namespace Phrase

theorem ends_tokens_append {tier : Tier} (more : Phrase (.tail tier)) {rest : List Token}
    (h : (Level.chain tier).Ends rest) : tier.operand.Ends (more.tokens ++ rest) := by
  cases more with
  | stop => exact h.operand
  | step op onTier pos next more =>
    subst onTier
    simpa [tokens] using Level.goesOn_symbol_operand op

/-- A primary does not begin with a sign. -/
theorem isSign_head_primary (body : Phrase (.level .primary)) (rest : List Token) :
    ∀ t ∈ (body.tokens ++ rest).head?, t.isSign = false := by
  cases body <;> simp [tokens, Token.isSign]

/-! ## Unambiguity -/

theorem isSign_of_mem_runTokens {run : List (Sign × Nat)} {t : Token} (h : t ∈ runTokens run) :
    t.isSign = true := by
  obtain ⟨⟨sign, pos⟩, -, rfl⟩ := List.mem_map.mp h
  cases sign <;> rfl

theorem exists_runTokens {ts : List Token} (h : ∀ t ∈ ts, t.isSign = true) :
    ∃ run, ts = runTokens run := by
  induction ts with
  | nil => exact ⟨[], rfl⟩
  | cons t ts ih =>
    obtain ⟨run, rfl⟩ := ih fun t' ht' => h t' (List.mem_cons_of_mem t ht')
    have hsign := h t List.mem_cons_self
    obtain ⟨symbol, pos⟩ := t
    cases symbol with
    | plus => exact ⟨(.plus, pos) :: run, rfl⟩
    | minus => exact ⟨(.minus, pos) :: run, rfl⟩
    | _ => simp [Token.isSign] at hsign

theorem runTokens_injective : Function.Injective runTokens := by
  refine List.map_injective_iff.mpr fun left right h => ?_
  obtain ⟨left, pos⟩ := left
  obtain ⟨right, pos'⟩ := right
  simp only [Token.mk.injEq] at h
  obtain ⟨hsymbol, rfl⟩ := h
  cases left <;> cases right <;> simp_all [Sign.symbol]

theorem takeWhile_runTokens_append {run : List (Sign × Nat)} {rest : List Token}
    (h : ∀ t ∈ rest.head?, t.isSign = false) :
    (runTokens run ++ rest).takeWhile Token.isSign = runTokens run := by
  rw [List.takeWhile_append_of_pos fun t ht => isSign_of_mem_runTokens ht]
  cases rest with
  | nil => simp
  | cons t rest => simp [h t rfl]

theorem dropWhile_runTokens_append {run : List (Sign × Nat)} {rest : List Token}
    (h : ∀ t ∈ rest.head?, t.isSign = false) :
    (runTokens run ++ rest).dropWhile Token.isSign = rest := by
  rw [List.dropWhile_append_of_pos fun t ht => isSign_of_mem_runTokens ht]
  cases rest with
  | nil => simp
  | cons t rest => simp [h t rfl]

/-- The grammar is unambiguous: two phrases of one kind at the front of the same tokens are the
same, unless one of them is broken off where it could go on. -/
theorem eq_of_tokens_append {r : Rule} (D : Phrase r) : ∀ (D' : Phrase r) {rest rest' : List Token},
    D.tokens ++ rest = D'.tokens ++ rest' → r.completes.Ends rest → r.completes.Ends rest' →
      D = D' ∧ rest = rest' := by
  induction D with
  | chain first more ihFirst ihMore =>
    intro D' rest rest' h hrest hrest'
    cases D' with
    | chain first' more' =>
      simp only [tokens, List.append_assoc] at h
      obtain ⟨rfl, hmore⟩ := ihFirst first' h (more.ends_tokens_append hrest)
        (more'.ends_tokens_append hrest')
      obtain ⟨rfl, rfl⟩ := ihMore more' hmore hrest hrest'
      exact ⟨rfl, rfl⟩
  | stop =>
    intro D' rest rest' h hrest hrest'
    cases D' with
    | stop => exact ⟨rfl, h⟩
    | step op onTier pos next more =>
      rw [show rest = _ from h] at hrest
      subst onTier
      cases op <;>
        simp [tokens, Rule.completes, Level.goesOn, Operator.symbol, Operator.tier] at hrest
  | step op onTier pos next more ihNext ihMore =>
    intro D' rest rest' h hrest hrest'
    cases D' with
    | stop =>
      rw [← show _ = rest' from h] at hrest'
      subst onTier
      cases op <;>
        simp [tokens, Rule.completes, Level.goesOn, Operator.symbol, Operator.tier] at hrest'
    | step op' onTier' pos' next' more' =>
      simp only [tokens, List.cons_append, List.cons.injEq, Token.mk.injEq, List.append_assoc] at h
      obtain ⟨⟨hop, rfl⟩, h⟩ := h
      obtain rfl := Operator.symbol_injective hop
      obtain ⟨rfl, hmore⟩ := ihNext next' h (more.ends_tokens_append hrest)
        (more'.ends_tokens_append hrest')
      obtain ⟨rfl, rfl⟩ := ihMore more' hmore hrest hrest'
      exact ⟨rfl, rfl⟩
  | signs run body ih =>
    intro D' rest rest' h hrest hrest'
    cases D' with
    | signs run' body' =>
      simp only [tokens, List.append_assoc] at h
      have hrun := congrArg (List.takeWhile Token.isSign) h
      have hbody := congrArg (List.dropWhile Token.isSign) h
      rw [takeWhile_runTokens_append (body.isSign_head_primary rest),
        takeWhile_runTokens_append (body'.isSign_head_primary rest')] at hrun
      rw [dropWhile_runTokens_append (body.isSign_head_primary rest),
        dropWhile_runTokens_append (body'.isSign_head_primary rest')] at hbody
      obtain rfl := runTokens_injective hrun
      obtain ⟨rfl, rfl⟩ := ih body' hbody hrest.primary hrest'.primary
      exact ⟨rfl, rfl⟩
  | number value pos =>
    intro D' rest rest' h hrest hrest'
    cases D' <;> simp_all [tokens]
  | group opening inside closing ih =>
    intro D' rest rest' h hrest hrest'
    cases D' with
    | group opening' inside' closing' =>
      simp only [tokens, List.cons_append, List.cons.injEq, Token.mk.injEq, List.append_assoc] at h
      obtain ⟨⟨-, rfl⟩, h⟩ := h
      obtain ⟨rfl, hclosing⟩ := ih inside' h (Level.ends_rparen ..) (Level.ends_rparen ..)
      simp_all
    | _ => simp [tokens] at h
  | callNumber name pos value numberPos =>
    intro D' rest rest' h hrest hrest'
    cases D' with
    | callLog10 name' isLog' pos' tenPos' inside' closing' =>
      simp only [tokens, List.cons_append, List.nil_append, List.cons.injEq] at h
      rw [h.2.2] at hrest
      exact (Level.not_ends_lparen _ _ _ hrest).elim
    | _ => simp_all [tokens]
  | callGroup name pos opening inside closing ih =>
    intro D' rest rest' h hrest hrest'
    cases D' with
    | callGroup name' pos' opening' inside' closing' =>
      simp only [tokens, List.cons_append, List.cons.injEq, Token.mk.injEq, List.append_assoc,
        Symbol.name.injEq] at h
      obtain ⟨⟨rfl, rfl⟩, ⟨-, rfl⟩, h⟩ := h
      obtain ⟨rfl, hclosing⟩ := ih inside' h (Level.ends_rparen ..) (Level.ends_rparen ..)
      simp_all
    | _ => simp [tokens] at h
  | callLog10 name isLog pos tenPos inside closing ih =>
    intro D' rest rest' h hrest hrest'
    cases D' with
    | callNumber name' pos' value' numberPos' =>
      simp only [tokens, List.cons_append, List.nil_append, List.cons.injEq] at h
      rw [← h.2.2] at hrest'
      exact (Level.not_ends_lparen _ _ _ hrest').elim
    | callLog10 name' isLog' pos' tenPos' inside' closing' =>
      simp only [tokens, List.cons_append, List.cons.injEq, Token.mk.injEq, List.append_assoc,
        Symbol.name.injEq] at h
      obtain ⟨⟨rfl, rfl⟩, ⟨-, rfl⟩, -, h⟩ := h
      obtain ⟨rfl, hclosing⟩ := ih inside' h (Level.ends_rparen ..) (Level.ends_rparen ..)
      simp_all
    | _ => simp [tokens] at h

end Phrase

end Calculator
