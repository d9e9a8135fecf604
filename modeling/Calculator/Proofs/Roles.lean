import Calculator.Proofs.Parse

/-!
# What every token is for

The tokens of an expression fall into parts, each with a role of its own: a number, a name, the name
and the ten of `log10`, an operator, a run of signs, a parenthesis. What may stand where depends on
the part in front alone, and that is what tells an operator from a sign.

The tree has the nodes that the parts come to, in the order of the tokens: nothing is lost, invented
or moved.

* `Expr.nodes`: the nodes of a tree from left to right
* `Part`, `Part.tokens`, `Part.nodes`: the parts, and what they consist of and come to
* `leads`: the parts that may follow each other
* `parse_conserves`: the nodes of what is parsed are those of the parts of the tokens
-/

namespace Calculator

/-! ## The nodes of a tree -/

/-- What is at a node of a tree, apart from the trees below it. -/
inductive Head where
  | lit (value : Float)
  | neg
  | bin (op : Operator)
  | call (name : String)
  deriving DecidableEq

/-- A node of a tree and the byte at which the token it comes from starts. -/
structure Node where
  head : Head
  pos : Nat
  deriving DecidableEq

/-- The nodes of a tree from left to right: an operation between its operands, a negation and a call
in front of what they apply to. -/
def Expr.nodes : Expr → List Node
  | lit value pos => [⟨.lit value, pos⟩]
  | neg operand pos => ⟨.neg, pos⟩ :: operand.nodes
  | bin op left right pos => left.nodes ++ ⟨.bin op, pos⟩ :: right.nodes
  | call name arg pos => ⟨.call name, pos⟩ :: arg.nodes

/-! ## Parts -/

/-- A stretch of tokens with a role in an expression. -/
inductive Part where
  | number (value : Float) (pos : Nat)
  | name (word : String) (pos : Nat)
  | log10 (word : String) (isLog : Text.lowercase word.toList = ['l', 'o', 'g']) (pos tenPos : Nat)
  | operator (op : Operator) (pos : Nat)
  | signs (first : Sign × Nat) (more : List (Sign × Nat))
  | opening (pos : Nat)
  | closing (pos : Nat)

/-- What an expression that is broken off goes on with. Behind signs there are no more signs, and
behind a name there is a number or a group. -/
inductive Awaited where
  | operand
  | primary
  | argument
  | operator
  deriving DecidableEq

namespace Part

/-- The tokens of a part. The parenthesis of `log10` touches its ten. -/
def tokens : Part → List Token
  | number value pos => [⟨.number value, pos⟩]
  | name word pos => [⟨.name word, pos⟩]
  | log10 word _ pos tenPos =>
    [⟨.name word, pos⟩, ⟨.number 10.0, tenPos⟩, ⟨.lparen, tenPos + 2⟩]
  | operator op pos => [⟨op.symbol, pos⟩]
  | signs first more => runTokens (first :: more)
  | opening pos => [⟨.lparen, pos⟩]
  | closing pos => [⟨.rparen, pos⟩]

/-- The nodes that a part comes to: none for a parenthesis, and for a run of signs one negation,
where the run starts, if the number of minus signs is odd. -/
def nodes : Part → List Node
  | number value pos => [⟨.lit value, pos⟩]
  | name word pos => [⟨.call word, pos⟩]
  | log10 word _ pos _ => [⟨.call (word ++ "10"), pos⟩]
  | operator op pos => [⟨.bin op, pos⟩]
  | signs first more =>
    if (first :: more).countP (·.1 = .minus) % 2 = 1 then [⟨.neg, first.2⟩] else []
  | opening _ => []
  | closing _ => []

/-- Whether a part is what is awaited. -/
def fits : Part → Awaited → Bool
  | number _ _, awaited => awaited != .operator
  | opening _, awaited => awaited != .operator
  | name _ _, awaited => awaited == .operand || awaited == .primary
  | log10 _ _ _ _, awaited => awaited == .operand || awaited == .primary
  | signs _ _, awaited => awaited == .operand
  | operator _ _, awaited => awaited == .operator
  | closing _, awaited => awaited == .operator

/-- What is awaited behind a part. -/
def next : Part → Awaited
  | number _ _ => .operator
  | name _ _ => .argument
  | log10 _ _ _ _ => .operand
  | operator _ _ => .operand
  | signs _ _ => .primary
  | opening _ => .operand
  | closing _ => .operator

theorem nodes_sublist_tokens (p : Part) :
    (p.nodes.map Node.pos).Sublist (p.tokens.map Token.pos) := by
  cases p with
  | log10 word isLog pos tenPos => exact .cons_cons pos (List.nil_sublist _)
  | signs first more =>
    rw [nodes]
    split
    · exact .cons_cons first.2 (List.nil_sublist _)
    · exact List.nil_sublist _
  | opening pos => exact List.nil_sublist _
  | closing pos => exact List.nil_sublist _
  | _ => exact List.Sublist.refl _

end Part

/-- What is awaited behind parts that follow each other, if each is what is awaited. -/
def leads : Awaited → List Part → Option Awaited :=
  List.foldlM fun awaited p => if p.fits awaited then some p.next else none

theorem leads_cons {awaited : Awaited} {p : Part} (h : p.fits awaited = true) (parts : List Part) :
    leads awaited (p :: parts) = leads p.next parts := by
  rw [leads, List.foldlM_cons, if_pos h]
  rfl

theorem leads_append {awaited between : Awaited} {parts : List Part}
    (h : leads awaited parts = some between) (parts' : List Part) :
    leads awaited (parts ++ parts') = leads between parts' := by
  rw [leads, List.foldlM_append, ← leads, h]
  rfl

theorem nodes_sublist_tokens (parts : List Part) : ((parts.flatMap Part.nodes).map Node.pos).Sublist
    ((parts.flatMap Part.tokens).map Token.pos) := by
  induction parts with
  | nil => exact List.Sublist.refl _
  | cons p parts ih =>
    rw [List.flatMap_cons, List.flatMap_cons, List.map_append, List.map_append]
    exact p.nodes_sublist_tokens.append ih

/-! ## The parts of a phrase -/

/-- The part that a run of signs is, none if it is empty. -/
def runParts : List (Sign × Nat) → List Part
  | [] => []
  | first :: more => [.signs first more]

theorem tokens_runParts (run : List (Sign × Nat)) :
    (runParts run).flatMap Part.tokens = runTokens run := by
  cases run with
  | nil => rfl
  | cons first more => exact List.append_nil _

theorem nodes_negated (run : List (Sign × Nat)) (e : Expr) :
    (negated run e).nodes = (runParts run).flatMap Part.nodes ++ e.nodes := by
  cases run with
  | nil => rfl
  | cons first more =>
    rw [negated, runParts, List.flatMap_singleton, Part.nodes]
    split <;> rfl

/-- The trees that phrases stand for have the nodes of the parts, behind those of the tree on the
left. -/
def Rule.HasNodes (nodes : List Node) : (r : Rule) → r.Meaning → Prop
  | level _, e => e.nodes = nodes
  | tail _, after => ∀ left : Expr, (after left).nodes = left.nodes ++ nodes

/-- Whether a phrase may stand where something is awaited. -/
def Rule.fits : Rule → Awaited → Bool
  | level .primary, awaited => awaited == .operand || awaited == .primary
  | level _, awaited => awaited == .operand
  | tail _, awaited => awaited == .operator

namespace Phrase

/-- The parts of a phrase. -/
def parts {r : Rule} : Phrase r → List Part
  | chain first more => first.parts ++ more.parts
  | stop => []
  | step op _ pos next more => .operator op pos :: (next.parts ++ more.parts)
  | signs run body => runParts run ++ body.parts
  | number value pos => [.number value pos]
  | group opening inside closing => .opening opening :: (inside.parts ++ [.closing closing])
  | callNumber name pos value numberPos => [.name name pos, .number value numberPos]
  | callGroup name pos opening inside closing =>
    .name name pos :: .opening opening :: (inside.parts ++ [.closing closing])
  | callLog10 name isLog pos tenPos inside closing =>
    .log10 name isLog pos tenPos :: (inside.parts ++ [.closing closing])

theorem tokens_parts {r : Rule} (D : Phrase r) : D.parts.flatMap Part.tokens = D.tokens := by
  induction D with
  | signs run body ih => rw [parts, List.flatMap_append, tokens_runParts, ih, tokens]
  | _ => simp_all [parts, tokens, Part.tokens]

/-- The nodes of the tree are those of the parts, in the order of the parts. -/
theorem hasNodes_parts {r : Rule} (D : Phrase r) :
    r.HasNodes (D.parts.flatMap Part.nodes) D.tree := by
  induction D with
  | chain first more ihFirst ihMore =>
    show (more.tree first.tree).nodes = _
    rw [ihMore, parts, List.flatMap_append]
    exact congrArg (· ++ _) ihFirst
  | stop => exact fun left => (List.append_nil _).symm
  | step op onTier pos next more ihNext ihMore =>
    intro left
    have hnext : Expr.nodes next.tree = _ := ihNext
    show (more.tree (.bin op left next.tree pos)).nodes = _
    rw [ihMore, Expr.nodes, hnext, parts, List.flatMap_cons, List.flatMap_append]
    simp [Part.nodes]
  | signs run body ih =>
    have hbody : Expr.nodes body.tree = _ := ih
    show (negated run body.tree).nodes = _
    rw [nodes_negated, hbody, parts, List.flatMap_append]
  | number value pos => rfl
  | group opening inside closing ih =>
    show Expr.nodes inside.tree = _
    have hinside : Expr.nodes inside.tree = _ := ih
    rw [hinside]
    simp [parts, Part.nodes]
  | callNumber name pos value numberPos => rfl
  | callGroup name pos opening inside closing ih =>
    show (Expr.call name inside.tree pos).nodes = _
    have hinside : Expr.nodes inside.tree = _ := ih
    rw [Expr.nodes, hinside]
    simp [parts, Part.nodes]
  | callLog10 name isLog pos tenPos inside closing ih =>
    show (Expr.call (name ++ "10") inside.tree pos).nodes = _
    have hinside : Expr.nodes inside.tree = _ := ih
    rw [Expr.nodes, hinside]
    simp [parts, Part.nodes]

/-- The parts of a phrase follow each other, and an operator is awaited behind them. -/
theorem leads_parts {r : Rule} (D : Phrase r) :
    ∀ awaited, r.fits awaited = true → leads awaited D.parts = some .operator := by
  have hoperand : ∀ tier : Tier, (Rule.level tier.operand).fits .operand = true := by
    intro tier
    cases tier <;> rfl
  have hprimary : ∀ {awaited : Awaited}, (Rule.level .primary).fits awaited = true →
      (awaited != .operator) = true := by
    intro awaited h
    cases awaited with
    | operator => cases h
    | _ => rfl
  have hclosed : ∀ {inside : List Part} (closing : Nat), leads .operand inside = some .operator →
      leads .operand (inside ++ [.closing closing]) = some .operator :=
    fun closing h => leads_append h _
  induction D with
  | chain first more ihFirst ihMore =>
    intro awaited h
    obtain rfl : awaited = .operand := beq_iff_eq.mp h
    rw [parts, leads_append (ihFirst _ (hoperand _))]
    exact ihMore _ rfl
  | stop =>
    intro awaited h
    obtain rfl : awaited = .operator := beq_iff_eq.mp h
    rfl
  | step op onTier pos next more ihNext ihMore =>
    intro awaited h
    obtain rfl : awaited = .operator := beq_iff_eq.mp h
    rw [parts, leads_cons rfl, Part.next, leads_append (ihNext _ (hoperand _))]
    exact ihMore _ rfl
  | signs run body ih =>
    intro awaited h
    obtain rfl : awaited = .operand := beq_iff_eq.mp h
    cases run with
    | nil => exact ih _ rfl
    | cons first more =>
      rw [parts, runParts, List.singleton_append, leads_cons rfl]
      exact ih _ rfl
  | number value pos =>
    intro awaited h
    rw [parts, leads_cons (p := .number value pos) (hprimary h)]
    rfl
  | group opening inside closing ih =>
    intro awaited h
    rw [parts, leads_cons (p := .opening opening) (hprimary h)]
    exact hclosed closing (ih _ rfl)
  | callNumber name pos value numberPos =>
    intro awaited h
    rw [parts, leads_cons (p := .name name pos) h, leads_cons rfl]
    rfl
  | callGroup name pos opening inside closing ih =>
    intro awaited h
    rw [parts, leads_cons (p := .name name pos) h, leads_cons rfl]
    exact hclosed closing (ih _ rfl)
  | callLog10 name isLog pos tenPos inside closing ih =>
    intro awaited h
    rw [parts, leads_cons (p := .log10 name isLog pos tenPos) h]
    exact hclosed closing (ih _ rfl)

end Phrase

/-! ## What is parsed -/

/-- The tokens of an expression fall into parts that follow each other, and the nodes of its tree
are those of the parts in the same order. Each number is a literal and each name a call, but for the
ten that `log10` takes into its name; each operator is an operation, and each run of signs at most
one negation; there are no other nodes. If the tokens stand one behind the other, so do the
nodes. -/
theorem parse_conserves {tokens : List Token} {e : Expr} (h : parse tokens = .ok e) :
    (∃ parts : List Part, parts.flatMap Part.tokens = tokens ∧
      leads .operand parts = some .operator ∧ e.nodes = parts.flatMap Part.nodes) ∧
    (tokens.Pairwise (·.pos < ·.pos) → e.nodes.Pairwise (·.pos < ·.pos)) := by
  obtain ⟨D, rfl, -, rfl⟩ := exists_derivation_of_parse h
  have hnodes : Expr.nodes D.tree = _ := D.hasNodes_parts
  refine ⟨⟨D.parts, D.tokens_parts, D.leads_parts _ rfl, hnodes⟩, fun hpos => ?_⟩
  have hsublist := nodes_sublist_tokens D.parts
  rw [← hnodes, D.tokens_parts] at hsublist
  rw [← List.pairwise_map (f := Node.pos)]
  exact (List.pairwise_map.mpr hpos).sublist hsublist

/-- The expression `--+-2*LOG10(3)`. -/
theorem parse_conserves_signs : ∃ e, parse [⟨.minus, 0⟩, ⟨.minus, 1⟩, ⟨.plus, 2⟩, ⟨.minus, 3⟩,
    ⟨.number 2.0, 4⟩, ⟨.star, 5⟩, ⟨.name "LOG", 6⟩, ⟨.number 10.0, 9⟩, ⟨.lparen, 11⟩,
    ⟨.number 3.0, 12⟩, ⟨.rparen, 13⟩] = .ok e ∧
    e.nodes = [⟨.neg, 0⟩, ⟨.lit 2.0, 4⟩, ⟨.bin .mul, 5⟩, ⟨.call "LOG10", 6⟩, ⟨.lit 3.0, 12⟩] ∧
    e.nodes.Pairwise (·.pos < ·.pos) := by
  have hparse : parse [⟨.minus, 0⟩, ⟨.minus, 1⟩, ⟨.plus, 2⟩, ⟨.minus, 3⟩, ⟨.number 2.0, 4⟩,
      ⟨.star, 5⟩, ⟨.name "LOG", 6⟩, ⟨.number 10.0, 9⟩, ⟨.lparen, 11⟩, ⟨.number 3.0, 12⟩,
      ⟨.rparen, 13⟩] = .ok (.bin .mul (.neg (.lit 2.0 4) 0) (.call "LOG10" (.lit 3.0 12) 6) 5) := by
    decide +kernel
  exact ⟨_, hparse, rfl, (parse_conserves hparse).2 (by decide)⟩

end Calculator
