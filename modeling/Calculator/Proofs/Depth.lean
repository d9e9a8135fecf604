import Calculator.Proofs.Parse
import Calculator.Proofs.Value

/-!
# How deep evaluation goes

Evaluating a tree opens an evaluation for each operand while its own stays open. The operands of a
chain of operations are evaluated one after the other, so the length of a chain does not count, nor
does that of a run of signs, which leaves at most one negation. What is left is how deep groups are
nested, and the parser puts a limit to that.

* `Expr.depth`: how many evaluations are open at a time
* `Expr.evalWithin`: evaluation that may open no more than a given number
* `Phrase.reaches`, `Phrase.exists_depth_eq`: the depth of trees that the grammar derives, and that
  it is met
* `parse_depth`: whatever has been parsed is evaluated within a fixed depth
-/

namespace Calculator

namespace Expr

/-! ## Chains -/

/-- The operand on the far left of a chain of operations, which is no operation itself. -/
def leftmost : Expr → Expr
  | bin _ left _ _ => left.leftmost
  | e => e

/-- The operations of a chain from left to right, each with the operand on its right. -/
def operations : Expr → List (Operator × Expr)
  | bin op left right _ => left.operations ++ [(op, right)]
  | _ => []

/-- The operands of a chain from left to right. A tree that is no operation is its own operand. -/
def links (e : Expr) : List Expr := e.leftmost :: e.operations.map Prod.snd

theorem links_bin (op : Operator) (left right : Expr) (pos : Nat) :
    (bin op left right pos).links = left.links ++ [right] := by
  simp [links, leftmost, operations]

theorem sizeOf_le_of_mem_links {e x : Expr} (h : x ∈ e.links) : sizeOf x ≤ sizeOf e := by
  induction e with
  | bin op left right pos ihLeft ihRight =>
    rw [links_bin, List.mem_append, List.mem_singleton] at h
    rw [bin.sizeOf_spec]
    rcases h with h | rfl
    · have hleft := ihLeft h
      omega
    · omega
  | _ =>
    obtain rfl := List.mem_singleton.mp h
    exact Nat.le_refl _

/-- The value of a chain is that of its first operand, and then its operations one by one. -/
theorem eval_eq_foldlM (e : Expr) : e.eval = e.leftmost.eval >>= fun x =>
    e.operations.foldlM (fun x next => next.2.eval >>= fun y => next.1.apply x y) x := by
  induction e with
  | bin op left right pos ihLeft ihRight =>
    rw [eval_bin, ihLeft, bind_assoc, leftmost, operations]
    refine congrArg _ (funext fun x => ?_)
    rw [List.foldlM_append]
    refine congrArg _ (funext fun y => ?_)
    rw [List.foldlM_cons]
    exact (bind_pure _).symm
  | _ => exact (bind_pure _).symm

/-! ## Depth -/

/-- How many evaluations are open at a time when a tree is evaluated, its own included. -/
def depth : Expr → Nat
  | lit _ _ => 1
  | neg operand _ => 1 + operand.depth
  | bin _ left right _ => 1 + ((left.links ++ [right]).attach.map fun x => x.1.depth).foldr max 0
  | call _ arg _ => 1 + arg.depth
termination_by e => sizeOf e
decreasing_by
  · simp only [neg.sizeOf_spec]
    omega
  · rw [bin.sizeOf_spec]
    rcases List.mem_append.mp x.2 with hx | hx
    · have hle := sizeOf_le_of_mem_links hx
      omega
    · rw [List.mem_singleton.mp hx]
      omega
  · simp only [call.sizeOf_spec]
    omega

theorem depth_lit (value : Float) (pos : Nat) : (lit value pos).depth = 1 := by rw [depth]

theorem depth_neg (operand : Expr) (pos : Nat) : (neg operand pos).depth = 1 + operand.depth := by
  rw [depth]

theorem depth_call (name : String) (arg : Expr) (pos : Nat) :
    (call name arg pos).depth = 1 + arg.depth := by
  rw [depth]

theorem depth_bin (op : Operator) (left right : Expr) (pos : Nat) :
    (bin op left right pos).depth =
      1 + ((bin op left right pos).links.map depth).foldr max 0 := by
  rw [depth, links_bin, List.attach_map_val]

theorem depth_lt_of_mem_links {op : Operator} {left right x : Expr} {pos : Nat}
    (h : x ∈ (bin op left right pos).links) : x.depth < (bin op left right pos).depth := by
  have hle : x.depth ≤ ((bin op left right pos).links.map depth).foldr max 0 :=
    List.le_max_of_le (List.mem_map_of_mem h) (Nat.le_refl _)
  rw [depth_bin]
  omega

theorem depth_le_of_mem_links {e x : Expr} (h : x ∈ e.links) : x.depth ≤ e.depth := by
  cases e with
  | bin op left right pos => exact Nat.le_of_lt (depth_lt_of_mem_links h)
  | _ => exact Nat.le_of_eq (congrArg depth (List.mem_singleton.mp h))

theorem depth_le_of_links {e : Expr} {n : Nat} (h : ∀ x ∈ e.links, x.depth ≤ n) :
    e.depth ≤ 1 + n := by
  cases e with
  | bin op left right pos =>
    rw [depth_bin]
    refine Nat.add_le_add_left (List.max_le_of_forall_le _ _ fun d hd => ?_) 1
    obtain ⟨x, hx, rfl⟩ := List.mem_map.mp hd
    exact h x hx
  | _ => exact Nat.le_add_left_of_le (h _ List.mem_cons_self)

theorem depth_negated_le (run : List (Sign × Nat)) (e : Expr) :
    (negated run e).depth ≤ 1 + e.depth := by
  unfold negated
  split
  · exact Nat.le_add_left ..
  · split
    · rw [depth_neg]
    · exact Nat.le_add_left ..

/-! ## Evaluation within a depth -/

/-- An outcome that was reached without running out of room. -/
abbrev reached (outcome : Except Fault Float) : ExceptT Fault Option Float := .mk (some outcome)

/-- The value of a tree if no more than `room` evaluations may be open at a time. Those of the
operands of a chain are opened one after the other. -/
def evalWithin : (room : Nat) → Expr → ExceptT Fault Option Float
  | 0, _ => .mk none
  | _ + 1, lit value _ => pure value
  | room + 1, neg operand _ => do
    let x ← evalWithin room operand
    return -x
  | room + 1, bin op left right pos => do
    let x ← evalWithin room (bin op left right pos).leftmost
    (bin op left right pos).operations.foldlM (fun x next => do
      let y ← evalWithin room next.2
      reached (next.1.apply x y)) x
  | room + 1, call name arg _ => do
    let x ← evalWithin room arg
    reached (Elementary.applyNamed name x)

theorem reached_bind (outcome : Except Fault Float) (f : Float → Except Fault Float) :
    (reached outcome >>= fun x => reached (f x)) = reached (outcome >>= f) := by
  cases outcome <;> rfl

theorem foldlM_reached {α : Type} (f : Float → α → Except Fault Float)
    (step : Float → α → ExceptT Fault Option Float) (nexts : List α)
    (h : ∀ next ∈ nexts, ∀ x, step x next = reached (f x next)) : ∀ x,
    nexts.foldlM step x = reached (nexts.foldlM f x) := by
  induction nexts with
  | nil => exact fun x => rfl
  | cons next nexts ih =>
    intro x
    rw [List.foldlM_cons, List.foldlM_cons, h next List.mem_cons_self, ← reached_bind]
    refine congrArg _ (funext fun y => ?_)
    exact ih (fun next' hnext' => h next' (List.mem_cons_of_mem _ hnext')) y

/-- There is room enough for a tree that is not deeper. -/
theorem evalWithin_of_depth_le (room : Nat) : ∀ e : Expr, e.depth ≤ room →
    e.evalWithin room = reached e.eval := by
  induction room with
  | zero =>
    intro e h
    cases e <;> rw [depth] at h <;> omega
  | succ room ih =>
    intro e h
    cases e with
    | lit value pos => rfl
    | neg operand pos =>
      rw [depth_neg] at h
      rw [evalWithin, ih operand (by omega), eval_neg]
      cases operand.eval <;> rfl
    | bin op left right pos =>
      have hlinks : ∀ x ∈ (bin op left right pos).links,
          x.evalWithin room = reached x.eval := by
        refine fun x hx => ih x ?_
        have hle := depth_lt_of_mem_links hx
        omega
      rw [evalWithin, hlinks _ List.mem_cons_self, (bin op left right pos).eval_eq_foldlM,
        ← reached_bind]
      refine congrArg _ (funext fun x => ?_)
      refine foldlM_reached _ _ _ (fun next hnext x => ?_) x
      rw [hlinks _ (List.mem_cons_of_mem _ (List.mem_map_of_mem hnext)), reached_bind]
    | call name arg pos =>
      rw [depth_call] at h
      rw [evalWithin, ih arg (by omega), eval_call, reached_bind]

end Expr

/-! ## The depth of what the grammar derives -/

/-- How deep the trees of a level can go without a group in them. -/
def Level.height : Level → Nat
  | chain .sum => 5
  | chain .product => 4
  | operand => 3
  | primary => 2

theorem Level.height_chain (tier : Tier) : (chain tier).height = 1 + tier.operand.height := by
  cases tier <;> rfl

/-- How deep phrases go at most with groups nested as given: a call of a group adds as much as all
four levels do. What follows the first operand of a chain makes it longer and not deeper. -/
def Rule.Reaches (nesting : Nat) : (r : Rule) → r.Meaning → Prop
  | level l, e => e.depth ≤ 4 * nesting + l.height
  | tail tier, after => ∀ left : Expr,
    (∀ x ∈ left.links, x.depth ≤ 4 * nesting + tier.operand.height) →
      ∀ x ∈ (after left).links, x.depth ≤ 4 * nesting + tier.operand.height

theorem Phrase.reaches {r : Rule} (D : Phrase r) : ∀ {nesting : Nat}, D.nesting ≤ nesting →
    r.Reaches nesting D.tree := by
  induction D with
  | @chain tier first more ihFirst ihMore =>
    intro nesting h
    obtain ⟨hfirst, hmore⟩ := Nat.max_le.mp h
    have hdepth : first.tree.depth ≤ 4 * nesting + tier.operand.height := ihFirst hfirst
    have hlinks := ihMore hmore first.tree fun x hx =>
      Nat.le_trans (Expr.depth_le_of_mem_links hx) hdepth
    show (more.tree first.tree).depth ≤ 4 * nesting + (Level.chain tier).height
    have hle := Expr.depth_le_of_links hlinks
    rw [Level.height_chain]
    omega
  | stop => exact fun _ left hleft => hleft
  | @step tier op onTier pos next more ihNext ihMore =>
    intro nesting h left hleft
    obtain ⟨hnext, hmore⟩ := Nat.max_le.mp h
    have hdepth : next.tree.depth ≤ 4 * nesting + tier.operand.height := ihNext hnext
    refine ihMore hmore _ ?_
    rw [Expr.links_bin, List.forall_mem_append]
    exact ⟨hleft, by simpa using hdepth⟩
  | signs run body ih =>
    intro nesting h
    have hdepth : body.tree.depth ≤ 4 * nesting + 2 := ih h
    have hle := Expr.depth_negated_le run body.tree
    show (negated run body.tree).depth ≤ 4 * nesting + 3
    omega
  | number value pos =>
    intro nesting h
    show (Expr.lit value pos).depth ≤ 4 * nesting + 2
    rw [Expr.depth_lit]
    omega
  | group opening inside closing ih =>
    intro nesting h
    have hinside : inside.nesting + 1 ≤ nesting := h
    have hdepth : inside.tree.depth ≤ 4 * (nesting - 1) + 5 := ih (by omega)
    show inside.tree.depth ≤ 4 * nesting + 2
    omega
  | callNumber name pos value numberPos =>
    intro nesting h
    show (Expr.call name (.lit value numberPos) pos).depth ≤ 4 * nesting + 2
    rw [Expr.depth_call, Expr.depth_lit]
    omega
  | callGroup name pos opening inside closing ih
  | callLog10 name isLog pos tenPos inside closing ih =>
    intro nesting h
    have hinside : inside.nesting + 1 ≤ nesting := h
    have hdepth : inside.tree.depth ≤ 4 * (nesting - 1) + 5 := ih (by omega)
    show (Expr.call _ inside.tree pos).depth ≤ 4 * nesting + 2
    rw [Expr.depth_call]
    omega

/-- A primary as the right operand of a sum, where it is negated in a product. -/
def Phrase.deepened (primary : Phrase (.level .primary)) : Derivation :=
  let one : Phrase (.level .operand) := .signs [] (.number 1.0 0)
  .chain (@chain .product one .stop) (.step .add rfl 1
    (@chain .product (.signs [(.minus, 2)] primary) (.step .mul rfl 3 one .stop)) .stop)

theorem Phrase.nesting_deepened (primary : Phrase (.level .primary)) :
    primary.deepened.nesting = primary.nesting := by
  show max (max 0 0) (max (max primary.nesting (max 0 0)) 0) = primary.nesting
  omega

theorem Phrase.le_depth_deepened (primary : Phrase (.level .primary)) :
    primary.tree.depth + 3 ≤ Expr.depth primary.deepened.tree := by
  let factor := Expr.neg primary.tree 2
  let product := Expr.bin .mul factor (.lit 1.0 0) 3
  have hproduct : product.depth < (Expr.bin .add (.lit 1.0 0) product 1).depth :=
    Expr.depth_lt_of_mem_links (by simp [Expr.links_bin])
  have hfactor : factor.depth < product.depth :=
    Expr.depth_lt_of_mem_links (by simp [factor, Expr.links, Expr.leftmost])
  rw [Expr.depth_neg] at hfactor
  show _ ≤ (Expr.bin .add (.lit 1.0 0) product 1).depth
  omega

/-- No smaller bound would do: for every depth of groups there are trees that reach it. -/
theorem Phrase.exists_depth_eq (nesting : Nat) :
    ∃ D : Derivation, D.nesting = nesting ∧ D.tree.depth = 4 * nesting + 5 := by
  suffices h : ∃ primary : Phrase (.level .primary),
      primary.nesting = nesting ∧ 4 * nesting + 2 ≤ primary.tree.depth by
    obtain ⟨primary, rfl, hdepth⟩ := h
    have hle := primary.le_depth_deepened
    have hreaches : Expr.depth primary.deepened.tree ≤ 4 * primary.nesting + 5 :=
      primary.deepened.reaches (Nat.le_of_eq primary.nesting_deepened)
    exact ⟨primary.deepened, primary.nesting_deepened, by omega⟩
  induction nesting with
  | zero =>
    refine ⟨.callNumber "sin" 0 1.0 3, rfl, ?_⟩
    show _ ≤ (Expr.call "sin" (.lit 1.0 3) 0).depth
    rw [Expr.depth_call, Expr.depth_lit]
  | succ nesting ih =>
    obtain ⟨primary, rfl, hdepth⟩ := ih
    have hle := primary.le_depth_deepened
    refine ⟨.callGroup "sin" 0 3 primary.deepened 4, congrArg (· + 1) primary.nesting_deepened, ?_⟩
    show _ ≤ (Expr.call "sin" primary.deepened.tree 0).depth
    rw [Expr.depth_call]
    omega

/-! ## The depth of what is parsed -/

/-- Whatever the parser accepts, however many tokens it has, is evaluated with at most 517
evaluations open at a time. -/
theorem parse_depth {tokens : List Token} {e : Expr} (h : parse tokens = .ok e) :
    e.depth ≤ 4 * (maxNesting + 1) + 1 ∧ 4 * (maxNesting + 1) + 1 = 517 ∧
      e.evalWithin 517 = Expr.reached e.eval := by
  obtain ⟨D, -, hnesting, rfl⟩ := exists_derivation_of_parse h
  have hdepth : D.tree.depth ≤ 4 * maxNesting + 5 := D.reaches hnesting
  exact ⟨by omega, rfl, Expr.evalWithin_of_depth_le 517 _ hdepth⟩

/-- The tokens of `1-2-sqrt(0-4)`. -/
theorem parse_depth_sqrt :
    let e : Expr := .bin .sub (.bin .sub (.lit 1.0 0) (.lit 2.0 2) 1)
      (.call "sqrt" (.bin .sub (.lit 0.0 9) (.lit 4.0 11) 10) 4) 3
    parse [⟨.number 1.0, 0⟩, ⟨.minus, 1⟩, ⟨.number 2.0, 2⟩, ⟨.minus, 3⟩, ⟨.name "sqrt", 4⟩,
      ⟨.lparen, 8⟩, ⟨.number 0.0, 9⟩, ⟨.minus, 10⟩, ⟨.number 4.0, 11⟩, ⟨.rparen, 12⟩] = .ok e ∧
    e.depth ≤ 517 ∧ e.evalWithin 517 = Expr.reached e.eval := by
  intro e
  have h : parse [⟨.number 1.0, 0⟩, ⟨.minus, 1⟩, ⟨.number 2.0, 2⟩, ⟨.minus, 3⟩, ⟨.name "sqrt", 4⟩,
      ⟨.lparen, 8⟩, ⟨.number 0.0, 9⟩, ⟨.minus, 10⟩, ⟨.number 4.0, 11⟩, ⟨.rparen, 12⟩] = .ok e := by
    decide +kernel
  exact ⟨h, (parse_depth h).1, (parse_depth h).2.2⟩

end Calculator
