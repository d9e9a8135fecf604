import Calculator.Proofs.Grammar
import Calculator.Proofs.Lexing
import Calculator.Proofs.Value

/-!
# Trees without places

Neither the value of a tree nor the way in which its tokens are read depends on where they stand,
only on how far they are apart.

* `Expr.forget`: a tree without the places of its nodes
* `Phrase.shift`: a phrase further behind
-/

namespace Calculator

/-! ## Trees -/

/-- A tree with all its nodes at the start. -/
def Expr.forget : Expr → Expr
  | lit value _ => lit value 0
  | neg operand _ => neg operand.forget 0
  | bin op left right _ => bin op left.forget right.forget 0
  | call name arg _ => call name arg.forget 0

theorem Expr.eval_forget (e : Expr) : e.forget.eval = e.eval := by
  induction e with
  | lit value pos => rfl
  | neg operand pos ih => rw [forget, eval_neg, eval_neg, ih]
  | bin op left right pos ihLeft ihRight => rw [forget, eval_bin, eval_bin, ihLeft, ihRight]
  | call name arg pos ih => rw [forget, eval_call, eval_call, ih]

theorem Expr.eval_eq_of_forget_eq {e e' : Expr} (h : e.forget = e'.forget) : e.eval = e'.eval := by
  rw [← e.eval_forget, h, e'.eval_forget]

/-- The trees that phrases stand for are the same up to places. -/
def Rule.SameShape : (r : Rule) → r.Meaning → r.Meaning → Prop
  | level _, e, e' => e.forget = e'.forget
  | tail _, after, after' => ∀ left left' : Expr, left.forget = left'.forget →
    (after left).forget = (after' left').forget

/-- Folding a run of signs depends on the signs alone. -/
theorem forget_negated {run run' : List (Sign × Nat)} {e e' : Expr}
    (hrun : run.map Prod.fst = run'.map Prod.fst) (he : e.forget = e'.forget) :
    (negated run e).forget = (negated run' e').forget := by
  have hcount : run.countP (·.1 = .minus) = run'.countP (·.1 = .minus) := by
    have h := congrArg (List.countP (· = Sign.minus)) hrun
    rwa [List.countP_map, List.countP_map] at h
  cases run with
  | nil =>
    rw [List.map_nil, eq_comm, List.map_eq_nil_iff] at hrun
    subst hrun
    exact he
  | cons sign run =>
    cases run' with
    | nil => cases hrun
    | cons sign' run' =>
      rw [negated, negated, hcount]
      split
      · rw [Expr.forget, Expr.forget, he]
      · exact he

/-! ## Phrases -/

namespace Phrase

/-- A phrase with all its tokens `k` bytes further behind. -/
def shift (k : Nat) {r : Rule} : Phrase r → Phrase r
  | chain first more => .chain (first.shift k) (more.shift k)
  | stop => .stop
  | step op onTier pos next more => .step op onTier (pos + k) (next.shift k) (more.shift k)
  | signs run body => .signs (run.map fun sign => (sign.1, sign.2 + k)) (body.shift k)
  | number value pos => .number value (pos + k)
  | group opening inside closing => .group (opening + k) (inside.shift k) (closing + k)
  | callNumber name pos value numberPos => .callNumber name (pos + k) value (numberPos + k)
  | callGroup name pos opening inside closing =>
    .callGroup name (pos + k) (opening + k) (inside.shift k) (closing + k)
  | callLog10 name isLog pos tenPos inside closing =>
    .callLog10 name isLog (pos + k) (tenPos + k) (inside.shift k) (closing + k)

theorem tokens_shift (k : Nat) {r : Rule} (D : Phrase r) :
    (D.shift k).tokens = D.tokens.map (Token.shift k) := by
  induction D with
  | chain first more ihFirst ihMore => simp [shift, tokens, ihFirst, ihMore]
  | stop => rfl
  | step op onTier pos next more ihNext ihMore =>
    simp [shift, tokens, Token.shift, ihNext, ihMore]
  | signs run body ih => simp [shift, tokens, runTokens, Token.shift, Function.comp_def, ih]
  | number value pos => rfl
  | group opening inside closing ih => simp [shift, tokens, Token.shift, ih]
  | callNumber name pos value numberPos => rfl
  | callGroup name pos opening inside closing ih => simp [shift, tokens, Token.shift, ih]
  | callLog10 name isLog pos tenPos inside closing ih =>
    simp [shift, tokens, Token.shift, ih, Nat.add_right_comm]

theorem nesting_shift (k : Nat) {r : Rule} (D : Phrase r) : (D.shift k).nesting = D.nesting := by
  induction D with
  | chain first more ihFirst ihMore => rw [shift, nesting, nesting, ihFirst, ihMore]
  | step op onTier pos next more ihNext ihMore => rw [shift, nesting, nesting, ihNext, ihMore]
  | signs run body ih => rw [shift, nesting, nesting, ih]
  | group opening inside closing ih => rw [shift, nesting, nesting, ih]
  | callGroup name pos opening inside closing ih => rw [shift, nesting, nesting, ih]
  | callLog10 name isLog pos tenPos inside closing ih => rw [shift, nesting, nesting, ih]
  | _ => rfl

theorem sameShape_shift (k : Nat) {r : Rule} (D : Phrase r) :
    r.SameShape (D.shift k).tree D.tree := by
  induction D with
  | chain first more ihFirst ihMore => exact ihMore _ _ ihFirst
  | stop => exact fun _ _ h => h
  | step op onTier pos next more ihNext ihMore =>
    intro left left' h
    have hnext : (next.shift k).tree.forget = next.tree.forget := ihNext
    exact ihMore _ _ (by rw [Expr.forget, Expr.forget, h, hnext])
  | signs run body ih => exact forget_negated (by simp) ih
  | number value pos => rfl
  | group opening inside closing ih => exact ih
  | callNumber name pos value numberPos => rfl
  | callGroup name pos opening inside closing ih => exact congrArg (Expr.call name · 0) ih
  | callLog10 name isLog pos tenPos inside closing ih =>
    exact congrArg (Expr.call (name ++ "10") · 0) ih

theorem eval_tree_shift (k : Nat) (D : Derivation) : (D.shift k).tree.eval = D.tree.eval :=
  Expr.eval_eq_of_forget_eq (D.sameShape_shift k)

end Phrase

end Calculator
