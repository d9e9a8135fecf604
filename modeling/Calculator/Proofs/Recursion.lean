import Calculator.Proofs.Value

/-!
# The value of a tree by recursion

A chain of operations is evaluated by walking its left spine, with the operations still to do in a
list. Plain recursion from node to node comes to the same, and so does the search for the first
operation that fails.

* `Expr.value`: the value of a tree by recursion
* `Expr.visits`: the subtrees in the order in which they are completed
* `Expr.rootFault?`: the failure of the operation at the root alone
* `Expr.eval_by_recursion`: the value of a tree, and which of several faults is reported
-/

namespace Calculator

namespace Expr

/-- The value of a tree by recursion: the left operand before the right one, which is evaluated only
if the left one has a value, and the argument of a call before its name is looked up. -/
def value : Expr → Except Fault Float
  | lit x _ => .ok x
  | neg operand _ => do
    let x ← operand.value
    return -x
  | bin op left right _ => do
    let x ← left.value
    let y ← right.value
    op.apply x y
  | call name arg _ => do
    let x ← arg.value
    Elementary.applyNamed name x

/-! ## Which fault is met first -/

/-- The subtrees of a tree, each behind those below it, and these from left to right. -/
def visits : Expr → List Expr
  | lit x pos => [lit x pos]
  | neg operand pos => operand.visits ++ [neg operand pos]
  | bin op left right pos => left.visits ++ right.visits ++ [bin op left right pos]
  | call name arg pos => arg.visits ++ [call name arg pos]

/-- The fault of the operation at the root. There is none unless the operands have values. -/
def rootFault? : Expr → Option Fault
  | lit _ _ => none
  | neg _ _ => none
  | bin op left right _ => match left.value, right.value with
    | .ok x, .ok y => failure? (op.apply x y)
    | _, _ => none
  | call name arg _ => match arg.value with
    | .ok x => failure? (Elementary.applyNamed name x)
    | .error _ => none

/-- The first operation that fails is the one for which the tree has no value. -/
theorem findSome?_visits (e : Expr) : e.visits.findSome? rootFault? = failure? e.value := by
  induction e with
  | lit x pos => rfl
  | neg operand pos ih =>
    rw [visits, List.findSome?_append, ih, value]
    cases operand.value <;> rfl
  | bin op left right pos ihLeft ihRight =>
    rw [visits, List.findSome?_append, List.findSome?_append, ihLeft, ihRight, value,
      List.findSome?_singleton, rootFault?]
    cases left.value with
    | error fault => rfl
    | ok x => cases right.value <;> rfl
  | call name arg pos ih =>
    rw [visits, List.findSome?_append, ih, value, List.findSome?_singleton, rootFault?]
    cases arg.value <;> rfl

theorem eval_eq_value (e : Expr) : e.eval = e.value := by
  induction e with
  | lit x pos => rfl
  | neg operand pos ih =>
    rw [eval_neg, ih, value]
    cases operand.value <;> rfl
  | bin op left right pos ihLeft ihRight => rw [eval_bin, ihLeft, ihRight, value]
  | call name arg pos ih => rw [eval_call, ih, value]

/-- Walking the chains of a tree gives its value by recursion. Of several operations that fail, the
fault of the one that is met first is reported. -/
theorem eval_by_recursion (e : Expr) :
    e.eval = e.value ∧
      ∀ fault, e.eval = .error fault ↔ e.visits.findSome? rootFault? = some fault := by
  refine ⟨e.eval_eq_value, fun fault => ?_⟩
  rw [e.eval_eq_value, findSome?_visits, failure?_eq_some_iff]

end Expr

end Calculator
