import Calculator.Expr.Eval
import Calculator.Proofs.Outcome

/-!
# The value of a tree

`Expr.eval` walks the left spine of a tree with the operations still to do as a list of steps. Here
it is from node to node.

* `Expr.evalThen_eq`: the steps come after the value
* `eval_neg`, `eval_bin`, `eval_call`: the value of a node from the values below it
* `Fault.IsOfValue`: the faults that a value can have
-/

namespace Calculator

namespace Expr

/-- The value with steps behind it is the value, and then the steps. -/
theorem evalThen_eq (e : Expr) : ∀ steps,
    e.evalThen steps = e.eval >>= steps.foldlM fun x step => step x := by
  induction e with
  | lit value pos => exact fun steps => rfl
  | neg operand pos ih =>
    intro steps
    show operand.evalThen [] >>= _ = (operand.evalThen [] >>= _) >>= _
    rw [bind_assoc]
    rfl
  | bin op left right pos ihLeft ihRight =>
    intro steps
    show left.evalThen (_ :: steps) = left.evalThen [_] >>= _
    rw [ihLeft, ihLeft, bind_assoc]
    refine congrArg _ (funext fun x => ?_)
    show (right.eval >>= op.apply x) >>= _ = ((right.eval >>= op.apply x) >>= pure) >>= _
    rw [bind_pure]
  | call name arg pos ih =>
    intro steps
    show arg.evalThen [] >>= _ = (arg.evalThen [] >>= _) >>= _
    rw [bind_assoc]
    refine congrArg _ (funext fun x => ?_)
    rw [bind_assoc]
    rfl

theorem eval_neg (operand : Expr) (pos : Nat) :
    (neg operand pos).eval = operand.eval.map fun x => -x := by
  show operand.eval >>= _ = _
  cases operand.eval <;> rfl

theorem eval_bin (op : Operator) (left right : Expr) (pos : Nat) :
    (bin op left right pos).eval = left.eval >>= fun x => right.eval >>= fun y => op.apply x y := by
  show left.evalThen [_] = _
  rw [evalThen_eq]
  refine congrArg _ (funext fun x => ?_)
  rw [List.foldlM_cons]
  exact bind_pure _

theorem eval_call (name : String) (arg : Expr) (pos : Nat) :
    (call name arg pos).eval = arg.eval >>= Elementary.applyNamed name := by
  show arg.eval >>= _ = _
  refine congrArg _ (funext fun x => ?_)
  exact bind_pure _

end Expr

/-! ## Faults of values -/

/-- The faults that only a value can have. -/
inductive Fault.IsOfValue : Fault → Prop
  | divisionByZero : IsOfValue .divisionByZero
  | unknownFunction (name : String) : IsOfValue (.unknownFunction name)
  | outsideDomain (f : Elementary) (x : Float) : IsOfValue (.outsideDomain f x)

theorem Operator.isOfValue_of_apply {op : Operator} {x y : Float} {fault : Fault}
    (h : op.apply x y = .error fault) : fault.IsOfValue := by
  cases op with
  | div =>
    rw [Operator.apply] at h
    split at h
    · cases h
      exact .divisionByZero
    · cases h
  | _ => cases h

theorem Elementary.isOfValue_of_applyNamed {name : String} {x : Float} {fault : Fault}
    (h : Elementary.applyNamed name x = .error fault) : fault.IsOfValue := by
  rw [Elementary.applyNamed] at h
  split at h
  · next f _ =>
    rw [Elementary.apply] at h
    split at h
    · cases h
    · cases h
      exact .outsideDomain f x
  · cases h
    exact .unknownFunction name

theorem Expr.isOfValue_of_eval {fault : Fault} (e : Expr) (h : e.eval = .error fault) :
    fault.IsOfValue := by
  induction e with
  | lit value pos => cases h
  | neg operand pos ih =>
    rw [eval_neg] at h
    exact ih (error_of_map_eq_error h)
  | bin op left right pos ihLeft ihRight =>
    rw [eval_bin] at h
    rcases error_of_bind_eq_error h with hleft | ⟨x, -, h⟩
    · exact ihLeft hleft
    rcases error_of_bind_eq_error h with hright | ⟨y, -, h⟩
    · exact ihRight hright
    exact Operator.isOfValue_of_apply h
  | call name arg pos ih =>
    rw [eval_call] at h
    rcases error_of_bind_eq_error h with harg | ⟨x, -, h⟩
    · exact ih harg
    exact Elementary.isOfValue_of_applyNamed h

end Calculator
