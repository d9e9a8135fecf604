import Calculator.Evaluate
import Calculator.Proofs.Binary64.Sign
import Calculator.Proofs.Recursion

/-!
# Where NaN comes from

The logarithms and the inverse sine and cosine check their arguments, so they are never NaN. The
sine, the cosine and the tangent take every number, but at an infinity they have no value. If there
is no NaN among the literals of a tree and no operation between two operands makes one, that is the
only place where NaN can come from.

The values of the elementary functions are those of the platform. What is assumed of them is only
where they are numbers and where they are NaN, stated of any library of such functions.

* `Library`, `Library.eval`: a library, and the value of a tree with its functions
* `Library.Conforms`: where the values of a library are numbers
* `Library.Conforms.isNaN_applyNamed_iff`: the calls of a number that are NaN
* `Library.eval_nan_iff`: the trees that are NaN somewhere
-/

namespace Calculator

open Binary64 (isNaN isFinite isNegative)

/-! ## Subtrees -/

namespace Expr

theorem mem_visits_self (e : Expr) : e ∈ e.visits := by
  cases e <;> simp [visits]

theorem visits_subset {e s : Expr} (h : s ∈ e.visits) : s.visits ⊆ e.visits := by
  induction e with
  | lit x pos =>
    rw [List.mem_singleton.mp h]
    exact fun _ => id
  | neg operand pos ih =>
    rcases List.mem_append.mp h with hbelow | hroot
    · exact List.subset_append_of_subset_left _ (ih hbelow)
    · rw [List.mem_singleton.mp hroot]
      exact fun _ => id
  | bin op left right pos ihLeft ihRight =>
    rcases List.mem_append.mp h with hbelow | hroot
    · rcases List.mem_append.mp hbelow with hleft | hright
      · exact List.subset_append_of_subset_left _
          (List.subset_append_of_subset_left _ (ihLeft hleft))
      · exact List.subset_append_of_subset_left _
          (List.subset_append_of_subset_right _ (ihRight hright))
    · rw [List.mem_singleton.mp hroot]
      exact fun _ => id
  | call name arg pos ih =>
    rcases List.mem_append.mp h with hbelow | hroot
    · exact List.subset_append_of_subset_left _ (ih hbelow)
    · rw [List.mem_singleton.mp hroot]
      exact fun _ => id

theorem exists_mem_visits {e s : Expr} {p : Expr → Prop} (hs : s ∈ e.visits)
    (h : ∃ t ∈ s.visits, p t) : ∃ t ∈ e.visits, p t := by
  obtain ⟨t, ht, hp⟩ := h
  exact ⟨t, visits_subset hs ht, hp⟩

end Expr

/-! ## Libraries -/

/-- Whether a function repeats itself. It takes every number, but has no value at an infinity. -/
def Elementary.isPeriodic : Elementary → Bool
  | sin => true
  | cos => true
  | tan => true
  | _ => false

theorem Elementary.accepts_of_isPeriodic {f : Elementary} (h : f.isPeriodic = true) (x : Float) :
    f.accepts x = true := by
  cases f with
  | sin => rfl
  | cos => rfl
  | tan => rfl
  | _ => cases h

/-- The values of the elementary functions, as a mathematical library gives them. -/
structure Library where
  value : Elementary → Float → Float

namespace Library

/-- The library that the calculator runs with. -/
def platform : Library := ⟨Elementary.value⟩

section Values

variable (library : Library)

/-- The value of the function that a name calls. -/
def applyNamed (name : String) (x : Float) : Except Fault Float :=
  match Elementary.named? name with
  | some f => if f.accepts x then .ok (library.value f x) else .error (.outsideDomain f x)
  | none => .error (.unknownFunction name)

/-- The value of a tree. -/
def eval : Expr → Except Fault Float
  | .lit x _ => .ok x
  | .neg operand _ => do
    let x ← eval operand
    return -x
  | .bin op left right _ => do
    let x ← eval left
    let y ← eval right
    op.apply x y
  | .call name arg _ => do
    let x ← eval arg
    library.applyNamed name x

theorem eval_platform (e : Expr) : platform.eval e = e.eval := by
  rw [e.eval_eq_value]
  induction e with
  | lit x pos => rfl
  | neg operand pos ih => rw [eval, ih, Expr.value]
  | bin op left right pos ihLeft ihRight => rw [eval, ihLeft, ihRight, Expr.value]
  | call name arg pos ih =>
    rw [eval, ih, Expr.value]
    rfl

/-- The values of a library are numbers where they have to be: a periodic function is NaN at NaN and
at the infinities and nowhere else, and no other function is NaN in its domain. -/
structure Conforms : Prop where
  periodic : ∀ f : Elementary, f.isPeriodic = true →
    ∀ x, isNaN (library.value f x) = true ↔ isFinite x = false
  inverse : ∀ f ∈ [Elementary.asin, .acos],
    ∀ x : Float, -1.0 ≤ x → x ≤ 1.0 → isNaN (library.value f x) = false
  logarithm : ∀ f ∈ [Elementary.log10, .ln],
    ∀ x : Float, 0.0 < x → isNaN (library.value f x) = false
  everywhere : ∀ f ∈ [Elementary.atan, .exp],
    ∀ x, isNaN x = false → isNaN (library.value f x) = false

/-- The tree has a value, and this is NaN. -/
def YieldsNaN (e : Expr) : Prop := ∃ x, library.eval e = .ok x ∧ isNaN x = true

/-- The tree is a call of a periodic function, whose argument is an infinity. -/
inductive CallsAtInfinity : Expr → Prop
  | call {name : String} {arg : Expr} {pos : Nat} {f : Elementary} {x : Float}
    (hname : Elementary.named? name = some f) (hf : f.isPeriodic = true)
    (harg : library.eval arg = .ok x) (hnan : isNaN x = false) (hinfinite : isFinite x = false) :
    CallsAtInfinity (.call name arg pos)

/-- No literal of a tree is NaN, and no operation between two operands gives NaN. -/
structure IsNumeric (e : Expr) : Prop where
  lit : ∀ x pos, .lit x pos ∈ e.visits → isNaN x = false
  bin : ∀ op left right pos, .bin op left right pos ∈ e.visits →
    ¬ library.YieldsNaN (.bin op left right pos)

end Values

section Conforming

variable {library : Library}

theorem IsNumeric.of_mem {e s : Expr} (h : library.IsNumeric e) (hs : s ∈ e.visits) :
    library.IsNumeric s where
  lit x pos hmem := h.lit x pos (Expr.visits_subset hs hmem)
  bin op left right pos hmem := h.bin op left right pos (Expr.visits_subset hs hmem)

theorem isNumeric_lit {x : Float} (h : isNaN x = false) (pos : Nat) :
    library.IsNumeric (.lit x pos) where
  lit y pos' hmem := by
    cases List.mem_singleton.mp hmem
    exact h
  bin op left right pos' hmem := by cases List.mem_singleton.mp hmem

theorem IsNumeric.neg {operand : Expr} (h : library.IsNumeric operand) (pos : Nat) :
    library.IsNumeric (.neg operand pos) where
  lit x pos' hmem := h.lit x pos' (by simpa [Expr.visits] using hmem)
  bin op left right pos' hmem := h.bin op left right pos' (by simpa [Expr.visits] using hmem)

theorem IsNumeric.call {arg : Expr} (h : library.IsNumeric arg) (name : String) (pos : Nat) :
    library.IsNumeric (.call name arg pos) where
  lit x pos' hmem := h.lit x pos' (by simpa [Expr.visits] using hmem)
  bin op left right pos' hmem := h.bin op left right pos' (by simpa [Expr.visits] using hmem)

theorem Conforms.isNaN_value_iff (h : library.Conforms) {f : Elementary} {x : Float}
    (hnan : isNaN x = false) (haccepts : f.accepts x = true) :
    isNaN (library.value f x) = true ↔ f.isPeriodic = true ∧ isFinite x = false := by
  have hnumber : isNaN (library.value f x) = false → f.isPeriodic = false →
      (isNaN (library.value f x) = true ↔ f.isPeriodic = true ∧ isFinite x = false) := by
    intro hvalue hf
    simp [hvalue, hf]
  have hperiodic : f.isPeriodic = true →
      (isNaN (library.value f x) = true ↔ f.isPeriodic = true ∧ isFinite x = false) := by
    intro hf
    rw [h.periodic f hf, and_iff_right hf]
  cases f with
  | sin => exact hperiodic rfl
  | cos => exact hperiodic rfl
  | tan => exact hperiodic rfl
  | asin =>
    obtain ⟨hlow, hhigh⟩ := Bool.and_eq_true_iff.mp haccepts
    exact hnumber (h.inverse _ (by simp) x (of_decide_eq_true hlow) (of_decide_eq_true hhigh)) rfl
  | acos =>
    obtain ⟨hlow, hhigh⟩ := Bool.and_eq_true_iff.mp haccepts
    exact hnumber (h.inverse _ (by simp) x (of_decide_eq_true hlow) (of_decide_eq_true hhigh)) rfl
  | atan => exact hnumber (h.everywhere _ (by simp) x hnan) rfl
  | log10 => exact hnumber (h.logarithm _ (by simp) x (of_decide_eq_true haccepts)) rfl
  | ln => exact hnumber (h.logarithm _ (by simp) x (of_decide_eq_true haccepts)) rfl
  | exp => exact hnumber (h.everywhere _ (by simp) x hnan) rfl

/-- A call of a number is NaN if the name is that of a periodic function and the number is infinite,
and in no other case. -/
theorem Conforms.isNaN_applyNamed_iff (h : library.Conforms) {name : String} {x y : Float}
    (hnan : isNaN x = false) (hy : library.applyNamed name x = .ok y) :
    isNaN y = true ↔
      (∃ f, Elementary.named? name = some f ∧ f.isPeriodic = true) ∧ isFinite x = false := by
  rw [applyNamed] at hy
  split at hy
  · next f hname =>
    split at hy
    · next haccepts =>
      cases hy
      rw [h.isNaN_value_iff hnan haccepts, hname]
      simp
    · cases hy
  · cases hy

/-- A call of a periodic function at an infinity is NaN. -/
theorem Conforms.yieldsNaN_of_callsAtInfinity (h : library.Conforms) {e : Expr}
    (he : library.CallsAtInfinity e) : library.YieldsNaN e := by
  obtain ⟨hname, hf, harg, hnan, hinfinite⟩ := he
  next name arg pos f x =>
  refine ⟨library.value f x, ?_, (h.periodic f hf x).mpr hinfinite⟩
  rw [eval, harg]
  show library.applyNamed name x = _
  rw [applyNamed, hname]
  exact if_pos (Elementary.accepts_of_isPeriodic hf x)

/-- NaN is handed on from below, so there is a call that it comes from. -/
theorem Conforms.exists_callsAtInfinity (h : library.Conforms) (e : Expr)
    (hnumeric : library.IsNumeric e) (hnan : library.YieldsNaN e) :
    ∃ s ∈ e.visits, library.CallsAtInfinity s := by
  induction e with
  | lit x pos =>
    obtain ⟨y, hy, hnan⟩ := hnan
    cases hy
    rw [hnumeric.lit x pos (Expr.mem_visits_self _)] at hnan
    cases hnan
  | neg operand pos ih =>
    have hmem : operand ∈ (Expr.neg operand pos).visits :=
      List.mem_append_left _ operand.mem_visits_self
    obtain ⟨y, hy, hnan⟩ := hnan
    rw [eval] at hy
    obtain ⟨x, hx, hneg⟩ := exists_of_bind_eq_ok hy
    cases hneg
    have hoperand : isNaN x = true := by
      by_contra hnumber
      rw [Binary64.isNaN_neg (Bool.eq_false_iff.mpr hnumber)] at hnan
      cases hnan
    exact Expr.exists_mem_visits hmem (ih (hnumeric.of_mem hmem) ⟨x, hx, hoperand⟩)
  | bin op left right pos ihLeft ihRight =>
    exact absurd hnan (hnumeric.bin op left right pos (Expr.mem_visits_self _))
  | call name arg pos ih =>
    have hmem : arg ∈ (Expr.call name arg pos).visits := List.mem_append_left _ arg.mem_visits_self
    obtain ⟨y, hy, hnan⟩ := hnan
    rw [eval] at hy
    obtain ⟨x, hx, hcall⟩ := exists_of_bind_eq_ok hy
    cases hnumber : isNaN x with
    | true => exact Expr.exists_mem_visits hmem (ih (hnumeric.of_mem hmem) ⟨x, hx, hnumber⟩)
    | false =>
      obtain ⟨⟨f, hname, hf⟩, hinfinite⟩ := (h.isNaN_applyNamed_iff hnumber hcall).mp hnan
      exact ⟨_, Expr.mem_visits_self _, .call hname hf hx hnumber hinfinite⟩

end Conforming

/-- A call of a number is NaN exactly if it takes the sine, the cosine or the tangent of an
infinity. In a tree without NaN among its literals and among the results of operations between two
operands, there is NaN at some place exactly if there is such a call at some place, and without one
the tree has a value that is a number, or a fault. This is so with any library whose values are
numbers where they have to be, and the calculator evaluates with that of the platform. -/
theorem eval_nan_iff {library : Library} (h : library.Conforms) :
    (∀ e : Expr, platform.eval e = e.eval) ∧
    (∀ name x y, isNaN x = false → library.applyNamed name x = .ok y → (isNaN y = true ↔
      (∃ f, Elementary.named? name = some f ∧ f.isPeriodic = true) ∧ isFinite x = false)) ∧
    ∀ e, library.IsNumeric e →
      ((∃ s ∈ e.visits, library.YieldsNaN s) ↔ ∃ s ∈ e.visits, library.CallsAtInfinity s) ∧
      ((∀ s ∈ e.visits, ¬ library.CallsAtInfinity s) →
        ∀ x, library.eval e = .ok x → isNaN x = false) := by
  refine ⟨eval_platform, fun name x y hnan hy => h.isNaN_applyNamed_iff hnan hy,
    fun e hnumeric => ⟨⟨?_, ?_⟩, fun hno x hx => ?_⟩⟩
  · rintro ⟨s, hs, hnan⟩
    exact Expr.exists_mem_visits hs (h.exists_callsAtInfinity s (hnumeric.of_mem hs) hnan)
  · rintro ⟨s, hs, hcalls⟩
    exact ⟨s, hs, h.yieldsNaN_of_callsAtInfinity hcalls⟩
  · by_contra hnan
    obtain ⟨s, hs, hcalls⟩ :=
      h.exists_callsAtInfinity e hnumeric ⟨x, hx, Bool.eq_true_of_not_eq_false hnan⟩
    exact hno s hs hcalls

/-- A library that has the right values at zero, where a logarithm has it at one, and at the
infinities. -/
def coarse : Library where
  value
    | .sin, x => if isFinite x then 0.0 else 0.0 / 0.0
    | .cos, x => if isFinite x then 1.0 else 0.0 / 0.0
    | .tan, x => if isFinite x then 0.0 else 0.0 / 0.0
    | .asin, _ => 0.0
    | .acos, _ => 1.5707963267948966
    | .atan, x =>
      if isFinite x then 0.0
      else if isNegative x then -1.5707963267948966 else 1.5707963267948966
    | .log10, x => if isFinite x then 0.0 else Number.infinity
    | .ln, x => if isFinite x then 0.0 else Number.infinity
    | .exp, x => if isFinite x then 1.0 else if isNegative x then 0.0 else Number.infinity

theorem conforms_coarse : coarse.Conforms where
  periodic f hf x := by
    cases f <;> cases hf <;> simp only [coarse] <;> cases isFinite x <;> decide
  inverse f hf x _ _ := by
    rcases List.mem_pair.mp hf with rfl | rfl <;> simp only [coarse] <;> decide
  logarithm f hf x _ := by
    rcases List.mem_pair.mp hf with rfl | rfl <;> simp only [coarse] <;> cases isFinite x <;> decide
  everywhere f hf x _ := by
    rcases List.mem_pair.mp hf with rfl | rfl <;> simp only [coarse] <;> cases isFinite x <;>
      cases isNegative x <;> decide

/-- The sine of an infinity is NaN, which a sign in front of it does not change. The inverse tangent
of the logarithm of an infinity is a number. -/
theorem eval_nan_iff_sin :
    (tokenize "-sin(1e999)" >>= parse) =
      .ok (.neg (.call "sin" (.lit Number.infinity 5) 1) 0) ∧
    coarse.Conforms ∧
    isNaN (coarse.value .sin Number.infinity) = true ∧
    (∃ s ∈ (Expr.neg (.call "sin" (.lit Number.infinity 5) 1) 0).visits, coarse.YieldsNaN s) ∧
    ∀ x, coarse.eval (.call "atan" (.call "ln" (.lit Number.infinity 8) 5) 0) = .ok x →
      isNaN x = false := by
  have hinfinity : isNaN Number.infinity = false := by decide
  have hnumeric := fun pos => @isNumeric_lit coarse _ hinfinity pos
  obtain ⟨-, hcall, htree⟩ := eval_nan_iff conforms_coarse
  refine ⟨by decide +kernel, conforms_coarse, ?_, ?_, ?_⟩
  · exact (hcall "sin" Number.infinity _ hinfinity rfl).mpr ⟨⟨.sin, by decide, rfl⟩, by decide⟩
  · refine (htree _ (((hnumeric 5).call "sin" 1).neg 0)).1.mpr
      ⟨.call "sin" (.lit Number.infinity 5) 1, by simp [Expr.visits], ?_⟩
    exact .call (show Elementary.named? "sin" = some .sin by decide) rfl rfl hinfinity (by decide)
  · refine (htree _ (((hnumeric 8).call "ln" 5).call "atan" 0)).2 fun s hs hcalls => ?_
    obtain ⟨hname, hf, -, -, -⟩ := hcalls
    next name arg pos f x =>
    have hword : name = "ln" ∨ name = "atan" := by
      simp only [Expr.visits, List.cons_append, List.nil_append, List.mem_cons, reduceCtorEq,
        Expr.call.injEq, List.not_mem_nil, or_false, false_or] at hs
      exact hs.imp And.left And.left
    rcases hword with rfl | rfl
    · rw [show Elementary.named? "ln" = some .ln by decide] at hname
      cases hname
      cases hf
    · rw [show Elementary.named? "atan" = some .atan by decide] at hname
      cases hname
      cases hf

end Library

end Calculator
