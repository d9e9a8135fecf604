import Calculator.Proofs.Names
import Calculator.Proofs.Nesting
import Calculator.Proofs.NumberText
import Calculator.Proofs.Parse
import Calculator.Proofs.Places

/-!
# Trees and their texts

The text of a tree is read as that tree, but for its places and for signs in front of signs, which
are folded when they are read.

* `Expr.IsPrintable`: trees whose texts are expressions
* `Expr.foldSigns`: a tree without negations of negations
* `parse_text`: reading the text of a tree
-/

namespace Calculator

/-- The names that can be read back: words of letters, and the decimal logarithm with its base. -/
def IsWord (name : String) : Prop :=
  (name ≠ "" ∧ ∀ c ∈ name.toList, c.isAlpha = true) ∨
    Text.lowercase name.toList = ['l', 'o', 'g', '1', '0']

namespace Expr

/-- The numbers in a tree are finite and have no sign, and its functions have names. -/
def IsPrintable : Expr → Prop
  | lit value _ => Binary64.isFinite value = true ∧ Binary64.isNegative value = false
  | neg operand _ => operand.IsPrintable
  | bin _ left right _ => left.IsPrintable ∧ right.IsPrintable
  | call name arg _ => IsWord name ∧ arg.IsPrintable

/-! ## Folding signs -/

/-- A tree with a negation in front of it or without. -/
def negateIf (odd : Bool) (e : Expr) : Expr := if odd then neg e e.pos else e

/-- The tree with every run of negations folded: to a single one if their number is odd, and to none
if it is even. The run in front of the root starts with an odd number of negations or not. -/
def foldSignsFrom (odd : Bool) : Expr → Expr
  | lit value pos => (lit value pos).negateIf odd
  | neg operand _ => operand.foldSignsFrom (!odd)
  | bin op left right pos =>
    (bin op (left.foldSignsFrom false) (right.foldSignsFrom false) pos).negateIf odd
  | call name arg pos => (call name (arg.foldSignsFrom false) pos).negateIf odd

/-- The tree with every run of negations folded to one negation or none. -/
def foldSigns (e : Expr) : Expr := e.foldSignsFrom false

theorem forget_negateIf (odd : Bool) {e e' : Expr} (h : e.forget = e'.forget) :
    (e.negateIf odd).forget = (e'.negateIf odd).forget := by
  cases odd with
  | false => exact h
  | true => exact congrArg (neg · 0) h

/-- A run of minus signs is folded like a run of negations. -/
theorem forget_negated {run : List (Sign × Nat)} (h : ∀ sign ∈ run, sign.1 = .minus) (e : Expr) :
    (negated run e).forget = (e.negateIf (decide (run.length % 2 = 1))).forget := by
  have hcount : run.countP (·.1 = .minus) = run.length :=
    List.countP_eq_length.mpr fun sign hsign => by simp [h sign hsign]
  cases run with
  | nil => rfl
  | cons sign run =>
    rw [negated, hcount, negateIf]
    by_cases hodd : (sign :: run).length % 2 = 1
    · simp only [hodd, decide_true, if_true]
      rfl
    · simp only [hodd, decide_false, if_false, Bool.false_eq_true]

/-! ## Texts of operands -/

/-- From a place on, the text of a tree is cut into the tokens of an operand of the shape of the
folded tree, whatever is behind that no number and no name goes on with. -/
def ReadsBack (e : Expr) (pos : Nat) : Prop :=
  ∃ (run : List (Sign × Nat)) (body : Phrase (.level .primary)) (stop : Nat),
    (∀ sign ∈ run, sign.1 = .minus) ∧
    (∀ odd, (e.foldSignsFrom odd).forget =
      (negateIf (odd ^^ decide (run.length % 2 = 1)) body.tree).forget) ∧
    ∀ rest, (∀ d ∈ rest.head?, Lexeme.separates d = true) → tokensFrom pos (e.charsThen rest) =
      (tokensFrom stop rest).map ((Phrase.signs run body).tokens ++ ·)

theorem ReadsBack.of_primary {e : Expr} {pos : Nat} (body : Phrase (.level .primary)) (stop : Nat)
    (hshape : ∀ odd, (e.foldSignsFrom odd).forget = (negateIf odd body.tree).forget)
    (hcut : ∀ rest, (∀ d ∈ rest.head?, Lexeme.separates d = true) →
      tokensFrom pos (e.charsThen rest) = (tokensFrom stop rest).map (body.tokens ++ ·)) :
    e.ReadsBack pos := by
  refine ⟨[], body, stop, by simp, fun odd => ?_, hcut⟩
  rw [hshape, List.length_nil, Nat.zero_mod, decide_eq_false (by decide), Bool.xor_false]

/-- What is read back as an operand has the shape of the folded tree. -/
theorem ReadsBack.exists_operand {e : Expr} {pos : Nat} (h : e.ReadsBack pos) :
    ∃ (operand : Phrase (.level .operand)) (stop : Nat), operand.tree.forget = e.foldSigns.forget ∧
      ∀ rest, (∀ d ∈ rest.head?, Lexeme.separates d = true) →
        tokensFrom pos (e.charsThen rest) = (tokensFrom stop rest).map (operand.tokens ++ ·) := by
  obtain ⟨run, body, stop, hminus, hshape, hcut⟩ := h
  refine ⟨.signs run body, stop, ?_, hcut⟩
  rw [foldSigns, hshape false, Bool.false_xor]
  exact forget_negated hminus body.tree

theorem readsBack_lit {value : Float} (hfinite : Binary64.isFinite value = true)
    (hsign : Binary64.isNegative value = false) (place pos : Nat) :
    (lit value place).ReadsBack pos := by
  obtain ⟨hne, hchars, n, hn, hvalue⟩ := Number.exists_numeral_of_chars hfinite hsign
  refine .of_primary (.number value pos) (pos + (Number.chars value).length)
    (fun odd => forget_negateIf odd rfl) fun rest hrest => ?_
  rw [charsThen, tokensFrom_number hne (Lexeme.splitNumber_eq_self hchars) hn hrest, hvalue]
  rfl

theorem readsBack_neg {operand : Expr} {place pos : Nat} (h : operand.ReadsBack (pos + 1)) :
    (neg operand place).ReadsBack pos := by
  obtain ⟨run, body, stop, hminus, hshape, hcut⟩ := h
  refine ⟨(.minus, pos) :: run, body, stop, ?_, fun odd => ?_, fun rest hrest => ?_⟩
  · rw [List.forall_mem_cons]
    exact ⟨rfl, hminus⟩
  · have hsucc : decide ((run.length + 1) % 2 = 1) = !decide (run.length % 2 = 1) := by
      rcases Nat.mod_two_eq_zero_or_one run.length with h | h <;> simp [h, Nat.add_mod]
    rw [foldSignsFrom, hshape, List.length_cons, hsucc, Bool.xor_not, Bool.not_xor]
  · rw [charsThen, tokensFrom_of_mark? rfl, hcut rest hrest]
    cases tokensFrom stop rest <;> rfl

theorem readsBack_bin {op : Operator} {left right : Expr} {place pos : Nat}
    (hleft : ∀ pos, left.ReadsBack pos) (hright : ∀ pos, right.ReadsBack pos) :
    (bin op left right place).ReadsBack pos := by
  obtain ⟨L, stop, hL, hcutL⟩ := (hleft (pos + 1)).exists_operand
  obtain ⟨R, stop', hR, hcutR⟩ := (hright (stop + 1 + 1 + 1)).exists_operand
  refine .of_primary (.group pos (.operation op (stop + 1) L R) stop') (stop' + 1)
    (fun odd => forget_negateIf odd ?_) fun rest _ => ?_
  · show _ = (Phrase.operation op (stop + 1) L R).tree.forget
    rw [Phrase.tree_operation, forget, forget, hL, hR]
    rfl
  · have hop : Lexeme.mark? op.char = some op.symbol := by cases op <;> rfl
    rw [charsThen, tokensFrom_of_mark? rfl, hcutL _ (by simp; decide), tokensFrom_gap,
      tokensFrom_of_mark? hop, tokensFrom_gap, hcutR _ (by simp; decide), tokensFrom_of_mark? rfl]
    cases tokensFrom (stop' + 1) rest with
    | error fault => rfl
    | ok later => simp [Except.map, Phrase.tokens, Phrase.tokens_operation]

theorem readsBack_call {name : String} {arg : Expr} {place pos : Nat} (hname : IsWord name)
    (harg : ∀ pos, arg.ReadsBack pos) : (call name arg place).ReadsBack pos := by
  rcases hname with ⟨hne, halpha⟩ | hlog
  · obtain ⟨A, stop, hA, hcut⟩ := (harg (pos + name.toList.length + 1)).exists_operand
    refine .of_primary (.callGroup name pos (pos + name.toList.length) A.alone stop) (stop + 1)
      (fun odd => forget_negateIf odd (congrArg (call name · 0) hA.symm)) fun rest _ => ?_
    rw [charsThen, tokensFrom_name (by simpa using hne) halpha (by simp) (by simp),
      tokensFrom_of_mark? rfl, hcut _ (by simp; decide), tokensFrom_of_mark? rfl,
      String.ofList_toList]
    cases tokensFrom (stop + 1) rest with
    | error fault => rfl
    | ok later => simp [Except.map, Phrase.tokens, Phrase.tokens_alone]
  · obtain ⟨log, hsplit, hlower⟩ := exists_log_of_lowercase hlog
    have hten : String.ofList log ++ "10" = name := by
      rw [← @String.ofList_toList name, hsplit, String.ofList_append]
    obtain ⟨A, stop, hA, hcut⟩ := (harg (pos + log.length + 2 + 1)).exists_operand
    refine .of_primary (.callLog10 (String.ofList log) (by rwa [String.toList_ofList]) pos
      (pos + log.length) A.alone stop) (stop + 1) (fun odd => forget_negateIf odd ?_)
      fun rest _ => ?_
    · show _ = call (String.ofList log ++ "10") A.tree.forget 0
      rw [hten, hA]
      rfl
    · rw [charsThen, hsplit, List.append_assoc]
      show tokensFrom pos (log ++ '1' :: '0' :: '(' :: _) = _
      rw [tokensFrom_log10 hlower, tokensFrom_of_mark? rfl, hcut _ (by simp; decide),
        tokensFrom_of_mark? rfl]
      cases tokensFrom (stop + 1) rest with
      | error fault => rfl
      | ok later => simp [Except.map, Phrase.tokens, Phrase.tokens_alone]

theorem readsBack {e : Expr} (h : e.IsPrintable) : ∀ pos, e.ReadsBack pos := by
  induction e with
  | lit value place => exact fun pos => readsBack_lit h.1 h.2 place pos
  | neg operand place ih => exact fun pos => readsBack_neg (ih h (pos + 1))
  | bin op left right place ihLeft ihRight =>
    exact fun pos => readsBack_bin (ihLeft h.1) (ihRight h.2)
  | call name arg place ih => exact fun pos => readsBack_call h.1 (ih h.2)

end Expr

/-- The text of a printable tree that is nested no deeper than the parser may go is read as the
tree, with its runs of negations folded. -/
theorem parse_text {e : Expr} (h : e.IsPrintable) (hdepth : NestsWithin 128 e.text.toList) :
    ∃ tokens e', tokenize e.text = .ok tokens ∧ parse tokens = .ok e' ∧
      e'.forget = e.foldSigns.forget := by
  obtain ⟨operand, stop, hshape, hcut⟩ := (Expr.readsBack h 0).exists_operand
  have htokens : tokensFrom 0 e.text.toList = .ok operand.alone.tokens := by
    rw [Expr.text, String.toList_ofList, hcut [] (by simp), tokensFrom_nil, Phrase.tokens_alone]
    simp only [Except.map, List.append_nil]
  have hnesting := Phrase.nesting_le_of_nestsWithin htokens hdepth
  refine ⟨operand.alone.tokens, operand.alone.tree, htokens, ?_, hshape⟩
  rw [parse_tokens]
  exact Phrase.outcome_of_le hnesting

/-- The tree of `--log(10) * -Log10(0.5)`. -/
theorem parse_text_log10 :
    ∃ tokens e', tokenize "(--log(10) * -Log10(0.5))" = .ok tokens ∧ parse tokens = .ok e' ∧
      e'.forget = .bin .mul (.call "log" (.lit 10.0 0) 0)
        (.neg (.call "Log10" (.lit 0.5 0) 0) 0) 0 := by
  have hprintable : Expr.IsPrintable (.bin .mul (.neg (.neg (.call "log" (.lit 10.0 0) 0) 0) 0)
      (.neg (.call "Log10" (.lit 0.5 0) 0) 0) 0) :=
    ⟨⟨.inl ⟨by decide, by simp⟩, by decide +kernel, by decide +kernel⟩,
      ⟨.inr (by decide), by decide +kernel, by decide +kernel⟩⟩
  have h := parse_text hprintable (by decide +kernel)
  have htext : Expr.text (.bin .mul (.neg (.neg (.call "log" (.lit 10.0 0) 0) 0) 0)
      (.neg (.call "Log10" (.lit 0.5 0) 0) 0) 0) = "(--log(10) * -Log10(0.5))" := by decide +kernel
  rwa [htext] at h

end Calculator
