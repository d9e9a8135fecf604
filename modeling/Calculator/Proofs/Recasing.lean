import Calculator.Proofs.Flat
import Calculator.Proofs.Recasing.Cutting
import Calculator.Proofs.Roles

/-!
# Names in another case

Functions are called by their names in any case, but an `e` before a digit belongs to a number and
an `E` does not. Where an expression has a value this makes no difference: all its names are names
of functions, and none of these is a single `e`. So the expression is cut at the same places with
its names in another case, read in the same way and has the same value.

* `Phrase.exists_recased`: how tokens are read that differ in the case of names
* `Expr.isSome_named?_of_eval`: the names in a tree that has a value
* `Recased`: expressions that differ in the case of letters in names
* `evaluate_recased`: the value of an expression with its names in another case
-/

namespace Calculator

/-! ## How the tokens are read -/

theorem Token.eq_of_lowercase_eq {symbol : Symbol} (h : ∀ word, symbol ≠ .name word) {t : Token}
    {pos : Nat} (ht : t.lowercase = Token.lowercase ⟨symbol, pos⟩) : t = ⟨symbol, pos⟩ := by
  obtain ⟨symbol', pos'⟩ := t
  simp only [lowercase, Token.mk.injEq] at ht
  obtain ⟨hsymbol, rfl⟩ := ht
  congr 1
  cases symbol with
  | name word => exact absurd rfl (h word)
  | _ => cases symbol' <;> simp_all [Symbol.lowercase]

theorem Token.exists_name_of_lowercase_eq {t : Token} {word : String} {pos : Nat}
    (ht : t.lowercase = Token.lowercase ⟨.name word, pos⟩) : ∃ word', t = ⟨.name word', pos⟩ ∧
      Text.lowercase word'.toList = Text.lowercase word.toList := by
  obtain ⟨symbol', pos'⟩ := t
  simp only [lowercase, Token.mk.injEq] at ht
  obtain ⟨hsymbol, rfl⟩ := ht
  cases symbol' with
  | name word' =>
    refine ⟨word', rfl, ?_⟩
    simp only [Symbol.lowercase, Symbol.name.injEq] at hsymbol
    exact String.ofList_injective hsymbol
  | _ => simp [Symbol.lowercase] at hsymbol

theorem eq_runTokens_of_lowercase_eq {run : List (Sign × Nat)} {ts : List Token}
    (h : ts.map Token.lowercase = (runTokens run).map Token.lowercase) : ts = runTokens run := by
  induction run generalizing ts with
  | nil => exact List.map_eq_nil_iff.mp h
  | cons sign run ih =>
    obtain ⟨t, ts, rfl, ht, hts⟩ := List.map_eq_cons_iff.mp h
    have hname : ∀ word, sign.1.symbol ≠ .name word := by
      cases sign.1 <;> simp [Sign.symbol]
    rw [ih hts, Token.eq_of_lowercase_eq hname ht]
    rfl

theorem exists_group_of_lowercase_eq {ts inside : List Token} {opening closing : Nat}
    (h : ts.map Token.lowercase =
      (⟨.lparen, opening⟩ :: (inside ++ [⟨.rparen, closing⟩])).map Token.lowercase) :
    ∃ inside', ts = ⟨.lparen, opening⟩ :: (inside' ++ [⟨.rparen, closing⟩]) ∧
      inside'.map Token.lowercase = inside.map Token.lowercase := by
  obtain ⟨t, ts, rfl, ht, hts⟩ := List.map_eq_cons_iff.mp h
  rw [List.map_append] at hts
  obtain ⟨inside', last, rfl, hinside, hlast⟩ := List.map_eq_append_iff.mp hts
  obtain ⟨t', rest, rfl, ht', hrest⟩ := List.map_eq_cons_iff.mp hlast
  obtain rfl := List.map_eq_nil_iff.mp hrest
  rw [Token.eq_of_lowercase_eq (by simp) ht, Token.eq_of_lowercase_eq (by simp) ht']
  exact ⟨inside', rfl, hinside⟩

/-! ## Values -/

theorem Elementary.named?_congr {name name' : String}
    (h : Text.lowercase name.toList = Text.lowercase name'.toList) :
    named? name = named? name' := by
  rw [named?, named?, h]

/-- If the first tree has a value, so has the second one, and it is the same. -/
def Expr.KeepsValue (e e' : Expr) : Prop := ∀ x, e.eval = .ok x → e'.eval = .ok x

namespace Expr.KeepsValue

variable {e e' left left' right right' : Expr}

theorem negated (h : e.KeepsValue e') (run : List (Sign × Nat)) :
    (Calculator.negated run e).KeepsValue (Calculator.negated run e') := by
  intro y hy
  rw [eval_negated] at hy ⊢
  obtain ⟨x, hx, rfl⟩ := exists_of_map_eq_ok hy
  rw [h x hx]
  rfl

theorem bin (hleft : left.KeepsValue left') (hright : right.KeepsValue right') (op : Operator)
    (pos : Nat) : (Expr.bin op left right pos).KeepsValue (Expr.bin op left' right' pos) := by
  intro z hz
  rw [eval_bin] at hz ⊢
  obtain ⟨x, hx, hz⟩ := exists_of_bind_eq_ok hz
  obtain ⟨y, hy, hz⟩ := exists_of_bind_eq_ok hz
  rw [hleft x hx, hright y hy]
  exact hz

theorem call (h : e.KeepsValue e') {name name' : String}
    (hname : Text.lowercase name'.toList = Text.lowercase name.toList) (pos : Nat) :
    (Expr.call name e pos).KeepsValue (Expr.call name' e' pos) := by
  intro y hy
  rw [eval_call] at hy ⊢
  obtain ⟨x, hx, hy⟩ := exists_of_bind_eq_ok hy
  rw [h x hx]
  show Elementary.applyNamed name' x = .ok y
  rw [Elementary.applyNamed] at hy ⊢
  rw [Elementary.named?_congr hname]
  cases hnamed : Elementary.named? name with
  | none => simp [hnamed] at hy
  | some f => simpa [hnamed] using hy

end Expr.KeepsValue

/-- The second meaning keeps the values of the first one, of the tree on the left as well. -/
def Rule.KeepsValue : (r : Rule) → r.Meaning → r.Meaning → Prop
  | level _, e, e' => e.KeepsValue e'
  | tail _, after, after' => ∀ left left' : Expr, left.KeepsValue left' →
    (after left).KeepsValue (after' left')

/-- Tokens with names in another case have a derivation of the same shape. -/
theorem Phrase.exists_recased {r : Rule} (D : Phrase r) : ∀ {ts' : List Token},
    ts'.map Token.lowercase = D.tokens.map Token.lowercase →
      ∃ D' : Phrase r, D'.tokens = ts' ∧ D'.nesting = D.nesting ∧
        r.KeepsValue D.tree D'.tree := by
  induction D with
  | chain first more ihFirst ihMore =>
    intro ts' h
    rw [tokens, List.map_append] at h
    obtain ⟨ts, ts', rfl, hfirst, hmore⟩ := List.map_eq_append_iff.mp h
    obtain ⟨first', rfl, hnesting, hvalue⟩ := ihFirst hfirst
    obtain ⟨more', rfl, hnesting', hvalue'⟩ := ihMore hmore
    refine ⟨.chain first' more', rfl, ?_, hvalue' _ _ hvalue⟩
    rw [nesting, nesting, hnesting, hnesting']
  | stop =>
    intro ts' h
    obtain rfl := List.map_eq_nil_iff.mp h
    exact ⟨.stop, rfl, rfl, fun _ _ hleft => hleft⟩
  | step op onTier pos next more ihNext ihMore =>
    intro ts' h
    obtain ⟨t, ts', rfl, ht, h⟩ := List.map_eq_cons_iff.mp h
    rw [List.map_append] at h
    obtain ⟨ts, ts', rfl, hnext, hmore⟩ := List.map_eq_append_iff.mp h
    obtain ⟨next', rfl, hnesting, hvalue⟩ := ihNext hnext
    obtain ⟨more', rfl, hnesting', hvalue'⟩ := ihMore hmore
    rw [Token.eq_of_lowercase_eq (by cases op <;> simp [Operator.symbol]) ht]
    refine ⟨.step op onTier pos next' more', rfl, ?_, fun left left' hleft => ?_⟩
    · rw [nesting, nesting, hnesting, hnesting']
    · exact hvalue' _ _ (hleft.bin hvalue op pos)
  | signs run body ih =>
    intro ts' h
    rw [tokens, List.map_append] at h
    obtain ⟨ts, ts', rfl, hrun, hbody⟩ := List.map_eq_append_iff.mp h
    obtain ⟨body', rfl, hnesting, hvalue⟩ := ih hbody
    rw [eq_runTokens_of_lowercase_eq hrun]
    exact ⟨.signs run body', rfl, hnesting, Expr.KeepsValue.negated hvalue run⟩
  | number value pos =>
    intro ts' h
    obtain ⟨t, ts', rfl, ht, h⟩ := List.map_eq_cons_iff.mp h
    obtain rfl := List.map_eq_nil_iff.mp h
    rw [Token.eq_of_lowercase_eq (by simp) ht]
    exact ⟨.number value pos, rfl, rfl, fun _ hx => hx⟩
  | group opening inside closing ih =>
    intro ts' h
    obtain ⟨ts, rfl, hinside⟩ := exists_group_of_lowercase_eq h
    obtain ⟨inside', rfl, hnesting, hvalue⟩ := ih hinside
    exact ⟨.group opening inside' closing, rfl, congrArg (· + 1) hnesting, hvalue⟩
  | callNumber name pos value numberPos =>
    intro ts' h
    obtain ⟨t, ts', rfl, ht, h⟩ := List.map_eq_cons_iff.mp h
    obtain ⟨t', ts', rfl, ht', h⟩ := List.map_eq_cons_iff.mp h
    obtain rfl := List.map_eq_nil_iff.mp h
    obtain ⟨name', rfl, hname⟩ := Token.exists_name_of_lowercase_eq ht
    rw [Token.eq_of_lowercase_eq (by simp) ht']
    exact ⟨.callNumber name' pos value numberPos, rfl, rfl,
      @Expr.KeepsValue.call (.lit value numberPos) _ (fun _ hx => hx) _ _ hname pos⟩
  | callGroup name pos opening inside closing ih =>
    intro ts' h
    obtain ⟨t, ts', rfl, ht, h⟩ := List.map_eq_cons_iff.mp h
    obtain ⟨ts, rfl, hinside⟩ := exists_group_of_lowercase_eq h
    obtain ⟨name', rfl, hname⟩ := Token.exists_name_of_lowercase_eq ht
    obtain ⟨inside', rfl, hnesting, hvalue⟩ := ih hinside
    exact ⟨.callGroup name' pos opening inside' closing, rfl, congrArg (· + 1) hnesting,
      Expr.KeepsValue.call hvalue hname pos⟩
  | callLog10 name isLog pos tenPos inside closing ih =>
    intro ts' h
    obtain ⟨t, ts', rfl, ht, h⟩ := List.map_eq_cons_iff.mp h
    obtain ⟨t', ts', rfl, ht', h⟩ := List.map_eq_cons_iff.mp h
    obtain ⟨ts, rfl, hinside⟩ := exists_group_of_lowercase_eq h
    obtain ⟨name', rfl, hname⟩ := Token.exists_name_of_lowercase_eq ht
    obtain ⟨inside', rfl, hnesting, hvalue⟩ := ih hinside
    rw [Token.eq_of_lowercase_eq (by simp) ht']
    have hten : Text.lowercase (name' ++ "10").toList = Text.lowercase (name ++ "10").toList := by
      simp only [Text.lowercase] at hname ⊢
      rw [String.toList_append, String.toList_append, List.map_append, List.map_append, hname]
    exact ⟨.callLog10 name' (hname.trans isLog) pos tenPos inside' closing, rfl,
      congrArg (· + 1) hnesting, Expr.KeepsValue.call hvalue hten pos⟩

/-- Every name in a tree that has a value is the name of a function. -/
theorem Expr.isSome_named?_of_eval {e : Expr} {x : Float} (h : e.eval = .ok x) :
    ∀ node ∈ e.nodes, ∀ name, node.head = .call name → (Elementary.named? name).isSome = true := by
  induction e generalizing x with
  | lit value pos => simp [nodes]
  | neg operand pos ih =>
    rw [eval_neg] at h
    obtain ⟨y, hy, -⟩ := exists_of_map_eq_ok h
    exact List.forall_mem_cons.mpr ⟨by simp, ih hy⟩
  | bin op left right pos ihLeft ihRight =>
    rw [eval_bin] at h
    obtain ⟨y, hy, h⟩ := exists_of_bind_eq_ok h
    obtain ⟨z, hz, -⟩ := exists_of_bind_eq_ok h
    exact List.forall_mem_append.mpr
      ⟨ihLeft hy, List.forall_mem_cons.mpr ⟨by simp, ihRight hz⟩⟩
  | call name arg pos ih =>
    rw [eval_call] at h
    obtain ⟨y, hy, h⟩ := exists_of_bind_eq_ok h
    refine List.forall_mem_cons.mpr ⟨?_, ih hy⟩
    rintro _ ⟨⟩
    cases hnamed : Elementary.named? name with
    | some f => rfl
    | none => simp [Elementary.applyNamed, hnamed] at h

theorem Phrase.isSome_named?_of_eval {D : Derivation} {x : Float}
    (h : Expr.eval D.tree = .ok x) {word : String} {pos : Nat}
    (hmem : ⟨.name word, pos⟩ ∈ D.tokens) : (Elementary.named? word).isSome = true := by
  have hnodes : Expr.nodes D.tree = _ := D.hasNodes_parts
  rw [← D.tokens_parts, List.mem_flatMap] at hmem
  obtain ⟨p, hp, ht⟩ := hmem
  cases p with
  | name word' pos' =>
    obtain ⟨rfl, rfl⟩ : word = word' ∧ pos = pos' := by simpa [Part.tokens] using ht
    refine Expr.isSome_named?_of_eval h ⟨.call word, pos⟩ ?_ word rfl
    rw [hnodes]
    exact List.mem_flatMap_of_mem hp List.mem_cons_self
  | log10 word' isLog pos' tenPos =>
    obtain ⟨rfl, rfl⟩ : word = word' ∧ pos = pos' := by simpa [Part.tokens] using ht
    rw [Elementary.named?, isLog]
    rfl
  | signs first more =>
    have hsign := isSign_of_mem_runTokens ht
    simp [Token.isSign] at hsign
  | operator op pos' => cases op <;> simp [Part.tokens, Operator.symbol] at ht
  | _ => simp [Part.tokens] at ht

/-- The name of no function is a single `e`. -/
theorem Elementary.lowercase_ne_of_isSome_named? {name : String}
    (h : (named? name).isSome = true) : Text.lowercase name.toList ≠ ['e'] := by
  intro hlower
  rw [named?, hlower] at h
  cases h

/-! ## Expressions -/

/-- An expression, and the same with letters in another case, all of which lie in names of the first
one. Where a letter lies is told by the characters in front of it that are not white space, since
the expression is cut into tokens without white space. -/
structure Recased (expression expression' : String) : Prop where
  lowercase : Text.lowercase expression.toList = Text.lowercase expression'.toList
  inName : ∀ i, expression.toList[i]? ≠ expression'.toList[i]? →
    ∃ tokens, Source.screen expression >>= tokenize = .ok tokens ∧
      InName tokens (Source.strip (expression.toList.take i)).length

theorem Source.isForeign_of_toLower_eq {c c' : Char} (h : c.toLower = c'.toLower)
    (hc : isForeign c = false) : isForeign c' = false := by
  rcases eq_or_isAlpha_of_toLower_eq h with rfl | ⟨halpha, -⟩
  · exact hc
  apply isForeign_of_isAccepted
  have hmark : c ∉ marks := by
    intro hmem
    have hall : (marks.all fun d => !d.isAlpha) = true := by decide
    have hnot := List.all_eq_true.mp hall c hmem
    rw [halpha] at hnot
    cases hnot
  have hletter : c.toLower ∈ letters := by
    simpa [isForeign, isAccepted, isBlank_eq_false_of_isAlpha halpha, halpha, hmark,
      Lexeme.isDigit_eq_false_of_isAlpha halpha] using hc
  have haccepted := isNameLetter_of_toLower (h ▸ hletter)
  exact (Bool.and_eq_true_iff.mp haccepted).2

namespace Recased

variable {expression expression' : String} (h : Recased expression expression')

include h

theorem isForeign (haccepted : ∀ c ∈ expression.toList, Source.isForeign c = false) :
    ∀ c ∈ expression'.toList, Source.isForeign c = false := by
  intro c' hc'
  have hlower : c'.toLower ∈ Text.lowercase expression'.toList := List.mem_map_of_mem hc'
  rw [← h.lowercase] at hlower
  obtain ⟨c, hc, hsame⟩ := List.mem_map.mp hlower
  exact Source.isForeign_of_toLower_eq hsame (haccepted c hc)

theorem caseAt {tokens : List Token}
    (htokens : Source.screen expression >>= tokenize = .ok tokens) :
    CaseAt (InName tokens) 0 (Source.strip expression.toList)
      (Source.strip expression'.toList) := by
  refine .strip h.lowercase fun i hi => ?_
  obtain ⟨tokens', htokens', hname⟩ := h.inName i hi
  obtain rfl : tokens = tokens' := Except.ok.inj (htokens.symm.trans htokens')
  rwa [Nat.zero_add]

end Recased

/-- An expression that has a value has the same value with any letters of its names in another
case. -/
theorem evaluate_recased {expression expression' : String} {x : Float}
    (h : evaluate expression = .ok x) (hcase : Recased expression expression') :
    evaluate expression' = .ok x := by
  obtain ⟨source, tokens, e, hscreen, htokens, hparse, heval⟩ := exists_stages_of_evaluate h
  obtain ⟨D, rfl, hnesting, rfl⟩ := exists_derivation_of_parse hparse
  -- All names are names of functions, so there is no `e` that could become part of a number.
  have he : ∀ word pos, ⟨.name word, pos⟩ ∈ D.tokens → Text.lowercase word.toList ≠ ['e'] :=
    fun word pos hmem => Elementary.lowercase_ne_of_isSome_named?
      (Phrase.isSome_named?_of_eval heval hmem)
  have hplaces := hcase.caseAt (by rw [hscreen]; exact htokens)
  obtain ⟨haccepted, rfl⟩ := Source.screen_eq_ok_iff.mp hscreen
  rw [← @String.toList_ofList (Source.strip expression.toList),
    ← @String.toList_ofList (Source.strip expression'.toList)] at hplaces
  obtain ⟨tokens', htokens', hlower⟩ := tokenize_of_caseAt htokens he hplaces
  obtain ⟨D', rfl, hnesting', hvalue⟩ := D.exists_recased hlower
  rw [tokenize, String.toList_ofList] at htokens'
  rw [evaluate_of_tokens (hcase.isForeign haccepted) htokens', parse_tokens,
    D'.outcome_of_le (hnesting' ▸ hnesting)]
  exact hvalue x heval

/-- The expression `2*lo g10(1 0)`, in which white space stands in the name. -/
theorem evaluate_recased_log10 :
    evaluate "2*lo g10(1 0)" = .ok (2.0 * Float.log10 10.0) ∧
      Recased "2*lo g10(1 0)" "2*Lo G10(1 0)" ∧
      evaluate "2*Lo G10(1 0)" = .ok (2.0 * Float.log10 10.0) := by
  have hscreen : Source.screen "2*lo g10(1 0)" = .ok "2*log10(10)" := by decide +kernel
  have htokens : tokenize "2*log10(10)" = .ok [⟨.number 2.0, 0⟩, ⟨.star, 1⟩, ⟨.name "log", 2⟩,
      ⟨.number 10.0, 5⟩, ⟨.lparen, 7⟩, ⟨.number 10.0, 8⟩, ⟨.rparen, 10⟩] := by decide +kernel
  have hparse : parse [⟨.number 2.0, 0⟩, ⟨.star, 1⟩, ⟨.name "log", 2⟩, ⟨.number 10.0, 5⟩,
      ⟨.lparen, 7⟩, ⟨.number 10.0, 8⟩, ⟨.rparen, 10⟩] =
      .ok (.bin .mul (.lit 2.0 0) (.call "log10" (.lit 10.0 8) 2) 1) := by decide +kernel
  have hvalue : evaluate "2*lo g10(1 0)" = .ok (2.0 * Float.log10 10.0) := by
    rw [evaluate, hscreen]
    show (tokenize "2*log10(10)" >>= _) = _
    rw [htokens]
    show (parse _ >>= _) = _
    rw [hparse]
    rfl
  have hcase : Recased "2*lo g10(1 0)" "2*Lo G10(1 0)" := by
    refine ⟨by decide +kernel, fun i hi => ⟨_, by rw [hscreen]; exact htokens, "log", 2,
      by decide +kernel, ?_⟩⟩
    have hlt : i < 13 := by
      by_contra hle
      rw [List.getElem?_eq_none (by simpa using hle), List.getElem?_eq_none (by simpa using hle)]
        at hi
      exact hi rfl
    have hall : ∀ i < 13, "2*lo g10(1 0)".toList[i]? ≠ "2*Lo G10(1 0)".toList[i]? →
        2 ≤ (Source.strip ("2*lo g10(1 0)".toList.take i)).length ∧
          (Source.strip ("2*lo g10(1 0)".toList.take i)).length < 2 + "log".length := by
      decide +kernel
    exact hall i hlt hi
  exact ⟨hvalue, hcase, evaluate_recased hvalue hcase⟩

end Calculator
