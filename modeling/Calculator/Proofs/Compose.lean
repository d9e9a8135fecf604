import Calculator.Evaluate
import Calculator.Proofs.Names
import Calculator.Proofs.Nesting
import Calculator.Proofs.Parse
import Calculator.Proofs.Places

/-!
# Expressions put together

The value of an expression that is put together from others in parentheses comes from their values
alone, and the first fault in them is its fault.

* `IsReadable`: an expression with which only evaluation can go wrong
* `Spells`: a text whose tokens a derivation derives
* `evaluate_composed`: operations, negation and calls of expressions in parentheses
-/

namespace Calculator

/-! ## Screening -/

theorem Source.screen_eq_ok_iff {expression source : String} :
    screen expression = .ok source ↔
      (∀ c ∈ expression.toList, isForeign c = false) ∧
        source = String.ofList (strip expression.toList) := by
  unfold screen
  split
  · next c index hfind =>
    have hmem := List.mem_of_find?_eq_some hfind
    have hforeign := List.find?_some hfind
    rw [List.mem_zipIdx_iff_getElem?] at hmem
    refine iff_of_false (by simp) fun h => ?_
    have haccepted := h.1 c (List.mem_of_getElem? hmem)
    rw [haccepted] at hforeign
    cases hforeign
  · next hfind =>
    have haccepted : ∀ c ∈ expression.toList, isForeign c = false := by
      intro c hc
      obtain ⟨index, hindex⟩ := List.mem_iff_getElem?.mp hc
      simpa using List.find?_eq_none.mp hfind (c, index) (List.mem_zipIdx_iff_getElem?.mpr hindex)
    constructor
    · intro h
      exact ⟨haccepted, (Except.ok.inj h).symm⟩
    · rintro ⟨-, rfl⟩
      rfl

theorem Source.isForeign_of_isAccepted {c : Char} (h : isAccepted c = true) :
    isForeign c = false := by
  rw [isForeign, h, Bool.not_true, Bool.and_false]

/-- The first foreign character is found at its index among the characters. -/
theorem Source.screen_of_foreign {expression : String} {front rest : List Char} {c : Char}
    (h : expression.toList = front ++ c :: rest) (hfront : ∀ b ∈ front, isForeign b = false)
    (hc : isForeign c = true) :
    screen expression = .error (.foreignCharacter c front.length) := by
  have hnone : front.zipIdx.find? (fun entry => isForeign entry.1) = none := by
    rw [List.find?_eq_none]
    intro entry hentry
    rw [hfront _ (List.fst_mem_of_mem_zipIdx hentry)]
    decide
  have hfind : expression.toList.zipIdx.find? (fun entry => isForeign entry.1) =
      some (c, front.length) := by
    rw [h, List.zipIdx_append, List.find?_append, hnone, Option.none_or, Nat.zero_add]
    exact List.find?_cons_of_pos hc
  rw [screen, hfind]

/-- An expression that is screened, cut into tokens and parsed without a fault. -/
def IsReadable (expression : String) : Prop :=
  ∃ source tokens e, Source.screen expression = .ok source ∧ tokenize source = .ok tokens ∧
    parse tokens = .ok e

/-- All stages succeed on an expression that has a value. -/
theorem exists_stages_of_evaluate {expression : String} {x : Float}
    (h : evaluate expression = .ok x) : ∃ source tokens e,
      Source.screen expression = .ok source ∧ tokenize source = .ok tokens ∧
      parse tokens = .ok e ∧ e.eval = .ok x := by
  rw [evaluate] at h
  obtain ⟨source, hscreen, h⟩ := exists_of_bind_eq_ok h
  obtain ⟨tokens, htokens, h⟩ := exists_of_bind_eq_ok h
  obtain ⟨e, hparse, heval⟩ := exists_of_bind_eq_ok h
  exact ⟨source, tokens, e, hscreen, htokens, hparse, heval⟩

/-- What becomes of an expression with nothing foreign in it is decided by its tokens. -/
theorem evaluate_of_tokens {expression : String} {ts : List Token}
    (haccepted : ∀ c ∈ expression.toList, Source.isForeign c = false)
    (htokens : tokensFrom 0 (Source.strip expression.toList) = .ok ts) :
    evaluate expression = parse ts >>= Expr.eval := by
  rw [evaluate, Source.screen_eq_ok_iff.mpr ⟨haccepted, rfl⟩]
  show (tokenize _ >>= _) = _
  rw [tokenize, String.toList_ofList, htokens]
  rfl

/-- A text has nothing foreign in it, and without its white space it is cut into the tokens of the
derivation. -/
structure Spells (cs : List Char) (D : Derivation) : Prop where
  accepted : ∀ c ∈ cs, Source.isForeign c = false
  cut : tokensFrom 0 (Source.strip cs) = .ok D.tokens

theorem IsReadable.exists_spells {expression : String} (h : IsReadable expression) :
    ∃ D, Spells expression.toList D ∧ D.nesting ≤ maxNesting := by
  obtain ⟨source, tokens, e, hscreen, htokens, hparse⟩ := h
  obtain ⟨haccepted, rfl⟩ := Source.screen_eq_ok_iff.mp hscreen
  obtain ⟨D, rfl, hnesting, -⟩ := exists_derivation_of_parse hparse
  rw [tokenize, String.toList_ofList] at htokens
  exact ⟨D, ⟨haccepted, htokens⟩, hnesting⟩

namespace Spells

variable {D : Derivation}

theorem evaluate {expression : String} (h : Spells expression.toList D)
    (hnesting : D.nesting ≤ maxNesting) : Calculator.evaluate expression = D.tree.eval := by
  rw [evaluate_of_tokens h.accepted h.cut, parse_tokens, D.outcome_of_le hnesting]
  rfl

theorem nesting_le {cs : List Char} (h : Spells cs D) {depth : Nat}
    (hdepth : NestsWithin depth cs) : D.nesting ≤ depth := by
  rw [← nestsWithin_parens_iff, ← parens_strip, nestsWithin_parens_iff] at hdepth
  exact Phrase.nesting_le_of_nestsWithin h.cut hdepth

end Spells

/-! ## Expressions in parentheses -/

theorem strip_mark {c : Char} (h : Text.isBlank c = false) (cs : List Char) :
    Source.strip (c :: cs) = c :: Source.strip cs := by
  simp [Source.strip, h]

theorem isBlank_eq_false_of_graphic {c : Char} (hlow : 0x20 < c.toNat) (hhigh : c.toNat < 0x7F) :
    Text.isBlank c = false := by
  simp only [Text.isBlank, Text.blankRanges, List.any_cons, List.any_nil, Bool.or_false,
    Bool.or_eq_false_iff, decide_eq_false_iff_not]
  omega

theorem isBlank_eq_false_of_isDigit {c : Char} (h : c.isDigit = true) :
    Text.isBlank c = false := by
  obtain ⟨hlow, hhigh⟩ := toNat_of_isDigit h
  exact isBlank_eq_false_of_graphic (by omega) (by omega)

theorem isBlank_eq_false_of_isAlpha {c : Char} (h : c.isAlpha = true) :
    Text.isBlank c = false := by
  obtain ⟨hlow, hhigh⟩ := toNat_of_isAlpha h
  exact isBlank_eq_false_of_graphic (by omega) (by omega)

theorem isBlank_eq_false_of_isAccepted {c : Char} (h : Source.isAccepted c = true) :
    Text.isBlank c = false := by
  simp only [Source.isAccepted, Bool.or_eq_true, Bool.and_eq_true] at h
  rcases h with (hdigit | hmark) | ⟨halpha, -⟩
  · exact isBlank_eq_false_of_isDigit hdigit
  · have hall : (Source.marks.all fun d => !Text.isBlank d) = true := by decide
    simpa using List.all_eq_true.mp hall c (by simpa using hmark)
  · exact isBlank_eq_false_of_isAlpha halpha

theorem strip_eq_self {cs : List Char} (h : ∀ c ∈ cs, Source.isAccepted c = true) :
    Source.strip cs = cs := by
  rw [Source.strip, List.filter_eq_self]
  exact fun c hc => by simp [isBlank_eq_false_of_isAccepted (h c hc)]

theorem strip_append (cs ds : List Char) :
    Source.strip (cs ++ ds) = Source.strip cs ++ Source.strip ds :=
  List.filter_append ..

/-- A group with its `(` at `pos`, around what a text of the given length spells. -/
def Phrase.grouped (pos length : Nat) (D : Derivation) : Phrase (.level .primary) :=
  .group pos (D.shift (pos + 1)) (pos + 1 + length)

theorem Phrase.nesting_grouped (pos length : Nat) (D : Derivation) :
    (D.grouped pos length).nesting = D.nesting + 1 := by
  rw [grouped, nesting, nesting_shift]

theorem Phrase.eval_tree_grouped (pos length : Nat) (D : Derivation) :
    Expr.eval (D.grouped pos length).tree = D.tree.eval :=
  D.eval_tree_shift (pos + 1)

theorem tokensFrom_grouped {cs : List Char} {D : Derivation} (h : tokensFrom 0 cs = .ok D.tokens)
    (pos : Nat) (rest : List Char) :
    tokensFrom pos ('(' :: (cs ++ ')' :: rest)) =
      (tokensFrom (pos + 1 + cs.length + 1) rest).map ((D.grouped pos cs.length).tokens ++ ·) := by
  have hinside := tokensFrom_add (pos + 1) 0 cs _ h
  rw [Nat.zero_add, ← Phrase.tokens_shift] at hinside
  have hmark : ∀ d ∈ (')' :: rest).head?, Lexeme.separates d = true ∧ Lexeme.isGap d = false := by
    simp
    decide
  rw [tokensFrom_of_mark? rfl, tokensFrom_append hmark, hinside, tokensFrom_of_mark? rfl]
  show ((tokensFrom (pos + 1 + cs.length + 1) rest).map _ |>.map _).map _ = _
  cases tokensFrom (pos + 1 + cs.length + 1) rest with
  | error fault => rfl
  | ok later => simp [Except.map, Phrase.grouped, Phrase.tokens]

/-- The letters of function names. -/
def isNameLetter (c : Char) : Bool := c.isAlpha && Source.isAccepted c

theorem isNameLetter_of_toLower {c : Char} (h : c.toLower ∈ Source.letters) :
    isNameLetter c = true := by
  have hall : ∀ d ∈ Source.letters, d.isAlpha = true := List.all_eq_true.mp (by decide)
  simp [isNameLetter, Source.isAccepted, ← c.isAlpha_toLower_eq_isAlpha, hall _ h, h]

section Composed

variable {ca cb : List Char} {Da Db : Derivation}

theorem Spells.exists_operation (ha : Spells ca Da) (hb : Spells cb Db) (op : Operator) :
    ∃ D, Spells ('(' :: (ca ++ ')' :: op.char :: '(' :: (cb ++ [')']))) D ∧
      D.nesting = max Da.nesting Db.nesting + 1 ∧
      D.tree.eval = Da.tree.eval >>= fun x => Db.tree.eval >>= fun y => op.apply x y := by
  have hop : Lexeme.mark? op.char = some op.symbol := by cases op <;> rfl
  have hblank : Text.isBlank op.char = false := by cases op <;> decide
  have hcut := tokensFrom_grouped ha.cut 0 (op.char :: '(' :: (Source.strip cb ++ [')']))
  rw [tokensFrom_of_mark? hop, tokensFrom_grouped hb.cut, tokensFrom_nil] at hcut
  let opPos := 0 + 1 + (Source.strip ca).length + 1
  refine ⟨.operation op opPos (.signs [] (Da.grouped 0 (Source.strip ca).length))
    (.signs [] (Db.grouped (opPos + 1) (Source.strip cb).length)), ⟨?_, ?_⟩, ?_, ?_⟩
  · have haccepted : Source.isForeign op.char = false := by cases op <;> decide
    simp only [List.forall_mem_cons, List.forall_mem_append]
    exact ⟨by decide, ha.accepted, by decide, haccepted, by decide, hb.accepted, by decide, by simp⟩
  · rw [strip_mark (by decide), strip_append, strip_mark (by decide), strip_mark hblank,
      strip_mark (by decide), strip_append, strip_mark (by decide)]
    refine hcut.trans ?_
    rw [Phrase.tokens_operation]
    simp only [Except.map, List.append_nil]
    rfl
  · rw [Phrase.nesting_operation, Phrase.nesting, Phrase.nesting, Phrase.nesting_grouped,
      Phrase.nesting_grouped, Nat.add_max_add_right]
  · rw [Phrase.tree_operation, Expr.eval_bin]
    show (Expr.eval (Phrase.grouped _ _ Da).tree >>= fun x =>
      Expr.eval (Phrase.grouped _ _ Db).tree >>= _) = _
    rw [Phrase.eval_tree_grouped, Phrase.eval_tree_grouped]

/-- What is behind an accepted text that ends in front of a group is an operand with it. -/
theorem Spells.alone (ha : Spells ca Da) {before : List Char} {ts : List Token}
    (haccepted : ∀ c ∈ before, Source.isAccepted c = true)
    (hcut : ∀ rest, tokensFrom 0 (before ++ '(' :: rest) =
      (tokensFrom before.length ('(' :: rest)).map (ts ++ ·))
    {operand : Phrase (.level .operand)}
    (htokens : operand.tokens = ts ++ (Da.grouped before.length (Source.strip ca).length).tokens) :
    Spells (before ++ '(' :: (ca ++ [')'])) operand.alone where
  accepted := by
    simp only [List.forall_mem_cons, List.forall_mem_append]
    exact ⟨fun c hc => Source.isForeign_of_isAccepted (haccepted c hc), by decide, ha.accepted,
      by decide, by simp⟩
  cut := by
    rw [strip_append, strip_eq_self haccepted, strip_mark (by decide), strip_append,
      strip_mark (by decide)]
    show tokensFrom 0 (before ++ '(' :: (Source.strip ca ++ [')'])) = _
    rw [hcut, tokensFrom_grouped ha.cut, tokensFrom_nil, Phrase.tokens_alone, htokens]
    simp only [Except.map, List.append_nil]

theorem Spells.exists_negation (ha : Spells ca Da) :
    ∃ D, Spells ('-' :: '(' :: (ca ++ [')'])) D ∧ D.nesting = Da.nesting + 1 ∧
      D.tree.eval = Da.tree.eval.map fun x => -x := by
  let operand : Phrase (.level .operand) :=
    .signs [(.minus, 0)] (Da.grouped 1 (Source.strip ca).length)
  refine ⟨operand.alone, @Spells.alone ca Da ha ['-'] [⟨.minus, 0⟩]
    (List.all_eq_true.mp (by decide))
    (fun rest => tokensFrom_of_mark? rfl 0 _) operand rfl, ?_, ?_⟩
  · rw [Phrase.nesting_alone, Phrase.nesting, Phrase.nesting_grouped]
  · show (Expr.neg (Phrase.grouped _ _ Da).tree 0).eval = _
    rw [Expr.eval_neg, Phrase.eval_tree_grouped]

theorem Spells.exists_call (ha : Spells ca Da) {name : List Char} (hne : name ≠ [])
    (hname : ∀ c ∈ name, isNameLetter c = true) :
    ∃ D, Spells (name ++ '(' :: (ca ++ [')'])) D ∧ D.nesting = Da.nesting + 1 ∧
      D.tree.eval = Da.tree.eval >>= Elementary.applyNamed (String.ofList name) := by
  simp only [isNameLetter, Bool.and_eq_true] at hname
  have hcut : ∀ rest, tokensFrom 0 (name ++ '(' :: rest) = _ := fun rest =>
    tokensFrom_name hne (fun c hc => (hname c hc).1) (by simp) (by simp) 0
  rw [Nat.zero_add] at hcut
  let operand : Phrase (.level .operand) := .signs [] (.callGroup (String.ofList name) 0 name.length
    (Da.shift (name.length + 1)) (name.length + 1 + (Source.strip ca).length))
  refine ⟨operand.alone, @Spells.alone ca Da ha name [⟨.name (String.ofList name), 0⟩]
    (fun c hc => (hname c hc).2) hcut operand rfl, ?_, ?_⟩
  · rw [Phrase.nesting_alone, Phrase.nesting, Phrase.nesting, Phrase.nesting_shift]
  · show (Expr.call (String.ofList name) (Da.shift _).tree 0).eval = _
    rw [Expr.eval_call, Phrase.eval_tree_shift]

theorem Spells.exists_call_log10 (ha : Spells ca Da) {name : List Char}
    (hname : Text.lowercase name = ['l', 'o', 'g']) :
    ∃ D, Spells (name ++ ['1', '0'] ++ '(' :: (ca ++ [')'])) D ∧ D.nesting = Da.nesting + 1 ∧
      D.tree.eval = Da.tree.eval >>= Elementary.applyNamed (String.ofList name ++ "10") := by
  have hletters : ∀ c ∈ name, isNameLetter c = true := by
    have hall : ∀ d ∈ Text.lowercase name, d ∈ Source.letters := by
      simp [hname, Source.letters]
    exact fun c hc => isNameLetter_of_toLower (hall _ (List.mem_map_of_mem hc))
  simp only [isNameLetter, Bool.and_eq_true] at hletters
  let operand : Phrase (.level .operand) := .signs [] (.callLog10 (String.ofList name)
    (by rwa [String.toList_ofList]) 0 name.length (Da.shift (name.length + 2 + 1))
    (name.length + 2 + 1 + (Source.strip ca).length))
  refine ⟨operand.alone, @Spells.alone ca Da ha (name ++ ['1', '0'])
    [⟨.name (String.ofList name), 0⟩, ⟨.number 10.0, name.length⟩] ?_ (fun rest => ?_) operand ?_,
    ?_, ?_⟩
  · simp only [List.forall_mem_append]
    exact ⟨fun c hc => (hletters c hc).2, List.all_eq_true.mp (by decide)⟩
  · have hcut := tokensFrom_log10 hname 0 rest
    rw [Nat.zero_add] at hcut
    rw [List.append_assoc, List.length_append]
    exact hcut
  · rw [List.length_append]
    rfl
  · rw [Phrase.nesting_alone, Phrase.nesting, Phrase.nesting, Phrase.nesting_shift]
  · show (Expr.call (String.ofList name ++ "10") (Da.shift _).tree 0).eval = _
    rw [Expr.eval_call, Phrase.eval_tree_shift]

end Composed

/-- The names under which functions can be called: any word of letters that passes the screening,
known or not, and the decimal logarithm with its base. -/
def IsCallable (name : String) : Prop :=
  (name ≠ "" ∧ ∀ c ∈ name.toList, isNameLetter c = true) ∨
    Text.lowercase name.toList = ['l', 'o', 'g', '1', '0']

/-- Expressions that are put together from readable ones in parentheses, nested deep enough to leave
room for these. The value, or the first fault, comes from those of the parts in the order in which
they stand. -/
theorem evaluate_composed {a b : String} (ha : IsReadable a) (hb : IsReadable b)
    (hda : NestsWithin 127 a.toList) (hdb : NestsWithin 127 b.toList) :
    (∀ op : Operator, evaluate ("(" ++ a ++ ")" ++ String.singleton op.char ++ "(" ++ b ++ ")") =
      evaluate a >>= fun x => evaluate b >>= fun y => op.apply x y) ∧
    evaluate ("-(" ++ a ++ ")") = (evaluate a).map (fun x => -x) ∧
    ∀ name, IsCallable name →
      evaluate (name ++ "(" ++ a ++ ")") = evaluate a >>= Elementary.applyNamed name := by
  obtain ⟨Da, hspa, hfita⟩ := ha.exists_spells
  obtain ⟨Db, hspb, hfitb⟩ := hb.exists_spells
  have hna := hspa.nesting_le hda
  have hnb := hspb.nesting_le hdb
  have hcomposed : ∀ {text : String} {cs : List Char} {D : Derivation}, text.toList = cs →
      Spells cs D → D.nesting ≤ 128 → evaluate text = D.tree.eval := by
    rintro text cs D rfl hD hnesting
    exact hD.evaluate hnesting
  rw [hspa.evaluate hfita, hspb.evaluate hfitb]
  refine ⟨fun op => ?_, ?_, fun name hname => ?_⟩
  · obtain ⟨D, hD, hnesting, heval⟩ := hspa.exists_operation hspb op
    rw [hcomposed (by simp) hD (by omega), heval]
  · obtain ⟨D, hD, hnesting, heval⟩ := hspa.exists_negation
    rw [hcomposed (by simp) hD (by omega), heval]
  rcases hname with ⟨hne, hletters⟩ | hlog
  · obtain ⟨D, hD, hnesting, heval⟩ := hspa.exists_call (by simpa using hne) hletters
    rw [hcomposed (by simp) hD (by omega), heval, String.ofList_toList]
  · obtain ⟨log, hname, hlower⟩ := exists_log_of_lowercase hlog
    obtain ⟨D, hD, hnesting, heval⟩ := hspa.exists_call_log10 hlower
    have hten : String.ofList log ++ "10" = name := by
      rw [← @String.ofList_toList name, hname, String.ofList_append]
    rw [hcomposed (by simp [hname]) hD (by omega), heval, hten]

/-- The expressions `1 - 2` and `(3)/0` multiplied, and the logarithm of the first. -/
theorem evaluate_composed_fault :
    evaluate ("(" ++ "1 - 2" ++ ")" ++ String.singleton Operator.mul.char ++
      "(" ++ "(3)/0" ++ ")") = .error .divisionByZero ∧
    evaluate ("Log10" ++ "(" ++ "1 - 2" ++ ")") = .error (.outsideDomain .log10 (-1.0)) := by
  have ha : IsReadable "1 - 2" := ⟨"1-2", [⟨.number 1.0, 0⟩, ⟨.minus, 1⟩, ⟨.number 2.0, 2⟩],
    .bin .sub (.lit 1.0 0) (.lit 2.0 2) 1, by decide +kernel, by decide +kernel, by decide +kernel⟩
  have hb : IsReadable "(3)/0" :=
    ⟨"(3)/0", [⟨.lparen, 0⟩, ⟨.number 3.0, 1⟩, ⟨.rparen, 2⟩, ⟨.slash, 3⟩, ⟨.number 0.0, 4⟩],
      .bin .div (.lit 3.0 1) (.lit 0.0 4) 3,
      by decide +kernel, by decide +kernel, by decide +kernel⟩
  have h := evaluate_composed ha hb (by decide +kernel) (by decide +kernel)
  exact ⟨(h.1 .mul).trans (by decide +kernel),
    (h.2.2 "Log10" (.inr (by decide))).trans (by decide +kernel)⟩

end Calculator
