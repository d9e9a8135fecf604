import Calculator.Proofs.Flat
import Calculator.Proofs.Leftover
import Calculator.Scientific

/-!
# Scientific notation as an expression

A text in scientific notation is an expression as well if its exponent has no sign and is marked by
an `e`, and then it has the same value. Behind any other exponent marker an expression goes on with
a call, so that a marker in front of a minus sign is a name without an argument, and a capital
marker is the name of no function.

* `Scientific.Built`: the parts of a text in scientific notation
* `evaluate_name_behind`: a number with a name behind it
* `Scientific.evaluate_eq`: what such a text is as an expression
-/

namespace Calculator

/-! ## The parts of a text in scientific notation -/

theorem Sign.eq_append_of_split {cs rest : List Char} {sign : Option Sign}
    (h : split cs = (sign, rest)) : cs = sign.toList.map Sign.char ++ rest := by
  unfold split at h
  split at h <;> cases h <;> rfl

theorem mem_plainChars {whole : List Char} {fraction : Option (List Char)} {c : Char}
    (h : c ∈ plainChars whole fraction) : c ∈ whole ++ fraction.getD [] ∨ c = '.' := by
  cases fraction with
  | none => exact .inl h
  | some digits =>
    rcases List.mem_append.mp h with hwhole | hfraction
    · exact .inl (List.mem_append_left _ hwhole)
    · rcases List.mem_cons.mp hfraction with hpoint | hdigit
      · exact .inr hpoint
      · exact .inl (List.mem_append_right _ hdigit)

theorem Exponent.chars_of_ofChars? {cs : List Char} {x : Exponent} (h : ofChars? cs = some x) :
    cs = x.sign.toList.map Sign.char ++ x.digits ∧ x.digits ≠ [] ∧
      ∀ c ∈ x.digits, c.isDigit = true := by
  rw [ofChars?] at h
  cases hsplit : Sign.split cs with
  | mk sign digits =>
    rw [hsplit] at h
    dsimp only at h
    split at h
    · next hdigits =>
      cases h
      exact ⟨Sign.eq_append_of_split hsplit, hdigits.1, List.all_eq_true.mp hdigits.2⟩
    · cases h

namespace Scientific

/-- A text in scientific notation is a numeral with an exponent behind at most a minus sign. The
exponent has no plus sign, and there is a digit behind the point. -/
structure Built (cs : List Char) (sign : Option Sign) (n : Numeral) (marker : Char) (x : Exponent) :
    Prop where
  chars : cs = sign.toList.map Sign.char ++ (plainChars n.whole n.fraction ++
    marker :: (x.sign.toList.map Sign.char ++ x.digits))
  sign : sign ≠ some .plus
  digits : n.digits ≠ [] ∧ ∀ c ∈ n.digits, c.isDigit = true
  point : n.fraction ≠ some []
  marker : marker = 'e' ∨ marker = 'E'
  exponent : n.exponent = some x
  exponentSign : x.sign ≠ some .plus
  exponentDigits : x.digits ≠ [] ∧ ∀ c ∈ x.digits, c.isDigit = true

/-- What is read in scientific notation is built so. -/
theorem exists_built_of_ofChars? {cs : List Char} {w : Float} (h : ofChars? cs = some w) :
    ∃ sign n marker x, Built cs sign n marker x ∧ w = Sign.apply sign n.toFloat := by
  rw [ofChars?] at h
  cases hsplit : Sign.split cs with
  | mk sign digits =>
    have hcs := Sign.eq_append_of_split hsplit
    rw [hsplit] at h
    split at h
    · cases h
    · next hsign heq =>
      cases heq
      obtain ⟨n, hn, rfl⟩ := Option.map_eq_some_iff.mp h
      obtain ⟨hn, hscientific⟩ := Option.filter_eq_some_iff.mp hn
      obtain ⟨hpoint, hexponent⟩ : n.fraction ≠ some [] ∧
          n.exponent.any (fun x => decide (x.sign ≠ some .plus)) = true := by
        simpa [isScientific] using hscientific
      obtain ⟨hne, hall, ⟨hnone, -⟩ | ⟨marker, rest, x, hx, hmarker, hrest, rfl⟩⟩ :=
        Numeral.chars_of_ofChars? hn
      · rw [hnone] at hexponent
        cases hexponent
      · obtain ⟨rfl, hdigits⟩ := Exponent.chars_of_ofChars? hrest
        rw [hx] at hexponent
        exact ⟨sign, n, marker, x, ⟨hcs, hsign, ⟨hne, hall⟩, hpoint, hmarker, hx,
          of_decide_eq_true hexponent, hdigits⟩, rfl⟩

end Scientific

/-! ## A number with a name behind it -/

theorem SignedLiteral.parse_phrase (o : SignedLiteral) (pos : Nat) :
    ∃ e, parse (o.phrase pos).tokens = .ok e := by
  rw [← Phrase.tokens_alone, parse_tokens, Phrase.outcome_of_le]
  · exact ⟨_, rfl⟩
  · rw [Phrase.nesting_alone]
    exact Nat.zero_le _

/-- A letter behind a number is a name, and the fault is that of the call that it makes. -/
theorem evaluate_name_behind (o : SignedLiteral) {c : Char} {after : List Char} {ts : List Token}
    (hcut : CutOff [c] after) (halpha : c.isAlpha = true)
    (haccepted : ∀ b ∈ c :: after, Source.isAccepted b = true)
    (htokens : tokensFrom (o.chars.length + 1) after = .ok ts) (hbalance : imbalance? 0 ts = none) :
    evaluate (String.ofList (o.chars ++ c :: after)) = .error (callFault (String.singleton c)
      o.chars.length
      ((readCall (groupAt 0) (String.singleton c) o.chars.length ts).result.map Prod.fst)) := by
  have hletter : ∀ b ∈ [c], b.isAlpha = true := by simpa using halpha
  obtain ⟨-, hafter⟩ := hcut.not_startsName (List.cons_ne_nil c []) hletter
  have hall : ∀ b ∈ o.chars ++ c :: after, Source.isAccepted b = true :=
    List.forall_mem_append.mpr ⟨o.isAccepted_of_mem, haccepted⟩
  have hforeign : ∀ b ∈ o.chars ++ c :: after, Source.isForeign b = false := fun b hb =>
    Source.isForeign_of_isAccepted (hall b hb)
  have htokens' : tokensFrom 0 (Source.strip (o.chars ++ c :: after)) =
      .ok ((o.phrase 0).tokens ++ ⟨.name (String.singleton c), o.chars.length⟩ :: ts) := by
    have hname := hcut.tokensFrom_append (.name (List.cons_ne_nil c []) hletter) o.chars.length
    rw [List.length_singleton, htokens, List.singleton_append] at hname
    rw [List.singleton_append] at hafter
    rw [strip_eq_self hall, o.tokensFrom_append 0 hafter, Nat.zero_add, hname,
      String.singleton_eq_ofList]
    rfl
  obtain ⟨e, he⟩ := o.parse_phrase 0
  have hparse := @parse_behind _ ts e ⟨.name (String.singleton c), o.chars.length⟩ he rfl
    ((imbalance?_cons_of_ne (by simp) (by simp) _ _).trans hbalance)
  rw [leftover_name] at hparse
  rw [evaluate_of_tokens (by rwa [String.toList_ofList]) (by rwa [String.toList_ofList]), hparse]
  rfl

/-! ## Scientific notation -/

namespace Scientific

namespace Built

variable {cs : List Char} {sign : Option Sign} {n : Numeral} {marker : Char} {x : Exponent}
  (h : Built cs sign n marker x)

include h

theorem plain : Denotes (plainChars n.whole n.fraction) ⟨n.whole, n.fraction, none⟩ :=
  ⟨(List.append_nil _).symm, h.digits.1, h.digits.2, by simp⟩

/-- With a small marker and no sign in its exponent, the text is a number behind its sign. -/
theorem evaluate_of_unsigned (hmarker : marker = 'e') (hsign : x.sign = none) :
    evaluate (String.ofList cs) = .ok (Sign.apply sign n.toFloat) := by
  have hdenotes : Denotes (plainChars n.whole n.fraction ++ 'e' :: x.digits) n := by
    refine ⟨by rw [h.exponent, exponentChars], h.digits.1, h.digits.2, ?_⟩
    rw [h.exponent]
    rintro _ ⟨⟩
    exact ⟨hsign, h.exponentDigits⟩
  have hcs : cs = SignedLiteral.chars ⟨sign.toList, .ofDenotes hdenotes⟩ := by
    rw [h.chars, hmarker, hsign]
    rfl
  rw [hcs, SignedLiteral.evaluate_chars]
  refine congrArg _ ?_
  rcases sign with _ | _ | _ <;> rfl

theorem digits_denotes : Denotes x.digits ⟨x.digits, none, none⟩ := by
  refine ⟨by simp [plainChars, exponentChars], ?_, ?_, by simp⟩
  · simpa [Numeral.digits] using h.exponentDigits.1
  · simpa [Numeral.digits] using h.exponentDigits.2

theorem isAccepted_marker : Source.isAccepted marker = true ∧ marker.isAlpha = true := by
  rcases h.marker with rfl | rfl <;> exact ⟨by decide, by decide⟩

theorem isAccepted_digits : ∀ c ∈ x.digits, Source.isAccepted c = true := by
  intro c hc
  rw [Source.isAccepted, h.exponentDigits.2 c hc, Bool.true_or, Bool.true_or]

/-- A marker in front of a minus sign is a name without an argument. -/
theorem evaluate_of_signed (hsign : x.sign = some .minus) :
    evaluate (String.ofList cs) = .error (.missingArgument (String.singleton marker)) := by
  let o : SignedLiteral := ⟨sign.toList, .ofDenotes h.plain⟩
  have hcs : cs = o.chars ++ marker :: '-' :: x.digits := by
    rw [h.chars, hsign, ← List.append_assoc]
    rfl
  obtain ⟨haccepted, halpha⟩ := h.isAccepted_marker
  have hcut : CutOff [marker] ('-' :: x.digits) := by
    refine .name (List.cons_ne_nil _ _) (by simpa using halpha) (by simp [StartsName]) ?_
    rw [← goesOn_eq_false_iff]
    rcases h.marker with rfl | rfl <;> rfl
  have htokens : tokensFrom (o.chars.length + 1) ('-' :: x.digits) = _ :=
    @tokensFrom_of_mark? '-' .minus rfl _ _
  rw [h.digits_denotes.tokensFrom_eq] at htokens
  have hall : ∀ b ∈ marker :: '-' :: x.digits, Source.isAccepted b = true :=
    List.forall_mem_cons.mpr ⟨haccepted, List.forall_mem_cons.mpr ⟨by decide, h.isAccepted_digits⟩⟩
  rw [hcs, evaluate_name_behind o hcut halpha hall htokens rfl]
  rfl

/-- A capital marker in front of digits is a name that no function has. -/
theorem evaluate_of_capital (hmarker : marker = 'E') (hsign : x.sign = none) :
    evaluate (String.ofList cs) = .error (.unknownFunction "E") := by
  subst hmarker
  let o : SignedLiteral := ⟨sign.toList, .ofDenotes h.plain⟩
  have hcs : cs = o.chars ++ 'E' :: x.digits := by
    rw [h.chars, hsign, ← List.append_assoc]
    rfl
  have hcut : CutOff ['E'] x.digits := by
    refine .name (List.cons_ne_nil _ _) (by simp) ?_ ?_
    · rw [not_startsName_iff]
      intro c hc
      rw [Bool.eq_false_iff]
      intro halpha
      have hdigit := Lexeme.isDigit_eq_false_of_isAlpha halpha
      rw [h.exponentDigits.2 c (List.mem_of_mem_head? hc)] at hdigit
      cases hdigit
    · rw [← goesOn_eq_false_iff]
      exact (Lexeme.goesOn_of_ne (by decide) _).trans (by decide)
  have hall : ∀ b ∈ 'E' :: x.digits, Source.isAccepted b = true :=
    List.forall_mem_cons.mpr ⟨by decide, h.isAccepted_digits⟩
  rw [hcs, evaluate_name_behind o hcut (by decide) hall (h.digits_denotes.tokensFrom_eq _) rfl]
  rfl

/-- The marker is the only letter. -/
theorem eq_of_append {mantissa exponent : List Char} {marker' : Char}
    (hcs : cs = mantissa ++ marker' :: exponent) (hmarker' : marker' = 'e' ∨ marker' = 'E') :
    marker' = marker ∧ exponent = x.sign.toList.map Sign.char ++ x.digits := by
  have hletter : marker'.isAlpha = true := by rcases hmarker' with rfl | rfl <;> decide
  have hdigit : marker'.isDigit = false := Lexeme.isDigit_eq_false_of_isAlpha hletter
  have hsigns : ∀ sign : Option Sign, marker' ∉ sign.toList.map Sign.char := by
    rintro (_ | _ | _) <;> simp [Sign.char] <;> rintro rfl <;> cases hletter
  have hplain : marker' ∉ plainChars n.whole n.fraction := by
    intro hmem
    rcases mem_plainChars hmem with hmem | rfl
    · rw [h.digits.2 _ hmem] at hdigit
      cases hdigit
    · cases hletter
  have hdigits : marker' ∉ x.digits := fun hmem => by
    rw [h.exponentDigits.2 _ hmem] at hdigit
    cases hdigit
  have hboth := h.chars.symm.trans hcs
  rw [← List.append_assoc, List.append_cons_inj_of_notMem
    (fun hmem => (List.mem_append.mp hmem).elim (hsigns sign) hplain)
    (fun hmem => (List.mem_append.mp hmem).elim (hsigns x.sign) hdigits)] at hboth
  exact ⟨hboth.2.1.symm, hboth.2.2.symm⟩

end Built

/-- What is read in scientific notation as `w` has the value `w` as an expression if the exponent is
marked by an `e` and has no sign. A capital marker is taken for the name of a function, which no
function has, and any marker for a name without an argument if a minus sign is behind it. -/
theorem evaluate_eq {text : String} {w : Float} (h : ofText text = .ok w) :
    (∃ mantissa marker exponent, text.toList = mantissa ++ marker :: exponent ∧
      (marker = 'e' ∨ marker = 'E')) ∧
    ∀ mantissa marker exponent, text.toList = mantissa ++ marker :: exponent →
      (marker = 'e' ∨ marker = 'E') →
      ('-' ∉ exponent → marker = 'e' → evaluate text = .ok w) ∧
      ('-' ∉ exponent → marker = 'E' → evaluate text = .error (.unknownFunction "E")) ∧
      ('-' ∈ exponent → evaluate text = .error (.missingArgument (String.singleton marker))) := by
  have hw : ofChars? text.toList = some w := by
    rw [ofText] at h
    split at h
    · next hx => rw [hx, Except.ok.inj h]
    · cases h
  obtain ⟨sign, n, marker, x, hbuilt, rfl⟩ := exists_built_of_ofChars? hw
  refine ⟨⟨sign.toList.map Sign.char ++ plainChars n.whole n.fraction, marker, _,
    by rw [hbuilt.chars, List.append_assoc], hbuilt.marker⟩, ?_⟩
  intro mantissa marker' exponent hcs hmarker'
  obtain ⟨rfl, rfl⟩ := hbuilt.eq_of_append hcs hmarker'
  have hminus : '-' ∈ x.sign.toList.map Sign.char ++ x.digits ↔ x.sign = some .minus := by
    have hdigits : '-' ∉ x.digits := fun hmem => absurd (hbuilt.exponentDigits.2 _ hmem) (by decide)
    rcases hsign : x.sign with _ | _ | _ <;> simp [hdigits, Sign.char]
  have hunsigned : x.sign ≠ some .minus → x.sign = none := fun hsign => by
    rcases hsign' : x.sign with _ | _ | _
    · rfl
    · exact absurd hsign' hbuilt.exponentSign
    · exact absurd hsign' hsign
  rw [hminus, ← String.ofList_toList (s := text)]
  exact ⟨fun hsign hmarker => hbuilt.evaluate_of_unsigned hmarker (hunsigned hsign),
    fun hsign hmarker => hbuilt.evaluate_of_capital hmarker (hunsigned hsign),
    hbuilt.evaluate_of_signed⟩

/-- The texts `-0e9`, `2E5` and `2E-5`. -/
theorem evaluate_eq_three :
    evaluate "-0e9" = .ok (-0.0) ∧ evaluate "2E5" = .error (.unknownFunction "E") ∧
      evaluate "2E-5" = .error (.missingArgument "E") := by
  have hzero : ofText "-0e9" = .ok (-0.0) := by decide +kernel
  have hcapital : ofText "2E5" = .ok 200000.0 := by decide +kernel
  have hsigned : ofText "2E-5" = .ok 0.00002 := by decide +kernel
  exact ⟨((evaluate_eq hzero).2 ['-', '0'] 'e' ['9'] rfl (.inl rfl)).1 (by decide) rfl,
    ((evaluate_eq hcapital).2 ['2'] 'E' ['5'] rfl (.inr rfl)).2.1 (by decide) rfl,
    ((evaluate_eq hsigned).2 ['2'] 'E' ['-', '5'] rfl (.inr rfl)).2.2 (by decide)⟩

end Scientific

end Calculator
