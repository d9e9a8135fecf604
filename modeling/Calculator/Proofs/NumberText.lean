import Calculator.Number
import Calculator.Proofs.Lexing
import Calculator.Proofs.ReadBack

/-!
# Numbers and their texts

Decimals are laid out as numerals of the same value, so that what is shown of a finite number is
read as the same number.

* `Denotes`: the numeral that a text denotes
* `Numeral.ofChars?_of_denotes`: it is what the text is read as
* `Decimal.exists_plain_of_positional`, `Decimal.exists_numeral_of_withExponent`: a decimal that is
  laid out keeps its value
* `Layout.write_ne_of_head`: written numbers begin with a digit or a sign
* `Number.exists_numeral_of_chars`: what is shown is read back
-/

namespace Calculator

/-- The digits of a numeral without an exponent, with the point if it has one. -/
def plainChars (whole : List Char) (fraction : Option (List Char)) : List Char :=
  whole ++ match fraction with
    | none => []
    | some digits => '.' :: digits

theorem plainChars_eq_append (whole : List Char) (fraction : Option (List Char)) :
    plainChars whole fraction = whole ++ plainChars [] fraction := rfl

/-- The characters of an exponent without a sign. -/
def exponentChars : Option Exponent → List Char
  | none => []
  | some x => 'e' :: x.digits

/-- A text denotes a numeral: digits, perhaps a point and more digits, and perhaps an `e` and the
digits of an exponent. The first digits or those behind the point may be missing, not both. -/
structure Denotes (word : List Char) (n : Numeral) : Prop where
  chars : word = plainChars n.whole n.fraction ++ exponentChars n.exponent
  ne_nil : n.digits ≠ []
  isDigit : ∀ c ∈ n.digits, c.isDigit = true
  exponent : ∀ x ∈ n.exponent, x.sign = none ∧ x.digits ≠ [] ∧ ∀ c ∈ x.digits, c.isDigit = true

theorem Sign.split_eq_none {cs : List Char} (h : ∀ c ∈ cs.head?, c ≠ '+' ∧ c ≠ '-') :
    split cs = (none, cs) := by
  unfold split
  split
  · exact absurd rfl (h '+' rfl).1
  · exact absurd rfl (h '-' rfl).2
  · rfl

theorem ne_sign_of_isDigit {c : Char} (h : c.isDigit = true) : c ≠ '+' ∧ c ≠ '-' := by
  constructor <;> exact Lexeme.ne_of_property h (by decide)

theorem Sign.split_of_isDigit {cs : List Char} (h : ∀ c ∈ cs, c.isDigit = true) :
    split cs = (none, cs) :=
  split_eq_none fun c hc => ne_sign_of_isDigit (h c (List.mem_of_mem_head? hc))

theorem isDigit_of_mem_toDigits {n : Nat} {c : Char} (hc : c ∈ Nat.toDigits 10 n) :
    c.isDigit = true :=
  Nat.isDigit_of_mem_toDigits (by decide) (by decide) hc

/-- A whole number other than zero has no zero in front. -/
theorem head_toDigits_ne_zero {n : Nat} (h : n ≠ 0) :
    ∀ c ∈ (Nat.toDigits 10 n).head?, c ≠ '0' := by
  induction n using Nat.strong_induction_on with
  | _ n ih =>
    by_cases hlt : n < 10
    · have hall : ∀ k < 10, k ≠ 0 → Nat.digitChar k ≠ '0' := by decide
      rw [Nat.toDigits_of_lt_base hlt]
      simpa using hall n hlt h
    · rw [Nat.toDigits_of_base_le (by decide) (by omega),
        List.head?_append_of_ne_nil _ Nat.toDigits_ne_nil]
      exact ih (n / 10) (by omega) (by omega)

theorem Exponent.ofChars?_eq_some_iff {cs : List Char}
    (h : ∀ c ∈ cs, c.isDigit = true ∨ c = '.' ∨ c = 'e') {x : Exponent} : ofChars? cs = some x ↔
      x.sign = none ∧ x.digits = cs ∧ cs ≠ [] ∧ ∀ c ∈ cs, c.isDigit = true := by
  have hsplit : Sign.split cs = (none, cs) := by
    refine Sign.split_eq_none fun c hc => ⟨?_, ?_⟩ <;>
    · rintro rfl
      exact absurd (h _ (List.mem_of_mem_head? hc)) (by decide)
  obtain ⟨sign, digits⟩ := x
  rw [ofChars?, hsplit]
  simp [List.all_eq_true]
  tauto

/-- The point and the digits behind it are split from the text that follows them. -/
theorem Numeral.splitFraction_append {fraction : Option (List Char)} {rest : List Char}
    (hdigits : ∀ c ∈ fraction.getD [], c.isDigit = true)
    (hrest : ∀ c ∈ rest.head?, c.isDigit = false ∧ c ≠ '.') :
    splitFraction (plainChars [] fraction ++ rest) = (fraction, rest) := by
  cases fraction with
  | none =>
    unfold splitFraction
    split
    · next hpoint =>
      rw [plainChars, List.nil_append, List.nil_append] at hpoint
      rw [hpoint] at hrest
      exact absurd rfl (hrest _ rfl).2
    · rfl
  | some digits =>
    have hspan := span_append hdigits fun c hc => (hrest c hc).1
    show (some ((digits ++ rest).takeWhile Char.isDigit), (digits ++ rest).dropWhile Char.isDigit) =
      (some digits, rest)
    exact Prod.ext (congrArg some hspan.1) hspan.2

/-- What is read after the digits and the point. -/
theorem Numeral.ofChars?_append {whole : List Char} {fraction : Option (List Char)}
    {rest : List Char} (hne : whole ++ fraction.getD [] ≠ [])
    (hdigits : ∀ c ∈ whole ++ fraction.getD [], c.isDigit = true)
    (hrest : ∀ c ∈ rest.head?, c.isDigit = false ∧ c ≠ '.') :
    ofChars? (plainChars whole fraction ++ rest) = match rest with
      | [] => some ⟨whole, fraction, none⟩
      | c :: rest => if c = 'e' ∨ c = 'E' then
          (Exponent.ofChars? rest).map fun x => ⟨whole, fraction, some x⟩
        else none := by
  obtain ⟨hwhole, hfraction⟩ := List.forall_mem_append.mp hdigits
  have hpoint : ∀ c ∈ (plainChars [] fraction ++ rest).head?, c.isDigit = false := by
    cases fraction with
    | none => exact fun c hc => (hrest c hc).1
    | some digits => simp [plainChars]
  have hspan := span_append hwhole hpoint
  rw [← List.append_assoc, ← plainChars_eq_append] at hspan
  rw [ofChars?, hspan.1, hspan.2, splitFraction_append hfraction hrest]
  dsimp only
  rw [if_neg hne]
  cases rest <;> rfl

/-- An exponent is read behind the marker. -/
theorem Numeral.ofChars?_exponent {whole : List Char} {fraction : Option (List Char)}
    {cs : List Char} {x : Exponent} (hne : whole ++ fraction.getD [] ≠ [])
    (hdigits : ∀ c ∈ whole ++ fraction.getD [], c.isDigit = true)
    (hx : Exponent.ofChars? cs = some x) :
    ofChars? (plainChars whole fraction ++ 'e' :: cs) = some ⟨whole, fraction, some x⟩ := by
  rw [ofChars?_append hne hdigits (by simp)]
  dsimp only
  rw [if_pos (.inl rfl), hx]
  rfl

/-- What denotes a numeral is read as that numeral. -/
theorem Numeral.ofChars?_of_denotes {word : List Char} {n : Numeral} (h : Denotes word n) :
    ofChars? word = some n := by
  obtain ⟨hword, hne, hdigits, hexponent⟩ := h
  obtain ⟨whole, fraction, exponent⟩ := n
  rw [hword]
  cases exponent with
  | none =>
    show ofChars? (plainChars whole fraction ++ []) = _
    rw [ofChars?_append hne hdigits (by simp)]
  | some x =>
    obtain ⟨hsign, hnil, hall⟩ := hexponent x rfl
    exact ofChars?_exponent hne hdigits
      ((Exponent.ofChars?_eq_some_iff fun d hd => .inl (hall d hd)).mpr ⟨hsign, rfl, hnil, hall⟩)

theorem Numeral.ofChars?_plain {whole : List Char} {fraction : Option (List Char)}
    (hne : whole ≠ []) (hwhole : ∀ c ∈ whole, c.isDigit = true)
    (hfraction : ∀ c ∈ fraction.getD [], c.isDigit = true) :
    ofChars? (plainChars whole fraction) = some ⟨whole, fraction, none⟩ :=
  ofChars?_of_denotes
    { chars := (List.append_nil _).symm
      ne_nil := List.append_ne_nil_of_left_ne_nil hne _
      isDigit := List.forall_mem_append.mpr ⟨hwhole, hfraction⟩
      exponent := nofun }

namespace Decimal

theorem isDigit_of_mem_digitChars {d : Decimal} {c : Char} (hc : c ∈ d.digitChars) :
    c.isDigit = true :=
  isDigit_of_mem_toDigits hc

theorem digitChars_ne_nil (d : Decimal) : d.digitChars ≠ [] := Nat.toDigits_ne_nil

theorem ofDigitChars_digitChars (d : Decimal) : Nat.ofDigitChars 10 d.digitChars 0 = d.digits :=
  Nat.ofDigitChars_ten_toDigits

/-- Zeros behind the digits scale them by powers of ten. -/
theorem ofDigitChars_digitChars_append (d : Decimal) (zeros : ℕ) :
    Nat.ofDigitChars 10 (d.digitChars ++ List.replicate zeros '0') 0 = 10 ^ zeros * d.digits := by
  rw [Nat.ofDigitChars_append, Nat.ofDigitChars_replicate_zero, ofDigitChars_digitChars]

theorem isDigit_of_mem_digitChars_append (d : Decimal) (zeros : ℕ) :
    ∀ c ∈ d.digitChars ++ List.replicate zeros '0', c.isDigit = true := by
  refine List.forall_mem_append.mpr ⟨fun c => isDigit_of_mem_digitChars, fun c hc => ?_⟩
  rw [List.eq_of_mem_replicate hc]
  rfl

theorem value_toDecimal {d : Decimal} {whole : List Char} {fraction : Option (List Char)}
    (hdigits : Nat.ofDigitChars 10 (Numeral.mk whole fraction none).digits 0 = d.digits)
    (hexponent : -((fraction.getD []).length : ℤ) = d.exponent) :
    (Numeral.mk whole fraction none).toDecimal.value = d.value := by
  rw [value, value, ← hdigits, ← hexponent]
  simp [Numeral.toDecimal]

/-- Laid out positionally, a decimal is a numeral of the same value, with no point that lacks a
digit behind it. -/
theorem exists_plain_of_positional (d : Decimal) (pointZero : Bool) : ∃ whole fraction,
    d.positional pointZero = plainChars whole fraction ∧ whole ≠ [] ∧
      (∀ c ∈ whole, c.isDigit = true) ∧ (∀ c ∈ fraction.getD [], c.isDigit = true) ∧
      fraction ≠ some [] ∧ (Numeral.mk whole fraction none).toDecimal.value = d.value := by
  have hzeros : ∀ m, ∀ c ∈ List.replicate m '0', c.isDigit = true := by
    intro m c hc
    rw [List.eq_of_mem_replicate hc]
    rfl
  have hdigits : ∀ c ∈ d.digitChars, c.isDigit = true := fun c => isDigit_of_mem_digitChars
  have hlength := List.length_pos_iff.mpr d.digitChars_ne_nil
  dsimp only [positional]
  split
  · next hpoint =>
    refine ⟨['0'],
      some (List.replicate (-(d.digitChars.length + d.exponent)).toNat '0' ++ d.digitChars),
      rfl, by simp, by simp, ?_, by simp [d.digitChars_ne_nil], ?_⟩
    · simp only [Option.getD_some, List.forall_mem_append]
      exact ⟨hzeros _, hdigits⟩
    · apply value_toDecimal
      · show Nat.ofDigitChars 10 ('0' :: (_ ++ d.digitChars)) 0 = d.digits
        rw [Nat.ofDigitChars_cons, Nat.ofDigitChars_append, Nat.ofDigitChars_replicate_zero]
        exact d.ofDigitChars_digitChars
      · rw [Option.getD_some, List.length_append, List.length_replicate]
        omega
  split
  · next hpoint hexponent =>
    refine ⟨d.digitChars.take (d.digitChars.length + d.exponent).toNat,
      some (d.digitChars.drop (d.digitChars.length + d.exponent).toNat), rfl, ?_, ?_, ?_, ?_, ?_⟩
    · rw [ne_eq, List.take_eq_nil_iff, not_or]
      exact ⟨by omega, d.digitChars_ne_nil⟩
    · exact fun c hc => hdigits c (List.mem_of_mem_take hc)
    · exact fun c hc => hdigits c (List.mem_of_mem_drop hc)
    · rw [ne_eq, Option.some.injEq, List.drop_eq_nil_iff]
      omega
    · apply value_toDecimal
      · rw [Numeral.digits, Option.getD_some, List.take_append_drop, d.ofDigitChars_digitChars]
      · rw [Option.getD_some, List.length_drop]
        omega
  · next hpoint hexponent =>
    obtain ⟨e, he⟩ : ∃ e : ℕ, d.exponent = e := ⟨d.exponent.toNat, by omega⟩
    have hwhole := d.isDigit_of_mem_digitChars_append d.exponent.toNat
    have hne : d.digitChars ++ List.replicate d.exponent.toNat '0' ≠ [] := by
      simp [d.digitChars_ne_nil]
    have hvalue :
        (Nat.ofDigitChars 10 (d.digitChars ++ List.replicate d.exponent.toNat '0') 0 : ℚ) =
          d.value := by
      rw [ofDigitChars_digitChars_append, value, he, Int.toNat_natCast, zpow_natCast, mul_comm]
      push_cast
      rfl
    generalize d.digitChars ++ List.replicate d.exponent.toNat '0' = whole at *
    rw [← hvalue]
    cases pointZero with
    | false =>
      refine ⟨whole, none, rfl, hne, hwhole, by simp, by simp, ?_⟩
      simp [value, Numeral.toDecimal, Numeral.digits]
    | true =>
      refine ⟨whole, some ['0'], rfl, hne, hwhole, by simp, by simp, ?_⟩
      show ((Nat.ofDigitChars 10 (whole ++ ['0']) 0 : ℕ) : ℚ) * 10 ^ (-1 : ℤ) = _
      have hzero : Nat.ofDigitChars 10 (whole ++ ['0']) 0 = 10 * Nat.ofDigitChars 10 whole 0 := by
        simp [Nat.ofDigitChars_append, Nat.ofDigitChars_cons]
      rw [hzero, zpow_neg_one]
      push_cast
      field_simp

end Decimal

/-! ## Decimals with an exponent -/

/-- A whole number of either sign is read as an exponent. -/
theorem Exponent.exists_of_integerChars (plus : Bool) (k : ℤ) :
    ∃ x, ofChars? (Decimal.integerChars plus k) = some x ∧ x.value = k ∧
      (plus = false → x.sign ≠ some .plus) := by
  have hdigits : ∀ c ∈ Nat.toDigits 10 k.natAbs, c.isDigit = true := fun _ =>
    isDigit_of_mem_toDigits
  have hnumber : Nat.toDigits 10 k.natAbs ≠ [] ∧ (Nat.toDigits 10 k.natAbs).all Char.isDigit :=
    ⟨Nat.toDigits_ne_nil, List.all_eq_true.mpr hdigits⟩
  have hvalue : (Nat.ofDigitChars 10 (Nat.toDigits 10 k.natAbs) 0 : ℤ) = k.natAbs := by
    rw [Nat.ofDigitChars_ten_toDigits]
  unfold Decimal.integerChars
  split
  · next hneg =>
    refine ⟨⟨some .minus, Nat.toDigits 10 k.natAbs⟩, if_pos hnumber, ?_, by simp⟩
    rw [value, if_pos rfl, hvalue]
    omega
  · next hnonneg =>
    have hvalue' : ∀ sign, sign ≠ some .minus →
        (Exponent.mk sign (Nat.toDigits 10 k.natAbs)).value = k := by
      intro sign hsign
      rw [value, if_neg hsign, hvalue]
      omega
    split
    · next hplus =>
      refine ⟨⟨some .plus, Nat.toDigits 10 k.natAbs⟩, if_pos hnumber, hvalue' _ (by decide), ?_⟩
      intro hfalse
      rw [hplus] at hfalse
      cases hfalse
    · refine ⟨⟨none, Nat.toDigits 10 k.natAbs⟩, ?_, hvalue' _ (by decide), by simp⟩
      rw [ofChars?, Sign.split_of_isDigit hdigits]
      exact if_pos hnumber

/-- Laid out with an exponent, a decimal is a numeral of the same value, with an exponent and with
no point that lacks a digit behind it. -/
theorem Decimal.exists_numeral_of_withExponent (d : Decimal) (plus : Bool) (places : ℕ) :
    ∃ n : Numeral, Numeral.ofChars? (d.withExponent plus places) = some n ∧
      n.toDecimal.value = d.value ∧ n.fraction ≠ some [] ∧
        ∃ x, n.exponent = some x ∧ (plus = false → x.sign ≠ some .plus) := by
  obtain ⟨x, hx, hexponent, hsign⟩ :=
    Exponent.exists_of_integerChars plus (d.digitChars.length + d.exponent - 1)
  obtain ⟨c, cs, hcs⟩ := List.exists_cons_of_ne_nil d.digitChars_ne_nil
  obtain ⟨zeros, hpadded⟩ : ∃ zeros, cs.rightpad places '0' = cs ++ List.replicate zeros '0' :=
    ⟨_, rfl⟩
  obtain ⟨fraction, hchars, hdigits, hne⟩ : ∃ fraction, d.withExponent plus places =
      plainChars [c] fraction ++
        'e' :: integerChars plus (d.digitChars.length + d.exponent - 1) ∧
      fraction.getD [] = cs ++ List.replicate zeros '0' ∧ fraction ≠ some [] := by
    rw [← hpadded]
    dsimp only [withExponent]
    rw [hcs]
    split
    · next hnil => exact ⟨none, rfl, hnil.symm, by simp⟩
    · next hcons => exact ⟨some (cs.rightpad places '0'), rfl, rfl, by simpa using hcons⟩
  have hall : ∀ a ∈ [c] ++ fraction.getD [], a.isDigit = true := by
    rw [hdigits, ← List.append_assoc, List.singleton_append, ← hcs]
    exact d.isDigit_of_mem_digitChars_append zeros
  refine ⟨⟨[c], fraction, some x⟩, ?_, ?_, hne, x, rfl, hsign⟩
  · rw [hchars]
    exact Numeral.ofChars?_exponent (List.cons_ne_nil c _) hall hx
  · have hnumber : Nat.ofDigitChars 10 ([c] ++ fraction.getD []) 0 = 10 ^ zeros * d.digits := by
      rw [hdigits, ← List.append_assoc, List.singleton_append, ← hcs,
        ofDigitChars_digitChars_append]
    have hplace : x.value - ((fraction.getD []).length : ℤ) = d.exponent - zeros := by
      rw [hexponent, hdigits, hcs, List.length_append, List.length_replicate, List.length_cons]
      push_cast
      omega
    rw [value, value, Numeral.toDecimal]
    show ((Nat.ofDigitChars 10 ([c] ++ fraction.getD []) 0 : ℕ) : ℚ) *
      10 ^ (x.value - ((fraction.getD []).length : ℤ)) = _
    rw [hnumber, hplace, zpow_sub₀ (by norm_num), zpow_natCast]
    push_cast
    field_simp

/-! ## Written numbers begin with a digit or a sign -/

/-- The text has a digit in front. -/
def BeginsWithDigit (text : List Char) : Prop := ∃ c cs, text = c :: cs ∧ c.isDigit = true

namespace Decimal

variable (d : Decimal)

theorem exists_digitChars_eq_cons : ∃ c cs, d.digitChars = c :: cs ∧ c.isDigit = true := by
  obtain ⟨c, cs, hcs⟩ := List.exists_cons_of_ne_nil d.digitChars_ne_nil
  exact ⟨c, cs, hcs, isDigit_of_mem_digitChars (hcs ▸ List.mem_cons_self)⟩

variable {d} {c : Char} {cs : List Char} (hcs : d.digitChars = c :: cs)

include hcs

/-- Laid out positionally, a decimal begins with a zero before the point or with its first digit. -/
theorem positional_eq_cons (pointZero : Bool) :
    (∃ rest, d.positional pointZero = '0' :: '.' :: rest) ∨
      ∃ rest, d.positional pointZero = c :: rest := by
  dsimp only [positional]
  split
  · exact .inl ⟨_, rfl⟩
  · next hpoint =>
    split
    · obtain ⟨n, hn⟩ : ∃ n, (d.digitChars.length + d.exponent).toNat = n + 1 :=
        ⟨_, (Nat.succ_pred_eq_of_pos (by omega)).symm⟩
      rw [hn, hcs]
      exact .inr ⟨_, rfl⟩
    · rw [hcs]
      exact .inr ⟨_, rfl⟩

theorem withExponent_eq_cons (plus : Bool) (places : Nat) :
    ∃ rest, d.withExponent plus places = c :: rest := by
  rw [withExponent, hcs]
  exact ⟨_, rfl⟩

omit hcs in
theorem beginsWithDigit_withExponent (d : Decimal) (plus : Bool) (places : Nat) :
    BeginsWithDigit (d.withExponent plus places) := by
  obtain ⟨c, cs, hcs, hc⟩ := d.exists_digitChars_eq_cons
  obtain ⟨rest, h⟩ := withExponent_eq_cons hcs plus places
  exact ⟨c, rest, h, hc⟩

end Decimal

/-- What is written of a magnitude begins with a zero before the point or with the first digit of
its decimal. -/
theorem Layout.writeMagnitude_eq_cons {l : Layout} {n : Nat} {c : Char} {cs : List Char}
    (hcs : (Decimal.shortest l.tie n).digitChars = c :: cs) :
    (∃ rest, l.writeMagnitude n = '0' :: '.' :: rest) ∨ ∃ rest, l.writeMagnitude n = c :: rest := by
  dsimp only [writeMagnitude]
  split
  · exact Decimal.positional_eq_cons hcs _
  · exact .inr (Decimal.withExponent_eq_cons hcs _ _)

theorem Layout.beginsWithDigit_writeMagnitude (l : Layout) (n : Nat) :
    BeginsWithDigit (l.writeMagnitude n) := by
  obtain ⟨c, cs, hcs, hc⟩ := (Decimal.shortest l.tie n).exists_digitChars_eq_cons
  rcases writeMagnitude_eq_cons hcs with ⟨rest, h⟩ | ⟨rest, h⟩
  · exact ⟨'0', _, h, rfl⟩
  · exact ⟨c, rest, h, hc⟩

theorem Layout.write_ne_of_head {l : Layout} {c : Char} (hdigit : c.isDigit = false)
    (hsign : c ≠ '-') (cs : List Char) (x : Float) : l.write x ≠ c :: cs := by
  obtain ⟨c', cs', hchars, hc'⟩ := l.beginsWithDigit_writeMagnitude (Binary64.code x)
  rw [write, hchars]
  intro h
  split at h
  · exact hsign (List.cons.inj h).1.symm
  · rw [(List.cons.inj h).1, hdigit] at hc'
    cases hc'

/-! ## Numbers as they are shown -/

theorem Binary64.ofCode_code {x : Float} (h : isNegative x = false) : ofCode (code x) = x := by
  have hlt : x.toBits.toNat < signBit := by simpa [isNegative] using h
  have hbits : (code x).toUInt64 = x.toBits := by
    rw [code, Nat.mod_eq_of_lt hlt]
    exact UInt64.ofNat_toNat
  rw [ofCode, hbits, Float.ofBits_toBits]

namespace Number

/-- The characters of a finite number without a sign. -/
theorem chars_eq {x : Float} (hfinite : Binary64.isFinite x = true)
    (hsign : Binary64.isNegative x = false) :
    chars x = (Decimal.shortest .upward (Binary64.code x)).positional false := by
  have hlt : Binary64.code x < Binary64.infinityCode := of_decide_eq_true hfinite
  have hnan : Binary64.isNaN x = false := decide_eq_false hlt.le.not_gt
  rw [chars, hnan, hfinite, if_neg (by decide), if_pos rfl, Layout.write, hsign]
  rfl

/-- What is shown of a finite number without a sign is digits and points, and is read as that
number. -/
theorem exists_numeral_of_chars {x : Float} (hfinite : Binary64.isFinite x = true)
    (hsign : Binary64.isNegative x = false) :
    chars x ≠ [] ∧ (∀ c ∈ chars x, (c.isDigit || c == '.') = true) ∧
      ∃ n, Numeral.ofChars? (chars x) = some n ∧ n.toFloat = x := by
  have hlt : Binary64.code x < Binary64.infinityCode := of_decide_eq_true hfinite
  obtain ⟨whole, fraction, hchars, hne, hwhole, hfraction, -, hvalue⟩ :=
    (Decimal.shortest .upward (Binary64.code x)).exists_plain_of_positional false
  rw [chars_eq hfinite hsign, hchars]
  refine ⟨?_, ?_, _, Numeral.ofChars?_plain hne hwhole hfraction, ?_⟩
  · simp [plainChars, hne]
  · intro c hc
    rcases List.mem_append.mp hc with hc | hc
    · simp [hwhole c hc]
    · cases fraction with
      | none => cases hc
      | some digits =>
        rcases List.mem_cons.mp hc with rfl | hc
        · rfl
        · simp [hfraction c hc]
  · rw [Numeral.toFloat, Decimal.toFloat, Decimal.toCode_congr hvalue,
      Decimal.toCode_shortest _ hlt, Binary64.ofCode_code hsign]

end Number

end Calculator
