import Calculator.Proofs.Binary64.Sign
import Calculator.Proofs.JsonLine
import Calculator.Proofs.JsonReader

/-!
# Bodies that are read back

A reader of JSON makes of the body of a reply what the reply says: an object with the same members
in the same order, the same texts to the character and the same finite numbers to the bit.

* `Json.readNumber?_write`: finite numbers are read back
* `Json.readText?_quote`: texts are read back
* `Json.decode?_object`: bodies are read back
* `Reply.decode_json`: what the body of a reply is decoded to
-/

namespace Calculator

/-! ## The front of written numbers -/

/-- The text has a digit in front, and a zero only before a point. -/
def BeginsStrictly (text : List Char) : Prop :=
  (∃ cs, text = '0' :: '.' :: cs) ∨ ∃ c cs, text = c :: cs ∧ c.isDigit = true ∧ c ≠ '0'

theorem Decimal.digits_shortest_ne_zero {tie : Tie} {n : Nat} (hn : n < Binary64.infinityCode)
    (hne : n ≠ 0) : (shortest tie n).digits ≠ 0 := by
  intro hzero
  have hcode := toCode_shortest tie hn
  rw [toCode_eq, Binary64.nearestCode_of_num_eq_zero] at hcode
  · exact hne hcode.symm
  · rw [toRatio, hzero]
    exact Nat.zero_mul _

/-- The digits in front of a text are those that its numeral has before the point. -/
theorem Numeral.whole_of_ofChars? {cs : List Char} {n : Numeral} (h : ofChars? cs = some n) :
    n.whole = cs.takeWhile Char.isDigit := by
  unfold ofChars? at h
  dsimp only at h
  split at h
  · cases h
  split at h
  · rw [← Option.some.inj h]
  · split at h
    · obtain ⟨x, -, rfl⟩ := Option.map_eq_some_iff.mp h
      rfl
    · cases h

namespace Json

/-! ## Numbers -/

theorem beginsStrictly_writeMagnitude {n : Nat} (hn : n < Binary64.infinityCode) :
    BeginsStrictly (number.writeMagnitude n) := by
  by_cases hzero : n = 0
  · subst hzero
    exact .inl ⟨['0'], by decide +kernel⟩
  · obtain ⟨c, cs, hcs, hc⟩ := (Decimal.shortest number.tie n).exists_digitChars_eq_cons
    have hdigits := @Decimal.digits_shortest_ne_zero number.tie n hn hzero
    have hne : c ≠ '0' := by
      refine head_toDigits_ne_zero hdigits c ?_
      rw [← Decimal.digitChars, hcs]
      rfl
    rcases Layout.writeMagnitude_eq_cons hcs with h | ⟨rest, h⟩
    · exact .inl h
    · exact .inr ⟨c, rest, h, hc, hne⟩

theorem isNumberChar_of_isNumeric {c : Char} (h : IsNumeric c) : isNumberChar c = true := by
  rcases h with hdigit | hmark
  · rw [isNumberChar, hdigit, Bool.true_or]
  · have hall : ['.', '-', '+', 'e'].all isNumberChar = true := by decide
    exact List.all_eq_true.mp hall c hmark

/-- What begins strictly and has no bare point is a numeral as JSON wants it. -/
theorem isStrict_of_beginsStrictly {cs : List Char} {n : Numeral} (hcs : BeginsStrictly cs)
    (hn : Numeral.ofChars? cs = some n) (hfraction : n.fraction ≠ some []) :
    isStrict n = true := by
  have hwhole := Numeral.whole_of_ofChars? hn
  rcases hcs with ⟨cs, rfl⟩ | ⟨c, cs, rfl, hc, hne⟩
  · have hzero : n.whole = ['0'] := hwhole
    simp [isStrict, hzero, hfraction]
  · rw [List.takeWhile_cons_of_pos hc] at hwhole
    simp [isStrict, hwhole, hne, hfraction]

/-- A finite magnitude is written as a numeral that is read as it. -/
theorem exists_numeral_of_writeMagnitude {n : Nat} (hn : n < Binary64.infinityCode) :
    ∃ m : Numeral, Numeral.ofChars? (number.writeMagnitude n) = some m ∧ isStrict m = true ∧
      m.toFloat = Binary64.ofCode n := by
  obtain ⟨m, hm, hvalue, hfraction⟩ : ∃ m : Numeral,
      Numeral.ofChars? (number.writeMagnitude n) = some m ∧
        m.toDecimal.value = (Decimal.shortest number.tie n).value ∧ m.fraction ≠ some [] := by
    dsimp only [Layout.writeMagnitude]
    split
    · obtain ⟨whole, fraction, hchars, hne, hwhole, hdigits, hfraction, hvalue⟩ :=
        (Decimal.shortest number.tie n).exists_plain_of_positional number.pointZero
      rw [hchars]
      exact ⟨_, Numeral.ofChars?_plain hne hwhole hdigits, hvalue, hfraction⟩
    · obtain ⟨m, hm, hvalue, hfraction, -⟩ :=
        (Decimal.shortest number.tie n).exists_numeral_of_withExponent number.plus 0
      exact ⟨m, hm, hvalue, hfraction⟩
  refine ⟨m, hm, isStrict_of_beginsStrictly (beginsStrictly_writeMagnitude hn) hm hfraction, ?_⟩
  rw [Numeral.toFloat, Decimal.toFloat, Decimal.toCode_congr hvalue, Decimal.toCode_shortest _ hn]

theorem splitMinus_of_isDigit {c : Char} (h : c.isDigit = true) (cs : List Char) :
    splitMinus (c :: cs) = (none, c :: cs) := by
  unfold splitMinus
  split
  · next heq =>
    rw [(List.cons.inj heq).1] at h
    exact absurd h (by decide)
  · rfl

/-- A finite number is read back, if no more characters of numbers follow. -/
theorem readNumber?_write {x : Float} (hfinite : Binary64.isFinite x = true) {rest : List Char}
    (hrest : ∀ c ∈ rest.head?, isNumberChar c = false) :
    readNumber? (number.write x ++ rest) = some (x, rest) := by
  have hlt : Binary64.code x < Binary64.infinityCode := of_decide_eq_true hfinite
  obtain ⟨m, hm, hstrict, hvalue⟩ := exists_numeral_of_writeMagnitude hlt
  have hspan := span_append (fun c hc => isNumberChar_of_isNumeric
    (number.isNumeric_writeMagnitude (Binary64.code x) c hc)) hrest
  have hread : ∀ sign cs, splitMinus cs = (sign, number.writeMagnitude (Binary64.code x) ++ rest) →
      readNumber? cs = some (Sign.apply sign (Binary64.ofCode (Binary64.code x)), rest) := by
    intro sign cs hcs
    rw [readNumber?, hcs]
    dsimp only
    rw [hspan.1, hspan.2, hm, Option.filter_some, if_pos hstrict, ← hvalue]
    rfl
  rw [Layout.write]
  cases hsign : Binary64.isNegative x with
  | false =>
    obtain ⟨c, cs, hcs, hc⟩ := number.beginsWithDigit_writeMagnitude (Binary64.code x)
    have hnone := hread none (number.writeMagnitude (Binary64.code x) ++ rest) (by
      rw [hcs]
      exact splitMinus_of_isDigit hc _)
    rw [Binary64.ofCode_code hsign] at hnone
    exact hnone
  | true =>
    have hnan := Binary64.isNaN_eq_false_of_isFinite hfinite
    have hneg : Binary64.ofCode (Binary64.code x) = -x := by
      rw [← Binary64.code_neg hnan]
      refine Binary64.ofCode_code ?_
      rw [Binary64.isNegative_neg hnan, hsign]
      rfl
    have hminus := hread (some .minus)
      ('-' :: (number.writeMagnitude (Binary64.code x) ++ rest)) rfl
    rw [hneg] at hminus
    refine hminus.trans ?_
    show some (- -x, rest) = some (x, rest)
    rw [Binary64.neg_neg_eq_self hnan]

/-! ## Texts -/

theorem hexValue?_hexDigit (n : Nat) : hexValue? (hexDigit n) = some (n % 16) := by
  have hall : ∀ k < 16, hexValue? (Nat.digitChar k) = some k := by decide
  exact hall _ (Nat.mod_lt n (by decide))

/-- A control character is read back from its code. -/
theorem readCode?_hexDigits {c : Char} (h : c.toNat < 0x20) (rest : List Char) :
    readCode? ('0' :: '0' :: hexDigit (c.toNat / 16) :: hexDigit c.toNat :: rest) =
      some (c, rest) := by
  have hunit : readUnit? ('0' :: '0' :: hexDigit (c.toNat / 16) :: hexDigit c.toNat :: rest) =
      some (c.toNat, rest) := by
    have hzero : hexValue? '0' = some 0 := rfl
    have hcode : (0 * 16 + c.toNat / 16 % 16) * 16 + c.toNat % 16 = c.toNat := by omega
    rw [readUnit?, hzero, hexValue?_hexDigit, hexValue?_hexDigit]
    show some ((0 * 16 + c.toNat / 16 % 16) * 16 + c.toNat % 16, rest) = _
    rw [hcode]
  rw [readCode?, hunit]
  show (if _ then _ else if _ then _ else some (Char.ofNat c.toNat, rest)) = _
  rw [if_neg (by omega), if_neg (by omega), Char.ofNat_toNat]

/-- A character stands for itself in a text, or it is read back from what follows a backslash. -/
theorem escape_cases (c : Char) :
    (escape c = [c] ∧ c ≠ '"' ∧ c ≠ '\\' ∧ ¬ c.toNat < 0x20) ∨
      ∃ word, escape c = '\\' :: word ∧ ∀ rest, readEscape? (word ++ rest) = some (c, rest) := by
  unfold escape
  iterate 7
    split
    · next hc =>
      subst hc
      exact .inr ⟨_, rfl, fun rest => rfl⟩
  split
  · next hlow => exact .inr ⟨_, rfl, fun rest => readCode?_hexDigits hlow rest⟩
  · exact .inl ⟨rfl, by assumption, by assumption, by assumption⟩

theorem escape_ne_nil (c : Char) : escape c ≠ [] := by
  rcases escape_cases c with ⟨h, -⟩ | ⟨word, h, -⟩ <;> simp [h]

theorem readText?_escape (c : Char) (room : Nat) (rest : List Char) :
    readText? (room + 1) (escape c ++ rest) =
      readText? room rest >>= fun read => some (c :: read.1, read.2) := by
  rcases escape_cases c with ⟨hescape, hquote, hslash, hlow⟩ | ⟨word, hescape, hread⟩
  · rw [hescape, List.singleton_append, readText?, if_neg hquote, if_neg hslash, if_neg hlow]
    rfl
  · rw [hescape, List.cons_append, readText?, if_neg (by decide), if_pos rfl, hread]
    rfl

/-- A text is read back up to the closing quotation mark. -/
theorem readText?_flatMap_escape (cs : List Char) : ∀ {room : Nat}, cs.length < room →
    ∀ rest, readText? room (cs.flatMap escape ++ '"' :: rest) = some (cs, rest) := by
  induction cs with
  | nil =>
    intro room h rest
    obtain ⟨room, rfl⟩ := Nat.exists_eq_add_of_lt h
    rfl
  | cons c cs ih =>
    intro room h rest
    obtain ⟨room, rfl⟩ : ∃ room', room = room' + 1 := ⟨room - 1, by omega⟩
    rw [List.flatMap_cons, List.append_assoc, readText?_escape,
      ih (by simpa using h) rest]
    rfl

theorem length_le_length_flatMap_escape (cs : List Char) :
    cs.length ≤ (cs.flatMap escape).length := by
  induction cs with
  | nil => exact Nat.le_refl 0
  | cons c cs ih =>
    have hpos := List.length_pos_iff.mpr (escape_ne_nil c)
    rw [List.flatMap_cons, List.length_append, List.length_cons]
    omega

theorem quote_append (cs rest : List Char) :
    quote cs ++ rest = '"' :: (cs.flatMap escape ++ '"' :: rest) := by
  simp [quote]

/-- A quoted text is read back from behind its first quotation mark. -/
theorem readText?_quote (cs rest : List Char) :
    readText? (cs.flatMap escape ++ '"' :: rest).length (cs.flatMap escape ++ '"' :: rest) =
      some (cs, rest) := by
  refine readText?_flatMap_escape cs ?_ rest
  have hle := length_le_length_flatMap_escape cs
  rw [List.length_append, List.length_cons]
  omega

/-! ## Values -/

/-- What stands for a number: JSON has none that is not finite. -/
def Data.ofFloat (x : Float) : Data := if Binary64.isFinite x then .number x else .null

/-- What a value in a body stands for. -/
def Value.data : Value → Data
  | null => .null
  | number value => .ofFloat value
  | text value => .text value

/-- A text goes on with a mark that ends a value in an object. -/
def EndsMember (rest : List Char) : Prop := ∃ cs, rest = ',' :: cs ∨ rest = '\x7d' :: cs

theorem EndsMember.isNumberChar {rest : List Char} (h : EndsMember rest) :
    ∀ c ∈ rest.head?, isNumberChar c = false := by
  obtain ⟨cs, rfl | rfl⟩ := h <;> rintro c ⟨⟩ <;> decide

theorem skip_of_not_isSpace {c : Char} (h : isSpace c = false) (cs : List Char) :
    skip (c :: cs) = c :: cs :=
  List.dropWhile_cons_of_neg (by simp [h])

theorem readValue?_quote (room : Nat) (cs rest : List Char) :
    readValue? (room + 1) (quote cs ++ rest) = some (.text (String.ofList cs), rest) := by
  rw [quote_append, readValue?, skip_of_not_isSpace (by decide)]
  show (readText? _ _).map _ = _
  rw [readText?_quote]
  rfl

/-- What begins like a number is read as a number. -/
theorem readValue?_of_head {c : Char} (h : c.isDigit = true ∨ c = '-') (room : Nat)
    (cs : List Char) :
    readValue? (room + 1) (c :: cs) =
      (readNumber? (c :: cs)).map fun (x, rest) => (.number x, rest) := by
  have hspace : isSpace c = false := by
    rw [← Bool.not_eq_true]
    intro hspace
    have hall : [' ', '\t', '\n', '\r'].all (fun c => !(c.isDigit || c == '-')) = true := by decide
    have hc := List.all_eq_true.mp hall c (by simpa [isSpace] using hspace)
    rcases h with hdigit | rfl
    · simp [hdigit] at hc
    · cases hc
  rw [readValue?, skip_of_not_isSpace hspace]
  split
  iterate 6
    · next heq =>
      obtain ⟨rfl, -⟩ := List.cons.inj heq
      exact absurd h (by decide)
  · rfl

theorem exists_head_write (x : Float) :
    ∃ c cs, number.write x = c :: cs ∧ (c.isDigit = true ∨ c = '-') := by
  obtain ⟨c, cs, hcs, hc⟩ := number.beginsWithDigit_writeMagnitude (Binary64.code x)
  rw [Layout.write]
  split
  · exact ⟨'-', _, rfl, .inr rfl⟩
  · exact ⟨c, cs, hcs, .inl hc⟩

theorem readValue?_write {x : Float} (hfinite : Binary64.isFinite x = true) (room : Nat)
    {rest : List Char} (hrest : EndsMember rest) :
    readValue? (room + 1) (number.write x ++ rest) = some (.number x, rest) := by
  have hread := readNumber?_write hfinite hrest.isNumberChar
  obtain ⟨c, cs, hcs, hc⟩ := exists_head_write x
  rw [hcs, List.cons_append] at hread ⊢
  rw [readValue?_of_head hc, hread]
  rfl

/-- A value in front of a comma or a closing brace is read back. -/
theorem readValue?_chars (v : Value) (room : Nat) {rest : List Char} (hrest : EndsMember rest) :
    readValue? (room + 1) (v.chars ++ rest) = some (v.data, rest) := by
  cases v with
  | null => rfl
  | number x =>
    rw [Value.chars, Value.data, Data.ofFloat]
    split
    · next hfinite => exact readValue?_write hfinite room hrest
    · rfl
  | text value =>
    rw [Value.chars, readValue?_quote, String.ofList_toList]
    rfl

/-! ## Bodies -/

/-- What a field stands for in an object. -/
def member (entry : String × Value) : String × Data := (entry.1, entry.2.data)

theorem field_append (entry : String × Value) (rest : List Char) :
    field entry ++ rest =
      '"' :: (entry.1.toList.flatMap escape ++ '"' :: ':' :: (entry.2.chars ++ rest)) := by
  rw [field, List.append_assoc, quote_append]
  rfl

theorem readMember?_field (entry : String × Value) (room : Nat) {rest : List Char}
    (hrest : EndsMember rest) :
    readMember? (readValue? (room + 1)) (field entry ++ rest) = some (member entry, rest) := by
  rw [field_append, readMember?, skip_of_not_isSpace (by decide)]
  show (readText? _ _).bind _ = _
  rw [readText?_quote]
  show ((readValue? (room + 1) (entry.2.chars ++ rest)).bind fun read =>
    some ((String.ofList entry.1.toList, read.1), read.2)) = _
  rw [readValue?_chars entry.2 room hrest, String.ofList_toList]
  rfl

theorem intercalate_field_cons (entry : String × Value) {fields : List (String × Value)}
    (hne : fields ≠ []) : [','].intercalate ((entry :: fields).map field) =
      field entry ++ ',' :: [','].intercalate (fields.map field) := by
  rw [List.map_cons, List.intercalate_cons_of_ne_nil (by simpa using hne), List.append_assoc]
  rfl

/-- Fields with commas between them are read back up to the closing brace. -/
theorem readItems?_fields (room : Nat) (rest : List Char) (fields : List (String × Value)) :
    fields ≠ [] → ∀ {count : Nat}, fields.length ≤ count →
      readItems? (readMember? (readValue? (room + 1))) '\x7d' count
        ([','].intercalate (fields.map field) ++ '\x7d' :: rest) =
        some (fields.map member, rest) := by
  induction fields with
  | nil => exact fun h => absurd rfl h
  | cons entry fields ih =>
    intro _ count hcount
    obtain ⟨count, rfl⟩ : ∃ count', count = count' + 1 :=
      ⟨count - 1, by rw [List.length_cons] at hcount; omega⟩
    rcases eq_or_ne fields [] with rfl | hne
    · rw [List.map_singleton, List.intercalate_singleton, readItems?,
        readMember?_field entry room ⟨rest, .inr rfl⟩]
      rfl
    · rw [intercalate_field_cons entry hne, List.append_assoc, List.cons_append, readItems?,
        readMember?_field entry room ⟨_, .inl rfl⟩]
      show (readItems? _ _ count _).bind _ = _
      rw [ih hne (by simpa using hcount)]
      rfl

theorem length_le_length_intercalate (fields : List (String × Value)) :
    fields.length ≤ ([','].intercalate (fields.map field)).length := by
  induction fields with
  | nil => exact Nat.le_refl 0
  | cons entry fields ih =>
    have hpos : 0 < (field entry).length := by
      rw [field, quote, List.cons_append, List.length_cons]
      omega
    rcases eq_or_ne fields [] with rfl | hne
    · rw [List.map_singleton, List.intercalate_singleton]
      exact hpos
    · rw [intercalate_field_cons entry hne, List.length_append, List.length_cons, List.length_cons]
      omega

theorem readSeries?_fields (room : Nat) (rest : List Char) (fields : List (String × Value)) :
    readSeries? (readMember? (readValue? (room + 1))) '\x7d'
        ([','].intercalate (fields.map field) ++ '\x7d' :: rest) =
      some (fields.map member, rest) := by
  rcases fields with _ | ⟨entry, fields⟩
  · rfl
  obtain ⟨cs, hcs⟩ : ∃ cs,
      [','].intercalate ((entry :: fields).map field) ++ '\x7d' :: rest = '"' :: cs := by
    rcases eq_or_ne fields [] with rfl | hne
    · rw [List.map_singleton, List.intercalate_singleton, field_append]
      exact ⟨_, rfl⟩
    · rw [intercalate_field_cons entry hne, List.append_assoc, field_append]
      exact ⟨_, rfl⟩
  have hlength := length_le_length_intercalate (entry :: fields)
  have hitems := @readItems?_fields room rest (entry :: fields) (List.cons_ne_nil _ _)
    ([','].intercalate ((entry :: fields).map field) ++ '\x7d' :: rest).length (by
      rw [List.length_append]
      omega)
  rw [hcs] at hitems ⊢
  rw [readSeries?, skip_of_not_isSpace (by decide)]
  exact (if_neg (by decide)).trans hitems

/-- A body is read as one object with what its fields stand for, in their order. -/
theorem decode?_object (fields : List (String × Value)) :
    decode? (String.ofList (object fields)) = some (.object (fields.map member)) := by
  have hobject : object fields =
      '\x7b' :: ([','].intercalate (fields.map field) ++ '\x7d' :: []) := rfl
  have hread : ∀ room, readValue? (room + 2) (object fields) =
      some (.object (fields.map member), []) := by
    intro room
    rw [hobject, readValue?, skip_of_not_isSpace (by decide)]
    show (readSeries? _ _ _).map _ = _
    rw [readSeries?_fields]
    rfl
  rw [decode?, String.toList_ofList, hobject, List.length_cons, ← hobject, hread]
  rfl

end Json

/-! ## Replies -/

namespace Reply

/-- What a reply says, as the members of an object. -/
def members : Reply → List (String × Json.Data)
  | calculated result scientific =>
    [("status", .text "success"), ("result", .ofFloat result), ("scientific", .text scientific)]
  | retrieved (some value) => [("status", .text "success"), ("value", .ofFloat value)]
  | retrieved none => [("status", .text "success"), ("value", .null)]
  | acknowledged message => [("status", .text "success"), ("message", .text message)]
  | failed message => [("status", .text "error"), ("message", .text message)]

theorem map_member_fields (r : Reply) : r.fields.map Json.member = r.members := by
  cases r with
  | retrieved value => cases value <;> rfl
  | _ => rfl

/-- The body of a reply is one line without control characters, and a reader of JSON makes of it
one object with the members of the reply: every text to the character, every finite number to the
bit, and null for every other number and for an empty slot. -/
theorem decode_json (r : Reply) :
    Json.IsGraphic r.json.toList ∧ Json.decode? r.json = some (.object r.members) := by
  rw [json, String.toList_ofList, ← map_member_fields]
  exact ⟨Json.isGraphic_object _, Json.decode?_object _⟩

end Reply

end Calculator
