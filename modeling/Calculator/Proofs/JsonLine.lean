import Calculator.Proofs.NumberText
import Calculator.Reply

/-!
# Bodies stand on one line

Neither a written number nor an escaped text contains a control character, so that no body is broken
into lines.

* `Layout.isNumeric_write`: the characters of written numbers
* `Json.isGraphic_object`: no control character is in a body
* `Reply.json_one_line`: a body neither contains nor ends in what ends a line
-/

namespace Calculator

/-! ## Characters of numbers -/

/-- The character occurs in written numbers. -/
def IsNumeric (c : Char) : Prop := c.isDigit = true ∨ c ∈ ['.', '-', '+', 'e']

namespace Decimal

variable (d : Decimal)

theorem isNumeric_replicate (n : Nat) : ∀ c ∈ List.replicate n '0', IsNumeric c := by
  intro c hc
  rw [List.eq_of_mem_replicate hc]
  exact .inl rfl

theorem isNumeric_digitChars : ∀ c ∈ d.digitChars, IsNumeric c :=
  fun _ hc => .inl (isDigit_of_mem_digitChars hc)

theorem isNumeric_positional (pointZero : Bool) : ∀ c ∈ d.positional pointZero, IsNumeric c := by
  have hpoint : IsNumeric '.' := .inr (by decide)
  have hzero : IsNumeric '0' := .inl rfl
  have hdigits := d.isNumeric_digitChars
  dsimp only [positional]
  split
  · simp only [List.forall_mem_cons, List.forall_mem_append]
    exact ⟨hzero, hpoint, isNumeric_replicate _, hdigits⟩
  split
  · simp only [List.forall_mem_cons, List.forall_mem_append]
    exact ⟨fun c hc => hdigits c (List.mem_of_mem_take hc), hpoint,
      fun c hc => hdigits c (List.mem_of_mem_drop hc)⟩
  · simp only [List.forall_mem_append]
    refine ⟨⟨hdigits, isNumeric_replicate _⟩, ?_⟩
    split
    · simp [hpoint, hzero]
    · simp

theorem isNumeric_integerChars (plus : Bool) (k : ℤ) :
    ∀ c ∈ integerChars plus k, IsNumeric c := by
  have hdigits : ∀ c ∈ Nat.toDigits 10 k.natAbs, IsNumeric c := fun _ hc =>
    .inl (isDigit_of_mem_toDigits hc)
  unfold integerChars
  split_ifs
  · exact List.forall_mem_cons.mpr ⟨.inr (by decide), hdigits⟩
  · exact List.forall_mem_cons.mpr ⟨.inr (by decide), hdigits⟩
  · exact hdigits

theorem isNumeric_withExponent (plus : Bool) (places : Nat) :
    ∀ c ∈ d.withExponent plus places, IsNumeric c := by
  have hdigits := d.isNumeric_digitChars
  have hfraction : ∀ c ∈ (d.digitChars.drop 1).rightpad places '0', IsNumeric c :=
    List.forall_mem_append.mpr
      ⟨fun c hc => hdigits c (List.mem_of_mem_drop hc), isNumeric_replicate _⟩
  dsimp only [withExponent]
  simp only [List.forall_mem_append, List.forall_mem_cons]
  refine ⟨⟨fun c hc => hdigits c (List.mem_of_mem_take hc), ?_⟩, .inr (by decide),
    isNumeric_integerChars _ _⟩
  split
  · simp
  · exact List.forall_mem_cons.mpr ⟨.inr (by decide), hfraction⟩

end Decimal

theorem Layout.isNumeric_writeMagnitude (l : Layout) (n : Nat) :
    ∀ c ∈ l.writeMagnitude n, IsNumeric c := by
  dsimp only [writeMagnitude]
  split
  · exact Decimal.isNumeric_positional _ _
  · exact Decimal.isNumeric_withExponent _ _ _

theorem Layout.isNumeric_write (l : Layout) (x : Float) : ∀ c ∈ l.write x, IsNumeric c := by
  have hdigits := l.isNumeric_writeMagnitude (Binary64.code x)
  dsimp only [write]
  split
  · exact List.forall_mem_cons.mpr ⟨.inr (by decide), hdigits⟩
  · exact hdigits

/-! ## Control characters -/

namespace Json

/-- No control character below the space is in the text. -/
def IsGraphic (cs : List Char) : Prop := ∀ c ∈ cs, 0x20 ≤ c.toNat

instance (cs : List Char) : Decidable (IsGraphic cs) :=
  List.decidableBAll (fun c : Char => 0x20 ≤ c.toNat) cs

theorem isGraphic_append {cs ds : List Char} : IsGraphic (cs ++ ds) ↔ IsGraphic cs ∧ IsGraphic ds :=
  List.forall_mem_append

theorem isGraphic_cons {c : Char} {cs : List Char} :
    IsGraphic (c :: cs) ↔ 0x20 ≤ c.toNat ∧ IsGraphic cs :=
  List.forall_mem_cons

theorem isGraphic_write (l : Layout) (x : Float) : IsGraphic (l.write x) := by
  intro c hc
  rcases l.isNumeric_write x c hc with hdigit | hmark
  · exact le_trans (by decide) (toNat_of_isDigit hdigit).1
  · have hmarks : IsGraphic ['.', '-', '+', 'e'] := by decide
    exact hmarks c hmark

theorem isGraphic_hexDigit (n : Nat) : 0x20 ≤ (hexDigit n).toNat := by
  have hall : ∀ k < 16, 0x20 ≤ (Nat.digitChar k).toNat := by decide
  exact hall _ (Nat.mod_lt n (by decide))

/-- Every control character is escaped. -/
theorem isGraphic_escape (c : Char) : IsGraphic (escape c) := by
  unfold escape
  iterate 7
    split
    · decide
  split
  · have hescape : IsGraphic ['\\', 'u', '0', '0'] := by decide
    exact isGraphic_append.mpr ⟨hescape, isGraphic_cons.mpr ⟨isGraphic_hexDigit _,
      isGraphic_cons.mpr ⟨isGraphic_hexDigit _, List.forall_mem_nil _⟩⟩⟩
  · next hle => exact isGraphic_cons.mpr ⟨Nat.not_lt.mp hle, List.forall_mem_nil _⟩

theorem isGraphic_quote (cs : List Char) : IsGraphic (quote cs) := by
  have htext : IsGraphic (cs.flatMap escape) := by
    intro c hc
    obtain ⟨d, -, hd⟩ := List.mem_flatMap.mp hc
    exact isGraphic_escape d c hd
  exact isGraphic_cons.mpr ⟨by decide, isGraphic_append.mpr ⟨htext, by decide⟩⟩

theorem isGraphic_chars (v : Value) : IsGraphic v.chars := by
  cases v with
  | null => decide
  | number x =>
    rw [Value.chars]
    split
    · exact isGraphic_write _ _
    · decide
  | text value => exact isGraphic_quote _

theorem isGraphic_field (entry : String × Value) : IsGraphic (field entry) :=
  isGraphic_append.mpr ⟨isGraphic_quote _, isGraphic_cons.mpr ⟨by decide, isGraphic_chars _⟩⟩

theorem isGraphic_intercalate {pieces : List (List Char)} (h : ∀ piece ∈ pieces, IsGraphic piece) :
    IsGraphic ([','].intercalate pieces) := by
  induction pieces with
  | nil => exact List.forall_mem_nil _
  | cons piece pieces ih =>
    obtain ⟨hpiece, hpieces⟩ := List.forall_mem_cons.mp h
    rcases eq_or_ne pieces [] with rfl | hne
    · rwa [List.intercalate_singleton]
    · rw [List.intercalate_cons_of_ne_nil hne]
      exact isGraphic_append.mpr ⟨isGraphic_append.mpr ⟨hpiece, by decide⟩, ih hpieces⟩

theorem isGraphic_object (fields : List (String × Value)) : IsGraphic (object fields) := by
  have hfields : IsGraphic ([','].intercalate (fields.map field)) :=
    isGraphic_intercalate (List.forall_mem_map.mpr fun entry _ => isGraphic_field entry)
  exact isGraphic_append.mpr ⟨isGraphic_append.mpr ⟨by decide, hfields⟩, by decide⟩

end Json

/-- The body of a reply neither contains a line feed nor ends in a carriage return. -/
theorem Reply.json_one_line (r : Reply) :
    '\n' ∉ r.json.toList ∧ r.json.toList.getLast? ≠ some '\r' := by
  have hgraphic : Json.IsGraphic r.json.toList := by
    rw [json, String.toList_ofList]
    exact Json.isGraphic_object _
  refine ⟨fun hmem => absurd (hgraphic _ hmem) (by decide), fun hlast => ?_⟩
  exact absurd (hgraphic _ (List.mem_of_getLast? hlast)) (by decide)

end Calculator
