import Mathlib
import Calculator.Binary64

/-!
# The sign of a double

The sign bit and the code make up a double, and negation changes the sign bit alone.

* `toNat_toBits`: a double from its two parts
* `toBits_ofBits`, `code_ofCode`: a double from its bits
* `toNat_toBits_neg`: the bits of a negated double
* `code_neg`, `isNegative_neg`, `neg_neg_eq_self`: what negation does to the parts, once and twice
* `code_eq_zero_iff`: the two zeros
-/

namespace Calculator.Binary64

open Float.Model (Format)
open Float.Model.UnpackedFloat

/-! ## The parts of a double -/

theorem toNat_toBits (x : Float) :
    x.toBits.toNat = if isNegative x then signBit + code x else code x := by
  have hlt : x.toBits.toNat < 2 * signBit := x.toBits.toNat_lt
  rw [code, isNegative]
  unfold signBit blockSize at *
  simp only [decide_eq_true_eq]
  split <;> omega

theorem code_lt (x : Float) : code x < signBit := Nat.mod_lt _ (by decide)

/-- A double is known by its sign and its code. -/
theorem eq_of_code_eq {x y : Float} (hsign : isNegative x = isNegative y)
    (hcode : code x = code y) : x = y := by
  apply Float.toBits_inj.mp
  apply UInt64.toNat_inj.mp
  rw [toNat_toBits, toNat_toBits, hsign, hcode]

theorem code_eq_zero_iff {x : Float} : code x = 0 ↔ x = 0.0 ∨ x = -0.0 := by
  constructor
  · intro hcode
    cases hsign : isNegative x with
    | false => exact .inl (eq_of_code_eq (hsign.trans (by decide)) (hcode.trans (by decide)))
    | true => exact .inr (eq_of_code_eq (hsign.trans (by decide)) (hcode.trans (by decide)))
  · rintro (rfl | rfl) <;> decide

theorem isNaN_eq_false_of_isFinite {x : Float} (h : isFinite x = true) : isNaN x = false :=
  decide_eq_false (Nat.lt_asymm (of_decide_eq_true h))

theorem code_eq_infinityCode {x : Float} (hnan : isNaN x = false) (hfinite : isFinite x = false) :
    code x = infinityCode :=
  le_antisymm (not_lt.mp (of_decide_eq_false hnan)) (not_lt.mp (of_decide_eq_false hfinite))

/-- The bits that a sign, an exponent field and a fraction field make up. -/
theorem toNat_packComponents (s : Float.Model.UnpackedFloat.Sign)
    (e : BitVec Format.binary64.exponentBits)
    (m : BitVec Format.binary64.mantissaBitsWithoutImplicit) :
    (packComponents Format.binary64 s e m).toNat =
      s.toBitVec.toNat * signBit + e.toNat * blockSize + m.toNat := by
  have he : e.toNat < 2 ^ 11 := e.isLt
  have hm : m.toNat < 2 ^ 52 := m.isLt
  have hjoin : ∀ a : ℕ, a <<< 52 = a * blockSize := fun a => Nat.shiftLeft_eq a 52
  rw [packComponents, BitVec.toNat_append, BitVec.toNat_append, ← Nat.shiftLeft_add_eq_or_of_lt he,
    ← Nat.shiftLeft_add_eq_or_of_lt hm]
  show (_ <<< 11 + _) <<< 52 + _ = _
  rw [hjoin, Nat.shiftLeft_eq, add_mul, mul_assoc]
  rfl

/-- Bits whose code does not go beyond that of infinity are not those of NaN. -/
theorem isNaNBits_eq_false {b : BitVec Format.binary64.numBits}
    (h : b.toNat % signBit ≤ infinityCode) : isNaNBits b = false := by
  obtain ⟨s, e, m, rfl⟩ : ∃ s e m, packComponents Format.binary64 s e m = b :=
    ⟨_, _, _, packComponents_unpackSign_unpackExponent_unpackMantissa b⟩
  have he : e.toNat < 2 ^ 11 := e.isLt
  have hm : m.toNat < 2 ^ 52 := m.isLt
  rw [isNaNBits, unpackMantissa_packComponents, unpackExponent_packComponents]
  refine decide_eq_false ?_
  rintro ⟨hfield, hm0⟩
  have hgreatest : e.toNat = 2047 := by
    rw [hfield]
    rfl
  have hpos : m.toNat ≠ 0 := fun hzero => hm0 (BitVec.eq_of_toNat_eq hzero)
  rw [toNat_packComponents, hgreatest] at h
  unfold infinityCode signBit blockSize at h
  omega

/-- A double keeps the bits it is made of, unless they are those of NaN. -/
theorem toBits_ofBits {b : UInt64} (h : b.toNat % signBit ≤ infinityCode) :
    (Float.ofBits b).toBits = b := by
  have hpack : (Float.ofBits b).toBits.toBitVec =
      (unpack Format.binary64 b.toBitVec).pack Format.binary64 := rfl
  rw [pack_unpack, isNaNBits_eq_false h, if_neg (by decide)] at hpack
  exact UInt64.toBitVec_inj.mp hpack

section OfCode

variable {n : ℕ}

theorem toNat_toBits_ofCode (h : n ≤ infinityCode) : (ofCode n).toBits.toNat = n := by
  have hword : n.toUInt64.toNat = n := by
    refine (UInt64.toNat_ofNat' ..).trans (Nat.mod_eq_of_lt ?_)
    unfold infinityCode blockSize at h
    omega
  have hcode : n.toUInt64.toNat % signBit ≤ infinityCode := by
    rw [hword]
    exact (Nat.mod_le _ _).trans h
  rw [ofCode, toBits_ofBits hcode, hword]

theorem code_ofCode (h : n ≤ infinityCode) : code (ofCode n) = n := by
  rw [code, toNat_toBits_ofCode h]
  exact Nat.mod_eq_of_lt (h.trans_lt (by decide))

theorem isNegative_ofCode (h : n ≤ infinityCode) : isNegative (ofCode n) = false := by
  rw [isNegative, toNat_toBits_ofCode h]
  exact decide_eq_false (Nat.not_le.mpr (h.trans_lt (by decide)))

end OfCode

/-! ## Negation -/

theorem neg_unpack_packComponents {spec : Format} (s : Float.Model.UnpackedFloat.Sign)
    (e : BitVec spec.exponentBits) (m : BitVec spec.mantissaBitsWithoutImplicit) :
    (unpack spec (packComponents spec s e m)).neg = unpack spec (packComponents spec (-s) e m) := by
  unfold unpack
  simp only [unpackMantissa_packComponents, unpackExponent_packComponents,
    unpackSign_packComponents, Sign.ofBitVec_toBitVec]
  split_ifs <;> rfl

/-- Negating a number that is not NaN changes the sign bit and nothing else. -/
theorem toNat_toBits_neg {x : Float} (h : isNaN x = false) :
    (-x).toBits.toNat = if isNegative x then code x else signBit + code x := by
  obtain ⟨s, e, m, hx⟩ : ∃ s e m, packComponents Format.binary64 s e m = x.toBits.toBitVec :=
    ⟨_, _, _, packComponents_unpackSign_unpackExponent_unpackMantissa _⟩
  have hbits : x.toBits.toNat = s.toBitVec.toNat * signBit + e.toNat * blockSize + m.toNat := by
    rw [← toNat_packComponents, hx]
    rfl
  -- Negation unpacks, turns the sign and packs again. The fields come back as they were unless they
  -- are those of NaN, of which there is only one after packing.
  have hneg : (-x).toBits.toBitVec =
      (unpack Format.binary64 (packComponents Format.binary64 (-s) e m)).pack Format.binary64 := by
    rw [← neg_unpack_packComponents, hx]
    rfl
  have he : e.toNat < 2 ^ 11 := e.isLt
  have hm : m.toNat < 2 ^ 52 := m.isLt
  have hs : s.toBitVec.toNat + (-s).toBitVec.toNat = 1 := by cases s <;> rfl
  have hmod : ∀ t : ℕ, (t * signBit + e.toNat * blockSize + m.toNat) % signBit =
      e.toNat * blockSize + m.toNat := by
    intro t
    rw [add_assoc, Nat.mul_comm, Nat.mul_add_mod, Nat.mod_eq_of_lt]
    unfold signBit blockSize
    omega
  have hnumber : isNaNBits (packComponents Format.binary64 (-s) e m) = false := by
    apply isNaNBits_eq_false
    have hcode : code x ≤ infinityCode := not_lt.mp (of_decide_eq_false h)
    rw [code, hbits, hmod] at hcode
    rw [toNat_packComponents, hmod]
    exact hcode
  rw [pack_unpack, hnumber, if_neg (by decide)] at hneg
  have hbits' : (-x).toBits.toNat =
      (-s).toBitVec.toNat * signBit + e.toNat * blockSize + m.toNat := by
    rw [← toNat_packComponents, ← hneg]
    rfl
  rw [hbits', code, isNegative, hbits]
  unfold signBit blockSize
  simp only [decide_eq_true_eq]
  split <;> omega

section Number

variable {x : Float}

theorem code_neg (h : isNaN x = false) : code (-x) = code x := by
  have hlt := code_lt x
  rw [code, toNat_toBits_neg h]
  unfold signBit blockSize at *
  split <;> omega

theorem isNegative_neg (h : isNaN x = false) : isNegative (-x) = !isNegative x := by
  have hlt := code_lt x
  rw [isNegative, toNat_toBits_neg h]
  cases isNegative x with
  | false => exact decide_eq_true (Nat.le_add_right _ _)
  | true => exact decide_eq_false (Nat.not_le.mpr hlt)

theorem isNaN_neg (h : isNaN x = false) : isNaN (-x) = false := by
  rw [isNaN, code_neg h]
  exact h

theorem isFinite_neg (h : isNaN x = false) : isFinite (-x) = isFinite x := by
  rw [isFinite, code_neg h, isFinite]

theorem neg_neg_eq_self (h : isNaN x = false) : -(-x) = x := by
  have h' := isNaN_neg h
  apply eq_of_code_eq
  · rw [isNegative_neg h', isNegative_neg h, Bool.not_not]
  · rw [code_neg h', code_neg h]

end Number

end Calculator.Binary64
