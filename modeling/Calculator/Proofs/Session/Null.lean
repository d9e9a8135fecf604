import Calculator.Proofs.Binary64.Sign
import Calculator.Proofs.NumberText
import Calculator.Proofs.Session.Run

/-!
# What a retrieved null means

The body of the reply to a retrieval says null for an empty slot, and it says null for a number that
JSON cannot write. NaN is kept out of the memory for that reason, but the infinities are stored.

* `Json.Value.chars_number_eq_null_iff`: the numbers that are written as null
* `Desk.retrieved_null_iff`: whatever has happened at a desk, a retrieved null means that the slot
  is empty or that it holds an infinity
-/

namespace Calculator

/-! ## The numbers that are written as null -/

/-- JSON has no text for exactly the numbers that are not finite. -/
theorem Json.Value.chars_number_eq_null_iff (x : Float) :
    (number x).chars = "null".toList ↔ Binary64.isFinite x = false := by
  rw [chars]
  split
  · next hfinite =>
    rw [hfinite]
    exact iff_of_false (Layout.write_ne_of_head rfl (by decide) _ x) (by decide)
  · next hfinite => simpa using hfinite

namespace Binary64

/-- The numbers that are neither finite nor NaN. -/
theorem isFinite_eq_false_iff {x : Float} (hnan : isNaN x = false) :
    isFinite x = false ↔ x = Number.infinity ∨ x = -Number.infinity := by
  constructor
  · intro hfinite
    have hcode := code_eq_infinityCode hnan hfinite
    cases hsign : isNegative x with
    | false =>
      rw [← ofCode_code hsign, hcode]
      exact .inl rfl
    | true =>
      refine .inr (eq_of_code_eq ?_ ?_)
      · exact hsign.trans (by decide +kernel)
      · exact hcode.trans (by decide +kernel)
  · rintro (rfl | rfl) <;> decide +kernel

end Binary64

/-! ## Bodies -/

theorem Json.object_eq_iff {entry : String × Value} {name : String} {v w : Value} :
    object [entry, (name, v)] = object [entry, (name, w)] ↔ v.chars = w.chars := by
  simp [object, field]

namespace Reply

/-- The body that shows null as the value. -/
def nullBody : String := "\x7b\"status\":\"success\",\"value\":null\x7d"

theorem json_retrieved_none : (retrieved none).json = nullBody := by decide +kernel

/-- What is held is shown as null exactly if it is infinite. -/
theorem json_retrieved_eq_null_iff {slot : Option Float}
    (hnan : ∀ x ∈ slot, Binary64.isNaN x = false) :
    (retrieved slot).json = nullBody ↔
      slot = none ∨ slot = some Number.infinity ∨ slot = some (-Number.infinity) := by
  cases slot with
  | none => exact iff_of_true json_retrieved_none (.inl rfl)
  | some x =>
    rw [← json_retrieved_none, json, json, String.ofList_inj]
    refine Json.object_eq_iff.trans ((Json.Value.chars_number_eq_null_iff x).trans ?_)
    rw [Binary64.isFinite_eq_false_iff (hnan x rfl)]
    simp

end Reply

/-! ## What has happened at a desk -/

namespace Desk

/-- Retrieving leaves everything as it is. -/
theorem execute_retrieve {d : Desk} {index : Nat} {text : String}
    (hindex : index < d.sessions.length) (hcommand : Command.ofLine text = .retrieve) :
    d.execute index text = some (.retrieved d.memory.slot, d) := by
  have hs := List.getElem?_eq_getElem hindex
  rw [execute, hs]
  show (d.sessions[index].execute d.memory text >>= _) = _
  rw [Session.execute_of_retrieve hcommand]
  show some (Reply.retrieved d.memory.slot, Desk.mk (d.sessions.set index _) d.memory) = _
  rw [set_sessions_eq_self hs]

/-- Whatever has happened, retrieving shows what the slot holds, and shows null exactly if the slot
is empty or holds an infinity. -/
theorem retrieved_null_iff (places : List Nat) (events : List Event) {index : Nat} {text : String}
    (hindex : index < places.length) (hcommand : Command.ofLine text = .retrieve) :
    let d := (new places).after events
    d.execute index text = some (.retrieved d.memory.slot, d) ∧
      ((Reply.retrieved d.memory.slot).json = Reply.nullBody ↔
        d.memory.slot = none ∨ d.memory.slot = some Number.infinity ∨
          d.memory.slot = some (-Number.infinity)) := by
  intro d
  have hlength : index < d.sessions.length := by rwa [length_sessions_after]
  exact ⟨execute_retrieve hlength hcommand,
    Reply.json_retrieved_eq_null_iff (isNaN_slot_after places events)⟩

/-- A stored infinity is shown as null. -/
theorem retrieved_null_of_infinity :
    let d := (new [6]).after [.line 0 "ms inf"]
    d.memory.slot = some Number.infinity ∧ d.execute 0 "mr" = some (.retrieved d.memory.slot, d) ∧
      (Reply.retrieved d.memory.slot).json = Reply.nullBody := by
  have hslot : ((new [6]).after [.line 0 "ms inf"]).memory.slot = some Number.infinity := by
    decide +kernel
  have h := retrieved_null_iff [6] [.line 0 "ms inf"] (show 0 < 1 by decide)
    (show Command.ofLine "mr" = .retrieve by decide +kernel)
  exact ⟨hslot, h.1, h.2.mpr (.inr (.inl hslot))⟩

end Desk

end Calculator
