import Calculator.Desk
import Calculator.Proofs.Session.Step

/-!
# Runs of sessions that share a memory

At a desk the sessions execute lines in any order, and the memory may also be used directly. What
fails leaves everything as it was.

* `Event`, `Desk.act`, `Desk.after`: what happens at a desk, and what it leaves behind
* `Desk.after_induction`: what every event keeps holds after all of them
* `Desk.isNaN_slot_after`: NaN never gets into the memory
-/

namespace Calculator

/-- What can happen at a desk. -/
inductive Event where
  /-- A line is executed in one of the sessions. -/
  | line (index : Nat) (text : String)
  | store (x : Float)
  | storeText (text : String)
  | clear

namespace Desk

/-- The desk with another memory, if there is one. -/
def keeping (d : Desk) : Except Fault Memory → Desk
  | .ok stored => { d with memory := stored }
  | .error _ => d

/-- The desk after an event. A line that cannot be answered changes nothing. -/
def act (d : Desk) : Event → Desk
  | .line index text => ((d.execute index text).map Prod.snd).getD d
  | .store x => d.keeping (d.memory.store x)
  | .storeText text => d.keeping ((d.memory.storeText text).map Prod.snd)
  | .clear => { d with memory := d.memory.clear }

/-- The desk after several events. -/
def after (d : Desk) (events : List Event) : Desk := events.foldl act d

/-- What holds of a desk and is kept by every event holds after any events. -/
theorem after_induction {P : Desk → Prop} (hact : ∀ d event, P d → P (d.act event)) {d : Desk}
    (hstart : P d) (events : List Event) : P (d.after events) := by
  induction events generalizing d with
  | nil => exact hstart
  | cons event events ih => exact ih (hact d event hstart)

/-! ## Single events -/

section Events

variable {d d' : Desk} {index : Nat} {text : String} {reply : Reply}

/-- A line that is answered is executed in one of the sessions. -/
theorem exists_executes (h : d.execute index text = some (reply, d')) :
    ∃ s step, d.sessions[index]? = some s ∧
      s.Executes d.memory (Command.ofLine text) step ∧ step.reply = reply ∧
      d' = ⟨d.sessions.set index step.session, step.memory⟩ := by
  obtain ⟨s, hs, h⟩ := Option.bind_eq_some_iff.mp h
  obtain ⟨step, hstep, h⟩ := Option.bind_eq_some_iff.mp h
  cases h
  exact ⟨s, step, hs, Session.executes_of_execute hstep, rfl, rfl⟩

theorem exists_execute {s : Session} (hs : d.sessions[index]? = some s)
    (hplaces : s.places ≤ Scientific.maxPlaces) (text : String) :
    ∃ reply d', d.execute index text = some (reply, d') := by
  obtain ⟨step, hstep⟩ := s.exists_execute hplaces d.memory text
  refine ⟨step.reply, ⟨d.sessions.set index step.session, step.memory⟩, ?_⟩
  rw [execute, hs]
  show (s.execute d.memory text >>= _) = _
  rw [hstep]
  rfl

theorem act_line (h : d.execute index text = some (reply, d')) : d.act (.line index text) = d' := by
  rw [act, h]
  rfl

theorem act_store (d : Desk) (x : Float) :
    d.act (.store x) = if Binary64.isNaN x then d else { d with memory := ⟨some x⟩ } := by
  rw [act, Memory.store]
  split <;> rfl

theorem act_storeText_of_none (h : Number.ofText? text = none) (d : Desk) :
    d.act (.storeText text) = d := by
  rw [act, Memory.storeText_of_none h]
  rfl

theorem act_storeText_of_some {x : Float} (h : Number.ofText? text = some x) (d : Desk) :
    d.act (.storeText text) = d.act (.store x) := by
  rw [act, act, Memory.map_storeText_of_some h]

/-- A session that stays as it is leaves all of them as they are. -/
theorem set_sessions_eq_self {s : Session} (hs : d.sessions[index]? = some s) :
    d.sessions.set index s = d.sessions := by
  obtain ⟨hindex, rfl⟩ := List.getElem?_eq_some_iff.mp hs
  exact List.set_getElem_self hindex

end Events

/-! ## Kept by every event -/

theorem length_sessions_act (d : Desk) (event : Event) :
    (d.act event).sessions.length = d.sessions.length := by
  have hkeeping : ∀ stored, (d.keeping stored).sessions = d.sessions := by
    intro stored
    cases stored <;> rfl
  cases event with
  | line index text =>
    rw [act]
    cases h : d.execute index text with
    | none => rfl
    | some answer =>
      obtain ⟨s, step, -, -, -, hd⟩ := exists_executes h
      show answer.2.sessions.length = _
      rw [hd, List.length_set]
  | clear => rfl
  | _ => rw [act, hkeeping]

theorem length_sessions_after (places : List Nat) (events : List Event) :
    ((new places).after events).sessions.length = places.length := by
  have hact : ∀ (d : Desk) event, d.sessions.length = places.length →
      (d.act event).sessions.length = places.length := by
    intro d event h
    rw [length_sessions_act, h]
  exact after_induction hact (List.length_map ..) events

/-- NaN does not get into the memory. -/
theorem isNaN_slot_act {d : Desk} (event : Event)
    (h : ∀ x ∈ d.memory.slot, Binary64.isNaN x = false) :
    ∀ x ∈ (d.act event).memory.slot, Binary64.isNaN x = false := by
  have hstore : ∀ x, ∀ y ∈ (d.act (.store x)).memory.slot, Binary64.isNaN y = false := by
    intro x
    rw [act_store]
    split
    · exact h
    · next hnan => simpa using hnan
  cases event with
  | line index text =>
    rw [act]
    cases hanswer : d.execute index text with
    | none => exact h
    | some answer =>
      obtain ⟨s, step, -, hexecutes, -, hd⟩ := exists_executes hanswer
      show ∀ x ∈ answer.2.memory.slot, _
      rw [hd]
      exact hexecutes.isNaN_slot h
  | store x => exact hstore x
  | storeText text =>
    cases hx : Number.ofText? text with
    | none =>
      rw [act_storeText_of_none hx]
      exact h
    | some x =>
      rw [act_storeText_of_some hx]
      exact hstore x
  | clear => simp [act, Memory.clear, Memory.empty]

theorem isNaN_slot_after (places : List Nat) (events : List Event) :
    ∀ x ∈ ((new places).after events).memory.slot, Binary64.isNaN x = false :=
  after_induction (P := fun d => ∀ x ∈ d.memory.slot, Binary64.isNaN x = false)
    (fun _ event h => isNaN_slot_act event h) (fun x hx => absurd hx (Option.not_mem_none x)) events

end Desk

end Calculator
