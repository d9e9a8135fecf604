import Calculator.Proofs.Session.Run

/-!
# The log of a desk

What sessions that share a memory do to each other is kept in one log of what succeeded, the latest
first. The memory holds what was stored last, unless it has been cleared since, and each session
remembers the value of its own latest expression.

* `Deed`, `Log`: what can succeed, and what the log says
* `Command.deed?`, `Log.record`: what succeeds next, as the log alone decides it
* `Desk.Agrees`: a desk agrees with a log
* `Desk.after_follows_log`: after any events a desk agrees with their log, and the log decides which
  line fails next
-/

namespace Calculator

/-- What can succeed at a desk. -/
inductive Deed where
  /-- The session with this index has calculated a value. -/
  | calculated (index : Nat) (x : Float)
  | stored (x : Float)
  | retrieved
  | cleared
  deriving DecidableEq

namespace Deed

/-- What a deed leaves in the slot, if it changes the slot. -/
def slot? : Deed → Option (Option Float)
  | stored x => some (some x)
  | cleared => some none
  | _ => none

/-- The value that a deed leaves in one of the sessions, if it leaves one there. -/
def resultOf? (index : Nat) : Deed → Option Float
  | calculated i x => if i = index then some x else none
  | _ => none

/-- Storing a number, if there is one and it is not NaN. -/
def storing? (x? : Option Float) : Option Deed :=
  (x?.filter fun x => !Binary64.isNaN x).map stored

end Deed

/-- What a command does if it succeeds, given the last result of the session that executes it. -/
def Command.deed? (index : Nat) (lastResult : Option Float) : Command → Option Deed
  | evaluate expression => (Calculator.evaluate expression).toOption.map (.calculated index)
  | store value => Deed.storing? (Session.offered lastResult value)
  | retrieve => some .retrieved
  | clear => some .cleared

/-- Whether a command is an expression, and not one of the memory commands. -/
def Command.isExpression : Command → Bool
  | evaluate _ => true
  | _ => false

/-- What has succeeded, the latest first. -/
abbrev Log := List Deed

namespace Log

/-- What was stored last, if the memory has not been cleared since. -/
def slot (log : Log) : Option Float := (log.findSome? Deed.slot?).getD none

/-- The value of the latest expression of a session. -/
def lastResult (log : Log) (index : Nat) : Option Float := log.findSome? (Deed.resultOf? index)

/-- What an event does if it succeeds. -/
def next? (log : Log) : Event → Option Deed
  | .line index text => (Command.ofLine text).deed? index (log.lastResult index)
  | .store x => Deed.storing? (some x)
  | .storeText text => Deed.storing? (Number.ofText? text)
  | .clear => some .cleared

/-- The log after another event. -/
def record (log : Log) (event : Event) : Log := (log.next? event).toList ++ log

/-- The log of several events. -/
def ofEvents (events : List Event) : Log := events.foldl record []

variable (log : Log) (event : Event)

/-- What is looked up in a log is looked up in its latest entry first. -/
theorem findSome?_record {α : Type} (f : Deed → Option α) :
    (log.record event).findSome? f = ((log.next? event).bind f).or (log.findSome? f) := by
  rw [record, List.findSome?_append]
  cases log.next? event with
  | none => rfl
  | some deed =>
    show (List.findSome? f [deed]).or _ = _
    rw [List.findSome?_singleton]
    rfl

theorem slot_record :
    (log.record event).slot = ((log.next? event).bind Deed.slot?).getD log.slot := by
  rw [slot, findSome?_record]
  cases (log.next? event).bind Deed.slot? <;> rfl

theorem lastResult_record (index : Nat) : (log.record event).lastResult index =
    ((log.next? event).bind (Deed.resultOf? index)).or (log.lastResult index) :=
  log.findSome?_record event (Deed.resultOf? index)

end Log

/-! ## Single deeds -/

namespace Deed

variable {x : Float}

theorem storing?_of_nan (h : Binary64.isNaN x = true) : storing? (some x) = none := by
  simp [storing?, h]

theorem storing?_of_not_nan (h : Binary64.isNaN x = false) :
    storing? (some x) = some (stored x) := by
  simp [storing?, h]

theorem resultOf?_storing? (index : Nat) (x? : Option Float) :
    (storing? x?).bind (resultOf? index) = none := by
  rw [storing?]
  cases x?.filter fun x => !Binary64.isNaN x <;> rfl

end Deed

/-- A command leaves no value in the other sessions. -/
theorem Command.resultOf?_deed? {index other : Nat} (h : index ≠ other)
    (lastResult : Option Float) (command : Command) :
    (command.deed? index lastResult).bind (Deed.resultOf? other) = none := by
  cases command with
  | evaluate expression =>
    rw [deed?]
    cases Calculator.evaluate expression with
    | error fault => rfl
    | ok x => exact if_neg h
  | store value => exact Deed.resultOf?_storing? other _
  | retrieve => rfl
  | clear => rfl

namespace Session.Executes

variable {s : Session} {m : Memory} {command : Command} {step : Step}

/-- What executing a command comes to is what the command does according to the last result. -/
theorem follows (h : s.Executes m command step) (index : Nat) :
    let deed? := command.deed? index s.lastResult
    step.reply.isError = deed?.isNone ∧
      step.memory.slot = (deed?.bind Deed.slot?).getD m.slot ∧
      step.session =
        { s with lastResult := (deed?.bind (Deed.resultOf? index)).or s.lastResult } := by
  cases h with
  | calculated hne hvalue hplaces =>
    simp [Command.deed?, hvalue, Except.toOption, Reply.isError, Deed.slot?, Deed.resultOf?]
  | faulty hne hfault => simp [Command.deed?, hfault, Except.toOption, Reply.isError]
  | blank =>
    have hempty : (evaluate "").toOption = none := by decide +kernel
    simp [Command.deed?, hempty, Reply.isError]
  | stored hoffered hnan =>
    simp [Command.deed?, hoffered, Deed.storing?_of_not_nan hnan, Reply.isError, Deed.slot?,
      Deed.resultOf?]
  | nanOffered hoffered hnan =>
    simp [Command.deed?, hoffered, Deed.storing?_of_nan hnan, Reply.isError]
  | notNumeric hoffered => simp [Command.deed?, offered, hoffered, Deed.storing?, Reply.isError]
  | nothingStored hlast =>
    have hdeed : (Command.store none).deed? index s.lastResult = none := by
      rw [hlast]
      rfl
    simp [hdeed, Reply.isError]
  | retrieved => exact ⟨rfl, rfl, rfl⟩
  | cleared => exact ⟨rfl, rfl, rfl⟩

/-- What fails and what retrieves leaves everything as it is. -/
theorem unchanged (h : s.Executes m command step)
    (hkind : step.reply.isError = true ∨ command = .retrieve) :
    step.session = s ∧ step.memory = m := by
  cases h with
  | calculated => exact absurd hkind (by simp [Reply.isError])
  | stored => exact absurd hkind (by simp [Reply.isError])
  | cleared => exact absurd hkind (by simp [Reply.isError])
  | _ => exact ⟨rfl, rfl⟩

/-- Only the memory commands change the memory. -/
theorem memory_eq (h : s.Executes m command step) (hcommand : command.isExpression = true) :
    step.memory = m := by
  cases h with
  | stored => cases hcommand
  | cleared => cases hcommand
  | _ => rfl

/-- Only expressions change the session. -/
theorem session_eq (h : s.Executes m command step) (hcommand : command.isExpression = false) :
    step.session = s := by
  cases h with
  | calculated => cases hcommand
  | _ => rfl

end Session.Executes

/-! ## The log and the desk -/

/-- A line goes to one of that many sessions. -/
def Event.Within (sessions : Nat) : Event → Prop
  | .line index _ => index < sessions
  | _ => True

namespace Desk

/-- The memory holds what the log says, and so does every session. -/
structure Agrees (places : List Nat) (d : Desk) (log : Log) : Prop where
  slot : d.memory.slot = log.slot
  sessions : ∀ index,
    d.sessions[index]? = places[index]?.map fun p => Session.mk p (log.lastResult index)

namespace Agrees

variable {places : List Nat} {d : Desk} {log : Log}

theorem new (places : List Nat) : Agrees places (Desk.new places) [] where
  slot := rfl
  sessions _ := List.getElem?_map ..

/-- A line is answered as the log says, and leaves a desk that agrees with the new log. -/
theorem execute (h : Agrees places d log) (hplaces : ∀ p ∈ places, p ≤ Scientific.maxPlaces)
    {index : Nat} (hindex : index < places.length) (text : String) :
    ∃ reply d', d.execute index text = some (reply, d') ∧
      reply.isError = ((Command.ofLine text).deed? index (log.lastResult index)).isNone ∧
      Agrees places d' (log.record (.line index text)) := by
  have hs := h.sessions index
  rw [List.getElem?_eq_getElem hindex, Option.map_some] at hs
  obtain ⟨reply, d', hanswer⟩ := exists_execute hs (hplaces _ (List.getElem_mem hindex)) text
  obtain ⟨s, step, hs', hexecutes, rfl, rfl⟩ := exists_executes hanswer
  obtain rfl := Option.some.inj (hs'.symm.trans hs)
  obtain ⟨hreply, hmemory, hsession⟩ := hexecutes.follows index
  refine ⟨_, _, hanswer, hreply, ?_, fun other => ?_⟩
  · rw [Log.slot_record, ← h.slot]
    exact hmemory
  · rw [Log.lastResult_record]
    by_cases hother : index = other
    · subst hother
      rw [List.getElem?_set_self (List.getElem?_eq_some_iff.mp hs).1, hsession,
        List.getElem?_eq_getElem hindex]
      rfl
    · rw [List.getElem?_set_ne hother, h.sessions, Log.next?,
        Command.resultOf?_deed? hother, Option.none_or]

theorem act_store (h : Agrees places d log) (x : Float) :
    Agrees places (d.act (.store x)) (log.record (.store x)) := by
  rw [Desk.act_store]
  constructor
  · rw [Log.slot_record, Log.next?, ← h.slot]
    split
    · next hnan => rw [Deed.storing?_of_nan hnan]; rfl
    · next hnan => rw [Deed.storing?_of_not_nan (by simpa using hnan)]; rfl
  · intro index
    rw [Log.lastResult_record, Log.next?, Deed.resultOf?_storing?, Option.none_or, ← h.sessions]
    split <;> rfl

theorem act (h : Agrees places d log) (hplaces : ∀ p ∈ places, p ≤ Scientific.maxPlaces)
    {event : Event} (hevent : event.Within places.length) :
    Agrees places (d.act event) (log.record event) := by
  cases event with
  | line index text =>
    obtain ⟨reply, d', hanswer, -, hd'⟩ := h.execute hplaces hevent text
    rwa [act_line hanswer]
  | store x => exact h.act_store x
  | storeText text =>
    cases hx : Number.ofText? text with
    | none =>
      rw [act_storeText_of_none hx, Log.record, Log.next?, hx]
      exact h
    | some x =>
      rw [act_storeText_of_some hx, Log.record, Log.next?, hx]
      exact h.act_store x
  | clear => exact ⟨by rw [Log.slot_record]; rfl, h.sessions⟩

theorem after {events : List Event} (h : Agrees places d log)
    (hplaces : ∀ p ∈ places, p ≤ Scientific.maxPlaces)
    (hevents : ∀ event ∈ events, event.Within places.length) :
    Agrees places (d.after events) (events.foldl Log.record log) := by
  induction events generalizing d log with
  | nil => exact h
  | cons event events ih =>
    obtain ⟨hevent, hevents⟩ := List.forall_mem_cons.mp hevents
    exact ih (h.act hplaces hevent) hevents

end Agrees

section Frame

variable {d d' : Desk} {index : Nat} {text : String} {reply : Reply}

theorem eq_of_execute (h : d.execute index text = some (reply, d'))
    (hkind : reply.isError = true ∨ Command.ofLine text = .retrieve) : d' = d := by
  obtain ⟨s, step, hs, hexecutes, rfl, rfl⟩ := exists_executes h
  obtain ⟨hsession, hmemory⟩ := hexecutes.unchanged hkind
  rw [hsession, hmemory, set_sessions_eq_self hs]

theorem memory_of_execute (h : d.execute index text = some (reply, d'))
    (hcommand : (Command.ofLine text).isExpression = true) : d'.memory = d.memory := by
  obtain ⟨s, step, -, hexecutes, -, rfl⟩ := exists_executes h
  exact hexecutes.memory_eq hcommand

theorem sessions_of_execute (h : d.execute index text = some (reply, d'))
    (hcommand : (Command.ofLine text).isExpression = false) : d'.sessions = d.sessions := by
  obtain ⟨s, step, hs, hexecutes, -, rfl⟩ := exists_executes h
  show d.sessions.set index step.session = d.sessions
  rw [hexecutes.session_eq hcommand, set_sessions_eq_self hs]

end Frame

/-- Whatever happens at a desk, it agrees with the log of what has succeeded, and its memory does
not hold NaN. The next line is answered with a failure exactly if the log has nothing to record for
it. A failure and a retrieval change nothing, an expression does not change the memory, and a memory
command does not change the sessions. -/
theorem after_follows_log (places : List Nat) (events : List Event)
    (hplaces : ∀ p ∈ places, p ≤ Scientific.maxPlaces)
    (hevents : ∀ event ∈ events, event.Within places.length) :
    let d := (new places).after events
    let log := Log.ofEvents events
    Agrees places d log ∧ (∀ x ∈ d.memory.slot, Binary64.isNaN x = false) ∧
      ∀ index < places.length, ∀ text, ∃ reply d', d.execute index text = some (reply, d') ∧
        d' = d.act (.line index text) ∧
        (reply.isError = true ↔ log.next? (.line index text) = none) ∧
        (reply.isError = true ∨ Command.ofLine text = .retrieve → d' = d) ∧
        ((Command.ofLine text).isExpression = true → d'.memory = d.memory) ∧
        ((Command.ofLine text).isExpression = false → d'.sessions = d.sessions) := by
  intro d log
  have hagrees : Agrees places d log := (Agrees.new places).after hplaces hevents
  refine ⟨hagrees, isNaN_slot_after places events, fun index hindex text => ?_⟩
  obtain ⟨reply, d', hanswer, hreply, -⟩ := hagrees.execute hplaces hindex text
  refine ⟨reply, d', hanswer, (act_line hanswer).symm, ?_, eq_of_execute hanswer,
    memory_of_execute hanswer, sessions_of_execute hanswer⟩
  rw [hreply, Option.isNone_iff_eq_none]
  rfl

/-- Of two sessions, the second stores its last result and then fails twice. -/
theorem after_follows_log_two :
    let events : List Event := [.line 0 "1+2", .line 1 "2*4", .line 0 "ms", .line 1 "MS",
      .line 1 "1/0", .line 1 "ms twelve", .line 0 "mr"]
    let d := (new [6, 2]).after events
    (∀ p ∈ [6, 2], p ≤ Scientific.maxPlaces) ∧ (∀ event ∈ events, event.Within 2) ∧
      d.memory.slot = some 8.0 ∧ d.sessions[0]? = some ⟨6, some 3.0⟩ ∧
      ∃ reply d', d.execute 0 "5-" = some (reply, d') ∧ reply.isError = true ∧ d' = d := by
  intro events d
  have hplaces : ∀ p ∈ [6, 2], p ≤ Scientific.maxPlaces := by decide
  have hevents : ∀ event ∈ events, event.Within 2 := by simp [events, Event.Within]
  obtain ⟨hagrees, -, hlines⟩ := after_follows_log [6, 2] events hplaces hevents
  have hslot : (Log.ofEvents events).slot = some 8.0 := by decide +kernel
  have hlast : (Log.ofEvents events).lastResult 0 = some 3.0 := by decide +kernel
  have hnext : (Log.ofEvents events).next? (.line 0 "5-") = none := by decide +kernel
  obtain ⟨reply, d', hanswer, -, herror, hframe, -, -⟩ := hlines 0 (by decide) "5-"
  refine ⟨hplaces, hevents, hagrees.slot.trans hslot, ?_, reply, d', hanswer, herror.mpr hnext,
    hframe (.inl (herror.mpr hnext))⟩
  rw [hagrees.sessions 0, hlast]
  rfl

end Desk

end Calculator
