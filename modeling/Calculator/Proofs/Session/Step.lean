import Calculator.Session

/-!
# What a line can come to

A line is executed in one of a few ways. Everything that is known of a session and of the memory is
read off this list, and `Session.execute` is not looked into again.

* `Session.Executes`: the ways in which a command can be executed
* `Session.executes_of_execute`: a line that is answered is executed in one of them
* `Session.exists_execute`: every line is answered, unless a result has too many places
-/

namespace Calculator

namespace Memory

theorem storeText_of_none {text : String} (h : Number.ofText? text = none) (m : Memory) :
    m.storeText text = .error (.notNumeric text) := by
  rw [storeText, h]

theorem map_storeText_of_some {text : String} {x : Float} (h : Number.ofText? text = some x)
    (m : Memory) : (m.storeText text).map Prod.snd = m.store x := by
  rw [storeText, h]
  show ((m.store x).map fun stored => (x, stored)).map Prod.snd = m.store x
  cases m.store x <;> rfl

end Memory

namespace Session

/-- The number that a store command asks for: the one that its text denotes, or else the last
result. -/
def offered (lastResult : Option Float) : Option String → Option Float
  | some text => Number.ofText? text
  | none => lastResult

/-- The ways in which a session can execute a command, and what each of them comes to. -/
inductive Executes (s : Session) (m : Memory) : Command → Step → Prop
  | calculated {expression : String} {x : Float} {scientific : String} (hne : expression ≠ "")
    (hvalue : evaluate expression = .ok x)
    (hplaces : Scientific.text? s.places x = some scientific) :
    Executes s m (.evaluate expression)
      ⟨.calculated x scientific, { s with lastResult := some x }, m⟩
  | faulty {expression : String} {fault : Fault} (hne : expression ≠ "")
    (hfault : evaluate expression = .error fault) :
    Executes s m (.evaluate expression) ⟨.failed fault.message, s, m⟩
  | blank : Executes s m (.evaluate "") ⟨.failed "Expression is required", s, m⟩
  | stored {value : Option String} {x : Float} (hoffered : offered s.lastResult value = some x)
    (hnan : Binary64.isNaN x = false) :
    Executes s m (.store value) ⟨.acknowledged "Value stored in memory", s, ⟨some x⟩⟩
  | nanOffered {value : Option String} {x : Float} (hoffered : offered s.lastResult value = some x)
    (hnan : Binary64.isNaN x = true) :
    Executes s m (.store value) ⟨.failed (Fault.notNumeric (Number.text x)).message, s, m⟩
  | notNumeric {text : String} (hoffered : Number.ofText? text = none) :
    Executes s m (.store (some text)) ⟨.failed (Fault.notNumeric text).message, s, m⟩
  | nothingStored (hlast : s.lastResult = none) :
    Executes s m (.store none) ⟨.failed "Value is required", s, m⟩
  | retrieved : Executes s m .retrieve ⟨.retrieved m.slot, s, m⟩
  | cleared : Executes s m .clear ⟨.acknowledged "Memory cleared", s, Memory.empty⟩

variable {s : Session} {m : Memory} {line : String} {step : Step}

theorem storing_store (s : Session) (m : Memory) (x : Float) :
    s.storing m (m.store x) = if Binary64.isNaN x
      then ⟨.failed (Fault.notNumeric (Number.text x)).message, s, m⟩
      else ⟨.acknowledged "Value stored in memory", s, ⟨some x⟩⟩ := by
  unfold Memory.store
  split <;> rfl

/-- Storing a number that is asked for. -/
theorem executes_storing {value : Option String} {x : Float}
    (hoffered : offered s.lastResult value = some x) :
    s.Executes m (.store value) (s.storing m (m.store x)) := by
  rw [storing_store]
  split
  · next hnan => exact .nanOffered hoffered hnan
  · next hnan => exact .stored hoffered (by simpa using hnan)

/-- Replying to an expression. -/
theorem executes_calculate {expression : String} {reply : Reply}
    (h : Reply.calculate? s.places expression = some reply) :
    s.Executes m (.evaluate expression) ⟨reply, s.after reply, m⟩ := by
  unfold Reply.calculate? at h
  split at h
  · next hempty =>
    subst hempty
    obtain rfl := Option.some.inj h
    exact .blank
  · next hne =>
    split at h
    · next fault hfault =>
      obtain rfl := Option.some.inj h
      exact .faulty hne hfault
    · next x hvalue =>
      obtain ⟨scientific, hplaces, rfl⟩ := Option.map_eq_some_iff.mp h
      exact .calculated hne hvalue hplaces

theorem executes_of_execute (h : s.execute m line = some step) :
    s.Executes m (Command.ofLine line) step := by
  unfold execute at h
  split at h
  · next expression hcommand =>
    rw [hcommand]
    obtain ⟨reply, hreply, rfl⟩ := Option.map_eq_some_iff.mp h
    exact executes_calculate hreply
  · next text hcommand =>
    rw [hcommand]
    obtain rfl := Option.some.inj h
    cases hoffered : Number.ofText? text with
    | none =>
      rw [Memory.storeText_of_none hoffered]
      exact .notNumeric hoffered
    | some x =>
      rw [Memory.map_storeText_of_some hoffered]
      exact executes_storing hoffered
  · next hcommand =>
    rw [hcommand]
    obtain rfl := Option.some.inj h
    cases hoffered : s.lastResult with
    | none => exact .nothingStored hoffered
    | some x => exact executes_storing hoffered
  · next hcommand =>
    rw [hcommand]
    obtain rfl := Option.some.inj h
    exact .retrieved
  · next hcommand =>
    rw [hcommand]
    obtain rfl := Option.some.inj h
    exact .cleared

/-- No line changes how many places a session has. -/
theorem Executes.places_eq {command : Command} (h : s.Executes m command step) :
    step.session.places = s.places := by
  cases h <;> rfl

/-- NaN is not put into the memory. -/
theorem Executes.isNaN_slot {command : Command} (h : s.Executes m command step)
    (hm : ∀ x ∈ m.slot, Binary64.isNaN x = false) :
    ∀ x ∈ step.memory.slot, Binary64.isNaN x = false := by
  cases h with
  | stored hoffered hnan =>
    intro x hx
    rwa [← Option.some.inj hx]
  | cleared =>
    intro x hx
    cases hx
  | _ => exact hm

/-! ## Lines are answered -/

/-- Retrieving is answered whatever the number of places. -/
theorem execute_of_retrieve (h : Command.ofLine line = .retrieve) :
    s.execute m line = some ⟨.retrieved m.slot, s, m⟩ := by
  rw [execute, h]
  rfl

theorem exists_scientific (h : s.places ≤ Scientific.maxPlaces) (x : Float) :
    ∃ scientific, Scientific.text? s.places x = some scientific := by
  unfold Scientific.text?
  rw [if_neg (Nat.not_lt.mpr h)]
  split
  · exact ⟨_, rfl⟩
  · split <;> exact ⟨_, rfl⟩

theorem exists_execute (h : s.places ≤ Scientific.maxPlaces) (m : Memory) (line : String) :
    ∃ step, s.execute m line = some step := by
  unfold execute
  split
  · next expression _ =>
    unfold Reply.calculate?
    split
    · exact ⟨_, rfl⟩
    · split
      · exact ⟨_, rfl⟩
      · next x _ =>
        obtain ⟨scientific, hplaces⟩ := exists_scientific h x
        rw [Reply.ofResult?, hplaces]
        exact ⟨_, rfl⟩
  all_goals exact ⟨_, rfl⟩

end Session

end Calculator
