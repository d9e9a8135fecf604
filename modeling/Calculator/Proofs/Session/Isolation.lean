import Mathlib.Data.List.Forall2
import Calculator.Proofs.Session.Run

/-!
# What sessions learn of each other

A session sees of the others what it retrieves from the memory, and nothing else. What it answers to
its own lines, retrievals aside, and the results that it remembers are the same whatever else
happens at the desk.

* `Desk.diary`: what a session has answered and remembered, line by line
* `Session.alone`: the diary of a session that has a memory of its own, retrievals left blank
* `Desk.map_masked_diary`: at any desk a session writes the diary that it would write alone
* `Desk.diaries_agree`: two runs in which a session executes the same lines
-/

namespace Calculator

/-! ## Diaries -/

/-- What a session makes of a line: the reply, if there is one, and the last result from then on. -/
structure Entry where
  line : String
  reply : Option Reply
  lastResult : Option Float
  deriving DecidableEq

namespace Entry

/-- The entry without what it shows of the memory. -/
def masked (e : Entry) : Entry :=
  if Command.ofLine e.line = .retrieve then { e with reply := none } else e

/-- Two entries are the same but for what a retrieval shows. -/
structure AgreesWith (e e' : Entry) : Prop where
  line : e.line = e'.line
  lastResult : e.lastResult = e'.lastResult
  reply : Command.ofLine e.line ≠ .retrieve → e.reply = e'.reply

theorem AgreesWith.of_masked {e e' : Entry} (h : e.masked = e'.masked) : e.AgreesWith e' := by
  have hline : ∀ e : Entry, e.masked.line = e.line ∧ e.masked.lastResult = e.lastResult := by
    intro e
    unfold masked
    split <;> exact ⟨rfl, rfl⟩
  have hsame : e.line = e'.line := by rw [← (hline e).1, h, (hline e').1]
  refine ⟨hsame, by rw [← (hline e).2, h, (hline e').2], fun hcommand => ?_⟩
  rw [masked, if_neg hcommand, masked, if_neg (hsame ▸ hcommand)] at h
  rw [h]

end Entry

/-- The line that an event is for a session. -/
def Event.lineFor? (index : Nat) : Event → Option String
  | .line i text => if i = index then some text else none
  | _ => none

/-- The lines that a session executes, in order. -/
def linesFor (index : Nat) (events : List Event) : List String :=
  events.filterMap (Event.lineFor? index)

namespace Session

/-- The session after a line, which stays as it is if the line cannot be answered. -/
def next (s : Session) (m : Memory) (line : String) : Session :=
  ((s.execute m line).map Step.session).getD s

/-- The entry that a session makes for a line. -/
def entry (s : Session) (m : Memory) (line : String) : Entry :=
  ⟨line, (s.execute m line).map Step.reply, (s.next m line).lastResult⟩

/-- What a session writes down about its lines if nothing is ever retrieved. -/
def alone (s : Session) : List String → List Entry
  | [] => []
  | line :: lines => (s.entry Memory.empty line).masked :: (s.next Memory.empty line).alone lines

/-! ## One line -/

/-- What the memory holds makes no difference to the session, and to the reply only if it is
retrieved. -/
theorem execute_of_memory (s : Session) (m m' : Memory) (line : String) :
    (s.execute m line).map Step.session = (s.execute m' line).map Step.session ∧
      (Command.ofLine line ≠ .retrieve →
        (s.execute m line).map Step.reply = (s.execute m' line).map Step.reply) := by
  have hstoring : ∀ r, (s.storing m r).session = (s.storing m' r).session ∧
      (s.storing m r).reply = (s.storing m' r).reply := by
    intro r
    cases r <;> exact ⟨rfl, rfl⟩
  unfold execute
  split
  · rw [Option.map_map, Option.map_map, Option.map_map, Option.map_map]
    exact ⟨rfl, fun _ => rfl⟩
  · next text _ =>
    have h := hstoring ((m'.storeText text).map Prod.snd)
    exact ⟨congrArg some h.1, fun _ => congrArg some h.2⟩
  · cases s.lastResult with
    | none => exact ⟨rfl, fun _ => rfl⟩
    | some x =>
      have h := hstoring (m'.store x)
      exact ⟨congrArg some h.1, fun _ => congrArg some h.2⟩
  · next hcommand => exact ⟨rfl, fun h => absurd hcommand h⟩
  · exact ⟨rfl, fun _ => rfl⟩

theorem next_of_memory (s : Session) (m m' : Memory) (line : String) :
    s.next m line = s.next m' line := by
  rw [next, next, (s.execute_of_memory m m' line).1]

theorem masked_entry_of_memory (s : Session) (m m' : Memory) (line : String) :
    (s.entry m line).masked = (s.entry m' line).masked := by
  unfold entry Entry.masked
  rw [s.next_of_memory m m']
  split
  · rfl
  · next hcommand => rw [(s.execute_of_memory m m' line).2 hcommand]

theorem places_next (s : Session) (m : Memory) (line : String) :
    (s.next m line).places = s.places := by
  rw [next]
  cases hstep : s.execute m line with
  | none => rfl
  | some step => exact (executes_of_execute hstep).places_eq

end Session

/-! ## Runs -/

namespace Desk

/-- The entry that a session makes for an event, if the event is a line for it. -/
def written? (d : Desk) (index : Nat) (event : Event) : Option Entry :=
  (event.lineFor? index).map fun line => ⟨line, (d.execute index line).map Prod.fst,
    (d.act event).sessions[index]?.bind Session.lastResult⟩

/-- The entries that a session makes while events happen. -/
def diary (index : Nat) : Desk → List Event → List Entry
  | _, [] => []
  | d, event :: events => (d.written? index event).toList ++ diary index (d.act event) events

variable {d : Desk} {index : Nat} {event : Event} {s : Session}

theorem execute_eq (hs : d.sessions[index]? = some s) (line : String) :
    d.execute index line = (s.execute d.memory line).map fun step =>
      (step.reply, ⟨d.sessions.set index step.session, step.memory⟩) := by
  rw [execute, hs]
  show (s.execute d.memory line >>= _) = _
  cases s.execute d.memory line <;> rfl

/-- A line moves its session on as if there were no other. -/
theorem session_act_of_lineFor {line : String} (hs : d.sessions[index]? = some s)
    (hline : event.lineFor? index = some line) :
    (d.act event).sessions[index]? = some (s.next d.memory line) := by
  cases event with
  | line i text =>
    rw [Event.lineFor?] at hline
    split at hline
    · next hindex =>
      obtain rfl := Option.some.inj hline
      subst hindex
      rw [act, execute_eq hs, Session.next]
      cases s.execute d.memory text with
      | none => exact hs
      | some step => exact List.getElem?_set_self (List.getElem?_eq_some_iff.mp hs).1
    · cases hline
  | _ => cases hline

/-- What is no line for a session leaves it as it is. -/
theorem session_act_of_no_line (hline : event.lineFor? index = none) (d : Desk) :
    (d.act event).sessions[index]? = d.sessions[index]? := by
  have hkeeping : ∀ stored, (d.keeping stored).sessions = d.sessions := by
    intro stored
    cases stored <;> rfl
  cases event with
  | line i text =>
    have hindex : i ≠ index := by
      rintro rfl
      rw [Event.lineFor?, if_pos rfl] at hline
      cases hline
    rw [act]
    cases hanswer : d.execute i text with
    | none => rfl
    | some answer =>
      obtain ⟨s, step, -, -, -, hd⟩ := exists_executes hanswer
      show answer.2.sessions[index]? = _
      rw [hd]
      exact List.getElem?_set_ne hindex
  | clear => rfl
  | _ => rw [act, hkeeping]

theorem written?_of_lineFor {line : String} (hs : d.sessions[index]? = some s)
    (hline : event.lineFor? index = some line) :
    d.written? index event = some (s.entry d.memory line) := by
  rw [written?, hline, Option.map_some, session_act_of_lineFor hs hline, execute_eq hs,
    Option.map_map]
  rfl

/-- A session writes the diary that it would write alone, but for what it retrieves. -/
theorem map_masked_diary (events : List Event) : ∀ {d : Desk} {s : Session},
    d.sessions[index]? = some s →
      (d.diary index events).map Entry.masked = s.alone (linesFor index events) := by
  induction events with
  | nil => exact fun _ => rfl
  | cons event events ih =>
    intro d s hs
    rw [diary, linesFor, List.filterMap_cons]
    cases hline : event.lineFor? index with
    | none =>
      rw [written?, hline]
      exact ih ((session_act_of_no_line hline d).trans hs)
    | some line =>
      have hnext := session_act_of_lineFor hs hline
      rw [s.next_of_memory d.memory Memory.empty] at hnext
      rw [written?_of_lineFor hs hline, Session.alone, ← s.masked_entry_of_memory d.memory]
      exact congrArg _ (ih hnext)

theorem map_line_diary (index : Nat) (events : List Event) : ∀ d : Desk,
    (d.diary index events).map Entry.line = linesFor index events := by
  induction events with
  | nil => exact fun _ => rfl
  | cons event events ih =>
    intro d
    rw [diary, linesFor, List.filterMap_cons, List.map_append, ih, written?]
    cases event.lineFor? index <;> rfl

/-- In a session that can write its results every line is answered. -/
theorem isSome_reply_of_mem_diary (events : List Event) : ∀ {d : Desk} {s : Session},
    d.sessions[index]? = some s → s.places ≤ Scientific.maxPlaces →
      ∀ e ∈ d.diary index events, e.reply.isSome = true := by
  induction events with
  | nil => exact fun _ _ e he => nomatch he
  | cons event events ih =>
    intro d s hs hplaces e he
    rw [diary] at he
    cases hline : event.lineFor? index with
    | none =>
      rw [written?, hline] at he
      exact ih ((session_act_of_no_line hline d).trans hs) hplaces e he
    | some line =>
      obtain ⟨step, hstep⟩ := s.exists_execute hplaces d.memory line
      have hnext := session_act_of_lineFor hs hline
      rw [written?_of_lineFor hs hline] at he
      rcases List.mem_cons.mp he with rfl | he
      · rw [Session.entry, hstep]
        rfl
      · exact ih hnext (by rwa [s.places_next]) e he

/-- Two runs in which a session starts alike, with a number of places that can be written, and
executes the same lines, whatever the other sessions do and however many there are, and whatever is
done to the memory directly. The session answers every line in both, it answers alike unless it
retrieves, and it remembers the same results. -/
theorem diaries_agree {d d' : Desk} {index index' : Nat} {s : Session}
    (hs : d.sessions[index]? = some s) (hs' : d'.sessions[index']? = some s)
    (hplaces : s.places ≤ Scientific.maxPlaces) {events events' : List Event}
    (hlines : linesFor index events = linesFor index' events') :
    List.Forall₂ Entry.AgreesWith (d.diary index events) (d'.diary index' events') ∧
      (d.diary index events).map Entry.line = linesFor index events ∧
      ∀ e ∈ d.diary index events ++ d'.diary index' events', e.reply.isSome = true := by
  -- Each run is compared with the session alone, and never with the other run.
  have hmasked : (d.diary index events).map Entry.masked =
      (d'.diary index' events').map Entry.masked := by
    rw [map_masked_diary events hs, map_masked_diary events' hs', hlines]
  rw [← List.forall₂_eq_eq_eq, List.forall₂_map_left_iff, List.forall₂_map_right_iff] at hmasked
  refine ⟨hmasked.imp fun e e' => Entry.AgreesWith.of_masked, map_line_diary index events d, ?_⟩
  rw [List.forall_mem_append]
  exact ⟨isSome_reply_of_mem_diary events hs hplaces, isSome_reply_of_mem_diary events' hs' hplaces⟩

/-- A session alone and among two others, of which one cannot write its result. What it retrieves is
the one difference. -/
theorem diaries_agree_but_for_retrieval :
    let d := new [6]
    let d' := new [2, 6, 65536]
    let events : List Event := [.line 0 "1+2", .line 0 "mr", .line 0 "ms"]
    let events' : List Event := [.store 7.0, .line 1 "1+2", .line 0 "ms 5", .line 1 "mr",
      .line 2 "9", .clear, .line 1 "ms"]
    d.sessions[0]? = some (Session.new 6) ∧ d'.sessions[1]? = some (Session.new 6) ∧
      (Session.new 6).places ≤ Scientific.maxPlaces ∧ linesFor 0 events = linesFor 1 events' ∧
      List.Forall₂ Entry.AgreesWith (d.diary 0 events) (d'.diary 1 events') ∧
      (d.diary 0 events)[1]? = some ⟨"mr", some (.retrieved none), some 3.0⟩ ∧
      (d'.diary 1 events')[1]? = some ⟨"mr", some (.retrieved (some 5.0)), some 3.0⟩ := by
  intro d d' events events'
  have hplaces : (Session.new 6).places ≤ Scientific.maxPlaces := by decide
  have hlines : linesFor 0 events = linesFor 1 events' := rfl
  exact ⟨rfl, rfl, hplaces, hlines, (diaries_agree rfl rfl hplaces hlines).1, by decide +kernel,
    by decide +kernel⟩

end Desk

end Calculator
