import Calculator.Command
import Calculator.Memory
import Calculator.Reply

/-!
# Sessions

A session executes lines one after the other and keeps the last result. The memory that it works on
may be shared with other sessions, so it is no part of the session.

* `Session.execute`: one line
* `Session.run`: several lines
-/

namespace Calculator

/-- A session: how many places its results have in scientific notation, and the value of the last
expression that had one. -/
structure Session where
  places : Nat
  lastResult : Option Float
  deriving DecidableEq

/-- What executing a line comes to. -/
structure Step where
  reply : Reply
  session : Session
  memory : Memory
  deriving DecidableEq

/-- The replies to several lines, and whether there is one to every line. -/
structure Dialogue where
  replies : List Reply
  complete : Bool
  deriving DecidableEq

namespace Session

/-- A session without a result. -/
def new (places : Nat) : Session := ⟨places, none⟩

/-- The session after a reply to an expression. -/
def after (s : Session) : Reply → Session
  | .calculated result _ => { s with lastResult := some result }
  | _ => s

/-- The step that stores something in the memory, if that succeeds. -/
def storing (s : Session) (m : Memory) : Except Fault Memory → Step
  | .ok stored => ⟨.acknowledged "Value stored in memory", s, stored⟩
  | .error fault => ⟨.failed fault.message, s, m⟩

/-- Executes a line, unless its result cannot be written with as many places as the session asks
for. -/
def execute (s : Session) (m : Memory) (line : String) : Option Step :=
  match Command.ofLine line with
  | .evaluate expression =>
    (Reply.calculate? s.places expression).map fun reply => ⟨reply, s.after reply, m⟩
  | .store (some text) => some (s.storing m ((m.storeText text).map Prod.snd))
  | .store none => some <| match s.lastResult with
    | some x => s.storing m (m.store x)
    | none => ⟨.failed "Value is required", s, m⟩
  | .retrieve => some ⟨.retrieved m.retrieve, s, m⟩
  | .clear => some ⟨.acknowledged "Memory cleared", s, m.clear⟩

/-- Executes lines in order. A line that fails does not keep the later ones from being executed, but
one whose result cannot be written does. -/
def run (s : Session) (m : Memory) : List String → Dialogue
  | [] => ⟨[], true⟩
  | line :: lines => match s.execute m line with
    | none => ⟨[], false⟩
    | some step =>
      let rest := run step.session step.memory lines
      ⟨step.reply :: rest.replies, rest.complete⟩

end Session

end Calculator
