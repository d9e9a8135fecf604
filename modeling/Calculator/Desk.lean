import Calculator.Session

/-!
# Sessions that share a memory
-/

namespace Calculator

/-- A desk at which several sessions work on one memory. -/
structure Desk where
  sessions : List Session
  memory : Memory
  deriving DecidableEq

namespace Desk

/-- A desk with an empty memory and a session for each number of places. -/
def new (places : List Nat) : Desk := ⟨places.map Session.new, Memory.empty⟩

/-- Executes a line in one of the sessions, if there is such a session and the result of the line
can be written. -/
def execute (d : Desk) (index : Nat) (line : String) : Option (Reply × Desk) := do
  let session ← d.sessions[index]?
  let step ← session.execute d.memory line
  return (step.reply, ⟨d.sessions.set index step.session, step.memory⟩)

end Desk

end Calculator
