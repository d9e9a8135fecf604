import Calculator.Evaluate
import Calculator.Json
import Calculator.Scientific

/-!
# Replies

A reply is the answer to one line. It is shown as a line of plain text or as a JSON body.

* `Reply.text`, `Reply.json`: the two forms
* `Reply.calculate?`: the reply to an expression
-/

namespace Calculator

/-- The answer to a line. -/
inductive Reply where
  /-- The value of an expression, also in scientific notation. -/
  | calculated (result : Float) (scientific : String)
  /-- What the memory holds. -/
  | retrieved (value : Option Float)
  | acknowledged (message : String)
  | failed (message : String)
  deriving DecidableEq

namespace Reply

/-- Whether a reply reports a failure. -/
def isError : Reply → Bool
  | failed _ => true
  | _ => false

/-- A reply as plain text. -/
def text : Reply → String
  | calculated result _ => Number.text result
  | retrieved (some value) => Number.text value
  | retrieved none => "memory is empty"
  | acknowledged message => message
  | failed message => "Error: " ++ message

/-- The fields of the body of a reply. -/
def fields (r : Reply) : List (String × Json.Value) :=
  ("status", .text (if r.isError then "error" else "success")) ::
    match r with
    | calculated result scientific => [("result", .number result), ("scientific", .text scientific)]
    | retrieved value => [("value", (value.map Json.Value.number).getD .null)]
    | acknowledged message => [("message", .text message)]
    | failed message => [("message", .text message)]

/-- A reply as a JSON body. -/
def json (r : Reply) : String := String.ofList (Json.object r.fields)

/-! ## Calculations -/

/-- The reply that shows a result, or nothing if the result cannot be written with so many
places. -/
def ofResult? (places : Nat) (result : Float) : Option Reply :=
  (Scientific.text? places result).map (calculated result)

/-- The reply to an expression, or nothing if the result cannot be written with so many places. -/
def calculate? (places : Nat) (expression : String) : Option Reply :=
  if expression = "" then some (failed "Expression is required")
  else match evaluate expression with
    | .error fault => some (failed fault.message)
    | .ok result => ofResult? places result

end Reply

end Calculator
