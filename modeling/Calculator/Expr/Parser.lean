import Calculator.Expr.Eval

/-!
# From tokens to expressions

The grammar has one rule for each level of precedence:

* a sum is products with `+` or `-` between them, a product operands with `*` or `/` between them,
  both taken from left to right;
* an operand is a primary after any number of signs;
* a primary is a number, a group, or a function name with a number or a group behind it.

Groups nest at most `maxNesting` deep. The functions for the levels take the reader of groups as a
parameter, and `readGroup` ties the knot by recursion on the depth that is left.

* `Reading`: what reading from a list of tokens comes to
* `readSum`, `readProduct`: the levels
* `parse`: the expression that all tokens form together
-/

namespace Calculator

/-- The greatest depth of groups within groups. -/
def maxNesting : Nat := 128

/-- What reading from `tokens` comes to: a value and the tokens after it, of which there are fewer,
or a fault and the tokens that nobody has looked at. -/
inductive Reading (α : Type) (tokens : List Token) where
  | done (value : α) (rest : List Token) (shorter : rest.length < tokens.length)
  | fail (fault : Fault) (rest : List Token)

/-- A function that reads something from the front of a list of tokens. -/
abbrev Reader (α : Type) := (tokens : List Token) → Reading α tokens

namespace Reading

/-- The same reading with another value. -/
def map {α β : Type} {tokens : List Token} (f : α → β) : Reading α tokens → Reading β tokens
  | done value rest shorter => done (f value) rest shorter
  | fail fault rest => fail fault rest

/-- A reading of the later tokens as a reading of all tokens. -/
def extend {α : Type} {later tokens : List Token} (h : later.length ≤ tokens.length) :
    Reading α later → Reading α tokens
  | done value rest shorter => done value rest (Nat.lt_of_lt_of_le shorter h)
  | fail fault rest => fail fault rest

/-- The tokens that are left unread. -/
def rest {α : Type} {tokens : List Token} : Reading α tokens → List Token
  | done _ rest _ => rest
  | fail _ rest => rest

/-- The value or the fault. -/
def outcome {α : Type} {tokens : List Token} : Reading α tokens → Except Fault α
  | done value _ _ => .ok value
  | fail fault _ => .error fault

end Reading

/-! ## Faults of place -/

/-- The fault of a token that the grammar has no place for. A `)` that gets here closes nothing. -/
def misplaced (t : Token) : Fault :=
  match t.symbol with
  | .caret => .malformed (.unsupported t.symbol t.pos)
  | .comma => .malformed (.unsupported t.symbol t.pos)
  | .rparen => .unopenedGroup
  | _ => .malformed (.misplaced t.symbol t.pos)

/-! ## The levels of precedence -/

section Levels

variable (readGroup : Reader Expr)

/-- Whether a name, the number behind it and the parenthesis behind that are the function `log10`
as it is written: the number is ten and is two bytes long. -/
def isLog10 (name : String) (value : Float) (pos parenPos : Nat) : Bool :=
  decide (Text.lowercase name.toList = ['l', 'o', 'g']) && value == 10.0 && parenPos == pos + 2

/-- The call of a function whose name has just been read: a number is the argument as it stands, and
so is a group. -/
def readCall (name : String) (pos : Nat) : Reader Expr
  | ⟨.number value, numberPos⟩ :: ⟨.lparen, parenPos⟩ :: tokens =>
    if isLog10 name value numberPos parenPos then
      ((readGroup tokens).map (.call (name ++ "10") · pos)).extend (by simp; omega)
    else .done (.call name (.lit value numberPos) pos) (⟨.lparen, parenPos⟩ :: tokens) (by simp)
  | ⟨.number value, numberPos⟩ :: tokens =>
    .done (.call name (.lit value numberPos) pos) tokens (by simp)
  | ⟨.lparen, _⟩ :: tokens => ((readGroup tokens).map (.call name · pos)).extend (by simp)
  | _ :: tokens => .fail (.missingArgument name) tokens
  | [] => .fail (.missingArgument name) []

/-- A number, a group or a call. -/
def readPrimary : Reader Expr
  | ⟨.number value, pos⟩ :: tokens => .done (.lit value pos) tokens (by simp)
  | ⟨.lparen, _⟩ :: tokens => (readGroup tokens).extend (by simp)
  | ⟨.name word, pos⟩ :: tokens => (readCall readGroup word pos tokens).extend (by simp)
  | t :: tokens => .fail (misplaced t) tokens
  | [] => .fail (.malformed .endsEarly) []

/-- Whether a token is a sign when an operand is expected. -/
def Token.isSign (t : Token) : Bool := t.symbol == .plus || t.symbol == .minus

/-- An operand behind a run of signs: negated once, where the run starts, if the number of minus
signs is odd. -/
def signed (signs : List Token) (operand : Expr) : Expr :=
  match signs with
  | [] => operand
  | t :: _ => if signs.countP (·.symbol == .minus) % 2 = 1 then .neg operand t.pos else operand

/-- A primary after any number of signs. -/
def readOperand : Reader Expr := fun tokens =>
  ((readPrimary readGroup (tokens.dropWhile Token.isSign)).map
    (signed (tokens.takeWhile Token.isSign))).extend
    (List.dropWhile_sublist _).length_le

/-- The operations that follow the operand `left`, taken from left to right as long as the next
token is one of the level's operators. The tokens are a later part of `origin`. -/
def readChain (operator? : Symbol → Option Operator) (readOperand : Reader Expr)
    {origin : List Token} (left : Expr) :
    (tokens : List Token) → tokens.length < origin.length → Reading Expr origin
  | [], h => .done left [] h
  | t :: tokens, h =>
    match operator? t.symbol with
    | none => .done left (t :: tokens) h
    | some op => match readOperand tokens with
      | .fail fault rest => .fail fault rest
      | .done right rest shorter =>
        readChain operator? readOperand (.bin op left right t.pos) rest (by simp at h; omega)
termination_by tokens => tokens.length
decreasing_by simp; omega

/-- An operand and the operations that follow it. -/
def readLevel (operator? : Symbol → Option Operator) (readOperand : Reader Expr) : Reader Expr :=
  fun tokens => match readOperand tokens with
    | .fail fault rest => .fail fault rest
    | .done left rest shorter => readChain operator? readOperand left rest shorter

/-- The operators of products. -/
def Symbol.factorOperator? : Symbol → Option Operator
  | .star => some .mul
  | .slash => some .div
  | _ => none

/-- The operators of sums. -/
def Symbol.termOperator? : Symbol → Option Operator
  | .plus => some .add
  | .minus => some .sub
  | _ => none

/-- Operands with `*` or `/` between them. -/
def readProduct : Reader Expr := readLevel Symbol.factorOperator? (readOperand readGroup)

/-- Products with `+` or `-` between them. -/
def readSum : Reader Expr := readLevel Symbol.termOperator? (readProduct readGroup)

/-- The fault of a token that stands behind a complete expression, and the tokens not looked at. A
function name is first read and evaluated as a call, and a fault of the call goes first. -/
def leftover (t : Token) (tokens : List Token) : Fault × List Token :=
  match t.symbol with
  | .name word => match readCall readGroup word t.pos tokens with
    | .fail fault rest => (fault, rest)
    | .done call rest _ => match call.eval with
      | .error fault => (fault, rest)
      | .ok _ => (misplaced t, rest)
  | _ => (misplaced t, tokens)

end Levels

/-! ## Groups -/

/-- The end of a group whose inside has just been read: the parenthesis that closes it. -/
def closeGroup (readGroup : Reader Expr) {tokens : List Token} : Reading Expr tokens →
    Reading Expr tokens
  | .fail fault rest => .fail fault rest
  | .done _ [] _ => .fail .unclosedGroup []
  | .done inside (t :: rest) shorter =>
    if t.symbol = .rparen then .done inside rest (Nat.lt_trans (Nat.lt_succ_self _) shorter)
    else
      let (fault, unread) := leftover readGroup t rest
      .fail fault unread

/-- The inside of a group and the parenthesis that closes it, with `room` levels of groups left,
this one included. -/
def readGroup : (room : Nat) → Reader Expr
  | 0, tokens => .fail (.malformed (.tooDeep maxNesting)) tokens
  | room + 1, tokens => match tokens.head?.filter (·.symbol == .rparen) with
    | some t => .fail (.malformed (.emptyGroup t.pos)) tokens
    | none => closeGroup (readGroup room) (readSum (readGroup room) tokens)

/-- The reader of groups inside `depth` others. -/
def groupAt (depth : Nat) : Reader Expr := readGroup (maxNesting - depth)

/-! ## The whole -/

/-- The fault of unbalanced parentheses behind `depth` that are open: a `)` with none to close goes
first, then one that is never closed. -/
def imbalance? (depth : Nat) : List Token → Option Fault
  | [] => if depth = 0 then none else some .unclosedGroup
  | t :: tokens => match t.symbol, depth with
    | .lparen, _ => imbalance? (depth + 1) tokens
    | .rparen, 0 => some .unopenedGroup
    | .rparen, depth + 1 => imbalance? depth tokens
    | _, _ => imbalance? depth tokens

/-- The expression that all tokens form together. The balance of the parentheses comes before
everything else. -/
def parse (tokens : List Token) : Except Fault Expr :=
  match imbalance? 0 tokens with
  | some fault => .error fault
  | none =>
    if tokens = [] then .error (.malformed .empty)
    else match readSum (groupAt 0) tokens with
      | .fail fault _ => .error fault
      | .done e [] _ => .ok e
      | .done _ (t :: rest) _ => .error (leftover (groupAt 0) t rest).1

end Calculator
