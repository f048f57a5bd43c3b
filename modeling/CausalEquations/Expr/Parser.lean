import CausalEquations.Expr.Basic
import CausalEquations.Expr.Token

/-!
# Reading expressions

The second step turns tokens into a tree by precedence climbing. From loose to tight the levels
are: a choice `test ? a : b`, binary operators by their precedence (all group to the left), prefix
operators, calls, and numbers, names and parentheses.

Each function reads from the front of the tokens and returns what it has not used. Its first
argument bounds the depth of the recursion. Every call either goes to a tighter level or has used a
token, so a multiple of the number of tokens suffices, and the answer for an exhausted bound,
that the text has ended, is never given while tokens are left.

* `Expr.parse` — the tree of a text, for any table of binary operators.
* `Expr.check` — refuses calls of anything but the known functions.
* `Expr.read` — both.
-/

namespace CausalEquations

/-- The first token; the end of the text if there is none. -/
def current (tokens : List Token) : Token := tokens.headD ⟨.finish, "", 0⟩

/-- Whether the first token is this punctuation mark. -/
def startsWithMark (mark : String) (tokens : List Token) : Bool :=
  (current tokens).kind == .punct && (current tokens).text == mark

/-- The tokens after a required punctuation mark. -/
def expectMark (mark : String) (tokens : List Token) : Except SyntaxError (List Token) :=
  if startsWithMark mark tokens then .ok tokens.tail
  else .error (.expected mark (current tokens).position (current tokens).text)

/-- The binary operator at the front and its precedence in the table. -/
def operatorAt? (table : List (String × Int)) (tokens : List Token) : Option (String × Int) :=
  if (current tokens).kind = .op then
    (table.find? fun entry => entry.1 == (current tokens).text).map fun entry =>
      ((current tokens).text, entry.2)
  else none

/-- Whether the first token is a prefix operator. -/
def startsWithUnary (tokens : List Token) : Bool :=
  (current tokens).kind == .op && (UnaryOp.ofSymbol? (current tokens).text).isSome

/-- What a name stands for: the two truth values are numbers. -/
def Expr.ofName {α : Type} [Scalar α] (name : Name) : Expr α :=
  if name = "true" then .literal Scalar.one name
  else if name = "false" then .literal Scalar.zero name
  else .identifier name

variable {α : Type} [Scalar α] (table : List (String × Int))

mutual

/-- Reads a full expression: a binary expression, or a choice whose test is one. -/
def parseChoice : Nat → List Token → Except SyntaxError (Expr α × List Token)
  | 0, _ => .error .unexpectedEnd
  | fuel + 1, tokens => do
    let (test, rest) ← parseBinary fuel 1 tokens
    if startsWithMark "?" rest then
      let (consequent, rest) ← parseChoice fuel rest.tail
      let rest ← expectMark ":" rest
      let (alternate, rest) ← parseChoice fuel rest
      return (.choice test consequent alternate, rest)
    else return (test, rest)

/-- Reads operands joined by operators that bind at least as tightly as `level`. -/
def parseBinary : Nat → Int → List Token → Except SyntaxError (Expr α × List Token)
  | 0, _, _ => .error .unexpectedEnd
  | fuel + 1, level, tokens => do
    let (left, rest) ← parseUnary fuel tokens
    parseBinaryTail fuel level left rest

/-- Goes on with operators after a left operand. The right operand binds tighter than its
operator, so equal operators group to the left. -/
def parseBinaryTail : Nat → Int → Expr α → List Token → Except SyntaxError (Expr α × List Token)
  | 0, _, _, _ => .error .unexpectedEnd
  | fuel + 1, level, left, tokens =>
    match operatorAt? table tokens with
    | none => .ok (left, tokens)
    | some (op, strength) =>
      if strength < level then .ok (left, tokens)
      else do
        let (right, rest) ← parseBinary fuel (strength + 1) tokens.tail
        parseBinaryTail fuel level (.binary op left right) rest

/-- Reads prefix operators and their operand. -/
def parseUnary : Nat → List Token → Except SyntaxError (Expr α × List Token)
  | 0, _ => .error .unexpectedEnd
  | fuel + 1, tokens =>
    if startsWithUnary tokens then do
      let (argument, rest) ← parseUnary fuel tokens.tail
      return (.unary (current tokens).text argument, rest)
    else do
      let (callee, rest) ← parsePrimary fuel tokens
      parseCalls fuel callee rest

/-- Goes on with argument lists after something that is called. -/
def parseCalls : Nat → Expr α → List Token → Except SyntaxError (Expr α × List Token)
  | 0, _, _ => .error .unexpectedEnd
  | fuel + 1, callee, tokens =>
    if startsWithMark "(" tokens then
      if startsWithMark ")" tokens.tail then
        parseCalls fuel (.call callee []) tokens.tail.tail
      else do
        let (first, rest) ← parseChoice fuel tokens.tail
        let (others, rest) ← parseArguments fuel rest
        let rest ← expectMark ")" rest
        parseCalls fuel (.call callee (first :: others)) rest
    else .ok (callee, tokens)

/-- Reads further arguments, each after a comma. -/
def parseArguments : Nat → List Token → Except SyntaxError (List (Expr α) × List Token)
  | 0, _ => .error .unexpectedEnd
  | fuel + 1, tokens =>
    if startsWithMark "," tokens then do
      let (argument, rest) ← parseChoice fuel tokens.tail
      let (others, rest) ← parseArguments fuel rest
      return (argument :: others, rest)
    else .ok ([], tokens)

/-- Reads a number, a name or an expression in parentheses. -/
def parsePrimary : Nat → List Token → Except SyntaxError (Expr α × List Token)
  | 0, _ => .error .unexpectedEnd
  | fuel + 1, tokens =>
    match (current tokens).kind with
    | .number =>
      .ok (.literal (readNumeral (current tokens).text.toList) (current tokens).text, tokens.tail)
    | .name => .ok (Expr.ofName (current tokens).text, tokens.tail)
    | .finish => .error .unexpectedEnd
    | _ =>
      if startsWithMark "(" tokens then do
        let (inner, rest) ← parseChoice fuel tokens.tail
        let rest ← expectMark ")" rest
        return (inner, rest)
      else .error (.unexpectedToken (current tokens).text (current tokens).position)

end

/-- A recursion depth that no list of tokens needs. -/
def depthBound (tokens : List Token) : Nat := 8 * (tokens.length + 1)

/-- The tree of all the tokens. -/
def Expr.ofTokens (tokens : List Token) : Except SyntaxError (Expr α) :=
  if (current tokens).kind = .finish then .error .emptyExpression
  else do
    let (tree, rest) ← parseChoice table (depthBound tokens) tokens
    if (current rest).kind = .finish then return tree
    else .error (.unexpectedToken (current rest).text (current rest).position)

/-- The tree of a text, with the binary operators of `table`. -/
def Expr.parseWith (text : String) : Except SyntaxError (Expr α) := do
  let tokens ← Token.scan text
  Expr.ofTokens table tokens

/-- The tree of a text. -/
def Expr.parse (text : String) : Except SyntaxError (Expr α) := Expr.parseWith precedence text

/-! ## Calls -/

namespace Expr

mutual

/-- Refuses every call that is not a call of a known function by its name. -/
def check {α : Type} : Expr α → Except CallError Unit
  | literal _ _ => .ok ()
  | identifier _ => .ok ()
  | unary _ a => a.check
  | binary _ a b => do
    a.check
    b.check
  | choice t a b => do
    t.check
    a.check
    b.check
  | call callee args =>
    match callee with
    | identifier name =>
      if (Builtin.ofName? name).isSome then checkList args else .error (.unknownFunction name)
    | _ => .error .computedCallee

/-- Refuses such calls in a list of arguments. -/
def checkList {α : Type} : List (Expr α) → Except CallError Unit
  | [] => .ok ()
  | a :: rest => do
    a.check
    checkList rest

end

/-- The tree of a text that calls known functions only. -/
def read (text : String) : Except SyntaxError (Expr α) := do
  let tree ← Expr.parse text
  match tree.check with
  | .ok () => return tree
  | .error cause => .error (.forbiddenCall cause)

end Expr

end CausalEquations
