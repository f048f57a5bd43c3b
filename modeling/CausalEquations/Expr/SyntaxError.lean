import CausalEquations.Vocabulary
import CausalEquations.Text.Quoted

/-!
# Why a text is not an expression

* `CallError` — a call of something that may not be called.
* `SyntaxError` — the causes for which a text is refused, with the position of the character or
  token at fault, counted in characters from zero.
* `CallError.message`, `SyntaxError.message` — their wording.
-/

namespace CausalEquations

/-- Calls that no equation may contain. -/
inductive CallError where
  /-- What is called is not a plain name. -/
  | computedCallee
  /-- No function has this name. -/
  | unknownFunction (name : Name)
  deriving DecidableEq, Repr

/-- The wording of a forbidden call. -/
def CallError.message : CallError → String
  | computedCallee => "Only simple function calls like sin(x) are allowed."
  | unknownFunction name =>
    "Function \"" ++ name ++ "\" is not allowed. Supported: " ++ Builtin.listing ++ "."

/-- The causes for which a text is not an expression. -/
inductive SyntaxError where
  /-- A number runs into a word. -/
  | numberBeforeName (position : Nat)
  /-- No token starts with this character. -/
  | unexpectedCharacter (c : Char) (position : Nat)
  /-- A punctuation mark is missing before the token that was found. -/
  | expected (mark : String) (position : Nat) (found : String)
  /-- There is no token at all. -/
  | emptyExpression
  /-- No expression starts or goes on with this token. -/
  | unexpectedToken (text : String) (position : Nat)
  /-- The text ends where an operand should stand. -/
  | unexpectedEnd
  | forbiddenCall (cause : CallError)
  deriving DecidableEq, Repr

/-- The wording of a refusal. -/
def SyntaxError.message : SyntaxError → String
  | numberBeforeName position =>
    "Variable names cannot start with a number (at position " ++ toString position ++ ")."
  | unexpectedCharacter c position =>
    "Unexpected character " ++ quoted (String.singleton c) ++ " at position "
      ++ toString position ++ "."
  | expected mark position found =>
    "Expected " ++ quoted mark ++ " at position " ++ toString position ++ ", found "
      ++ quoted (if found.isEmpty then "end of expression" else found) ++ "."
  | emptyExpression => "Empty expression."
  | unexpectedToken text position =>
    "Unexpected token " ++ quoted text ++ " at position " ++ toString position ++ "."
  | unexpectedEnd => "Unexpected end of expression."
  | forbiddenCall cause => cause.message

end CausalEquations
