import CausalEquations.Expr.SyntaxError
import CausalEquations.Number.Numeral
import CausalEquations.Text.Blank
import CausalEquations.Text.Letter

/-!
# Tokens

An expression is read in two steps; the first cuts the text into numbers, names, operators and
punctuation marks, and drops the blanks between them.

* `Token` — a piece of the text, its kind and its position.
* `lexeme?` — the token at the front of a text.
* `Token.scan` — all tokens of a text, closed by a token that marks its end.
-/

namespace CausalEquations

/-- What a token is. -/
inductive TokenKind where
  | number | name | op | punct
  /-- The end of the text. -/
  | finish
  deriving DecidableEq, Repr

/-- A piece of an expression and the position of its first character. -/
structure Token where
  kind : TokenKind
  text : String
  position : Nat
  deriving DecidableEq, Repr

/-- The operators of two characters; they win over those of one. -/
def longOperators : List (List Char) :=
  [['|', '|'], ['&', '&'], ['=', '='], ['!', '='], ['<', '='], ['>', '=']]

/-- The operators of one character. -/
def shortOperators : List Char := ['+', '-', '*', '/', '%', '^', '<', '>', '!']

/-- The punctuation marks. -/
def punctuation : List Char := ['(', ')', ',', '?', ':']

/-- The token at the front of a text that does not start with a blank. -/
def lexeme? (cs : List Char) : Option (TokenKind × List Char) :=
  match takeNumeral? cs with
  | some (numeral, _) => some (.number, numeral)
  | none =>
    match cs with
    | [] => none
    | c :: rest =>
      if isNameStart c then some (.name, c :: rest.takeWhile isNameChar)
      else if longOperators.contains (cs.take 2) then some (.op, cs.take 2)
      else if shortOperators.contains c then some (.op, [c])
      else if punctuation.contains c then some (.punct, [c])
      else none

/-- Whether a text goes on with a word, which a number must not run into. -/
def startsWord : List Char → Bool
  | c :: _ => isLetter c || c == '_'
  | [] => false

/-- The tokens of a text whose first character stands at `position`. The first `skip` characters
belong to a token that has been emitted already. -/
def scanFrom (position skip : Nat) : List Char → Except SyntaxError (List Token)
  | [] => .ok [⟨.finish, "", position⟩]
  | c :: rest =>
    match skip with
    | skip + 1 => scanFrom (position + 1) skip rest
    | 0 =>
      if isBlank c then scanFrom (position + 1) 0 rest
      else
        match lexeme? (c :: rest) with
        | none => .error (.unexpectedCharacter c position)
        | some (kind, text) =>
          if kind = .number ∧ startsWord (rest.drop (text.length - 1)) then
            .error (.numberBeforeName position)
          else
            match scanFrom (position + 1) (text.length - 1) rest with
            | .error e => .error e
            | .ok tokens => .ok (⟨kind, String.ofList text, position⟩ :: tokens)

/-- The tokens of a text, closed by the token that marks its end. -/
def Token.scan (text : String) : Except SyntaxError (List Token) := scanFrom 0 0 text.toList

end CausalEquations
