/-! Regular expressions over characters, and their text. The text carries no grouping of its own
beyond parentheses, and those are written only where the operand binds weaker than the operator
around it; the empty pattern is written as nothing at all. -/
namespace Automata

/-- A regular expression over characters. -/
inductive Pattern where
  /-- The empty string. -/
  | empty
  | literal (c : Char)
  | concat (left right : Pattern)
  | choice (left right : Pattern)
  /-- Any number of pieces, also none. -/
  | star (inner : Pattern)
  deriving DecidableEq, Inhabited

namespace Pattern

/-- How tightly the text of a pattern holds together; a larger number binds tighter. -/
def precedence : Pattern → Nat
  | empty => 3
  | literal _ => 3
  | star _ => 2
  | concat _ _ => 1
  | choice _ _ => 0

def parenthesize (text : List Char) : List Char := '(' :: (text ++ [')'])

/-- The text of an operand of strength `inner` inside an operator of strength `outer`. -/
def bracket (inner outer : Nat) (text : List Char) : List Char :=
  if inner < outer then parenthesize text else text

/-- The text of a pattern, character by character. -/
def chars : Pattern → List Char
  | empty => []
  | literal c => [c]
  | concat l r => bracket l.precedence 1 l.chars ++ bracket r.precedence 1 r.chars
  | choice l r => bracket l.precedence 0 l.chars ++ '|' :: bracket r.precedence 0 r.chars
  | star p => bracket p.precedence 2 p.chars ++ ['*']

def text (p : Pattern) : String := String.ofList p.chars

end Pattern
end Automata
