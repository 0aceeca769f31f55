import Automata.Text.DefaultIgnorable
import Automata.Text.GraphemeExtend
import Automata.Text.Unprintable

/-! Two ways to write a character so that it can be read back. Quoted text escapes its delimiter,
the backslash, and what a reader could not see; a symbol outside quotes is written in printable
ASCII alone. Each character is written on its own, a backslash opens every escape and is itself
escaped, so in both ways the written form determines the character. -/
namespace Automata.Text

/-- The code point in braces, in lower-case hexadecimal without leading zeros. -/
def codePointEscape (c : Char) : List Char :=
  '\\' :: 'u' :: '\x7b' :: (Nat.toDigits 16 c.toNat ++ ['\x7d'])

/-- The letter that stands for a tab, a carriage return or a line feed after a backslash. -/
def controlLetter? : Char → Option Char
  | '\t' => some 't'
  | '\r' => some 'r'
  | '\n' => some 'n'
  | _ => none

/-- The two halfwidth voicing marks of katakana. They extend the letter before them, but they are
letters too, and fill a cell of their own. -/
def isVoicingMark (c : Char) : Bool := c = '\uff9e' || c = '\uff9f'

/-- Whether a reader could not see the character stand by itself. -/
def isHidden (c : Char) : Bool :=
  isUnprintable c || isDefaultIgnorable c || (isGraphemeExtend c && !isVoicingMark c)

/-- A character inside text that the delimiter opens and closes. -/
def escape (delimiter c : Char) : List Char :=
  match controlLetter? c with
  | some letter => ['\\', letter]
  | none =>
    if c = '\x00' then ['\\', '0']
    else if c = '\\' ∨ c = delimiter then ['\\', c]
    else if isHidden c then codePointEscape c
    else [c]

/-- Text between two delimiters, with every character escaped as it needs. -/
def quote (delimiter : Char) (text : List Char) : List Char :=
  delimiter :: (text.flatMap (escape delimiter) ++ [delimiter])

def quoteString (s : String) : List Char := quote '"' s.toList

def quoteChar (c : Char) : List Char := quote '\'' [c]

/-- A character in printable ASCII alone. -/
def escapeAscii (c : Char) : List Char :=
  match controlLetter? c with
  | some letter => ['\\', letter]
  | none =>
    if c = '\\' ∨ c = '"' ∨ c = '\'' then ['\\', c]
    else if ' ' ≤ c ∧ c ≤ '~' then [c]
    else codePointEscape c

end Automata.Text
