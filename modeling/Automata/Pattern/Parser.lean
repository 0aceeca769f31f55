import Automata.Pattern.Basic

/-! Reading a pattern is one pass from left to right over its characters. What has been read inside
the innermost open parenthesis is a group: the alternatives that a bar has finished, and the items
of the one in progress, both latest first, so that a star finds its operand at the front and a
closing parenthesis folds to the right without a reversal. The groups around it wait on a stack,
each with the place where its parenthesis stands; the length of that stack is the nesting, and at
the end of the text its top is the parenthesis that was left open last. -/
namespace Automata
namespace Pattern

/-- Why a text is no pattern, and at which character. -/
inductive ParseError where
  /-- A star with nothing before it to repeat. -/
  | missingOperand (position : Nat)
  /-- An opening parenthesis that the text never closes. -/
  | unclosedParen (position : Nat)
  /-- A closing parenthesis with none open. -/
  | trailingParen (position : Nat)
  /-- An opening parenthesis inside too many others. -/
  | tooDeep (position : Nat)
  deriving DecidableEq, Repr

namespace ParseError

def position : ParseError → Nat
  | missingOperand i => i
  | unclosedParen i => i
  | trailingParen i => i
  | tooDeep i => i

def message (e : ParseError) : String :=
  (match e with
    | missingOperand _ => "Missing operand for '*' at "
    | unclosedParen _ => "Unclosed parenthesis opened at "
    | trailingParen _ => "Found extraneous right parenthesis at "
    | tooDeep _ => "Parentheses nested too deeply at ") ++ toString e.position

end ParseError

/-- The most parentheses that may be open at once. -/
def maxDepth : Nat := 256

/-- Concatenates the items of an alternative, given latest first, to the right. -/
def concatItems : List Pattern → Pattern
  | [] => empty
  | last :: earlier => earlier.foldl (fun rest item => concat item rest) last

/-- Joins the alternatives of a group, given latest first, to the right. -/
def joinAlternatives (last : Pattern) (earlier : List Pattern) : Pattern :=
  earlier.foldl (fun rest alternative => choice alternative rest) last

/-- What was read so far inside one parenthesis, or outside all of them, latest first. -/
structure Group where
  alternatives : List Pattern
  items : List Pattern
  deriving DecidableEq

namespace Group

def start : Group := ⟨[], []⟩

def push (group : Group) (item : Pattern) : Group :=
  { group with items := item :: group.items }

/-- Finishes the alternative in progress. -/
def bar (group : Group) : Group :=
  ⟨concatItems group.items :: group.alternatives, []⟩

/-- The pattern that the group stands for. -/
def close (group : Group) : Pattern :=
  joinAlternatives (concatItems group.items) group.alternatives

end Group

/-- A reading in progress: the innermost group, and around it the groups that it interrupts, each
with the position of the parenthesis that interrupted it, innermost first. -/
structure Reading where
  group : Group
  enclosing : List (Nat × Group)
  deriving DecidableEq

namespace Reading

def start : Reading := ⟨.start, []⟩

/-- Reads the character at a position. -/
def read (reading : Reading) (position : Nat) (c : Char) : Except ParseError Reading :=
  let ⟨group, enclosing⟩ := reading
  match c with
  | '(' =>
    if enclosing.length < maxDepth then .ok ⟨.start, (position, group) :: enclosing⟩
    else .error (.tooDeep position)
  | ')' =>
    match enclosing with
    | [] => .error (.trailingParen position)
    | (_, outer) :: rest => .ok ⟨outer.push group.close, rest⟩
  | '|' => .ok ⟨group.bar, enclosing⟩
  | '*' =>
    match group.items with
    | [] => .error (.missingOperand position)
    | item :: earlier => .ok ⟨⟨group.alternatives, star item :: earlier⟩, enclosing⟩
  | c => .ok ⟨group.push (literal c), enclosing⟩

/-- Reads the characters from a position on. -/
def readAll (reading : Reading) (position : Nat) : List Char → Except ParseError Reading
  | [] => .ok reading
  | c :: rest => do (← reading.read position c).readAll (position + 1) rest

/-- The pattern read, if every parenthesis is closed. -/
def finish (reading : Reading) : Except ParseError Pattern :=
  match reading.enclosing with
  | [] => .ok reading.group.close
  | (opened, _) :: _ => .error (.unclosedParen opened)

end Reading

/-- Reads a pattern from the characters of its text. -/
def parseChars (text : List Char) : Except ParseError Pattern := do
  (← Reading.start.readAll 0 text).finish

def parse (text : String) : Except ParseError Pattern := parseChars text.toList

end Pattern
end Automata
