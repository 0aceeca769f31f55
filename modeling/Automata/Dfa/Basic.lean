import Automata.RuleTable
import Automata.SortedSet

/-! A deterministic automaton is in one state until it finds no rule. From then on its run is stuck:
it accepts nothing, and every further symbol is answered with the failure that came first. Reading
a string stops at the first failure, which loses nothing, since the rest would only repeat it. -/
namespace Automata

structure Dfa (S : Type) [Ordered S] where
  start : S
  accept : SortedSet S
  table : RuleTable S

namespace Dfa

/-- A run in progress, in a state or stuck. -/
structure Run (S : Type) [Ordered S] where
  current : Except (RuleError S) S
  accept : SortedSet S
  table : RuleTable S

variable {S : Type} [Ordered S]

namespace Run

/-- The state of the run, unless it is stuck. -/
def state? (run : Run S) : Option S := run.current.toOption

def isStuck (run : Run S) : Bool := run.state?.isNone

def isAccepting (run : Run S) : Bool := run.state?.any fun state => state ∈ run.accept

/-- Reads one symbol, and tells whether the run could follow it. -/
def read (run : Run S) (symbol : Char) : Run S × Except (RuleError S) Unit :=
  let current := run.current.bind fun state => run.table.nextState state symbol
  ({ run with current }, current.map fun _ => ())

/-- Reads the symbols in order, up to the first failure. -/
def readWord (run : Run S) : List Char → Run S × Except (RuleError S) Unit
  | [] => (run, .ok ())
  | symbol :: rest =>
    match run.read symbol with
    | (run, .ok ()) => run.readWord rest
    | (run, .error e) => (run, .error e)

def readString (run : Run S) (s : String) : Run S × Except (RuleError S) Unit :=
  run.readWord s.toList

end Run

def run (dfa : Dfa S) : Run S := ⟨.ok dfa.start, dfa.accept, dfa.table⟩

/-- Whether the state after the symbols accepts, or the rule that was missing on the way. -/
def outcomeWord (dfa : Dfa S) (word : List Char) : Except (RuleError S) Bool :=
  match dfa.run.readWord word with
  | (run, .ok ()) => .ok run.isAccepting
  | (_, .error e) => .error e

def outcome (dfa : Dfa S) (s : String) : Except (RuleError S) Bool := dfa.outcomeWord s.toList

/-- Whether a run over the symbols ends accepting; a missing rule refuses them. -/
def acceptsWord (dfa : Dfa S) (word : List Char) : Bool :=
  match dfa.outcomeWord word with
  | .ok accepted => accepted
  | .error _ => false

def accepts (dfa : Dfa S) (s : String) : Bool := dfa.acceptsWord s.toList

end Dfa
end Automata
