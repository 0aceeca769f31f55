import Automata.Rulebook

/-! A nondeterministic automaton is run over a frontier: the states that the last symbol led to, or
the ones that the run began with. Free moves are not followed into the frontier; they are followed
when the frontier is looked at or stepped from, so a run shows both what was read last and where the
machine may be. A run never fails: an empty frontier stays empty. -/
namespace Automata

structure Nfa (S : Type) [Ordered S] where
  start : S
  accept : SortedSet S
  rulebook : Rulebook S

namespace Nfa

structure Run (S : Type) [Ordered S] where
  frontier : SortedSet S
  accept : SortedSet S
  rulebook : Rulebook S

variable {S : Type} [Ordered S]

namespace Run

/-- The states where the machine may be: the frontier and all that free moves add to it. -/
def current (run : Run S) : SortedSet S := run.rulebook.closure run.frontier.toList

def isAccepting (run : Run S) : Bool := run.current.meets run.accept

def read (run : Run S) (symbol : Char) : Run S :=
  { run with frontier := run.rulebook.next run.current.toList (some symbol) }

def readWord (run : Run S) (word : List Char) : Run S := word.foldl read run

def readString (run : Run S) (s : String) : Run S := run.readWord s.toList

@[simp] theorem readWord_nil (run : Run S) : run.readWord [] = run := rfl

@[simp] theorem readWord_cons (run : Run S) (symbol : Char) (rest : List Char) :
    run.readWord (symbol :: rest) = (run.read symbol).readWord rest := rfl

theorem readWord_append (run : Run S) (first second : List Char) :
    run.readWord (first ++ second) = (run.readWord first).readWord second :=
  List.foldl_append

end Run

def run (nfa : Nfa S) : Run S := ⟨SortedSet.singleton nfa.start, nfa.accept, nfa.rulebook⟩

/-- Whether a run over the symbols ends accepting. -/
def acceptsWord (nfa : Nfa S) (word : List Char) : Bool := (nfa.run.readWord word).isAccepting

def accepts (nfa : Nfa S) (s : String) : Bool := nfa.acceptsWord s.toList

end Nfa
end Automata
