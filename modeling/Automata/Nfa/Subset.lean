import Automata.Dfa.Basic
import Automata.Nfa.Basic

/-! The subset construction. A state of the deterministic automaton stands for the set of states in
which the nondeterministic one may be, so the sets are searched from the closure of the start state,
symbols in ascending order, and each is numbered by its place in the search. Every set has one rule
for each symbol of the alphabet, the empty set included. The search ends because all its sets have
their states among the start state and the targets of rules. -/
namespace Automata
namespace Nfa
variable {S : Type} [Ordered S]

/-- Where the machine may be before it has read anything. -/
def startSet (nfa : Nfa S) : SortedSet S := nfa.rulebook.closure [nfa.start]

/-- Where the machine may be one symbol after it may be in the given states. -/
def step (nfa : Nfa S) (states : SortedSet S) (symbol : Char) : SortedSet S :=
  nfa.rulebook.closure (nfa.rulebook.next states.toList (some symbol)).toList

/-- The sets one symbol away, in the order of the symbols. -/
def successors (nfa : Nfa S) (symbols : List Char) (states : SortedSet S) : List (SortedSet S) :=
  symbols.map (nfa.step states)

/-- The start state and the targets of rules. -/
def reachable (nfa : Nfa S) : List S := nfa.start :: nfa.rulebook.rules.map Rule.target

theorem mem_reachable_of_mem_startSet {nfa : Nfa S} {state : S} (mem : state ∈ nfa.startSet) :
    state ∈ nfa.reachable := by
  rcases Rulebook.mem_of_mem_closure mem with seed | target
  · exact List.mem_cons.2 (.inl (List.mem_singleton.1 seed))
  · exact List.mem_cons_of_mem _ target

theorem mem_reachable_of_mem_step {nfa : Nfa S} {states : SortedSet S} {symbol : Char} {state : S}
    (mem : state ∈ nfa.step states symbol) : state ∈ nfa.reachable := by
  rcases Rulebook.mem_of_mem_closure mem with seed | target
  · obtain ⟨_, -, rule⟩ := Rulebook.mem_next.1 seed
    exact List.mem_cons_of_mem _ (List.mem_map.2 ⟨_, rule, rfl⟩)
  · exact List.mem_cons_of_mem _ target

theorem confined_successors (nfa : Nfa S) (symbols : List Char) :
    Search.Confined (nfa.successors symbols) ⟨∅, [nfa.startSet]⟩ := by
  refine ⟨SortedSet.subsetsOf nfa.reachable, fun states mem => ?_, fun _ _ _ states mem => ?_⟩
  · obtain rfl := List.mem_singleton.1 mem
    exact SortedSet.mem_subsetsOf fun _ => mem_reachable_of_mem_startSet
  · obtain ⟨symbol, -, rfl⟩ := List.mem_map.1 mem
    exact SortedSet.mem_subsetsOf fun _ => mem_reachable_of_mem_step

/-- The sets that the states of the deterministic automaton stand for, by number. -/
def stateSets (nfa : Nfa S) : Roster (SortedSet S) :=
  let symbols := nfa.rulebook.alphabet.toList
  Search.discover (nfa.successors symbols) [nfa.startSet] (nfa.confined_successors symbols).halts

/-- The rules out of one numbered set, in the order of the symbols. -/
def subsetRules (nfa : Nfa S) (sets : Roster (SortedSet S)) (symbols : List Char)
    (numbered : SortedSet S × Nat) : List (Rule Nat) :=
  symbols.map fun symbol => ⟨numbered.2, some symbol, sets.idxOf (nfa.step numbered.1 symbol)⟩

/-- The numbers of the sets that hold an accepting state. -/
def subsetAccept (nfa : Nfa S) (sets : Roster (SortedSet S)) : SortedSet Nat :=
  SortedSet.ofList
    ((sets.toList.zipIdx.filter fun numbered => numbered.1.meets nfa.accept).map (·.2))

/-- The deterministic automaton over numbered sets. -/
def dfaOver (nfa : Nfa S) (sets : Roster (SortedSet S)) : Dfa Nat where
  start := 0
  accept := nfa.subsetAccept sets
  table := .firstMatch
    (sets.toList.zipIdx.flatMap (nfa.subsetRules sets nfa.rulebook.alphabet.toList))

/-- The deterministic automaton that accepts the same strings. -/
def toDfa (nfa : Nfa S) : Dfa Nat := nfa.dfaOver nfa.stateSets

end Nfa
end Automata
