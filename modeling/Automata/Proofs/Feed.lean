import Automata.Proofs.Path

/-! A run may be fed its input in pieces, single symbols and whole strings in any order; how the
input was cut does not show in the run. After each piece the current states are the ends of the
paths that spell all input so far. The frontier is narrower: it holds the ends of those paths that
stop as soon as the last symbol is read, before any free move. -/
namespace Automata

/-- One piece of input. -/
inductive Feed where
  | symbol (c : Char)
  | string (s : String)

namespace Feed

def chars : Feed → List Char
  | symbol c => [c]
  | string s => s.toList

/-- The whole input, piece after piece. -/
def word (feeds : List Feed) : List Char := feeds.flatMap chars

theorem word_cons (piece : Feed) (rest : List Feed) :
    word (piece :: rest) = piece.chars ++ word rest := List.flatMap_cons

end Feed

namespace Nfa
namespace Run
variable {S : Type} [Ordered S]

/-- A run from any number of first states. -/
def begin (first accept : List S) (book : Rulebook S) : Run S :=
  ⟨.ofList first, .ofList accept, book⟩

def feed (run : Run S) : Feed → Run S
  | .symbol c => run.read c
  | .string s => run.readString s

def feedAll (run : Run S) (feeds : List Feed) : Run S := feeds.foldl feed run

theorem feed_eq_readWord (run : Run S) (piece : Feed) :
    run.feed piece = run.readWord piece.chars := by
  cases piece with
  | symbol c => rfl
  | string s => rfl

theorem feedAll_eq_readWord (run : Run S) (feeds : List Feed) :
    run.feedAll feeds = run.readWord (Feed.word feeds) := by
  induction feeds generalizing run with
  | nil => rfl
  | cons piece rest ih =>
    have hrest : run.feedAll (piece :: rest) = (run.feed piece).feedAll rest := rfl
    rw [hrest, ih, feed_eq_readWord, Feed.word_cons, readWord_append]

/-- The last symbol alone decides where the frontier lies after the paths for the others. -/
theorem mem_frontier_readWord_concat {run : Run S} {before : List Char} {c : Char} {state : S} :
    state ∈ (run.readWord (before ++ [c])).frontier ↔ ∃ first ∈ run.frontier, ∃ last,
      Path run.rulebook.rules first before last ∧ ⟨last, some c, state⟩ ∈ run.rulebook.rules := by
  rw [readWord_append, readWord_cons, readWord_nil, mem_frontier_read, rulebook_readWord]
  simp only [mem_current_readWord]
  constructor
  · rintro ⟨last, ⟨first, mem, path⟩, rule⟩
    exact ⟨first, mem, last, path, rule⟩
  · rintro ⟨first, mem, last, path, rule⟩
    exact ⟨last, ⟨first, mem, path⟩, rule⟩

/-- What a run shows after any pieces of input: its current states are the ends of the paths that
spell the input, its frontier the ends of those that stop at the last symbol, and it accepts when an
accepting state is among the current ones. So an automaton accepts the strings that are spelled
from its start state to an accepting state. A single step from a state goes to the targets of the
rules that leave it on the symbol. -/
theorem feedAll_follows_paths (first accept : List S) (book : Rulebook S) (feeds : List Feed) :
    (∀ state, state ∈ ((begin first accept book).feedAll feeds).current ↔
      ∃ start ∈ first, Path book.rules start (Feed.word feeds) state) ∧
    (∀ before c, Feed.word feeds = before ++ [c] →
      ∀ state, state ∈ ((begin first accept book).feedAll feeds).frontier ↔
        ∃ start ∈ first, ∃ last, Path book.rules start before last ∧
          ⟨last, some c, state⟩ ∈ book.rules) ∧
    (Feed.word feeds = [] →
      ((begin first accept book).feedAll feeds).frontier = .ofList first) ∧
    (((begin first accept book).feedAll feeds).isAccepting = true ↔
      ∃ state ∈ ((begin first accept book).feedAll feeds).current, state ∈ accept) ∧
    (∀ (nfa : Nfa S) (s : String), nfa.accepts s = true ↔
      ∃ last ∈ nfa.accept, Path nfa.rulebook.rules nfa.start s.toList last) ∧
    (∀ state symbol,
      book.follow state symbol = .ofList ((book.rulesFor state symbol).map Rule.target) ∧
      ∀ target, target ∈ book.follow state symbol ↔ ⟨state, symbol, target⟩ ∈ book.rules) := by
  rw [feedAll_eq_readWord]
  have hfirst (state : S) : state ∈ (begin first accept book).frontier ↔ state ∈ first :=
    SortedSet.mem_ofList
  refine ⟨fun state => ?_, fun before c hword state => ?_, fun hword => ?_, ?_, fun nfa s => ?_,
    fun state symbol => ⟨book.follow_eq state symbol, fun target => Rulebook.mem_follow⟩⟩
  · rw [mem_current_readWord]
    simp only [hfirst]
    rfl
  · rw [hword, mem_frontier_readWord_concat]
    simp only [hfirst]
    rfl
  · rw [hword]
    rfl
  · rw [isAccepting, SortedSet.meets_eq_true, accept_readWord]
    simp only [begin, SortedSet.mem_ofList]
  · exact acceptsWord_iff

end Run
end Nfa
end Automata
