import Automata.Nfa.Basic
import Automata.Proofs.Reachability

/-! A path takes rules one after the other and spells their symbols, a free rule spelling nothing.
A run follows all paths at once: after any word its current states are the ends of the paths from
its first frontier that spell the word, wherever on the way their free moves stand. -/
namespace Automata

/-- The rule between the renamed states. -/
def Rule.map {S T : Type} (f : S → T) (rule : Rule S) : Rule T :=
  ⟨f rule.source, rule.symbol, f rule.target⟩

/-- Rules lead from the first state to the last, and their symbols spell the word. -/
inductive Path {S : Type} (rules : List (Rule S)) : S → List Char → S → Prop where
  | refl (state : S) : Path rules state [] state
  | step {source middle target : S} {symbol : Option Char} {word : List Char}
      (rule : ⟨source, symbol, middle⟩ ∈ rules) (rest : Path rules middle word target) :
      Path rules source (symbol.toList ++ word) target

namespace Path
variable {S : Type} {rules : List (Rule S)} {p q r : S} {u v word : List Char}

theorem free (rule : ⟨p, none, q⟩ ∈ rules) (rest : Path rules q word r) : Path rules p word r :=
  step rule rest

theorem read {c : Char} (rule : ⟨p, some c, q⟩ ∈ rules) (rest : Path rules q word r) :
    Path rules p (c :: word) r :=
  step rule rest

theorem trans (first : Path rules p u q) (second : Path rules q v r) :
    Path rules p (u ++ v) r := by
  induction first with
  | refl => exact second
  | step rule _ ih =>
    rw [List.append_assoc]
    exact step rule (ih second)

theorem mono {more : List (Rule S)} (sub : rules ⊆ more) (path : Path rules p word q) :
    Path more p word q := by
  induction path with
  | refl => exact refl _
  | step rule _ ih => exact step (sub rule) ih

/-- Renaming the states renames the paths. -/
theorem map {T : Type} (f : S → T) (path : Path rules p word q) :
    Path (rules.map (Rule.map f)) (f p) word (f q) := by
  induction path with
  | refl => exact refl _
  | step rule _ ih => exact step (List.mem_map.2 ⟨_, rule, rfl⟩) ih

/-- The empty word is spelled by free moves alone. -/
theorem nil_iff : Path rules p [] q ↔
    Relation.ReflTransGen (fun p q => ⟨p, none, q⟩ ∈ rules) p q := by
  constructor
  · generalize hw : ([] : List Char) = word
    intro path
    induction path with
    | refl => exact .refl
    | @step _ _ _ symbol word rule _ ih =>
      have hempty := List.append_eq_nil_iff.1 hw.symm
      have hsymbol : symbol = none := by simpa using hempty.1
      subst hsymbol
      exact .head rule (ih hempty.2.symm)
  · intro reaches
    induction reaches using Relation.ReflTransGen.head_induction_on with
    | refl => exact refl _
    | head rule _ ih => exact free rule ih

/-- A word is read by free moves, a rule on its first symbol, and a path for the others. -/
theorem cons_iff {c : Char} : Path rules p (c :: word) q ↔
    ∃ before after, Path rules p [] before ∧ ⟨before, some c, after⟩ ∈ rules ∧
      Path rules after word q := by
  constructor
  · generalize hw : c :: word = whole
    intro path
    induction path with
    | refl => simp at hw
    | @step source middle _ symbol rest rule tail ih =>
      cases symbol with
      | none =>
        obtain ⟨before, after, free, read, path⟩ := ih hw
        exact ⟨before, after, .free rule free, read, path⟩
      | some d =>
        injection hw with head tail'
        subst head tail'
        exact ⟨source, middle, refl _, rule, tail⟩
  · rintro ⟨before, after, free, rule, path⟩
    exact free.trans (read rule path)

/-- Where a word is cut, so is its path. -/
theorem exists_of_append (path : Path rules p (u ++ v) r) :
    ∃ q, Path rules p u q ∧ Path rules q v r := by
  induction u generalizing p with
  | nil => exact ⟨p, refl p, path⟩
  | cons c rest ih =>
    obtain ⟨before, after, free, rule, onward⟩ := cons_iff.1 path
    obtain ⟨q, first, second⟩ := ih onward
    exact ⟨q, free.trans (read rule first), second⟩

end Path

namespace Nfa
variable {S : Type} [Ordered S]

namespace Run

@[simp] theorem accept_readWord (run : Run S) (word : List Char) :
    (run.readWord word).accept = run.accept := by
  induction word generalizing run with
  | nil => rfl
  | cons c rest ih =>
    rw [readWord_cons, ih]
    rfl

@[simp] theorem rulebook_readWord (run : Run S) (word : List Char) :
    (run.readWord word).rulebook = run.rulebook := by
  induction word generalizing run with
  | nil => rfl
  | cons c rest ih =>
    rw [readWord_cons, ih]
    rfl

theorem mem_current {run : Run S} {state : S} :
    state ∈ run.current ↔ ∃ first ∈ run.frontier, Path run.rulebook.rules first [] state := by
  rw [current, Rulebook.mem_closure]
  simp only [Path.nil_iff]
  rfl

theorem mem_frontier_read {run : Run S} {c : Char} {state : S} :
    state ∈ (run.read c).frontier ↔
      ∃ before ∈ run.current, ⟨before, some c, state⟩ ∈ run.rulebook.rules :=
  Rulebook.mem_next

/-- The current states are the ends of the paths that spell what was read. -/
theorem mem_current_readWord {run : Run S} {word : List Char} {state : S} :
    state ∈ (run.readWord word).current ↔
      ∃ first ∈ run.frontier, Path run.rulebook.rules first word state := by
  induction word generalizing run with
  | nil => exact mem_current
  | cons c rest ih =>
    rw [readWord_cons, ih]
    simp only [mem_frontier_read, mem_current, Path.cons_iff]
    constructor
    · rintro ⟨after, ⟨before, ⟨first, mem, free⟩, rule⟩, path⟩
      exact ⟨first, mem, before, after, free, rule, path⟩
    · rintro ⟨first, mem, before, after, free, rule, path⟩
      exact ⟨after, ⟨before, ⟨first, mem, free⟩, rule⟩, path⟩

end Run

theorem mem_current_readWord_run {nfa : Nfa S} {word : List Char} {state : S} :
    state ∈ (nfa.run.readWord word).current ↔ Path nfa.rulebook.rules nfa.start word state := by
  rw [Run.mem_current_readWord]
  simp only [run, SortedSet.mem_singleton, exists_eq_left]

/-- A word is accepted when it is spelled by a path from the start state to an accepting one. -/
theorem acceptsWord_iff {nfa : Nfa S} {word : List Char} :
    nfa.acceptsWord word = true ↔
      ∃ last ∈ nfa.accept, Path nfa.rulebook.rules nfa.start word last := by
  rw [acceptsWord, Run.isAccepting, SortedSet.meets_eq_true, Run.accept_readWord]
  simp only [mem_current_readWord_run]
  exact exists_congr fun last => and_comm

end Nfa
end Automata
