import Automata.Rule
import Automata.Search
import Automata.SortedSet
import Std.Data.TreeMap

/-! A rulebook lists the rules of a nondeterministic automaton: any number of them may leave a state
on one symbol. Every answer is a set, so the order and the multiplicity of the rules show in the
listing alone, and the answers come from an index of the targets that the list determines. The
closure under free moves is a search, which ends because free moves lead only to rule targets. -/
namespace Automata

namespace Rulebook
variable {S : Type} [Ordered S]

/-- Enters the target of a rule under its state and symbol. -/
def enter (index : Std.TreeMap (S × Option Char) (SortedSet S)) (rule : Rule S) :
    Std.TreeMap (S × Option Char) (SortedSet S) :=
  index.alter (rule.source, rule.symbol) fun targets? =>
    some ((targets?.getD ∅).insert rule.target)

/-- The targets of the rules by state and symbol. -/
def indexOf (rules : List (Rule S)) : Std.TreeMap (S × Option Char) (SortedSet S) :=
  rules.foldl enter ∅

end Rulebook

/-- The rules of a nondeterministic automaton, in order, with an index of their targets. -/
structure Rulebook (S : Type) [Ordered S] where
  rules : List (Rule S)
  index : Std.TreeMap (S × Option Char) (SortedSet S)
  indexed : index = Rulebook.indexOf rules

namespace Rulebook
variable {S : Type} [Ordered S]

def ofList (rules : List (Rule S)) : Rulebook S := ⟨rules, indexOf rules, rfl⟩

def empty : Rulebook S := ofList []

@[simp] theorem rules_ofList (rules : List (Rule S)) : (ofList rules).rules = rules := rfl

theorem ext {a b : Rulebook S} (same : a.rules = b.rules) : a = b := by
  obtain ⟨rules, _, rfl⟩ := a
  obtain ⟨_, _, rfl⟩ := b
  obtain rfl := same
  rfl

instance : DecidableEq (Rulebook S) := fun a b =>
  decidable_of_iff (a.rules = b.rules) ⟨ext, congrArg rules⟩

/-- The symbols that some rule reads. -/
def alphabet (book : Rulebook S) : SortedSet Char :=
  SortedSet.ofList (book.rules.filterMap Rule.symbol)

def states (book : Rulebook S) : SortedSet S :=
  SortedSet.ofList (book.rules.flatMap fun rule => [rule.source, rule.target])

/-- The rules that leave the state on the symbol, in order. -/
def rulesFor (book : Rulebook S) (state : S) (symbol : Option Char) : List (Rule S) :=
  book.rules.filter (·.appliesTo state symbol)

/-- The states that one rule leads to from the state on the symbol. -/
def follow (book : Rulebook S) (state : S) (symbol : Option Char) : SortedSet S :=
  book.index.getD (state, symbol) ∅

/-- The states reached from the given ones by exactly one rule on the symbol. A step on no symbol
takes one free move, no more. -/
def next (book : Rulebook S) (states : List S) (symbol : Option Char) : SortedSet S :=
  SortedSet.ofList (states.flatMap fun state => (book.follow state symbol).toList)

def freeMoves (book : Rulebook S) (state : S) : List S := (book.follow state none).toList

theorem mem_getD_enter {index : Std.TreeMap (S × Option Char) (SortedSet S)} {rule : Rule S}
    {state target : S} {symbol : Option Char} :
    target ∈ (enter index rule).getD (state, symbol) ∅ ↔
      rule = ⟨state, symbol, target⟩ ∨ target ∈ index.getD (state, symbol) ∅ := by
  obtain ⟨source, label, goal⟩ := rule
  rw [enter, Std.TreeMap.getD_alter]
  split
  · next same =>
    obtain ⟨rfl, rfl⟩ := Prod.mk.inj (Ordered.compare_eq_iff.1 same)
    simp [Std.TreeMap.getD_eq_getD_getElem?, eq_comm]
  · next other =>
    have differs : (⟨source, label, goal⟩ : Rule S) ≠ ⟨state, symbol, target⟩ := by
      rintro ⟨⟩
      exact other (Ordered.compare_eq_iff.2 rfl)
    simp [differs]

theorem mem_getD_indexOf {rules : List (Rule S)} {state target : S} {symbol : Option Char} :
    target ∈ (indexOf rules).getD (state, symbol) ∅ ↔ ⟨state, symbol, target⟩ ∈ rules := by
  suffices general : ∀ index : Std.TreeMap (S × Option Char) (SortedSet S),
      target ∈ (rules.foldl enter index).getD (state, symbol) ∅ ↔
        ⟨state, symbol, target⟩ ∈ rules ∨ target ∈ index.getD (state, symbol) ∅ by
    simpa [indexOf] using general ∅
  induction rules with
  | nil => simp
  | cons rule rest ih =>
    intro index
    rw [List.foldl_cons, ih, mem_getD_enter, List.mem_cons, eq_comm, or_left_comm, or_assoc]

theorem mem_follow {book : Rulebook S} {state target : S} {symbol : Option Char} :
    target ∈ book.follow state symbol ↔ ⟨state, symbol, target⟩ ∈ book.rules := by
  rw [follow, book.indexed, mem_getD_indexOf]

/-- What follows a state on a symbol is where its rules lead. -/
theorem follow_eq (book : Rulebook S) (state : S) (symbol : Option Char) :
    book.follow state symbol = SortedSet.ofList ((book.rulesFor state symbol).map Rule.target) := by
  refine SortedSet.ext fun target => ?_
  simp only [mem_follow, SortedSet.mem_ofList, List.mem_map, rulesFor, List.mem_filter,
    Rule.appliesTo_eq_true]
  constructor
  · exact fun mem => ⟨_, ⟨mem, rfl, rfl⟩, rfl⟩
  · rintro ⟨⟨source, symbol', target'⟩, ⟨mem, rfl, rfl⟩, rfl⟩
    exact mem

theorem mem_freeMoves {book : Rulebook S} {state target : S} :
    target ∈ book.freeMoves state ↔ ⟨state, none, target⟩ ∈ book.rules :=
  mem_follow

theorem mem_next {book : Rulebook S} {states : List S} {symbol : Option Char} {target : S} :
    target ∈ book.next states symbol ↔ ∃ state ∈ states, ⟨state, symbol, target⟩ ∈ book.rules := by
  simp only [next, SortedSet.mem_ofList, List.mem_flatMap]
  exact exists_congr fun state => and_congr_right fun _ => mem_follow

theorem confined_freeMoves (book : Rulebook S) (seeds : List S) :
    Search.Confined book.freeMoves ⟨∅, seeds⟩ :=
  ⟨seeds ++ book.rules.map Rule.target, fun _ mem => List.mem_append_left _ mem,
    fun _ _ _ _ mem =>
      List.mem_append_right _ (List.mem_map.2 ⟨_, mem_freeMoves.1 mem, rfl⟩)⟩

/-- The states reached from the seeds by any number of free moves, the seeds included. -/
def closure (book : Rulebook S) (seeds : List S) : SortedSet S :=
  SortedSet.ofList
    (Search.discover book.freeMoves seeds (book.confined_freeMoves seeds).halts).toList

/-- Every state of a closure is a seed or the target of a rule. -/
theorem mem_of_mem_closure {book : Rulebook S} {seeds : List S} {state : S}
    (mem : state ∈ book.closure seeds) :
    state ∈ seeds ∨ state ∈ book.rules.map Rule.target :=
  Search.forall_mem_discover book.freeMoves
    (P := fun state => state ∈ seeds ∨ state ∈ book.rules.map Rule.target)
    (fun _ _ _ free => .inr (List.mem_map.2 ⟨_, mem_freeMoves.1 free, rfl⟩))
    (book.confined_freeMoves seeds).halts (fun _ => .inl) state
    (Roster.mem_toList.1 (SortedSet.mem_ofList.1 mem))

end Rulebook
end Automata
