import Automata.Rule
import Std.Data.TreeMap

/-! A rule table answers for each state and symbol with one rule at most, from an index that is
filled in the order of the rules: the first rule for a state and symbol keeps its place. A table is
either validated, so that no rule is free and none is shadowed, or lenient, where the rules that are
free or shadowed stay in the listing and are never followed. -/
namespace Automata

/-- What a deterministic automaton cannot have, or does not find. -/
inductive RuleError (S : Type) where
  /-- No rule leaves the state on the symbol. -/
  | noApplicableRule (state : S) (symbol : Char)
  /-- A second rule leaves the state on the symbol. -/
  | ambiguousRule (state : S) (symbol : Char)
  /-- A rule leaves the state without a symbol. -/
  | freeMove (state : S)
  deriving DecidableEq

namespace RuleError
variable {S : Type} [StateText S]

def chars : RuleError S → List Char
  | noApplicableRule q c =>
    "No rule for state ".toList ++ StateText.quoted q ++ " on ".toList ++ Text.quoteChar c
  | ambiguousRule q c =>
    "Multiple rules for state ".toList ++ StateText.quoted q ++ " on ".toList ++ Text.quoteChar c
  | freeMove q =>
    "Free move out of state ".toList ++ StateText.quoted q ++
      " in a deterministic rulebook".toList

def message (e : RuleError S) : String := String.ofList e.chars

end RuleError

/-- The rules of a deterministic automaton, in order, and the one that applies to each state and
symbol. -/
structure RuleTable (S : Type) [Ordered S] where
  rules : List (Rule S)
  index : Std.TreeMap (S × Char) (Rule S)

namespace RuleTable
variable {S : Type} [Ordered S]

/-- Enters a rule under its state and symbol if that place is free. -/
def enter (index : Std.TreeMap (S × Char) (Rule S)) (rule : Rule S) :
    Std.TreeMap (S × Char) (Rule S) :=
  match rule.symbol with
  | none => index
  | some c => index.insertIfNew (rule.source, c) rule

/-- Enters a rule under its state and symbol, which must be there and new. -/
def enterNew (index : Std.TreeMap (S × Char) (Rule S)) (rule : Rule S) :
    Except (RuleError S) (Std.TreeMap (S × Char) (Rule S)) :=
  match rule.symbol with
  | none => .error (.freeMove rule.source)
  | some c =>
    if (rule.source, c) ∈ index then .error (.ambiguousRule rule.source c)
    else .ok (index.insert (rule.source, c) rule)

/-- The table of rules of which the first in order wins. -/
def firstMatch (rules : List (Rule S)) : RuleTable S := ⟨rules, rules.foldl enter ∅⟩

/-- The table of rules of which none is free and no two compete; otherwise what is wrong with the
first rule that breaks this. -/
def validate (rules : List (Rule S)) : Except (RuleError S) (RuleTable S) := do
  return ⟨rules, ← rules.foldlM enterNew ∅⟩

/-- The rule that leaves the state on the symbol. -/
def ruleFor (table : RuleTable S) (state : S) (symbol : Char) : Except (RuleError S) (Rule S) :=
  match table.index[(state, symbol)]? with
  | some rule => .ok rule
  | none => .error (.noApplicableRule state symbol)

def nextState (table : RuleTable S) (state : S) (symbol : Char) : Except (RuleError S) S := do
  return (← table.ruleFor state symbol).target

end RuleTable
end Automata
