import Automata.StateText

/-! A rule is one labelled move of an automaton. A rule without a symbol is free: it is taken
without reading. The symbol of a rule is always shown in printable ASCII, and a free move by a
letter outside ASCII, so the two are never shown alike. -/
namespace Automata

/-- A move from a state to a state that reads a symbol, or nothing if it has none. -/
structure Rule (S : Type) where
  source : S
  symbol : Option Char
  target : S
  deriving DecidableEq

namespace Rule
variable {S : Type}

def isFree (rule : Rule S) : Bool := rule.symbol.isNone

/-- Whether the rule leaves the state on exactly this symbol, or freely if there is none. -/
def appliesTo [DecidableEq S] (rule : Rule S) (state : S) (symbol : Option Char) : Bool :=
  rule.source = state ∧ rule.symbol = symbol

theorem appliesTo_eq_true [DecidableEq S] {rule : Rule S} {state : S} {symbol : Option Char} :
    rule.appliesTo state symbol = true ↔ rule.source = state ∧ rule.symbol = symbol := by
  simp [appliesTo]

/-- The source, the symbol and the target, in the order in which rules compare. -/
def key (rule : Rule S) : S × Option Char × S := (rule.source, rule.symbol, rule.target)

theorem key_injective (a b : Rule S) (h : a.key = b.key) : a = b := by
  cases a
  cases b
  simp only [key, Prod.mk.injEq] at h
  obtain ⟨rfl, rfl, rfl⟩ := h
  rfl

/-- Rules compare by source, then symbol with free moves first, then target. -/
instance [Ordered S] : Ordered (Rule S) := Ordered.ofKey key key_injective

/-- How a symbol is shown, or the free move. -/
def symbolChars : Option Char → List Char
  | some c => Text.escapeAscii c
  | none => ['ϵ']

/-- A rule as an arrow with its symbol on it. -/
def chars [StateText S] (rule : Rule S) : List Char :=
  StateText.name rule.source ++ [' ', '-', '-'] ++ symbolChars rule.symbol ++
    ['-', '-', '>', ' '] ++ StateText.name rule.target

def text [StateText S] (rule : Rule S) : String := String.ofList rule.chars

end Rule
end Automata
