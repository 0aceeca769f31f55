import Automata.Nfa.Basic
import Automata.Pattern.Basic

/-! Every pattern becomes a fragment of an automaton, entered at one state and left at several. A
fragment is never edited once it is built: an operator mints a state of its own, if it needs one,
and joins its operands by free moves alone. Operands come first, so they have the lower numbers, and
no rule leads back into the entry of a fragment, which is what lets the entry of a star accept. -/
namespace Automata
namespace Pattern

/-- Part of an automaton: the state in which it is entered, and the states in which it is left. -/
structure Fragment where
  start : State
  accept : List State

/-- The rules laid down so far, and the allocator of the states still to come. -/
structure Builder where
  rules : Array (Rule State)
  fresh : Fresh

namespace Builder

def empty : Builder := ⟨#[], .new⟩

def mint (builder : Builder) : Except Fresh.MintError (State × Builder) := do
  let (state, fresh) ← builder.fresh.mint
  return (state, { builder with fresh })

def push (builder : Builder) (rule : Rule State) : Builder :=
  { builder with rules := builder.rules.push rule }

/-- Lays down a free move from each of the sources to the target. -/
def connect (builder : Builder) (sources : List State) (target : State) : Builder :=
  sources.foldl (fun builder source => builder.push ⟨source, none, target⟩) builder

end Builder

def assemble (builder : Builder) : Pattern → Except Fresh.MintError (Fragment × Builder)
  | empty => do
    let (start, builder) ← builder.mint
    return (⟨start, [start]⟩, builder)
  | literal c => do
    let (start, builder) ← builder.mint
    let (accept, builder) ← builder.mint
    return (⟨start, [accept]⟩, builder.push ⟨start, some c, accept⟩)
  | concat l r => do
    let (l, builder) ← assemble builder l
    let (r, builder) ← assemble builder r
    return (⟨l.start, r.accept⟩, builder.connect l.accept r.start)
  | choice l r => do
    let (l, builder) ← assemble builder l
    let (r, builder) ← assemble builder r
    let (start, builder) ← builder.mint
    return (⟨start, l.accept ++ r.accept⟩,
      (builder.connect [start] l.start).connect [start] r.start)
  | star p => do
    let (p, builder) ← assemble builder p
    let (start, builder) ← builder.mint
    return (⟨start, start :: p.accept⟩,
      (builder.connect p.accept p.start).connect [start] p.start)

/-- The nondeterministic automaton of a pattern. -/
def compile (p : Pattern) : Except Fresh.MintError (Nfa State) := do
  let (fragment, builder) ← assemble .empty p
  return ⟨fragment.start, SortedSet.ofList fragment.accept, .ofList builder.rules.toList⟩

/-- Whether the pattern matches the whole list of characters. -/
def matchesWord (p : Pattern) (word : List Char) : Except Fresh.MintError Bool := do
  return (← p.compile).acceptsWord word

def matchesString (p : Pattern) (s : String) : Except Fresh.MintError Bool :=
  p.matchesWord s.toList

end Pattern
end Automata
