import Automata.Ordered

/-! Minted states are numbered by a 64-bit word, and an allocator keeps the next number. A mint is
refused when the number after it would not fit the word: the allocator is then left as it is, so it
never wraps, and no number is given out twice. -/
namespace Automata

/-- A state that an allocator has minted. -/
structure State where
  id : UInt64
  deriving DecidableEq, Inhabited

namespace State

theorem id_injective (a b : State) (h : a.id = b.id) : a = b := by
  cases a
  cases b
  exact congrArg State.mk h

/-- States compare by number. -/
instance : Ordered State := Ordered.ofKey State.id id_injective

end State

/-- An allocator of states, with the number of the next one. -/
structure Fresh where
  next : UInt64
  deriving DecidableEq

namespace Fresh

def new : Fresh := ⟨0⟩

/-- The number that stays in reserve: after the last mint the allocator rests here. -/
def limit : UInt64 := 18446744073709551615

/-- Why no state can be minted. -/
inductive MintError where
  /-- Every number but the last one is taken. -/
  | exhausted
  deriving DecidableEq, Repr

def MintError.message : MintError → String
  | .exhausted => "State IDs exhausted"

/-- Mints the next state, unless the numbers are used up. -/
def mint (fresh : Fresh) : Except MintError (State × Fresh) :=
  if fresh.next = limit then .error .exhausted else .ok (⟨fresh.next⟩, ⟨fresh.next + 1⟩)

/-- How many states were minted, if the allocator began at zero. -/
def count (fresh : Fresh) : UInt64 := fresh.next

end Fresh
end Automata
