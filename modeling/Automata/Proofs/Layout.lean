import Automata.Pattern.Compile
import Automata.Proofs.Path

/-! Compilation mints its states one after the other, so where the states of a pattern lie is known
from the first number alone. The layout of a pattern is its fragment in closed form over plain
numbers, one operator a law of its own; compilation equals it as long as the numbers last. All that
is proved of compiled automata is proved of layouts. -/
namespace Automata

/-- The state with a given number; numbers past the last one wrap. -/
def State.numbered (n : Nat) : State := ⟨.ofNat n⟩

theorem State.toNat_id_numbered (n : Nat) (hn : n ≤ Fresh.limit.toNat) :
    (State.numbered n).id.toNat = n := by
  have hlimit : Fresh.limit.toNat = 18446744073709551615 := rfl
  unfold State.numbered
  rw [UInt64.toNat_ofNat']
  omega

theorem State.numbered_toNat_id (q : State) : State.numbered q.id.toNat = q := by
  unfold State.numbered
  rw [UInt64.ofNat_toNat]

namespace Fresh

/-- The allocator that gives out the number next. -/
def atNumber (n : Nat) : Fresh := ⟨.ofNat n⟩

theorem mint_atNumber {n : Nat} (hn : n < limit.toNat) :
    (atNumber n).mint = .ok (State.numbered n, atNumber (n + 1)) := by
  have hlimit : UInt64.ofNat n ≠ limit := by
    intro h
    have hnat := congrArg UInt64.toNat h
    have hid : (UInt64.ofNat n).toNat = n := State.toNat_id_numbered n (Nat.le_of_lt hn)
    omega
  have hnext : UInt64.ofNat n + 1 = UInt64.ofNat (n + 1) := (UInt64.ofNat_add n 1).symm
  unfold atNumber mint
  rw [if_neg hlimit, hnext]
  rfl

/-- After the last number there is no other. -/
theorem mint_limit : (atNumber limit.toNat).mint = .error .exhausted := by
  have hlimit : UInt64.ofNat limit.toNat = limit := rfl
  unfold atNumber mint
  rw [if_pos hlimit]

end Fresh

namespace Pattern

/-- The number of states that compilation mints. -/
def stateCount : Pattern → Nat
  | empty => 1
  | literal _ => 2
  | concat l r => l.stateCount + r.stateCount
  | choice l r => l.stateCount + r.stateCount + 1
  | star p => p.stateCount + 1

/-- What a node of a pattern is. -/
inductive Node where
  | empty
  | literal
  | concat
  | choice
  | star
  deriving DecidableEq

/-- The nodes of a pattern, each before those below it. -/
def nodes : Pattern → List Node
  | empty => [.empty]
  | literal _ => [.literal]
  | concat l r => .concat :: (l.nodes ++ r.nodes)
  | choice l r => .choice :: (l.nodes ++ r.nodes)
  | star p => .star :: p.nodes

/-- How many states the nodes of a pattern take: a literal takes two, and a concatenation none. -/
def statesTaken (p : Pattern) : Nat :=
  2 * p.nodes.count .literal + p.nodes.count .empty + p.nodes.count .choice + p.nodes.count .star

theorem statesTaken_eq (p : Pattern) : p.statesTaken = p.stateCount := by
  unfold statesTaken
  induction p with
  | empty => rfl
  | literal c => rfl
  | concat l r hl hr => grind [nodes, stateCount]
  | choice l r hl hr => grind [nodes, stateCount]
  | star p hp => grind [nodes, stateCount]

/-- A fragment together with its rules. -/
structure Layout where
  start : Nat
  accept : List Nat
  rules : List (Rule Nat)

namespace Layout

/-- Free moves from each of the sources to the target. -/
def bridges (sources : List Nat) (target : Nat) : List (Rule Nat) :=
  sources.map fun source => ⟨source, none, target⟩

def concat (l r : Layout) : Layout where
  start := l.start
  accept := r.accept
  rules := l.rules ++ r.rules ++ bridges l.accept r.start

def choice (l r : Layout) (top : Nat) : Layout where
  start := top
  accept := l.accept ++ r.accept
  rules := l.rules ++ r.rules ++ [⟨top, none, l.start⟩, ⟨top, none, r.start⟩]

def star (p : Layout) (top : Nat) : Layout where
  start := top
  accept := top :: p.accept
  rules := p.rules ++ bridges p.accept p.start ++ [⟨top, none, p.start⟩]

def fragment (part : Layout) : Fragment where
  start := State.numbered part.start
  accept := part.accept.map State.numbered

def stateRules (part : Layout) : List (Rule State) := part.rules.map (Rule.map State.numbered)

def nfa (part : Layout) : Nfa State where
  start := part.fragment.start
  accept := .ofList part.fragment.accept
  rulebook := .ofList part.stateRules

end Layout

/-- The fragment of a pattern with its states numbered from `n` on, operands first. -/
def layout : Pattern → Nat → Layout
  | empty, n => ⟨n, [n], []⟩
  | literal c, n => ⟨n, [n + 1], [⟨n, some c, n + 1⟩]⟩
  | concat l r, n => (l.layout n).concat (r.layout (n + l.stateCount))
  | choice l r, n =>
    (l.layout n).choice (r.layout (n + l.stateCount)) (n + l.stateCount + r.stateCount)
  | star p, n => (p.layout n).star (n + p.stateCount)

namespace Builder

/-- The builder that has laid down the rules and mints the `n`-th state next. -/
def atNumber (rules : Array (Rule State)) (n : Nat) : Builder := ⟨rules, ⟨.ofNat n⟩⟩

theorem mint_atNumber (rules : Array (Rule State)) (n : Nat) (hn : n < Fresh.limit.toNat) :
    (atNumber rules n).mint = .ok (State.numbered n, atNumber rules (n + 1)) := by
  have h := Fresh.mint_atNumber hn
  unfold Fresh.atNumber at h
  unfold atNumber mint
  rw [h]
  rfl

/-- After the last number there is no other. -/
theorem mint_atNumber_limit (rules : Array (Rule State)) :
    (atNumber rules Fresh.limit.toNat).mint = .error .exhausted := by
  have h := Fresh.mint_limit
  unfold Fresh.atNumber at h
  unfold atNumber mint
  rw [h]
  rfl

theorem push_atNumber (rules : Array (Rule State)) (n : Nat) (rule : Rule State) :
    (atNumber rules n).push rule = atNumber (rules.push rule) n :=
  rfl

theorem connect_atNumber (rules : Array (Rule State)) (n : Nat) (sources : List Nat)
    (target : Nat) :
    (atNumber rules n).connect (sources.map State.numbered) (State.numbered target) =
      atNumber (rules ++ ((Layout.bridges sources target).map (Rule.map State.numbered)).toArray)
        n := by
  induction sources generalizing rules with
  | nil => simp [connect, Layout.bridges]
  | cons source rest ih =>
    have h := ih (rules.push ⟨State.numbered source, none, State.numbered target⟩)
    unfold connect at h ⊢
    rw [List.map_cons, List.foldl_cons]
    refine h.trans ?_
    simp [Layout.bridges, Rule.map]

end Builder

/-- Compiling a pattern adds its layout to the rules and moves the allocator past its states. -/
theorem assemble_atNumber (p : Pattern) (rules : Array (Rule State)) (n : Nat)
    (fits : n + p.stateCount ≤ Fresh.limit.toNat) :
    assemble (.atNumber rules n) p = .ok ((p.layout n).fragment,
      .atNumber (rules ++ (p.layout n).stateRules.toArray) (n + p.stateCount)) := by
  induction p generalizing rules n with
  | empty =>
    unfold stateCount at fits
    rw [assemble, Builder.mint_atNumber rules n (by omega)]
    simp [layout, Layout.fragment, Layout.stateRules, stateCount, bind, Except.bind, pure,
      Except.pure]
  | literal c =>
    unfold stateCount at fits
    rw [assemble, Builder.mint_atNumber rules n (by omega)]
    simp only [bind, Except.bind]
    rw [Builder.mint_atNumber rules (n + 1) (by omega)]
    simp only [pure, Except.pure, Builder.push_atNumber]
    simp [layout, Layout.fragment, Layout.stateRules, stateCount, Rule.map]
  | concat l r hl hr =>
    unfold stateCount at fits
    rw [assemble, hl rules n (by omega)]
    simp only [bind, Except.bind]
    rw [hr _ (n + l.stateCount) (by omega)]
    simp only [pure, Except.pure, Layout.fragment, Builder.connect_atNumber]
    simp [layout, Layout.concat, Layout.stateRules, stateCount, Nat.add_assoc]
  | choice l r hl hr =>
    unfold stateCount at fits
    rw [assemble, hl rules n (by omega)]
    simp only [bind, Except.bind]
    rw [hr _ (n + l.stateCount) (by omega)]
    dsimp only
    rw [Builder.mint_atNumber _ _ (by omega)]
    have hone (m : Nat) : [State.numbered m] = [m].map State.numbered := rfl
    simp only [pure, Except.pure, Layout.fragment, hone, Builder.connect_atNumber]
    simp [layout, Layout.choice, Layout.stateRules, Layout.bridges, stateCount, Nat.add_assoc]
  | star p hp =>
    unfold stateCount at fits
    rw [assemble, hp rules n (by omega)]
    simp only [bind, Except.bind]
    rw [Builder.mint_atNumber _ _ (by omega)]
    have hone (m : Nat) : [State.numbered m] = [m].map State.numbered := rfl
    simp only [pure, Except.pure, Layout.fragment, hone, Builder.connect_atNumber]
    simp [layout, Layout.star, Layout.stateRules, Layout.bridges, stateCount, Nat.add_assoc]

/-- A pattern compiles to its layout from zero on. -/
theorem compile_eq (p : Pattern) (fits : p.stateCount ≤ Fresh.limit.toNat) :
    p.compile = .ok (p.layout 0).nfa := by
  have h := assemble_atNumber p #[] 0 (by omega)
  have hempty : Builder.empty = .atNumber #[] 0 := rfl
  unfold compile
  rw [hempty, h]
  simp [Layout.nfa, Builder.atNumber, bind, Except.bind, pure, Except.pure]

/-- An allocator that cannot serve all states of a pattern fails on it. -/
theorem assemble_eq_error (p : Pattern) (rules : Array (Rule State)) (n : Nat)
    (hn : n ≤ Fresh.limit.toNat) (exceeds : Fresh.limit.toNat < n + p.stateCount) :
    assemble (.atNumber rules n) p = .error .exhausted := by
  have hmint (rules : Array (Rule State)) (m : Nat) (hm : m = Fresh.limit.toNat) :
      (Builder.atNumber rules m).mint = .error .exhausted := by
    rw [hm]
    exact Builder.mint_atNumber_limit rules
  induction p generalizing rules n with
  | empty =>
    unfold stateCount at exceeds
    rw [assemble, hmint rules n (by omega)]
    rfl
  | literal c =>
    unfold stateCount at exceeds
    rw [assemble]
    by_cases hfirst : n = Fresh.limit.toNat
    · rw [hmint rules n hfirst]
      rfl
    · rw [Builder.mint_atNumber rules n (by omega)]
      simp only [bind, Except.bind]
      rw [hmint rules (n + 1) (by omega)]
  | concat l r hl hr =>
    unfold stateCount at exceeds
    rw [assemble]
    by_cases hleft : n + l.stateCount ≤ Fresh.limit.toNat
    · rw [assemble_atNumber l rules n hleft]
      simp only [bind, Except.bind]
      rw [hr _ (n + l.stateCount) hleft (by omega)]
    · rw [hl rules n hn (by omega)]
      rfl
  | choice l r hl hr =>
    unfold stateCount at exceeds
    rw [assemble]
    by_cases hleft : n + l.stateCount ≤ Fresh.limit.toNat
    · rw [assemble_atNumber l rules n hleft]
      simp only [bind, Except.bind]
      by_cases hright : n + l.stateCount + r.stateCount ≤ Fresh.limit.toNat
      · rw [assemble_atNumber r _ (n + l.stateCount) hright]
        dsimp only
        rw [hmint _ _ (by omega)]
      · rw [hr _ (n + l.stateCount) hleft (by omega)]
    · rw [hl rules n hn (by omega)]
      rfl
  | star p hp =>
    unfold stateCount at exceeds
    rw [assemble]
    by_cases hinner : n + p.stateCount ≤ Fresh.limit.toNat
    · rw [assemble_atNumber p rules n hinner]
      simp only [bind, Except.bind]
      rw [hmint _ _ (by omega)]
    · rw [hp rules n hn (by omega)]
      rfl

theorem compile_eq_error (p : Pattern) (exceeds : Fresh.limit.toNat < p.stateCount) :
    p.compile = .error .exhausted := by
  have herror := assemble_eq_error p #[] 0 (Nat.zero_le _) (by omega)
  have hempty : Builder.empty = .atNumber #[] 0 := rfl
  unfold compile
  rw [hempty, herror]
  rfl

end Pattern
end Automata
