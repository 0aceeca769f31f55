import Automata.Proofs.Trimness

/-! A fragment does not depend on the builder in which it is laid down, except that its numbers
begin where the allocator stands: it is the fragment of an empty builder moved up. It uses each of
its numbers and no others, so what was laid down before is out of its reach, and no rule of its own
leads back to where it is entered. Whether it fits depends on the nodes of the pattern alone. -/
namespace Automata

/-- The state whose number is larger by `d`, if that fits the word. -/
def State.shift (d : UInt64) (q : State) : State := ⟨q.id + d⟩

theorem State.shift_numbered (d : UInt64) (n : Nat) :
    (State.numbered n).shift d = State.numbered (n + d.toNat) := by
  unfold shift numbered
  rw [UInt64.ofNat_add, UInt64.ofNat_toNat]

namespace Pattern

/-- The states of a fragment and of its rules, as often as they are mentioned. -/
def Fragment.states (fragment : Fragment) (rules : List (Rule State)) : List State :=
  fragment.start :: (fragment.accept ++ rules.flatMap fun rule => [rule.source, rule.target])

/-- The fragment with its states renamed. -/
def Fragment.map (f : State → State) (fragment : Fragment) : Fragment where
  start := f fragment.start
  accept := fragment.accept.map f

namespace Layout

/-- The layout with its states renamed. -/
def map (f : Nat → Nat) (part : Layout) : Layout where
  start := f part.start
  accept := part.accept.map f
  rules := part.rules.map (Rule.map f)

variable (f : Nat → Nat) (l r p : Layout)

theorem map_bridges (sources : List Nat) (target : Nat) :
    (bridges sources target).map (Rule.map f) = bridges (sources.map f) (f target) := by
  unfold bridges
  rw [List.map_map, List.map_map]
  rfl

theorem map_concat : (l.concat r).map f = (l.map f).concat (r.map f) := by
  simp only [map, concat, List.map_append, map_bridges]

theorem map_choice (top : Nat) : (l.choice r top).map f = (l.map f).choice (r.map f) (f top) := by
  simp only [map, choice, List.map_append]
  rfl

theorem map_star (top : Nat) : (p.star top).map f = (p.map f).star (f top) := by
  simp only [map, star, List.map_append, map_bridges]
  rfl

/-- All states of the layout, as often as it mentions them. -/
def states (part : Layout) : List Nat :=
  part.start :: (part.accept ++ part.rules.flatMap fun rule => [rule.source, rule.target])

end Layout

/-- A layout that begins higher up is the same with larger numbers. -/
theorem layout_add (p : Pattern) (n d : Nat) : p.layout (n + d) = (p.layout n).map (· + d) := by
  induction p generalizing n with
  | empty => rfl
  | literal c =>
    simp only [layout, Layout.map, List.map_cons, List.map_nil, Rule.map, Nat.add_right_comm n d 1]
  | concat l r hl hr =>
    simp only [layout, Layout.map_concat, Nat.add_right_comm n d, hl, hr]
  | choice l r hl hr =>
    simp only [layout, Layout.map_choice, Nat.add_right_comm _ d, hl, hr]
  | star p hp =>
    simp only [layout, Layout.map_star, Nat.add_right_comm n d, hp]

namespace Layout
variable {l r p : Layout} {a b c : Nat}

theorem fragment_map_add (part : Layout) (d : UInt64) :
    (part.map (· + d.toNat)).fragment = part.fragment.map (State.shift d) := by
  simp only [fragment, Fragment.map, map, List.map_map, Function.comp_def, State.shift_numbered]

theorem stateRules_map_add (part : Layout) (d : UInt64) :
    (part.map (· + d.toNat)).stateRules = part.stateRules.map (Rule.map (State.shift d)) := by
  simp only [stateRules, map, List.map_map, Function.comp_def, Rule.map, State.shift_numbered]

theorem map_numbered_states (part : Layout) :
    part.states.map State.numbered = part.fragment.states part.stateRules := by
  simp [states, Fragment.states, fragment, stateRules, List.map_flatMap, List.flatMap_map, Rule.map]

/-- No rule of the layout leads to where it is entered. -/
def Entered (part : Layout) : Prop := ∀ rule ∈ part.rules, rule.target ≠ part.start

theorem Entered.concat (hl : l.Within a b) (hr : r.Within b c) (entered : l.Entered) :
    (l.concat r).Entered := by
  intro rule mem
  have hstart := hl.start
  have hstart' := hr.start
  simp only [Layout.concat, List.mem_append, mem_bridges] at mem ⊢
  rcases mem with (mem | mem) | ⟨q, -, rfl⟩
  · exact entered rule mem
  · have := hr.target rule mem
    omega
  · dsimp only
    omega

theorem Entered.choice (hl : l.Within a b) (hr : r.Within b c) : (l.choice r c).Entered := by
  intro rule mem
  have hstart := hl.start
  have hstart' := hr.start
  simp only [Layout.choice, List.mem_append, List.mem_cons, List.not_mem_nil, or_false] at mem ⊢
  rcases mem with (mem | mem) | rfl | rfl
  · have := hl.target rule mem
    omega
  · have := hr.target rule mem
    omega
  all_goals
    dsimp only
    omega

theorem Entered.star (hp : p.Within a b) : (p.star b).Entered := by
  intro rule mem
  have hstart := hp.start
  simp only [Layout.star, List.mem_append, mem_bridges, List.mem_singleton] at mem ⊢
  rcases mem with (mem | ⟨q, -, rfl⟩) | rfl
  · have := hp.target rule mem
    omega
  all_goals
    dsimp only
    omega

end Layout

theorem layout_entered (p : Pattern) (n : Nat) : (p.layout n).Entered := by
  induction p generalizing n with
  | empty => exact fun rule mem => absurd mem List.not_mem_nil
  | literal c =>
    intro rule mem
    obtain rfl := List.mem_singleton.1 mem
    exact Nat.succ_ne_self n
  | concat l r hl hr => exact .concat (l.layout_within n) (r.layout_within _) (hl n)
  | choice l r hl hr => exact .choice (l.layout_within n) (r.layout_within _)
  | star p hp => exact .star (p.layout_within n)

theorem nodup_accept_layout (p : Pattern) (n : Nat) : (p.layout n).accept.Nodup := by
  induction p generalizing n with
  | empty => exact List.nodup_singleton n
  | literal c => exact List.nodup_singleton (n + 1)
  | concat l r hl hr => exact hr (n + l.stateCount)
  | choice l r hl hr =>
    refine List.nodup_append.2 ⟨hl n, hr (n + l.stateCount), fun q hq q' hq' same => ?_⟩
    have := (l.layout_within n).accept q hq
    have := (r.layout_within (n + l.stateCount)).accept q' hq'
    omega
  | star p hp =>
    refine List.nodup_cons.2 ⟨fun mem => ?_, hp n⟩
    have := (p.layout_within n).accept _ mem
    omega

/-- A layout mentions all numbers from the first to the last, and no others. -/
theorem mem_states_layout {p : Pattern} {n q : Nat} :
    q ∈ (p.layout n).states ↔ n ≤ q ∧ q < n + p.stateCount := by
  have hwithin := p.layout_within n
  simp only [Layout.states, List.mem_cons, List.mem_append, List.mem_flatMap, List.not_mem_nil,
    or_false]
  constructor
  · rintro (rfl | mem | ⟨rule, mem, rfl | rfl⟩)
    · exact hwithin.start
    · exact hwithin.accept q mem
    · exact hwithin.source rule mem
    · exact hwithin.target rule mem
  · rintro ⟨hlo, hhi⟩
    rcases ((p.layout_trim n).reached q hlo hhi).eq_or_mem_target with rfl | ⟨rule, mem, rfl⟩
    · exact .inl rfl
    · exact .inr (.inr ⟨rule, mem, .inr rfl⟩)

/-- What is laid down for a pattern, told by the builder before and after. -/
structure LaidDown (p : Pattern) (before : Builder) (fragment : Fragment)
    (rules : List (Rule State)) (after : Builder) : Prop where
  /-- The rules that were there stay, and the others follow them. -/
  appended : after.rules.toList = before.rules.toList ++ rules
  next : after.fresh.next.toNat = before.fresh.next.toNat + p.statesTaken
  /-- In an empty builder the same is laid down, with the numbers from zero on. -/
  moved : ∃ first alone, assemble .empty p = .ok (first, alone) ∧
    fragment = first.map (State.shift before.fresh.next) ∧
    rules = alone.rules.toList.map (Rule.map (State.shift before.fresh.next))
  used : ∀ q : State, q ∈ fragment.states rules ↔
    before.fresh.next.toNat ≤ q.id.toNat ∧ q.id.toNat < before.fresh.next.toNat + p.statesTaken
  accept_ne_nil : fragment.accept ≠ []
  accept_nodup : fragment.accept.Nodup
  /-- A fragment is entered from outside alone. -/
  entered : ∀ rule ∈ rules, rule.target ≠ fragment.start

theorem laidDown_layout (p : Pattern) (builder : Builder) (n : Nat)
    (hn : builder.fresh.next.toNat = n) (fits : n + p.stateCount ≤ Fresh.limit.toNat) :
    p.LaidDown builder (p.layout n).fragment (p.layout n).stateRules
      (.atNumber (builder.rules ++ (p.layout n).stateRules.toArray) (n + p.stateCount)) := by
  have hnumber {k : Nat} (hk : k ≤ n + p.stateCount) : (State.numbered k).id.toNat = k :=
    State.toNat_id_numbered k (hk.trans fits)
  have hwithin := p.layout_within n
  -- states whose numbers lie in the range differ as their numbers do
  have hinj {i j : Nat} (hi : i < n + p.stateCount) (hj : j < n + p.stateCount)
      (same : State.numbered i = State.numbered j) : i = j := by
    rw [← hnumber hi.le, ← hnumber hj.le, same]
  constructor
  case appended => simp [Builder.atNumber]
  case next =>
    rw [hn, statesTaken_eq]
    exact hnumber (Nat.le_refl _)
  case moved =>
    have halone := p.assemble_atNumber #[] 0 (by omega)
    have hlayout : p.layout n = (p.layout 0).map (· + builder.fresh.next.toNat) := by
      rw [← layout_add, Nat.zero_add, hn]
    refine ⟨_, _, halone, ?_, ?_⟩
    · rw [hlayout, Layout.fragment_map_add]
    · rw [hlayout, Layout.stateRules_map_add]
      simp [Builder.atNumber]
  case used =>
    intro q
    rw [hn, statesTaken_eq, ← Layout.map_numbered_states, List.mem_map]
    constructor
    · rintro ⟨k, mem, rfl⟩
      have hk := mem_states_layout.1 mem
      rwa [hnumber hk.2.le]
    · intro hq
      exact ⟨q.id.toNat, mem_states_layout.2 hq, q.numbered_toNat_id⟩
  case accept_ne_nil =>
    obtain ⟨last, mem, -⟩ := (p.layout_trim n).live _ hwithin.start.1 hwithin.start.2
    exact List.ne_nil_of_mem (List.mem_map_of_mem mem)
  case accept_nodup =>
    refine (p.nodup_accept_layout n).map_on fun i hi j hj same => ?_
    exact hinj (hwithin.accept i hi).2 (hwithin.accept j hj).2 same
  case entered =>
    intro rule mem same
    obtain ⟨numbered, hrule, rfl⟩ := List.mem_map.1 mem
    exact p.layout_entered n numbered hrule
      (hinj (hwithin.target numbered hrule).2 hwithin.start.2 same)

/-- In every builder, a pattern is laid down where the allocator stands if the numbers last, and
fails for want of numbers if they do not. -/
theorem assemble_relocates (p : Pattern) (builder : Builder) :
    (builder.fresh.next.toNat + p.statesTaken ≤ 2 ^ 64 - 1 →
      ∃ fragment rules after, assemble builder p = .ok (fragment, after) ∧
        p.LaidDown builder fragment rules after) ∧
    (2 ^ 64 - 1 < builder.fresh.next.toNat + p.statesTaken →
      assemble builder p = .error .exhausted) := by
  have hlimit : Fresh.limit.toNat = 2 ^ 64 - 1 := rfl
  have hn : builder.fresh.next.toNat ≤ Fresh.limit.toNat := by
    have := builder.fresh.next.toNat_lt
    omega
  have hbuilder : builder = .atNumber builder.rules builder.fresh.next.toNat := by
    rw [Builder.atNumber, UInt64.ofNat_toNat]
  rw [statesTaken_eq, ← hlimit]
  constructor
  · intro fits
    have hassemble := p.assemble_atNumber builder.rules builder.fresh.next.toNat fits
    rw [← hbuilder] at hassemble
    exact ⟨_, _, _, hassemble, p.laidDown_layout builder _ rfl fits⟩
  · intro exceeds
    rw [hbuilder]
    exact p.assemble_eq_error builder.rules _ hn exceeds

/-- A builder that holds a rule already and has so many numbers left. -/
def Builder.withNumbersLeft (n : Nat) : Builder :=
  .atNumber #[⟨⟨0⟩, some 'b', ⟨1⟩⟩] (Fresh.limit.toNat - n)

/-- Five numbers are enough for a star of an optional letter, and four are not. -/
theorem assemble_optional_repeated :
    (Builder.withNumbersLeft 5).fresh.next.toNat +
        (star (choice empty (literal 'a'))).statesTaken ≤ 2 ^ 64 - 1 ∧
      (∃ fragment rules after, assemble (.withNumbersLeft 5) (star (choice empty (literal 'a'))) =
          .ok (fragment, after) ∧
        (star (choice empty (literal 'a'))).LaidDown (.withNumbersLeft 5) fragment rules after) ∧
      2 ^ 64 - 1 < (Builder.withNumbersLeft 4).fresh.next.toNat +
        (star (choice empty (literal 'a'))).statesTaken ∧
      assemble (.withNumbersLeft 4) (star (choice empty (literal 'a'))) = .error .exhausted := by
  have fits : (Builder.withNumbersLeft 5).fresh.next.toNat +
      (star (choice empty (literal 'a'))).statesTaken ≤ 2 ^ 64 - 1 := by decide
  have exceeds : 2 ^ 64 - 1 < (Builder.withNumbersLeft 4).fresh.next.toNat +
      (star (choice empty (literal 'a'))).statesTaken := by decide
  exact ⟨fits, (assemble_relocates _ _).1 fits, exceeds, (assemble_relocates _ _).2 exceeds⟩

end Pattern
end Automata
