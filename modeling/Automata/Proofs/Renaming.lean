import Automata.Proofs.Lockstep
import Mathlib.Data.Set.Function

/-! The subset construction sees an automaton only up to the names of its states. A renaming that
keeps the states apart may disturb their order, and the rules may be listed in another order and
repeated; the worklists below then visit states in another order. But what they find is decided by
the paths of the automaton, and the renaming carries these over and back. So the sets of the renamed
automaton are the renamed sets, and they get the same numbers. -/
namespace Automata

namespace SortedSet
variable {α β : Type} [Ordered α] [Ordered β]

/-- The set of the images of the elements. -/
def map (f : α → β) (s : SortedSet α) : SortedSet β := ofList (s.toList.map f)

@[simp] theorem mem_map {f : α → β} {s : SortedSet α} {b : β} :
    b ∈ s.map f ↔ ∃ a ∈ s, f a = b := by
  rw [map, mem_ofList, List.mem_map]
  rfl

theorem mem_of_mem_map {f : α → β} {P : Set α} (injective : Set.InjOn f P) {s : SortedSet α}
    (own : ∀ a ∈ s, a ∈ P) {a : α} (ha : a ∈ P) (mem : f a ∈ s.map f) : a ∈ s := by
  obtain ⟨b, hb, same⟩ := mem_map.1 mem
  exact injective (own b hb) ha same ▸ hb

end SortedSet

namespace Nfa
variable {S T : Type} [Ordered S] [Ordered T]

/-- The states of the automaton: where it starts, where it accepts, and what its rules name. -/
def Mentions (nfa : Nfa S) (state : S) : Prop :=
  state = nfa.start ∨ state ∈ nfa.accept ∨ state ∈ nfa.rulebook.states

/-- The other automaton is the same with its states renamed, which keeps them apart. Its rules are
the renamed ones in any order and number. -/
structure Renames (f : S → T) (nfa : Nfa S) (other : Nfa T) : Prop where
  injective : Set.InjOn f {state | nfa.Mentions state}
  start : other.start = f nfa.start
  accept : other.accept = nfa.accept.map f
  rules : ∀ rule, rule ∈ other.rulebook.rules ↔ rule ∈ nfa.rulebook.rules.map (Rule.map f)

section Mentions
variable {nfa : Nfa S} {rule : Rule S}

theorem mentions_source (mem : rule ∈ nfa.rulebook.rules) : nfa.Mentions rule.source := by
  refine .inr (.inr ?_)
  rw [Rulebook.states, SortedSet.mem_ofList, List.mem_flatMap]
  exact ⟨rule, mem, List.mem_cons_self⟩

theorem mentions_target (mem : rule ∈ nfa.rulebook.rules) : nfa.Mentions rule.target := by
  refine .inr (.inr ?_)
  rw [Rulebook.states, SortedSet.mem_ofList, List.mem_flatMap]
  exact ⟨rule, mem, List.mem_cons_of_mem _ (List.mem_singleton_self _)⟩

theorem mentions_of_mem_stateSets {states : SortedSet S} (mem : states ∈ nfa.stateSets) {state : S}
    (hstate : state ∈ states) : nfa.Mentions state := by
  rcases List.mem_cons.1 (mem_reachable_of_mem_stateSets mem hstate) with hstart | htarget
  · exact .inl hstart
  · obtain ⟨rule, hrule, rfl⟩ := List.mem_map.1 htarget
    exact mentions_target hrule

end Mentions

namespace Renames
variable {f : S → T} {nfa : Nfa S} {other : Nfa T}

/-- The rules that leave a renamed state are renamed rules that leave the state. -/
theorem mem_rules (renames : Renames f nfa other) {p : S} (hp : nfa.Mentions p)
    {symbol : Option Char} {target : T} :
    ⟨f p, symbol, target⟩ ∈ other.rulebook.rules ↔
      ∃ q, ⟨p, symbol, q⟩ ∈ nfa.rulebook.rules ∧ f q = target := by
  rw [renames.rules, List.mem_map]
  constructor
  · rintro ⟨⟨source, label, q⟩, mem, heq⟩
    injection heq with hsource hlabel htarget
    obtain rfl : source = p := renames.injective (mentions_source mem) hp hsource
    exact ⟨q, hlabel ▸ mem, htarget⟩
  · rintro ⟨q, mem, rfl⟩
    exact ⟨_, mem, rfl⟩

/-- The paths from a renamed state are the renamed paths from the state. -/
theorem path_iff (renames : Renames f nfa other) {p : S} (hp : nfa.Mentions p) {word : List Char}
    {target : T} : Path other.rulebook.rules (f p) word target ↔
      ∃ q, Path nfa.rulebook.rules p word q ∧ f q = target := by
  constructor
  · generalize hsource : f p = source
    intro path
    -- each rule on the way leaves the image of a known state, so it is the image of a rule of that
    -- state, and it leads to the image of a known state again
    induction path generalizing p with
    | refl => exact ⟨p, .refl p, hsource⟩
    | step rule _ ih =>
      subst hsource
      obtain ⟨middle, mem, hmiddle⟩ := (renames.mem_rules hp).1 rule
      obtain ⟨q, path, htarget⟩ := ih (mentions_target mem) hmiddle
      exact ⟨q, .step mem path, htarget⟩
  · rintro ⟨q, path, rfl⟩
    exact (path.map f).mono fun rule mem => (renames.rules rule).2 mem

theorem alphabet_eq (renames : Renames f nfa other) :
    other.rulebook.alphabet = nfa.rulebook.alphabet := by
  refine SortedSet.ext fun c => ?_
  simp only [Rulebook.mem_alphabet, renames.rules, List.mem_map]
  constructor
  · rintro ⟨_, ⟨rule, mem, rfl⟩, symbol⟩
    exact ⟨rule, mem, symbol⟩
  · rintro ⟨rule, mem, symbol⟩
    exact ⟨_, ⟨rule, mem, rfl⟩, symbol⟩

theorem startSet_eq (renames : Renames f nfa other) : other.startSet = nfa.startSet.map f := by
  refine SortedSet.ext fun target => ?_
  rw [mem_startSet, renames.start, renames.path_iff (.inl rfl), SortedSet.mem_map]
  simp only [mem_startSet]

theorem step_eq (renames : Renames f nfa other) {states : SortedSet S}
    (own : ∀ state ∈ states, nfa.Mentions state) (c : Char) :
    other.step (states.map f) c = (nfa.step states c).map f := by
  refine SortedSet.ext fun target => ?_
  simp only [mem_step, SortedSet.mem_map]
  constructor
  · rintro ⟨_, ⟨p, hp, rfl⟩, _, rule, path⟩
    obtain ⟨q, mem, rfl⟩ := (renames.mem_rules (own p hp)).1 rule
    obtain ⟨r, free, rfl⟩ := (renames.path_iff (mentions_target mem)).1 path
    exact ⟨r, ⟨p, hp, q, mem, free⟩, rfl⟩
  · rintro ⟨r, ⟨p, hp, q, mem, path⟩, rfl⟩
    exact ⟨f p, ⟨p, hp, rfl⟩, f q, (renames.mem_rules (own p hp)).2 ⟨q, mem, rfl⟩,
      (renames.path_iff (mentions_target mem)).2 ⟨r, path, rfl⟩⟩

theorem map_injective (renames : Renames f nfa other) {states others : SortedSet S}
    (own : ∀ state ∈ states, nfa.Mentions state) (own' : ∀ state ∈ others, nfa.Mentions state)
    (same : states.map f = others.map f) : states = others := by
  refine SortedSet.ext fun state => ⟨fun mem => ?_, fun mem => ?_⟩
  · apply SortedSet.mem_of_mem_map renames.injective own' (own state mem)
    rw [← same]
    exact SortedSet.mem_map.2 ⟨state, mem, rfl⟩
  · apply SortedSet.mem_of_mem_map renames.injective own (own' state mem)
    rw [same]
    exact SortedSet.mem_map.2 ⟨state, mem, rfl⟩

theorem meets_eq (renames : Renames f nfa other) {states : SortedSet S}
    (own : ∀ state ∈ states, nfa.Mentions state) :
    (states.map f).meets other.accept = states.meets nfa.accept := by
  rw [Bool.eq_iff_iff, SortedSet.meets_eq_true, SortedSet.meets_eq_true, renames.accept]
  constructor
  · rintro ⟨_, mem, accepting⟩
    obtain ⟨state, hstate, rfl⟩ := SortedSet.mem_map.1 mem
    exact ⟨state, hstate, SortedSet.mem_of_mem_map renames.injective
      (fun state mem => .inr (.inl mem)) (own state hstate) accepting⟩
  · rintro ⟨state, hstate, accepting⟩
    exact ⟨f state, SortedSet.mem_map.2 ⟨state, hstate, rfl⟩,
      SortedSet.mem_map.2 ⟨state, accepting, rfl⟩⟩

theorem mirrors (renames : Renames f nfa other) : Mirrors (SortedSet.map f) nfa other where
  alphabet := renames.alphabet_eq
  start := renames.startSet_eq
  step _ mem c _ := renames.step_eq (fun _ => mentions_of_mem_stateSets mem) c
  injective _ mem _ mem' := renames.map_injective (fun _ => mentions_of_mem_stateSets mem)
    fun _ => mentions_of_mem_stateSets mem'
  accept _ mem := renames.meets_eq fun _ => mentions_of_mem_stateSets mem

end Renames

/-- An automaton and a renamed one have the same deterministic automaton, over sets that are the
renamed sets number by number, and they accept the same strings. -/
theorem toDfa_eq_of_renames {f : S → T} {nfa : Nfa S} {other : Nfa T}
    (renames : Renames f nfa other) :
    other.toDfa = nfa.toDfa ∧
      other.stateSets.toList = nfa.stateSets.toList.map (SortedSet.map f) ∧
      ∀ s, other.accepts s = nfa.accepts s := by
  have htoDfa := renames.mirrors.toDfa_eq
  refine ⟨htoDfa, renames.mirrors.toList_stateSets, fun s => ?_⟩
  unfold accepts
  rw [← acceptsWord_toDfa, ← acceptsWord_toDfa, htoDfa]

/-- A loop of three states, two of them left by free moves. -/
def loop : Nfa Nat where
  start := 0
  accept := .singleton 2
  rulebook := .ofList [⟨0, none, 1⟩, ⟨1, some 'a', 2⟩, ⟨2, none, 0⟩]

/-- The loop over letters that stand in the opposite order, with a rule listed twice. -/
def letteredLoop : Nfa String where
  start := "z"
  accept := .singleton "a"
  rulebook := .ofList [⟨"a", none, "z"⟩, ⟨"m", some 'a', "a"⟩, ⟨"z", none, "m"⟩,
    ⟨"m", some 'a', "a"⟩]

def letter : Nat → String
  | 0 => "z"
  | 1 => "m"
  | _ => "a"

theorem toDfa_letteredLoop :
    Renames letter loop letteredLoop ∧ letteredLoop.toDfa = loop.toDfa ∧
      letteredLoop.stateSets.toList = loop.stateSets.toList.map (SortedSet.map letter) ∧
      ∀ s, letteredLoop.accepts s = loop.accepts s := by
  have hsmall (p : Nat) (hp : loop.Mentions p) : p < 3 := by
    simp only [Mentions, loop, Rulebook.states, Rulebook.rules_ofList, SortedSet.mem_singleton,
      SortedSet.mem_ofList, List.flatMap_cons, List.flatMap_nil, List.mem_append, List.mem_cons,
      List.not_mem_nil, or_false] at hp
    omega
  have hletter : ∀ p < 3, ∀ q < 3, letter p = letter q → p = q := by decide
  have renames : Renames letter loop letteredLoop := by
    refine ⟨fun p hp q hq same => hletter p (hsmall p hp) q (hsmall q hq) same, rfl, rfl, ?_⟩
    intro rule
    simp only [loop, letteredLoop, letter, Rule.map, Rulebook.rules_ofList, List.map_cons,
      List.map_nil, List.mem_cons, List.not_mem_nil, or_false]
    tauto
  exact ⟨renames, toDfa_eq_of_renames renames⟩

end Nfa
end Automata
