import Automata.Proofs.Lockstep

/-! A deterministic automaton may be read as a nondeterministic one that happens to have one choice
at most. Read so, an automaton over numbered sets is mirrored by its own numbers: no rule is free,
so where it may be is a single number, and each symbol leads from the number of a set to the number
of the set one symbol on. Another subset construction therefore finds each number alone, in order,
and gives back the automaton that it began with. -/
namespace Automata

/-- The automaton with the same rules, of which any may be taken that applies. -/
def Dfa.toNfa {S : Type} [Ordered S] (dfa : Dfa S) : Nfa S :=
  ⟨dfa.start, dfa.accept, .ofList dfa.table.rules⟩

namespace Nfa
variable {S : Type} [Ordered S]

/-- The number of a set, alone. -/
def number (nfa : Nfa S) (states : SortedSet S) : SortedSet Nat :=
  SortedSet.singleton (nfa.stateSets.idxOf states)

theorem idxOf_startSet (nfa : Nfa S) : nfa.stateSets.idxOf nfa.startSet = 0 :=
  (Roster.getElem?_eq_some_iff.1 nfa.getElem?_stateSets_zero).2.symm

/-- Every set has a rule for every symbol of the alphabet, so no symbol is lost. -/
theorem alphabet_toDfa_toNfa (nfa : Nfa S) :
    nfa.toDfa.toNfa.rulebook.alphabet = nfa.rulebook.alphabet := by
  refine SortedSet.ext fun c => ?_
  rw [Rulebook.mem_alphabet]
  constructor
  · rintro ⟨rule, mem, symbol⟩
    obtain ⟨i, states, -, d, hd, rfl⟩ := mem_rules_toDfa.1 mem
    exact Option.some.inj symbol ▸ hd
  · intro hc
    exact ⟨_, mem_rules_toDfa.2 ⟨0, _, nfa.getElem?_stateSets_zero, c, hc, rfl⟩, rfl⟩

/-- A single rule leaves the number of a set on a symbol. -/
theorem step_toDfa_toNfa {nfa : Nfa S} {states : SortedSet S} (mem : states ∈ nfa.stateSets)
    {c : Char} (hc : c ∈ nfa.rulebook.alphabet) :
    nfa.toDfa.toNfa.step (nfa.number states) c = nfa.number (nfa.step states c) := by
  refine SortedSet.ext fun target => ?_
  rw [step, Rulebook.closure_of_labelled nfa.deterministic_rules_toDfa.labelled,
    SortedSet.mem_ofList, ← SortedSet.mem_def, Rulebook.mem_next, number, number,
    SortedSet.mem_singleton]
  constructor
  · rintro ⟨source, hsource, rule⟩
    obtain ⟨i, others, place, d, -, heq⟩ := mem_rules_toDfa.1 rule
    injection heq with hi hd htarget
    obtain rfl : source = nfa.stateSets.idxOf states := List.mem_singleton.1 hsource
    rw [← hi, Roster.getElem?_idxOf mem] at place
    rw [htarget, ← Option.some.inj place, ← Option.some.inj hd]
  · rintro rfl
    exact ⟨nfa.stateSets.idxOf states, List.mem_singleton_self _,
      mem_rules_toDfa.2 ⟨_, states, Roster.getElem?_idxOf mem, c, hc, rfl⟩⟩

theorem mirrors_toDfa_toNfa (nfa : Nfa S) : Mirrors nfa.number nfa nfa.toDfa.toNfa where
  alphabet := nfa.alphabet_toDfa_toNfa
  start := by
    unfold startSet number
    rw [Rulebook.closure_of_labelled nfa.deterministic_rules_toDfa.labelled, ← startSet,
      idxOf_startSet]
    rfl
  step _ mem _ := step_toDfa_toNfa mem
  injective states mem others mem' same := by
    have hsame : nfa.stateSets.idxOf states = nfa.stateSets.idxOf others := by
      rw [← SortedSet.mem_singleton, ← number, ← same]
      exact SortedSet.mem_singleton.2 rfl
    have place := Roster.getElem?_idxOf mem
    rw [hsame, Roster.getElem?_idxOf mem'] at place
    exact (Option.some.inj place).symm
  accept states mem := by
    rw [Bool.eq_iff_iff, ← mem_subsetAccept (Roster.getElem?_idxOf mem), SortedSet.meets_eq_true]
    simp only [number, SortedSet.mem_singleton, exists_eq_left]
    rfl

/-- The numbers of all sets, in the order of the sets. -/
theorem map_number_stateSets (nfa : Nfa S) : nfa.stateSets.toList.map nfa.number =
    (List.range nfa.stateSets.toList.length).map SortedSet.singleton := by
  refine List.ext_getElem? fun i => ?_
  rw [List.getElem?_map, List.getElem?_map]
  by_cases hi : i < nfa.stateSets.toList.length
  · have place := List.getElem?_eq_getElem hi
    rw [place, List.getElem?_range hi, Option.map_some, Option.map_some, number,
      ← (Roster.getElem?_eq_some_iff.1 place).2]
  · have hlength := Nat.le_of_not_lt hi
    rw [List.getElem?_eq_none hlength, List.getElem?_eq_none (by rwa [List.length_range])]
    rfl

/-- The subset construction of an automaton over numbered sets is that automaton, and each of its
numbers stands for itself. The table of both follows all of the rules. -/
theorem toDfa_toNfa_toDfa (nfa : Nfa S) :
    nfa.toDfa.toNfa.toDfa = nfa.toDfa ∧
      nfa.toDfa.toNfa.stateSets.toList =
        (List.range nfa.stateSets.toList.length).map SortedSet.singleton ∧
      ∀ i c target, nfa.toDfa.table.nextState i c = .ok target ↔
        ⟨i, some c, target⟩ ∈ nfa.toDfa.table.rules := by
  have hmirrors := nfa.mirrors_toDfa_toNfa
  have hsets := hmirrors.toList_stateSets.trans nfa.map_number_stateSets
  exact ⟨hmirrors.toDfa_eq, hsets, nfa.obeys_toDfa.nextState⟩

end Nfa
end Automata
