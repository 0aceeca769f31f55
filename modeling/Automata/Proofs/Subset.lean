import Automata.Nfa.Subset
import Automata.Proofs.Path
import Automata.Proofs.RuleTable
import Mathlib.Data.List.Basic

/-! The numbered automaton follows the nondeterministic one symbol by symbol: the number it is in
names the set of states in which the other may be. The search of the sets leaves no successor out,
so every set has a rule for every symbol of the alphabet, and the table's first match is the only
one. A symbol outside the alphabet is read by no rule of either machine: the one is stuck, the other
is left without a state. -/
namespace Automata

theorem Rulebook.mem_alphabet {S : Type} [Ordered S] {book : Rulebook S} {c : Char} :
    c ∈ book.alphabet ↔ ∃ rule ∈ book.rules, rule.symbol = some c := by
  rw [alphabet, SortedSet.mem_ofList, List.mem_filterMap]

theorem Path.symbol_mem {S : Type} {rules : List (Rule S)} {p q : S} {word : List Char}
    (path : Path rules p word q) : ∀ c ∈ word, ∃ rule ∈ rules, rule.symbol = some c := by
  induction path with
  | refl =>
    intro c mem
    exact absurd mem List.not_mem_nil
  | @step source middle _ symbol word rule _ ih =>
    intro c mem
    rw [List.mem_append, Option.mem_toList] at mem
    cases mem with
    | inl mem => exact ⟨_, rule, mem⟩
    | inr mem => exact ih c mem

namespace Dfa
variable {S : Type} [Ordered S]

/-- A run of the automaton that is in the given state. -/
def runFrom (dfa : Dfa S) (state : S) : Run S := ⟨.ok state, dfa.accept, dfa.table⟩

/-- A run of the automaton that the given failure stopped. -/
def stuckOn (dfa : Dfa S) (e : RuleError S) : Run S := ⟨.error e, dfa.accept, dfa.table⟩

variable {dfa : Dfa S} {state later : S} {c : Char} {e : RuleError S}

theorem readWord_runFrom_of_ok (next : dfa.table.nextState state c = .ok later)
    (rest : List Char) :
    (dfa.runFrom state).readWord (c :: rest) = (dfa.runFrom later).readWord rest := by
  have h : (dfa.runFrom state).read c = (dfa.runFrom later, .ok ()) := by
    simp only [runFrom, Run.read, Except.bind, next, Except.map]
  rw [Run.readWord, h]

theorem readWord_runFrom_of_error (next : dfa.table.nextState state c = .error e)
    (rest : List Char) :
    (dfa.runFrom state).readWord (c :: rest) = (dfa.stuckOn e, .error e) := by
  have h : (dfa.runFrom state).read c = (dfa.stuckOn e, .error e) := by
    simp only [runFrom, stuckOn, Run.read, Except.bind, next, Except.map]
  rw [Run.readWord, h]

theorem readWord_append_of_ok {first : List Char} {run later : Run S}
    (h : run.readWord first = (later, .ok ())) (second : List Char) :
    run.readWord (first ++ second) = later.readWord second := by
  induction first generalizing run with
  | nil =>
    have hrun : run = later := congrArg Prod.fst h
    rw [hrun, List.nil_append]
  | cons c rest ih =>
    rw [Run.readWord] at h
    rw [List.cons_append, Run.readWord]
    generalize run.read c = outcome at h ⊢
    match outcome with
    | (next, .ok ()) => exact ih h
    | (next, .error e) => exact nomatch (congrArg Prod.snd h : Except.error e = Except.ok ())

theorem acceptsWord_of_ok {word : List Char}
    (h : dfa.run.readWord word = (dfa.runFrom later, .ok ())) :
    dfa.acceptsWord word = decide (later ∈ dfa.accept) := by
  simp only [acceptsWord, outcomeWord, h]
  rfl

theorem acceptsWord_of_error {word : List Char} {run : Run S}
    (h : dfa.run.readWord word = (run, .error e)) : dfa.acceptsWord word = false := by
  simp only [acceptsWord, outcomeWord, h]

end Dfa

namespace Nfa
variable {S : Type} [Ordered S]

theorem mem_startSet {nfa : Nfa S} {state : S} :
    state ∈ nfa.startSet ↔ Path nfa.rulebook.rules nfa.start [] state := by
  simp only [startSet, Rulebook.mem_closure, List.mem_singleton, exists_eq_left, Path.nil_iff]

/-- One symbol on are the ends of the paths that begin with a rule on it and are free from there. -/
theorem mem_step {nfa : Nfa S} {states : SortedSet S} {c : Char} {state : S} :
    state ∈ nfa.step states c ↔ ∃ p ∈ states, ∃ q, ⟨p, some c, q⟩ ∈ nfa.rulebook.rules ∧
      Path nfa.rulebook.rules q [] state := by
  simp only [step, Rulebook.mem_closure, ← SortedSet.mem_def, Rulebook.mem_next, Path.nil_iff]
  constructor
  · rintro ⟨q, ⟨p, hp, rule⟩, free⟩
    exact ⟨p, hp, q, rule, free⟩
  · rintro ⟨p, hp, q, rule, free⟩
    exact ⟨q, ⟨p, hp, rule⟩, free⟩

section Rules
variable {nfa : Nfa S} {sets : Roster (SortedSet S)} {symbols : List Char} {i : Nat}
  {states : SortedSet S} {c : Char}

theorem mem_numbered_rules (nfa : Nfa S) {rule : Rule Nat} :
    rule ∈ sets.toList.zipIdx.flatMap (nfa.subsetRules sets symbols) ↔
      ∃ i states, sets.toList[i]? = some states ∧
        ∃ c ∈ symbols, rule = ⟨i, some c, sets.idxOf (nfa.step states c)⟩ := by
  simp only [List.mem_flatMap, subsetRules, List.mem_map, Prod.exists,
    List.mk_mem_zipIdx_iff_getElem?]
  constructor
  · rintro ⟨states, i, place, c, mem, rfl⟩
    exact ⟨i, states, place, c, mem, rfl⟩
  · rintro ⟨i, states, place, c, mem, rfl⟩
    exact ⟨states, i, place, c, mem, rfl⟩

/-- All rules that leave a number on a symbol lead to the number of the set one symbol on. -/
theorem find?_numbered_rules (place : sets.toList[i]? = some states) (mem : c ∈ symbols) :
    (sets.toList.zipIdx.flatMap (nfa.subsetRules sets symbols)).find? (·.appliesTo i (some c)) =
      some ⟨i, some c, sets.idxOf (nfa.step states c)⟩ := by
  cases found : (sets.toList.zipIdx.flatMap (nfa.subsetRules sets symbols)).find?
      (·.appliesTo i (some c)) with
  | none =>
    have own := (mem_numbered_rules nfa).2 ⟨i, states, place, c, mem, rfl⟩
    have h := List.find?_eq_none.1 found _ own
    rw [Rule.appliesTo_eq_true] at h
    exact absurd ⟨rfl, rfl⟩ h
  | some rule =>
    have applies := List.find?_some found
    rw [Rule.appliesTo_eq_true] at applies
    obtain ⟨j, others, place', d, -, rfl⟩ :=
      (mem_numbered_rules nfa).1 (List.mem_of_find?_eq_some found)
    have hi : j = i := applies.1
    have hc : d = c := Option.some.inj applies.2
    have hstates : others = states := by
      rw [hi, place] at place'
      exact (Option.some.inj place').symm
    rw [hi, hc, hstates]

theorem find?_numbered_rules_of_not_mem (absent : c ∉ symbols) :
    (sets.toList.zipIdx.flatMap (nfa.subsetRules sets symbols)).find? (·.appliesTo i (some c)) =
      none := by
  apply List.find?_eq_none.2
  intro rule mem applies
  obtain ⟨j, others, -, d, hd, rfl⟩ := (mem_numbered_rules nfa).1 mem
  have hc : d = c := Option.some.inj (Rule.appliesTo_eq_true.1 applies).2
  rw [hc] at hd
  exact absent hd

end Rules

variable (nfa : Nfa S)

theorem getElem?_stateSets_zero : nfa.stateSets.toList[0]? = some nfa.startSet :=
  Search.getElem?_discover_zero _ _ _

variable {nfa : Nfa S} {i : Nat} {states : SortedSet S} {c : Char}

theorem getElem?_stateSets_step (place : nfa.stateSets.toList[i]? = some states)
    (mem : c ∈ nfa.rulebook.alphabet) :
    nfa.stateSets.toList[nfa.stateSets.idxOf (nfa.step states c)]? =
      some (nfa.step states c) := by
  have found : states ∈ nfa.stateSets := Roster.mem_toList.1 (List.mem_of_getElem? place)
  have next : nfa.step states c ∈ nfa.stateSets := by
    apply Search.discover_closed _ _ found
    exact List.mem_map_of_mem (SortedSet.mem_def.1 mem)
  rw [Roster.idxOf_eq]
  exact List.getElem?_idxOf (Roster.mem_toList.2 next)

theorem nextState_toDfa (place : nfa.stateSets.toList[i]? = some states)
    (mem : c ∈ nfa.rulebook.alphabet) :
    nfa.toDfa.table.nextState i c = .ok (nfa.stateSets.idxOf (nfa.step states c)) := by
  unfold RuleTable.nextState toDfa dfaOver
  rw [RuleTable.ruleFor_firstMatch, find?_numbered_rules place (SortedSet.mem_def.1 mem)]
  rfl

theorem nextState_toDfa_of_not_mem (i : Nat) (absent : c ∉ nfa.rulebook.alphabet) :
    nfa.toDfa.table.nextState i c = .error (.noApplicableRule i c) := by
  unfold RuleTable.nextState toDfa dfaOver
  rw [RuleTable.ruleFor_firstMatch, find?_numbered_rules_of_not_mem absent]
  rfl

theorem mem_subsetAccept (place : nfa.stateSets.toList[i]? = some states) :
    i ∈ nfa.toDfa.accept ↔ states.meets nfa.accept = true := by
  unfold toDfa dfaOver subsetAccept
  simp only [SortedSet.mem_ofList, List.mem_map, List.mem_filter, Prod.exists,
    List.mk_mem_zipIdx_iff_getElem?]
  constructor
  · rintro ⟨others, j, ⟨place', accepting⟩, rfl⟩
    rw [place] at place'
    rw [Option.some.inj place']
    exact accepting
  · intro accepting
    exact ⟨states, i, ⟨place, accepting⟩, rfl⟩

/-- The number names the states in which the run may be. -/
def Tracks (nfa : Nfa S) (i : Nat) (run : Run S) : Prop :=
  run.rulebook = nfa.rulebook ∧ nfa.stateSets.toList[i]? = some run.current

theorem tracks_start (nfa : Nfa S) : nfa.Tracks nfa.toDfa.start nfa.run :=
  ⟨rfl, nfa.getElem?_stateSets_zero⟩

theorem Tracks.read {run : Run S} (tracks : nfa.Tracks i run)
    (mem : c ∈ nfa.rulebook.alphabet) :
    ∃ j, nfa.toDfa.table.nextState i c = .ok j ∧ nfa.Tracks j (run.read c) := by
  -- the run closes its frontier when it is looked at, the construction as soon as it is found
  have hcurrent : (run.read c).current = nfa.step run.current c := by
    unfold step
    rw [← tracks.1]
    rfl
  refine ⟨_, nextState_toDfa tracks.2 mem, tracks.1, ?_⟩
  rw [hcurrent]
  exact getElem?_stateSets_step tracks.2 mem

/-- Over symbols of the alphabet the two machines keep step. -/
theorem Tracks.readWord {run : Run S} (tracks : nfa.Tracks i run) {word : List Char}
    (mem : ∀ c ∈ word, c ∈ nfa.rulebook.alphabet) :
    ∃ j, (nfa.toDfa.runFrom i).readWord word = (nfa.toDfa.runFrom j, .ok ()) ∧
      nfa.Tracks j (run.readWord word) := by
  induction word generalizing i run with
  | nil => exact ⟨i, rfl, tracks⟩
  | cons c rest ih =>
    obtain ⟨j, next, tracks'⟩ := tracks.read (mem c List.mem_cons_self)
    have hrest := ih tracks' fun d hd => mem d (List.mem_cons_of_mem c hd)
    rw [Dfa.readWord_runFrom_of_ok next]
    exact hrest

/-- No run has a state left once a symbol outside the alphabet is read. -/
theorem current_readWord_of_not_mem (nfa : Nfa S) {word : List Char} (mem : c ∈ word)
    (absent : c ∉ nfa.rulebook.alphabet) : (nfa.run.readWord word).current = ∅ := by
  apply SortedSet.ext
  intro state
  constructor
  · intro h
    obtain ⟨first, -, path⟩ := Run.mem_current_readWord.1 h
    exact absurd (Rulebook.mem_alphabet.2 (path.symbol_mem c mem)) absent
  · intro h
    exact absurd h (SortedSet.not_mem_empty state)

theorem first_not_mem {alphabet : SortedSet Char} {word : List Char}
    (h : ∃ c ∈ word, c ∉ alphabet) :
    ∃ before c after, word = before ++ c :: after ∧ (∀ a ∈ before, a ∈ alphabet) ∧
      c ∉ alphabet := by
  induction word with
  | nil =>
    obtain ⟨c, mem, -⟩ := h
    exact absurd mem List.not_mem_nil
  | cons c rest ih =>
    by_cases mem : c ∈ alphabet
    · have hrest : ∃ d ∈ rest, d ∉ alphabet := by
        obtain ⟨d, hd, absent⟩ := h
        have hne : d ≠ c := fun same => absent (same ▸ mem)
        exact ⟨d, (List.mem_cons.1 hd).resolve_left hne, absent⟩
      obtain ⟨before, d, after, rfl, inside, outside⟩ := ih hrest
      exact ⟨c :: before, d, after, rfl, List.forall_mem_cons.2 ⟨mem, inside⟩, outside⟩
    · exact ⟨[], c, rest, rfl, fun a ha => absurd ha List.not_mem_nil, mem⟩

theorem readWord_toDfa (nfa : Nfa S) {word : List Char}
    (inside : ∀ c ∈ word, c ∈ nfa.rulebook.alphabet) :
    ∃ i, nfa.toDfa.run.readWord word = (nfa.toDfa.runFrom i, .ok ()) ∧
      nfa.stateSets.toList[i]? = some (nfa.run.readWord word).current := by
  obtain ⟨i, read, tracks⟩ := nfa.tracks_start.readWord inside
  exact ⟨i, read, tracks.2⟩

/-- The first symbol outside the alphabet stops the run in the state that it came to before. -/
theorem readWord_toDfa_of_not_mem (nfa : Nfa S) {word : List Char}
    (outside : ∃ c ∈ word, c ∉ nfa.rulebook.alphabet) :
    ∃ before c after i, word = before ++ c :: after ∧
      (∀ a ∈ before, a ∈ nfa.rulebook.alphabet) ∧ c ∉ nfa.rulebook.alphabet ∧
      nfa.toDfa.run.readWord before = (nfa.toDfa.runFrom i, .ok ()) ∧
      nfa.toDfa.run.readWord word =
        (nfa.toDfa.stuckOn (.noApplicableRule i c), .error (.noApplicableRule i c)) ∧
      (nfa.run.readWord word).current = ∅ := by
  obtain ⟨before, c, after, hword, inside, absent⟩ := first_not_mem outside
  obtain ⟨i, read, -⟩ := nfa.readWord_toDfa inside
  have hstuck := Dfa.readWord_runFrom_of_error (nextState_toDfa_of_not_mem i absent) after
  have mem : c ∈ word := by simp [hword]
  refine ⟨before, c, after, i, hword, inside, absent, read, ?_,
    nfa.current_readWord_of_not_mem mem absent⟩
  rw [hword, Dfa.readWord_append_of_ok read, hstuck]

theorem acceptsWord_toDfa (nfa : Nfa S) (word : List Char) :
    nfa.toDfa.acceptsWord word = nfa.acceptsWord word := by
  by_cases outside : ∃ c ∈ word, c ∉ nfa.rulebook.alphabet
  · obtain ⟨_, c, _, i, -, -, -, -, read, hempty⟩ := nfa.readWord_toDfa_of_not_mem outside
    rw [Dfa.acceptsWord_of_error read, acceptsWord, Run.isAccepting, hempty]
    rfl
  · have inside : ∀ c ∈ word, c ∈ nfa.rulebook.alphabet := by
      intro c mem
      by_contra absent
      exact outside ⟨c, mem, absent⟩
    obtain ⟨i, read, place⟩ := nfa.readWord_toDfa inside
    rw [Dfa.acceptsWord_of_ok read, acceptsWord, Run.isAccepting, Run.accept_readWord]
    apply Bool.eq_iff_iff.2
    rw [decide_eq_true_eq]
    exact mem_subsetAccept place

/-- The numbered automaton follows the nondeterministic one over every string: in the number of its
current states while the symbols are of the alphabet, and stuck from the first symbol that is not,
when the other has no state left. So they accept the same strings, those that are spelled from the
start state to an accepting one. -/
theorem toDfa_simulates (nfa : Nfa S) (s : String) :
    ((∀ c ∈ s.toList, c ∈ nfa.rulebook.alphabet) → ∃ i,
      nfa.toDfa.run.readString s = (nfa.toDfa.runFrom i, .ok ()) ∧
      nfa.stateSets.toList[i]? = some (nfa.run.readString s).current) ∧
    ((∃ c ∈ s.toList, c ∉ nfa.rulebook.alphabet) → ∃ before c after i,
      s.toList = before ++ c :: after ∧
      (∀ a ∈ before, a ∈ nfa.rulebook.alphabet) ∧ c ∉ nfa.rulebook.alphabet ∧
      nfa.toDfa.run.readWord before = (nfa.toDfa.runFrom i, .ok ()) ∧
      nfa.toDfa.run.readString s =
        (nfa.toDfa.stuckOn (.noApplicableRule i c), .error (.noApplicableRule i c)) ∧
      (nfa.run.readString s).current = ∅) ∧
    nfa.toDfa.accepts s = nfa.accepts s ∧
    (nfa.toDfa.accepts s = true ↔
      ∃ last ∈ nfa.accept, Path nfa.rulebook.rules nfa.start s.toList last) := by
  have haccepts : nfa.toDfa.accepts s = nfa.accepts s := nfa.acceptsWord_toDfa s.toList
  refine ⟨nfa.readWord_toDfa, nfa.readWord_toDfa_of_not_mem, haccepts, ?_⟩
  rw [haccepts]
  exact acceptsWord_iff

end Nfa
end Automata
