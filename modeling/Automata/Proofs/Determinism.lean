import Automata.Proofs.Subset

/-! A run that follows one rule at a time and a run that follows all rules at once accept the same
words, if the rules are the same. The table of the one answers with a single rule of the list, and
where the table has none no rule of the list applies; so the first run goes along the only path that
spells what was read, and it is stuck exactly when there is none. A validated table answers from all
of its rules. A lenient table answers from those that no earlier rule shadows, which are rules of
the list, so it accepts nothing that the whole list does not. -/
namespace Automata
namespace RuleTable
variable {S : Type} [Ordered S]

/-- The rule in the place has a symbol, and no rule before it leaves its state on that symbol. -/
def unshadowed (rules : List (Rule S)) (placed : Rule S × Nat) : Bool :=
  !placed.1.isFree &&
    (rules.take placed.2).all fun earlier =>
      !earlier.appliesTo placed.1.source placed.1.symbol

/-- The rules that are not free and stand first for their state and symbol, in order. -/
def leading (rules : List (Rule S)) : List (Rule S) :=
  (rules.zipIdx.filter (unshadowed rules)).map Prod.fst

theorem unshadowed_eq_true {rules : List (Rule S)} {rule : Rule S} {i : Nat} :
    unshadowed rules (rule, i) = true ↔ rule.symbol ≠ none ∧
      ∀ earlier ∈ rules.take i, ¬(earlier.source = rule.source ∧ earlier.symbol = rule.symbol) := by
  simp only [unshadowed, Rule.isFree, Bool.and_eq_true, Bool.not_eq_true', ← Bool.not_eq_true,
    Option.isNone_iff_eq_none, List.all_eq_true, Rule.appliesTo_eq_true, ne_eq]

theorem leading_sublist (rules : List (Rule S)) : (leading rules).Sublist rules := by
  have h := (List.filter_sublist (p := unshadowed rules) (l := rules.zipIdx)).map Prod.fst
  rwa [List.zipIdx_map_fst] at h

theorem labelled_leading {rules : List (Rule S)} {rule : Rule S} (mem : rule ∈ leading rules) :
    rule.symbol ≠ none := by
  obtain ⟨⟨own, i⟩, hplaced, rfl⟩ := List.mem_map.1 mem
  exact (unshadowed_eq_true.1 (List.mem_filter.1 hplaced).2).1

/-- The leading rule for a state and symbol is the first in the list that applies. -/
theorem mem_leading {rules : List (Rule S)} {state target : S} {c : Char} :
    ⟨state, some c, target⟩ ∈ leading rules ↔
      rules.find? (·.appliesTo state (some c)) = some ⟨state, some c, target⟩ := by
  simp [leading, List.mk_mem_zipIdx_iff_getElem?, unshadowed_eq_true, find?_appliesTo_eq_some_iff]

example : leading [(⟨0, some 'a', 1⟩ : Rule Nat), ⟨1, none, 0⟩, ⟨0, some 'a', 0⟩,
    ⟨1, some 'a', 1⟩] = [⟨0, some 'a', 1⟩, ⟨1, some 'a', 1⟩] := by
  decide

theorem Deterministic.leading_eq {rules : List (Rule S)} (h : Deterministic rules) :
    leading rules = rules := by
  have hall : ∀ placed ∈ rules.zipIdx, unshadowed rules placed = true := by
    rintro ⟨rule, i⟩ mem
    have place := List.mk_mem_zipIdx_iff_getElem?.1 mem
    obtain ⟨hi, rfl⟩ := List.getElem?_eq_some_iff.1 place
    refine unshadowed_eq_true.2 ⟨h.labelled _ (List.getElem_mem hi), fun earlier hearlier => ?_⟩
    obtain ⟨j, hj, rfl⟩ := List.mem_take_iff_getElem.1 hearlier
    rintro ⟨hsource, hsymbol⟩
    exact List.pairwise_iff_getElem.1 h.distinct j i _ hi (by omega) hsource hsymbol
  rw [leading, List.filter_eq_self.2 hall, List.zipIdx_map_fst]

/-- Where no two rules compete, the index that the last rule in order would win has a place for each
rule and answers with it. -/
theorem Deterministic.ruleFor_lastMatch_eq_ok_iff {rules : List (Rule S)} (h : Deterministic rules)
    {state target : S} {c : Char} :
    (lastMatch rules).ruleFor state c = .ok ⟨state, some c, target⟩ ↔
      ⟨state, some c, target⟩ ∈ rules := by
  rw [h.ruleFor_lastMatch, ruleFor_firstMatch_eq_ok_iff, ← mem_leading, h.leading_eq]

/-- The table answers with the rules of the list, one for each state and symbol that has any. -/
structure Obeys (table : RuleTable S) (rules : List (Rule S)) : Prop where
  labelled : ∀ rule ∈ rules, rule.symbol ≠ none
  nextState : ∀ state c target,
    table.nextState state c = .ok target ↔ ⟨state, some c, target⟩ ∈ rules

theorem obeys_firstMatch (rules : List (Rule S)) : (firstMatch rules).Obeys (leading rules) where
  labelled _ := labelled_leading
  nextState state c target := by
    rw [mem_leading, RuleTable.nextState, ruleFor_firstMatch]
    cases hfound : rules.find? (·.appliesTo state (some c)) with
    | none => exact ⟨nofun, nofun⟩
    | some rule =>
      have applies := List.find?_some hfound
      rw [Rule.appliesTo_eq_true] at applies
      obtain ⟨source, symbol, goal⟩ := rule
      obtain ⟨rfl, rfl⟩ := applies
      simp [bind, Except.bind, pure, Except.pure]

/-- A table of deterministic rules leaves none of them out. -/
theorem Deterministic.obeys_firstMatch {rules : List (Rule S)} (h : Deterministic rules) :
    (firstMatch rules).Obeys rules := by
  have hobeys := RuleTable.obeys_firstMatch rules
  rwa [h.leading_eq] at hobeys

theorem obeys_of_validate {rules : List (Rule S)} {table : RuleTable S}
    (valid : validate rules = .ok table) : table.Obeys rules := by
  obtain ⟨h, rfl⟩ := validate_eq_ok_iff.1 valid
  refine ⟨h.labelled, fun state c target => ?_⟩
  rw [← h.obeys_firstMatch.nextState, nextState, nextState, h.ruleFor_lastMatch]

end RuleTable

namespace Dfa
variable {S : Type} [Ordered S] {dfa : Dfa S} {rules : List (Rule S)}

/-- A run ends in the last state of the only path that spells what was read. -/
theorem readWord_iff_path (obeys : dfa.table.Obeys rules) {state last : S} {word : List Char} :
    (dfa.runFrom state).readWord word = (dfa.runFrom last, .ok ()) ↔
      Path rules state word last := by
  constructor
  · intro read
    induction word generalizing state with
    | nil =>
      injection congrArg (Run.current ∘ Prod.fst) read with same
      exact same ▸ .refl state
    | cons c rest ih =>
      cases hnext : dfa.table.nextState state c with
      | ok later =>
        rw [readWord_runFrom_of_ok hnext] at read
        exact .read ((obeys.nextState state c later).1 hnext) (ih read)
      | error e =>
        rw [readWord_runFrom_of_error hnext] at read
        cases congrArg Prod.snd read
  · intro path
    induction path with
    | refl => rfl
    | @step source middle _ symbol rest rule _ ih =>
      obtain ⟨c, rfl⟩ := Option.ne_none_iff_exists'.1 (obeys.labelled _ rule)
      have hnext := (obeys.nextState source c middle).2 rule
      rw [Option.toList_some, List.singleton_append, readWord_runFrom_of_ok hnext]
      exact ih

/-- A run is in a state at the end, or a rule was missing on the way. -/
theorem readWord_runFrom_cases (dfa : Dfa S) (state : S) (word : List Char) :
    (∃ last, (dfa.runFrom state).readWord word = (dfa.runFrom last, .ok ())) ∨
      ∃ run e, (dfa.runFrom state).readWord word = (run, .error e) := by
  induction word generalizing state with
  | nil => exact .inl ⟨state, rfl⟩
  | cons c rest ih =>
    cases hnext : dfa.table.nextState state c with
    | ok later =>
      rw [readWord_runFrom_of_ok hnext]
      exact ih later
    | error e => exact .inr ⟨_, e, readWord_runFrom_of_error hnext rest⟩

/-- A word is accepted when it is spelled by a path from the start state to an accepting one. -/
theorem acceptsWord_iff (obeys : dfa.table.Obeys rules) {word : List Char} :
    dfa.acceptsWord word = true ↔ ∃ last ∈ dfa.accept, Path rules dfa.start word last := by
  simp only [← readWord_iff_path obeys]
  rcases dfa.readWord_runFrom_cases dfa.start word with ⟨reached, read⟩ | ⟨run, e, read⟩
  · rw [acceptsWord_of_ok read, decide_eq_true_eq, read]
    constructor
    · intro mem
      exact ⟨reached, mem, rfl⟩
    · rintro ⟨last, mem, same⟩
      injection congrArg (Run.current ∘ Prod.fst) same with hlast
      exact hlast ▸ mem
  · rw [acceptsWord_of_error read, read]
    constructor
    · exact nofun
    · rintro ⟨last, -, same⟩
      cases congrArg Prod.snd same

/-- The run along one path and the run along all paths accept the same strings over rules that a
table obeys. -/
theorem accepts_eq_of_obeys {table : RuleTable S} (obeys : table.Obeys rules) (start : S)
    (accept : SortedSet S) (s : String) :
    (Dfa.mk start accept table).accepts s = (Nfa.mk start accept (.ofList rules)).accepts s := by
  unfold accepts Nfa.accepts
  rw [Bool.eq_iff_iff, acceptsWord_iff obeys, Nfa.acceptsWord_iff]
  rfl

/-- Over a validated table a deterministic automaton accepts what the nondeterministic one with the
same rules accepts. Over a lenient table it accepts what the nondeterministic one accepts with the
leading rules alone, which is accepted with all rules as well. -/
theorem accepts_eq_nfa_accepts (rules : List (Rule S)) (start : S) (accept : SortedSet S)
    (s : String) :
    (∀ table, RuleTable.validate rules = .ok table →
      (Dfa.mk start accept table).accepts s = (Nfa.mk start accept (.ofList rules)).accepts s) ∧
    (Dfa.mk start accept (.firstMatch rules)).accepts s =
      (Nfa.mk start accept (.ofList (RuleTable.leading rules))).accepts s ∧
    ((Dfa.mk start accept (.firstMatch rules)).accepts s = true →
      (Nfa.mk start accept (.ofList rules)).accepts s = true) := by
  have hleading := accepts_eq_of_obeys (RuleTable.obeys_firstMatch rules) start accept s
  refine ⟨fun table valid => ?_, hleading, fun accepted => ?_⟩
  · exact accepts_eq_of_obeys (RuleTable.obeys_of_validate valid) start accept s
  · rw [hleading] at accepted
    obtain ⟨last, mem, path⟩ := Nfa.acceptsWord_iff.1 accepted
    exact Nfa.acceptsWord_iff.2 ⟨last, mem, path.mono (RuleTable.leading_sublist rules).subset⟩

/-- Two states that alternate pass validation. -/
theorem accepts_eq_nfa_accepts_alternating :
    ∃ table, RuleTable.validate [(⟨0, some 'a', 1⟩ : Rule Nat), ⟨1, some 'b', 0⟩] = .ok table ∧
      (Dfa.mk 0 (.singleton 0) table).accepts "abab" =
        (Nfa.mk 0 (.singleton 0) (.ofList [⟨0, some 'a', 1⟩, ⟨1, some 'b', 0⟩])).accepts "abab" := by
  have h : RuleTable.Deterministic [(⟨0, some 'a', 1⟩ : Rule Nat), ⟨1, some 'b', 0⟩] :=
    ⟨by decide, by decide⟩
  exact ⟨_, h.validate_eq, (accepts_eq_nfa_accepts _ 0 (.singleton 0) "abab").1 _ h.validate_eq⟩

end Dfa
end Automata
