import Automata.Proofs.Determinism
import Automata.Proofs.Interning
import Mathlib.Data.Char
import Mathlib.Data.List.Nodup

/-! The automaton over numbered sets is complete and has nothing beside: each number is a set that
some word leads to, each set and each symbol have one rule, and no two rules compete. The rules come
in blocks of one set each and one rule for each symbol, so the place of a rule tells its set and its
symbol, and a table of these rules need not be checked while it is filled. -/
namespace Automata

theorem Roster.getElem?_eq_some_iff {α : Type} [Ordered α] {roster : Roster α} {x : α} {i : Nat} :
    roster.toList[i]? = some x ↔ x ∈ roster ∧ i = roster.idxOf x := by
  rw [Roster.idxOf_eq]
  constructor
  · intro place
    obtain ⟨hi, hx⟩ := List.getElem?_eq_some_iff.1 place
    refine ⟨Roster.mem_toList.1 (List.mem_of_getElem? place), ?_⟩
    rw [← hx, roster.nodup_toList.idxOf_getElem i hi]
  · rintro ⟨mem, rfl⟩
    exact List.getElem?_idxOf (Roster.mem_toList.2 mem)

theorem Roster.getElem?_idxOf {α : Type} [Ordered α] {roster : Roster α} {x : α}
    (mem : x ∈ roster) : roster.toList[roster.idxOf x]? = some x :=
  Roster.getElem?_eq_some_iff.2 ⟨mem, rfl⟩

theorem Rulebook.mem_states {S : Type} [Ordered S] {book : Rulebook S} {state : S} :
    state ∈ book.states ↔ ∃ rule ∈ book.rules, state = rule.source ∨ state = rule.target := by
  simp only [states, SortedSet.mem_ofList, List.mem_flatMap, List.mem_cons, List.not_mem_nil,
    or_false]

section Blocks
variable {α β : Type} {f : α → List β} {k : Nat} {l : List α}

theorem length_flatMap_blocks (hlength : ∀ x ∈ l, (f x).length = k) :
    (l.flatMap f).length = l.length * k := by
  induction l with
  | nil => exact (Nat.zero_mul k).symm
  | cons x rest ih =>
    rw [List.flatMap_cons, List.length_append, hlength x List.mem_cons_self,
      ih fun y mem => hlength y (List.mem_cons_of_mem x mem), List.length_cons, Nat.succ_mul,
      Nat.add_comm]

/-- The entry in a place of a block, counted over all blocks of one length. -/
theorem getElem?_flatMap_blocks (hlength : ∀ x ∈ l, (f x).length = k) {i j : Nat} {x : α}
    (hi : l[i]? = some x) (hj : j < k) : (l.flatMap f)[i * k + j]? = (f x)[j]? := by
  induction l generalizing i with
  | nil => simp at hi
  | cons y rest ih =>
    have hy := hlength y List.mem_cons_self
    rw [List.flatMap_cons]
    cases i with
    | zero =>
      rw [List.getElem?_cons_zero, Option.some.injEq] at hi
      rw [Nat.zero_mul, Nat.zero_add, List.getElem?_append_left (by omega), hi]
    | succ i =>
      rw [List.getElem?_cons_succ] at hi
      have hrest := ih (fun z mem => hlength z (List.mem_cons_of_mem y mem)) hi
      have hplace : (i + 1) * k + j - (f y).length = i * k + j := by
        rw [hy, Nat.succ_mul]
        omega
      rw [List.getElem?_append_right (by rw [hy, Nat.succ_mul]; omega), hplace, hrest]

end Blocks

namespace Nfa
variable {S : Type} [Ordered S] {nfa : Nfa S} {states : SortedSet S}

theorem mem_reachable_of_mem_stateSets (mem : states ∈ nfa.stateSets) {state : S}
    (hstate : state ∈ states) : state ∈ nfa.reachable := by
  refine Search.forall_mem_discover _ (P := fun states => ∀ state ∈ states, state ∈ nfa.reachable)
    (fun _ _ later mem => ?_) _ (fun first mem => ?_) states mem state hstate
  · obtain ⟨c, -, rfl⟩ := List.mem_map.1 mem
    exact fun _ => mem_reachable_of_mem_step
  · rw [List.mem_singleton.1 mem]
    exact fun _ => mem_reachable_of_mem_startSet

theorem current_readWord_concat (nfa : Nfa S) (word : List Char) (c : Char) :
    (nfa.run.readWord (word ++ [c])).current = nfa.step (nfa.run.readWord word).current c := by
  have hbook : (nfa.run.readWord word).rulebook = nfa.rulebook :=
    Run.rulebook_readWord nfa.run word
  rw [Run.readWord_append, Run.readWord_cons, Run.readWord_nil, step, ← hbook]
  rfl

/-- Every set that has a number is where the machine may be after some word. -/
theorem exists_word_of_mem_stateSets (mem : states ∈ nfa.stateSets) :
    ∃ word, (∀ c ∈ word, c ∈ nfa.rulebook.alphabet) ∧
      (nfa.run.readWord word).current = states := by
  refine Search.forall_mem_discover _
    (P := fun states => ∃ word, (∀ c ∈ word, c ∈ nfa.rulebook.alphabet) ∧
      (nfa.run.readWord word).current = states)
    (fun _ found later mem => ?_) _ (fun first mem => ?_) states mem
  · obtain ⟨word, inside, rfl⟩ := found
    obtain ⟨c, hc, rfl⟩ := List.mem_map.1 mem
    refine ⟨word ++ [c], fun d hd => ?_, nfa.current_readWord_concat word c⟩
    rw [List.mem_append, List.mem_singleton] at hd
    cases hd with
    | inl hd => exact inside d hd
    | inr hd => exact hd ▸ SortedSet.mem_def.2 hc
  · rw [List.mem_singleton.1 mem]
    exact ⟨[], fun c hc => absurd hc List.not_mem_nil, rfl⟩

theorem mem_of_free_of_mem_stateSets (mem : states ∈ nfa.stateSets) {p q : S} (hp : p ∈ states)
    (free : ⟨p, none, q⟩ ∈ nfa.rulebook.rules) : q ∈ states := by
  obtain ⟨word, -, rfl⟩ := exists_word_of_mem_stateSets mem
  rw [Run.current, Rulebook.mem_closure, Run.rulebook_readWord] at hp ⊢
  obtain ⟨seed, hseed, reaches⟩ := hp
  exact ⟨seed, hseed, reaches.tail free⟩

/-- No rule over numbered sets is free, and no two compete. -/
theorem deterministic_numbered_rules (nfa : Nfa S) (sets : Roster (SortedSet S)) :
    RuleTable.Deterministic
      (sets.toList.zipIdx.flatMap (nfa.subsetRules sets nfa.rulebook.alphabet.toList)) where
  labelled rule mem := by
    obtain ⟨i, states, -, c, -, rfl⟩ := (mem_numbered_rules nfa).1 mem
    exact Option.some_ne_none c
  distinct := by
    refine List.pairwise_flatMap.2 ⟨fun numbered _ => ?_, ?_⟩
    · -- within a block the symbols differ
      refine List.pairwise_map.2 (nfa.rulebook.alphabet.ascending.imp fun {a b} hlt _ hsame => ?_)
      rw [Option.some.inj hsame] at hlt
      exact Ordered.lt_irrefl b hlt
    · -- and two blocks have different numbers
      have hnumbers : (sets.toList.zipIdx.map Prod.snd).Nodup := by
        rw [List.zipIdx_map_snd]
        exact List.nodup_range'
      refine (List.pairwise_map.1 hnumbers).imp fun {a b} hne x hx y hy hsource => ?_
      obtain ⟨c, -, rfl⟩ := List.mem_map.1 hx
      obtain ⟨d, -, rfl⟩ := List.mem_map.1 hy
      exact absurd hsource hne

theorem deterministic_rules_toDfa (nfa : Nfa S) :
    RuleTable.Deterministic nfa.toDfa.table.rules :=
  nfa.deterministic_numbered_rules nfa.stateSets

/-- The table of the subset construction leaves none of its rules out. -/
theorem obeys_toDfa (nfa : Nfa S) : nfa.toDfa.table.Obeys nfa.toDfa.table.rules :=
  nfa.deterministic_rules_toDfa.obeys_firstMatch

theorem mem_rules_toDfa {rule : Rule Nat} : rule ∈ nfa.toDfa.table.rules ↔
    ∃ i states, nfa.stateSets.toList[i]? = some states ∧ ∃ c ∈ nfa.rulebook.alphabet,
      rule = ⟨i, some c, nfa.stateSets.idxOf (nfa.step states c)⟩ :=
  mem_numbered_rules nfa

theorem mem_accept_toDfa {i : Nat} : i ∈ nfa.toDfa.accept ↔
    ∃ states, nfa.stateSets.toList[i]? = some states ∧ states.meets nfa.accept = true := by
  constructor
  · intro mem
    unfold toDfa dfaOver subsetAccept at mem
    simp only [SortedSet.mem_ofList, List.mem_map, List.mem_filter, Prod.exists,
      List.mk_mem_zipIdx_iff_getElem?] at mem
    obtain ⟨states, j, ⟨place, accepting⟩, rfl⟩ := mem
    exact ⟨states, place, accepting⟩
  · rintro ⟨states, place, accepting⟩
    exact (mem_subsetAccept place).2 accepting

theorem length_subsetRules (nfa : Nfa S) (sets : Roster (SortedSet S)) (symbols : List Char)
    (numbered : SortedSet S × Nat) :
    (nfa.subsetRules sets symbols numbered).length = symbols.length :=
  List.length_map _

/-- The rule in the place of a set and a symbol leads from the one on the other. -/
theorem getElem?_rules_toDfa {i j : Nat} {c : Char}
    (place : nfa.stateSets.toList[i]? = some states)
    (symbol : nfa.rulebook.alphabet.toList[j]? = some c) :
    nfa.toDfa.table.rules[i * nfa.rulebook.alphabet.toList.length + j]? =
      some ⟨i, some c, nfa.stateSets.idxOf (nfa.step states c)⟩ := by
  have hnumbered : nfa.stateSets.toList.zipIdx[i]? = some (states, i) := by
    rw [List.getElem?_zipIdx, place, Option.map_some, Nat.zero_add]
  have hj := (List.getElem?_eq_some_iff.1 symbol).1
  have hblock := getElem?_flatMap_blocks
    (fun numbered _ => length_subsetRules nfa nfa.stateSets nfa.rulebook.alphabet.toList numbered)
    hnumbered hj
  refine hblock.trans ?_
  rw [subsetRules, List.getElem?_map, symbol, Option.map_some]

/-- A rule leads from a set to the set of the states that rules on its symbol lead to, and free moves
after them. -/
theorem exists_sets_of_mem_rules_toDfa {rule : Rule Nat} (mem : rule ∈ nfa.toDfa.table.rules) :
    ∃ c states later, rule.symbol = some c ∧ nfa.stateSets.toList[rule.source]? = some states ∧
      nfa.stateSets.toList[rule.target]? = some later ∧
      ∀ state, state ∈ later ↔ ∃ p ∈ states, ∃ q, ⟨p, some c, q⟩ ∈ nfa.rulebook.rules ∧
        Relation.ReflTransGen (fun p q => ⟨p, none, q⟩ ∈ nfa.rulebook.rules) q state := by
  obtain ⟨i, states, place, c, hc, rfl⟩ := mem_rules_toDfa.1 mem
  refine ⟨c, states, nfa.step states c, rfl, place, getElem?_stateSets_step place hc, ?_⟩
  intro state
  simp only [mem_step, Path.nil_iff]

/-- The sets by number, and an automaton over the numbers that has one rule for each of the sets and
each symbol of the alphabet. -/
structure SubsetAutomaton (nfa : Nfa S) (sets : List (SortedSet S)) (dfa : Dfa Nat) : Prop where
  /-- The symbols are those that some rule reads, in ascending order. -/
  alphabet : (∀ c, c ∈ nfa.rulebook.alphabet ↔ ∃ rule ∈ nfa.rulebook.rules, rule.symbol = some c) ∧
    nfa.rulebook.alphabet.toList.Pairwise (· < ·)
  states : ∀ state, state ∈ nfa.rulebook.states ↔
    ∃ rule ∈ nfa.rulebook.rules, state = rule.source ∨ state = rule.target
  distinct : sets.Nodup
  /-- The sets hold nothing but the start state and the states of the rules. -/
  known : ∀ states ∈ sets, ∀ state ∈ states, state = nfa.start ∨ state ∈ nfa.rulebook.states
  /-- No free move leaves a set. -/
  closed : ∀ states ∈ sets, ∀ p ∈ states, ∀ q, ⟨p, none, q⟩ ∈ nfa.rulebook.rules → q ∈ states
  /-- A set is where the machine may be after some word over the alphabet: its states are the ends of
  the paths that spell the word. -/
  reached : ∀ states ∈ sets, ∃ word, (∀ c ∈ word, c ∈ nfa.rulebook.alphabet) ∧
    (nfa.run.readWord word).current = states ∧
    ∀ state, state ∈ states ↔ Path nfa.rulebook.rules nfa.start word state
  start : dfa.start = 0 ∧ sets[0]? = some (nfa.rulebook.closure [nfa.start])
  /-- The first set holds what free moves lead to from the start state. -/
  first : ∃ states, sets[0]? = some states ∧ ∀ state, state ∈ states ↔
    Relation.ReflTransGen (fun p q => ⟨p, none, q⟩ ∈ nfa.rulebook.rules) nfa.start state
  accept : ∀ i, i ∈ dfa.accept ↔ ∃ states, sets[i]? = some states ∧
    ∃ state ∈ states, state ∈ nfa.accept
  length_rules : dfa.table.rules.length = sets.length * nfa.rulebook.alphabet.toList.length
  /-- The rules stand set by set and symbol by symbol, and each leads to the one number of the set
  that the symbol leads to. -/
  rule : ∀ i states j c, sets[i]? = some states → nfa.rulebook.alphabet.toList[j]? = some c →
    ∃ target, dfa.table.rules[i * nfa.rulebook.alphabet.toList.length + j]? =
        some ⟨i, some c, target⟩ ∧
      ∀ t, sets[t]? = some (nfa.rulebook.closure
        (nfa.rulebook.next states.toList (some c)).toList) ↔ t = target
  /-- A rule leads from a set to the set of the states that rules on its symbol lead to, and free
  moves after them. -/
  targets : ∀ rule ∈ dfa.table.rules, ∃ c states later, rule.symbol = some c ∧
    sets[rule.source]? = some states ∧ sets[rule.target]? = some later ∧
    ∀ state, state ∈ later ↔ ∃ p ∈ states, ∃ q, ⟨p, some c, q⟩ ∈ nfa.rulebook.rules ∧
      Relation.ReflTransGen (fun p q => ⟨p, none, q⟩ ∈ nfa.rulebook.rules) q state
  /-- No rule is free and no two compete. The rules pass validation, so that an index which is filled
  without a check has a place for each of them and answers as the table does. -/
  deterministic : RuleTable.Deterministic dfa.table.rules
  validate : RuleTable.validate dfa.table.rules = .ok (.lastMatch dfa.table.rules)
  size_index : (RuleTable.lastMatch dfa.table.rules).index.size = dfa.table.rules.length
  ruleFor : ∀ i c, (RuleTable.lastMatch dfa.table.rules).ruleFor i c = dfa.table.ruleFor i c
  /-- That index answers with each of the rules. -/
  answers : ∀ i c target, (RuleTable.lastMatch dfa.table.rules).ruleFor i c =
    .ok ⟨i, some c, target⟩ ↔ ⟨i, some c, target⟩ ∈ dfa.table.rules

/-- The search of the sets comes to an end, and so does the worklist that numbers them as they are
met; both number one complete deterministic automaton. -/
theorem toDfa_subsetAutomaton (nfa : Nfa S) :
    Search.Halts (nfa.successors nfa.rulebook.alphabet.toList) ⟨∅, [nfa.startSet]⟩ ∧
      (Interning.start nfa).exhaust nfa = some ⟨nfa.stateSets, [], nfa.toDfa.table.rules⟩ ∧
      nfa.SubsetAutomaton nfa.stateSets.toList nfa.toDfa := by
  have hdeterministic := nfa.deterministic_numbered_rules nfa.stateSets
  refine ⟨(nfa.confined_successors _).halts, Interning.exhaust_start nfa, ?_⟩
  constructor
  case alphabet =>
    exact ⟨fun c => Rulebook.mem_alphabet, nfa.rulebook.alphabet.ascending.imp compare_lt_iff_lt.1⟩
  case states => exact fun state => Rulebook.mem_states
  case distinct => exact nfa.stateSets.nodup_toList
  case known =>
    intro states mem state hstate
    have hreachable := mem_reachable_of_mem_stateSets (Roster.mem_toList.1 mem) hstate
    rcases List.mem_cons.1 hreachable with hstart | htarget
    · exact .inl hstart
    · obtain ⟨rule, hrule, rfl⟩ := List.mem_map.1 htarget
      exact .inr (Rulebook.mem_states.2 ⟨rule, hrule, .inr rfl⟩)
  case closed =>
    intro states mem p hp q free
    exact mem_of_free_of_mem_stateSets (Roster.mem_toList.1 mem) hp free
  case reached =>
    intro states mem
    obtain ⟨word, inside, rfl⟩ := exists_word_of_mem_stateSets (Roster.mem_toList.1 mem)
    exact ⟨word, inside, rfl, fun state => mem_current_readWord_run⟩
  case start => exact ⟨rfl, nfa.getElem?_stateSets_zero⟩
  case first =>
    exact ⟨_, nfa.getElem?_stateSets_zero, fun state => mem_startSet.trans Path.nil_iff⟩
  case accept =>
    intro i
    rw [mem_accept_toDfa]
    simp only [SortedSet.meets_eq_true]
  case length_rules =>
    have hblocks (numbered) (_ : numbered ∈ nfa.stateSets.toList.zipIdx) :=
      length_subsetRules nfa nfa.stateSets nfa.rulebook.alphabet.toList numbered
    have hlength := length_flatMap_blocks hblocks
    rw [List.length_zipIdx] at hlength
    exact hlength
  case rule =>
    intro i states j c place symbol
    refine ⟨_, getElem?_rules_toDfa place symbol, fun t => ?_⟩
    have hstep := getElem?_stateSets_step place
      (SortedSet.mem_def.2 (List.mem_of_getElem? symbol))
    have hmem := (Roster.getElem?_eq_some_iff.1 hstep).1
    exact Roster.getElem?_eq_some_iff.trans (and_iff_right hmem)
  case targets => exact fun rule => exists_sets_of_mem_rules_toDfa
  case deterministic => exact hdeterministic
  case validate => exact hdeterministic.validate_eq
  case size_index => exact hdeterministic.size_index
  case ruleFor => exact fun i c => hdeterministic.ruleFor_lastMatch i c
  case answers => exact fun i c target => hdeterministic.ruleFor_lastMatch_eq_ok_iff

end Nfa
end Automata
