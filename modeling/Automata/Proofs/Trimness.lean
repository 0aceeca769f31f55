import Automata.Proofs.Determinism
import Automata.Proofs.Language
import Automata.Proofs.Numbering

/-! No state of a compiled pattern is idle: each lies on a path from the start to an accepting
state. Operators keep this of their operands, since the free moves that they lay down lead into the
start of every operand and lead on from where it accepts, or leave it accepting. Where every state
that can be come to leads on to an accepting one, a run that has a state left can be completed: its
frontier is empty just when nothing that begins with what was read is accepted, and a number of the
subset construction is dead just when its set is empty. -/
namespace Automata

/-- Some path leads from the first state to the second. -/
def Leads {S : Type} (rules : List (Rule S)) (p q : S) : Prop := ∃ word, Path rules p word q

namespace Leads
variable {S : Type} {rules : List (Rule S)} {p q r : S}

theorem refl (p : S) : Leads rules p p := ⟨[], .refl p⟩

theorem trans (first : Leads rules p q) (second : Leads rules q r) : Leads rules p r := by
  obtain ⟨u, left⟩ := first
  obtain ⟨v, right⟩ := second
  exact ⟨u ++ v, left.trans right⟩

theorem free (rule : ⟨p, none, q⟩ ∈ rules) (rest : Leads rules q r) : Leads rules p r := by
  obtain ⟨word, path⟩ := rest
  exact ⟨word, .free rule path⟩

theorem mono {more : List (Rule S)} (sub : rules ⊆ more) (leads : Leads rules p q) :
    Leads more p q := by
  obtain ⟨word, path⟩ := leads
  exact ⟨word, path.mono sub⟩

theorem map {T : Type} (f : S → T) (leads : Leads rules p q) :
    Leads (rules.map (Rule.map f)) (f p) (f q) := by
  obtain ⟨word, path⟩ := leads
  exact ⟨word, path.map f⟩

/-- Nothing but the first state and the targets of rules can be come to. -/
theorem eq_or_mem_target (leads : Leads rules p q) : q = p ∨ ∃ rule ∈ rules, rule.target = q := by
  obtain ⟨word, path⟩ := leads
  induction path with
  | refl => exact .inl rfl
  | step rule _ ih =>
    rcases ih with rfl | later
    · exact .inr ⟨_, rule, rfl⟩
    · exact .inr later

end Leads

namespace Pattern
namespace Layout
variable {l r p : Layout} {a b c : Nat}

/-- Each number of the range can be come to from the start of the layout, and leads on to where it
accepts. -/
structure Trim (part : Layout) (lo hi : Nat) : Prop where
  reached : ∀ q, lo ≤ q → q < hi → Leads part.rules part.start q
  live : ∀ q, lo ≤ q → q < hi → ∃ last ∈ part.accept, Leads part.rules q last

theorem Trim.concat (hl : l.Within a b) (hr : r.Within b c) (left : l.Trim a b)
    (right : r.Trim b c) : (l.concat r).Trim a c := by
  have hleft : l.rules ⊆ (l.concat r).rules := fun rule mem =>
    List.mem_append_left _ (List.mem_append_left _ mem)
  have hright : r.rules ⊆ (l.concat r).rules := fun rule mem =>
    List.mem_append_left _ (List.mem_append_right _ mem)
  -- every state of the left operand leads over a bridge into the right one
  have hcross (q : Nat) (hlo : a ≤ q) (hhi : q < b) : Leads (l.concat r).rules q r.start := by
    obtain ⟨exit, hexit, leads⟩ := left.live q hlo hhi
    have hbridge : (⟨exit, none, r.start⟩ : Rule Nat) ∈ (l.concat r).rules :=
      List.mem_append_right _ (mem_bridges.2 ⟨exit, hexit, rfl⟩)
    exact (leads.mono hleft).trans (.free hbridge (.refl _))
  refine ⟨fun q hlo hhi => ?_, fun q hlo hhi => ?_⟩
  · by_cases hq : q < b
    · exact (left.reached q hlo hq).mono hleft
    · have hstart := hcross l.start hl.start.1 hl.start.2
      exact hstart.trans ((right.reached q (Nat.le_of_not_lt hq) hhi).mono hright)
  · by_cases hq : q < b
    · obtain ⟨last, hlast, leads⟩ := right.live r.start hr.start.1 hr.start.2
      exact ⟨last, hlast, (hcross q hlo hq).trans (leads.mono hright)⟩
    · obtain ⟨last, hlast, leads⟩ := right.live q (Nat.le_of_not_lt hq) hhi
      exact ⟨last, hlast, leads.mono hright⟩

theorem Trim.choice (hl : l.Within a b) (left : l.Trim a b) (right : r.Trim b c) :
    (l.choice r c).Trim a (c + 1) := by
  have hleft : l.rules ⊆ (l.choice r c).rules := fun rule mem =>
    List.mem_append_left _ (List.mem_append_left _ mem)
  have hright : r.rules ⊆ (l.choice r c).rules := fun rule mem =>
    List.mem_append_left _ (List.mem_append_right _ mem)
  have htop : (⟨c, none, l.start⟩ : Rule Nat) ∈ (l.choice r c).rules := by simp [Layout.choice]
  have htop' : (⟨c, none, r.start⟩ : Rule Nat) ∈ (l.choice r c).rules := by simp [Layout.choice]
  have hlive (q : Nat) (hlo : a ≤ q) (hhi : q < b) :
      ∃ last ∈ (l.choice r c).accept, Leads (l.choice r c).rules q last := by
    obtain ⟨last, hlast, leads⟩ := left.live q hlo hhi
    exact ⟨last, List.mem_append_left _ hlast, leads.mono hleft⟩
  refine ⟨fun q hlo hhi => ?_, fun q hlo hhi => ?_⟩
  · rcases Nat.lt_or_eq_of_le (Nat.le_of_lt_succ hhi) with hc | rfl
    · by_cases hq : q < b
      · exact .free htop ((left.reached q hlo hq).mono hleft)
      · exact .free htop' ((right.reached q (Nat.le_of_not_lt hq) hc).mono hright)
    · exact .refl q
  · rcases Nat.lt_or_eq_of_le (Nat.le_of_lt_succ hhi) with hc | rfl
    · by_cases hq : q < b
      · exact hlive q hlo hq
      · obtain ⟨last, hlast, leads⟩ := right.live q (Nat.le_of_not_lt hq) hc
        exact ⟨last, List.mem_append_right _ hlast, leads.mono hright⟩
    · obtain ⟨last, hlast, leads⟩ := hlive l.start hl.start.1 hl.start.2
      exact ⟨last, hlast, .free htop leads⟩

theorem Trim.star (inner : p.Trim a b) : (p.star b).Trim a (b + 1) := by
  have hinner : p.rules ⊆ (p.star b).rules := fun rule mem =>
    List.mem_append_left _ (List.mem_append_left _ mem)
  have htop : (⟨b, none, p.start⟩ : Rule Nat) ∈ (p.star b).rules := by simp [Layout.star]
  refine ⟨fun q hlo hhi => ?_, fun q hlo hhi => ?_⟩
  · rcases Nat.lt_or_eq_of_le (Nat.le_of_lt_succ hhi) with hb | rfl
    · exact .free htop ((inner.reached q hlo hb).mono hinner)
    · exact .refl q
  · rcases Nat.lt_or_eq_of_le (Nat.le_of_lt_succ hhi) with hb | rfl
    · obtain ⟨last, hlast, leads⟩ := inner.live q hlo hb
      exact ⟨last, List.mem_cons_of_mem _ hlast, leads.mono hinner⟩
    · -- the top accepts, so it needs no rule to lead on
      exact ⟨q, List.mem_cons_self, .refl q⟩

end Layout

theorem layout_trim (p : Pattern) (n : Nat) : (p.layout n).Trim n (n + p.stateCount) := by
  induction p generalizing n with
  | empty =>
    refine ⟨fun q hlo hhi => ?_, fun q hlo hhi => ?_⟩
    all_goals
      obtain rfl : q = n := Nat.le_antisymm (Nat.le_of_lt_succ hhi) hlo
    · exact .refl q
    · exact ⟨q, List.mem_singleton_self q, .refl q⟩
  | literal c =>
    have hread : Leads (layout (literal c) n).rules n (n + 1) :=
      ⟨[c], .read (List.mem_singleton_self _) (.refl _)⟩
    have hends (q : Nat) (hlo : n ≤ q) (hhi : q < n + 2) : q = n ∨ q = n + 1 := by omega
    refine ⟨fun q hlo hhi => ?_, fun q hlo hhi => ⟨n + 1, List.mem_singleton_self _, ?_⟩⟩
    · rcases hends q hlo hhi with rfl | rfl
      · exact .refl q
      · exact hread
    · rcases hends q hlo hhi with rfl | rfl
      · exact hread
      · exact .refl _
  | concat l r hl hr =>
    have h := Layout.Trim.concat (l.layout_within n) (r.layout_within _) (hl n) (hr _)
    simpa only [layout, stateCount, Nat.add_assoc] using h
  | choice l r hl hr =>
    have h := Layout.Trim.choice (l.layout_within n) (hl n) (hr (n + l.stateCount))
    simpa only [layout, stateCount, Nat.add_assoc] using h
  | star p hp =>
    have h := (hp n).star
    simpa only [layout, stateCount, Nat.add_assoc] using h

end Pattern

namespace Nfa
variable {S : Type} [Ordered S]

/-- The state lies on a path from the start state to an accepting one. -/
def Useful (nfa : Nfa S) (q : S) : Prop :=
  Leads nfa.rulebook.rules nfa.start q ∧ ∃ last ∈ nfa.accept, Leads nfa.rulebook.rules q last

/-- Every state that can be come to lies on a path to an accepting one. -/
def Trim (nfa : Nfa S) : Prop := ∀ q, Leads nfa.rulebook.rules nfa.start q → nfa.Useful q

variable {nfa : Nfa S}

theorem Run.exists_mem_current_iff {run : Run S} :
    (∃ state, state ∈ run.current) ↔ run.frontier ≠ ∅ := by
  rw [SortedSet.ne_empty_iff]
  constructor
  · rintro ⟨state, mem⟩
    obtain ⟨first, hfirst, -⟩ := Run.mem_current.1 mem
    exact ⟨first, hfirst⟩
  · rintro ⟨state, mem⟩
    exact ⟨state, Run.mem_current.2 ⟨state, mem, .refl state⟩⟩

/-- A run that has a state left can be completed, as long as no state is idle. -/
theorem Trim.frontier_ne_empty_iff (trim : nfa.Trim) (word : List Char) :
    (nfa.run.readWord word).frontier ≠ ∅ ↔
      ∃ rest, nfa.acceptsWord (word ++ rest) = true := by
  simp only [← Run.exists_mem_current_iff, mem_current_readWord_run, acceptsWord_iff]
  constructor
  · rintro ⟨state, path⟩
    obtain ⟨-, last, accepting, rest, onward⟩ := trim state ⟨word, path⟩
    exact ⟨rest, last, accepting, path.trans onward⟩
  · rintro ⟨rest, last, accepting, path⟩
    obtain ⟨state, first, -⟩ := path.exists_of_append
    exact ⟨state, first⟩

/-- A word that the rules have the symbols for leads to the number of the set that it leads to. -/
theorem exists_path_toDfa (nfa : Nfa S) {word : List Char}
    (inside : ∀ c ∈ word, ∃ rule ∈ nfa.rulebook.rules, rule.symbol = some c) :
    ∃ i states, Path nfa.toDfa.table.rules nfa.toDfa.start word i ∧
      nfa.stateSets.toList[i]? = some states ∧
      ∀ q, q ∈ states ↔ Path nfa.rulebook.rules nfa.start word q := by
  obtain ⟨i, read, place⟩ := nfa.readWord_toDfa fun c mem => Rulebook.mem_alphabet.2 (inside c mem)
  have path := (Dfa.readWord_iff_path nfa.obeys_toDfa).1 read
  exact ⟨i, _, path, place, fun q => mem_current_readWord_run⟩

/-- No symbol leads on from no state. -/
theorem step_empty (nfa : Nfa S) (c : Char) : nfa.step ∅ c = ∅ := by
  by_contra hne
  obtain ⟨state, mem⟩ := SortedSet.ne_empty_iff.1 hne
  obtain ⟨p, hp, -⟩ := mem_step.1 mem
  exact absurd hp (SortedSet.not_mem_empty p)

/-- The number of the empty set leads to no other number. -/
theorem getElem?_stateSets_of_leads {i j : Nat} (leads : Leads nfa.toDfa.table.rules i j)
    (place : nfa.stateSets.toList[i]? = some ∅) : nfa.stateSets.toList[j]? = some ∅ := by
  obtain ⟨word, path⟩ := leads
  induction path with
  | refl => exact place
  | step rule _ ih =>
    obtain ⟨k, states, place', c, hc, heq⟩ := mem_rules_toDfa.1 rule
    injection heq with hsource _ htarget
    subst hsource htarget
    obtain rfl : ∅ = states := Option.some.inj (place.symm.trans place')
    have hnext := getElem?_stateSets_step place hc
    rw [step_empty] at hnext ih
    exact ih hnext

/-- A run in the subset construction can be completed from the number of each set that some state is
in. -/
theorem Trim.exists_leads_accept (trim : nfa.Trim) {i : Nat} {states : SortedSet S}
    (place : nfa.stateSets.toList[i]? = some states) {state : S} (mem : state ∈ states) :
    ∃ last ∈ nfa.toDfa.accept, Leads nfa.toDfa.table.rules i last := by
  have hfound := Roster.mem_toList.1 (List.mem_of_getElem? place)
  obtain ⟨word, -, rfl⟩ := exists_word_of_mem_stateSets hfound
  obtain ⟨-, final, accepting, rest, onward⟩ := trim state ⟨word, mem_current_readWord_run.1 mem⟩
  -- the set is where a run may be, so the run goes on to the accepting state and the number with it
  have tracks : nfa.Tracks i (nfa.run.readWord word) := ⟨Run.rulebook_readWord _ _, place⟩
  have hinside : ∀ c ∈ rest, c ∈ nfa.rulebook.alphabet := fun c hc =>
    Rulebook.mem_alphabet.2 (onward.symbol_mem c hc)
  obtain ⟨last, read, -, place'⟩ := tracks.readWord hinside
  have hfinal : final ∈ (nfa.run.readWord (word ++ rest)).current :=
    mem_current_readWord_run.2 ((mem_current_readWord_run.1 mem).trans onward)
  rw [Run.readWord_append] at hfinal
  have haccept : last ∈ nfa.toDfa.accept :=
    mem_accept_toDfa.2 ⟨_, place', SortedSet.meets_eq_true.2 ⟨final, hfinal, accepting⟩⟩
  exact ⟨last, haccept, rest, (Dfa.readWord_iff_path nfa.obeys_toDfa).1 read⟩

theorem Trim.exists_leads_accept_iff (trim : nfa.Trim) {i : Nat} {states : SortedSet S}
    (place : nfa.stateSets.toList[i]? = some states) :
    (∃ last ∈ nfa.toDfa.accept, Leads nfa.toDfa.table.rules i last) ↔ states ≠ ∅ := by
  constructor
  · rintro ⟨last, accepting, leads⟩ rfl
    have place' := getElem?_stateSets_of_leads leads place
    obtain ⟨state, mem, -⟩ := SortedSet.meets_eq_true.1 ((mem_subsetAccept place').1 accepting)
    exact absurd mem (SortedSet.not_mem_empty state)
  · intro hne
    obtain ⟨state, mem⟩ := SortedSet.ne_empty_iff.1 hne
    exact trim.exists_leads_accept place mem

end Nfa

namespace Pattern

/-- The automaton of a layout that is trim over plain numbers has no idle state either. -/
theorem Layout.Trim.useful {part : Layout} {hi : Nat} (trim : part.Trim 0 hi) {n : Nat}
    (hn : n < hi) : part.nfa.Useful (State.numbered n) := by
  refine ⟨(trim.reached n (Nat.zero_le n) hn).map State.numbered, ?_⟩
  obtain ⟨last, hlast, leads⟩ := trim.live n (Nat.zero_le n) hn
  exact ⟨State.numbered last, SortedSet.mem_ofList.2 (List.mem_map_of_mem hlast),
    leads.map State.numbered⟩

theorem Layout.Trim.nfa {part : Layout} {hi : Nat} (within : part.Within 0 hi)
    (trim : part.Trim 0 hi) : part.nfa.Trim := by
  intro q leads
  rcases leads.eq_or_mem_target with rfl | ⟨_, mem, rfl⟩
  · exact trim.useful within.start.2
  · obtain ⟨rule, hrule, rfl⟩ := List.mem_map.1 mem
    exact trim.useful (within.target rule hrule).2

/-- What a compiled pattern and the allocator that served it show: no state was minted in vain. -/
structure CompilesTrim (p : Pattern) (builder : Builder) (nfa : Nfa State) : Prop where
  /-- As many states are minted as the nodes of the pattern take. -/
  next : builder.fresh.next.toNat = p.statesTaken
  /-- The minted states are those below the next one. -/
  minted : ∀ q : State, q.id < builder.fresh.next → nfa.Useful q
  /-- A frontier is left as long as some word of the pattern begins with what was read. -/
  viable : ∀ w : String, (nfa.run.readString w).frontier ≠ ∅ ↔
    ∃ word ∈ p.language, w.toList <+: word
  /-- The words of the pattern are the strings that match it. -/
  frontier : ∀ w : String, (nfa.run.readString w).frontier ≠ ∅ ↔
    ∃ s : String, w.toList <+: s.toList ∧ p.matchesString s = .ok true
  /-- A word that the rules have the symbols for leads to a number of the subset construction, and
  this number stands for the states that the word leads to. -/
  numbered : ∀ word, (∀ c ∈ word, ∃ rule ∈ nfa.rulebook.rules, rule.symbol = some c) →
    ∃ i states, Path nfa.toDfa.table.rules nfa.toDfa.start word i ∧
      nfa.stateSets.toList[i]? = some states ∧
      ∀ q, q ∈ states ↔ Path nfa.rulebook.rules nfa.start word q
  /-- A number of the subset construction leads to acceptance unless it stands for no state. -/
  subset : ∀ i states, nfa.stateSets.toList[i]? = some states →
    ((∃ last ∈ nfa.toDfa.accept, Leads nfa.toDfa.table.rules i last) ↔ states ≠ ∅)

theorem matchesWord_of_compile {p : Pattern} {nfa : Nfa State} (compiled : p.compile = .ok nfa)
    (word : List Char) : p.matchesWord word = .ok (nfa.acceptsWord word) := by
  unfold matchesWord
  rw [compiled]
  rfl

/-- The strings that go on from what was read to a match are those that the run can still accept. -/
theorem exists_matches_iff {p : Pattern} {nfa : Nfa State} (compiled : p.compile = .ok nfa)
    (w : String) : (∃ s : String, w.toList <+: s.toList ∧ p.matchesString s = .ok true) ↔
      ∃ rest, nfa.acceptsWord (w.toList ++ rest) = true := by
  unfold matchesString
  simp only [matchesWord_of_compile compiled, Except.ok.injEq]
  constructor
  · rintro ⟨s, ⟨rest, hrest⟩, accepted⟩
    exact ⟨rest, hrest ▸ accepted⟩
  · rintro ⟨rest, accepted⟩
    refine ⟨String.ofList (w.toList ++ rest), ?_, ?_⟩
    · rw [String.toList_ofList]
      exact List.prefix_append _ _
    · rw [String.toList_ofList]
      exact accepted

/-- A pattern compiles to an automaton without an idle state, unless the state numbers run out. -/
theorem compile_trim (p : Pattern) (mints : p.compile ≠ .error .exhausted) :
    ∃ fragment builder nfa, assemble .empty p = .ok (fragment, builder) ∧ p.compile = .ok nfa ∧
      p.CompilesTrim builder nfa := by
  have fits : p.stateCount ≤ Fresh.limit.toNat :=
    Nat.le_of_not_lt fun exceeds => mints (p.compile_eq_error exceeds)
  have hcompile := p.compile_eq fits
  have hassemble := p.assemble_atNumber #[] 0 (by omega)
  have hwithin := p.layout_within 0
  have htrim := p.layout_trim 0
  rw [Nat.zero_add] at hassemble hwithin htrim
  have hnfa := htrim.nfa hwithin
  refine ⟨_, _, _, hassemble, hcompile, ?_⟩
  constructor
  case next =>
    rw [statesTaken_eq]
    exact State.toNat_id_numbered p.stateCount fits
  case minted =>
    intro q hq
    have hbound : q.id.toNat < p.stateCount :=
      (UInt64.lt_iff_toNat_lt.1 hq).trans_le (Nat.mod_le _ _)
    exact q.numbered_toNat_id ▸ htrim.useful hbound
  case viable =>
    intro w
    have hcontinued := hnfa.frontier_ne_empty_iff w.toList
    simp only [p.acceptsWord_layout fits] at hcontinued
    refine hcontinued.trans ⟨?_, ?_⟩
    · rintro ⟨rest, mem⟩
      exact ⟨_, mem, List.prefix_append _ rest⟩
    · rintro ⟨_, mem, rest, rfl⟩
      exact ⟨rest, mem⟩
  case frontier =>
    intro w
    exact (hnfa.frontier_ne_empty_iff w.toList).trans (exists_matches_iff hcompile w).symm
  case numbered => exact fun word => Nfa.exists_path_toDfa _
  case subset => exact fun i states => hnfa.exists_leads_accept_iff

/-- A star whose operand may be empty has an accepting start beside the accepting states of the
operand, and none of them is idle. -/
theorem compile_trim_optional_repeated :
    (star (choice empty (concat (literal 'a') (literal 'b')))).compile ≠ .error .exhausted ∧
      ∃ fragment builder nfa,
        assemble .empty (star (choice empty (concat (literal 'a') (literal 'b')))) =
          .ok (fragment, builder) ∧
        (star (choice empty (concat (literal 'a') (literal 'b')))).compile = .ok nfa ∧
        (star (choice empty (concat (literal 'a') (literal 'b')))).CompilesTrim builder nfa := by
  have hcompile := (star (choice empty (concat (literal 'a') (literal 'b')))).compile_eq (by decide)
  have mints : (star (choice empty (concat (literal 'a') (literal 'b')))).compile ≠
      .error .exhausted := by
    rw [hcompile]
    exact nofun
  exact ⟨mints, compile_trim _ mints⟩

end Pattern
end Automata
