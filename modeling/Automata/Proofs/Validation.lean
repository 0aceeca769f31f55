import Automata.Proofs.RuleTable

/-! A list of rules makes a table in two ways, and both are exact. Validation fails if and only if
some rule is free or competes with one before it, and of all such rules it names the first: while
rules are entered, the index has a place for the states and symbols of the rules entered so far and
for no others, so a rule is refused exactly if something is wrong with it after those. The lenient
table takes every list, and answers with the first rule that applies. Where both tables can be had
they answer alike. -/
namespace Automata
namespace RuleTable

section Refused
variable {S : Type} {earlier rest : List (Rule S)} {rule : Rule S} {e e' : RuleError S}

/-- What is wrong with a rule after earlier ones: it is free, or one of them leaves its state on its
symbol. -/
inductive Refused (earlier : List (Rule S)) : Rule S → RuleError S → Prop where
  | free (source target : S) : Refused earlier ⟨source, none, target⟩ (.freeMove source)
  | shared {source target other : S} {c : Char} (taken : ⟨source, some c, other⟩ ∈ earlier) :
      Refused earlier ⟨source, some c, target⟩ (.ambiguousRule source c)

/-- What is wrong with the rule in the place after the rules before it. -/
def RefusedAt (rules : List (Rule S)) (i : Nat) (e : RuleError S) : Prop :=
  ∃ rule, rules[i]? = some rule ∧ Refused (rules.take i) rule e

theorem Refused.unique (h : Refused earlier rule e) (h' : Refused earlier rule e') : e = e' := by
  cases h with
  | free => cases h'; rfl
  | shared => cases h'; rfl

theorem refusedAt_length :
    RefusedAt (earlier ++ rule :: rest) earlier.length e ↔ Refused earlier rule e := by
  simp [RefusedAt]

end Refused

variable {S : Type} [Ordered S]

/-- The index has a place for the states and symbols of the rules, and for no others. -/
def Holds (index : Std.TreeMap (S × Char) (Rule S)) (rules : List (Rule S)) : Prop :=
  ∀ state c, (state, c) ∈ index ↔ ∃ target, ⟨state, some c, target⟩ ∈ rules

section Holds
variable {index later : Std.TreeMap (S × Char) (Rule S)} {earlier rest : List (Rule S)}
  {rule : Rule S} {e : RuleError S}

theorem holds_empty : Holds (S := S) ∅ [] := by
  intro state c
  simp

/-- A rule is not entered exactly if something is wrong with it after the rules in the index. -/
theorem Holds.enterNew_eq_error_iff (holds : Holds index earlier) :
    enterNew index rule = .error e ↔ Refused earlier rule e := by
  obtain ⟨source, symbol, target⟩ := rule
  unfold enterNew
  cases symbol with
  | none =>
    simp only [Except.error.injEq]
    constructor
    · rintro rfl
      exact .free source target
    · exact fun refused => (Refused.free source target).unique refused
  | some c =>
    by_cases taken : (source, c) ∈ index
    · obtain ⟨other, mem⟩ := (holds source c).1 taken
      simp only [taken, if_true, Except.error.injEq]
      constructor
      · rintro rfl
        exact .shared mem
      · exact fun refused => (Refused.shared mem).unique refused
    · simp only [taken, if_false, reduceCtorEq, false_iff]
      rintro (_ | mem)
      exact taken ((holds source c).2 ⟨_, mem⟩)

/-- After a rule was entered the index holds it as well. -/
theorem Holds.enterNew (holds : Holds index earlier) (entered : enterNew index rule = .ok later) :
    Holds later (earlier ++ [rule]) := by
  obtain ⟨c, hc, -, rfl⟩ := exists_of_enterNew entered
  obtain ⟨source, symbol, target⟩ := rule
  obtain rfl : symbol = some c := hc
  intro state d
  rw [Std.TreeMap.mem_insert, Ordered.compare_eq_iff, holds]
  simp only [List.mem_append, List.mem_singleton, Rule.mk.injEq, Option.some.injEq, exists_or,
    Prod.mk.injEq]
  grind

/-- Entering rules one by one fails with what is wrong at the first place where something is. -/
theorem Holds.foldlM_enterNew_eq_error_iff (holds : Holds index earlier) :
    rest.foldlM RuleTable.enterNew index = .error e ↔
      ∃ i, earlier.length ≤ i ∧ RefusedAt (earlier ++ rest) i e ∧
        ∀ j, earlier.length ≤ j → j < i → ∀ other, ¬RefusedAt (earlier ++ rest) j other := by
  induction rest generalizing index earlier with
  | nil =>
    simp only [List.foldlM_nil, List.append_nil]
    constructor
    · exact nofun
    · rintro ⟨i, hi, ⟨rule, place, -⟩, -⟩
      rw [List.getElem?_eq_none hi] at place
      cases place
  | cons rule rest ih =>
    rw [List.foldlM_cons]
    cases hfirst : RuleTable.enterNew index rule with
    | error e' =>
      have hrefused := holds.enterNew_eq_error_iff.1 hfirst
      constructor
      · rintro ⟨⟩
        exact ⟨earlier.length, Nat.le_refl _, refusedAt_length.2 hrefused,
          fun j hj hlt => absurd hlt (Nat.not_lt.2 hj)⟩
      · rintro ⟨i, hi, hat, hnone⟩
        rcases Nat.eq_or_lt_of_le hi with rfl | hlt
        · rw [(refusedAt_length.1 hat).unique hrefused]
          rfl
        · exact absurd (refusedAt_length.2 hrefused) (hnone _ (Nat.le_refl _) hlt e')
    | ok later =>
      have hfine (other : RuleError S) :
          ¬RefusedAt (earlier ++ rule :: rest) earlier.length other := by
        rw [refusedAt_length, ← holds.enterNew_eq_error_iff, hfirst]
        exact nofun
      have hsnoc : earlier ++ rule :: rest = (earlier ++ [rule]) ++ rest := by simp
      refine (ih (holds.enterNew hfirst)).trans ?_
      rw [← hsnoc, List.length_append, List.length_singleton]
      refine exists_congr fun i => ⟨?_, ?_⟩
      · rintro ⟨hi, hat, hnone⟩
        refine ⟨by omega, hat, fun j hj hlt => ?_⟩
        rcases Nat.eq_or_lt_of_le hj with rfl | hj
        · exact hfine
        · exact hnone j hj hlt
      · rintro ⟨hi, hat, hnone⟩
        refine ⟨Nat.lt_of_le_of_ne hi ?_, hat, fun j hj hlt => hnone j (by omega) hlt⟩
        rintro rfl
        exact hfine e hat

end Holds

theorem validate_eq_error_iff {rules : List (Rule S)} {e : RuleError S} :
    validate rules = .error e ↔
      ∃ i, RefusedAt rules i e ∧ ∀ j < i, ∀ other, ¬RefusedAt rules j other := by
  have hloop : rules.foldlM enterNew ∅ = .error e ↔ _ := holds_empty.foldlM_enterNew_eq_error_iff
  simp only [List.length_nil, Nat.zero_le, true_and, List.nil_append, forall_const] at hloop
  rw [← hloop, validate]
  cases rules.foldlM enterNew ∅ <;> simp [bind, Except.bind, pure, Except.pure]

/-! An index may keep the places of the rules in the list where the tables keep the rules. -/

/-- Enters the place of a rule under its state and symbol if there is none yet. -/
def enterPlace (places : Std.TreeMap (S × Char) Nat) (placed : Rule S × Nat) :
    Std.TreeMap (S × Char) Nat :=
  match placed.1.symbol with
  | none => places
  | some c => places.insertIfNew (placed.1.source, c) placed.2

/-- Enters the place of a rule under its state and symbol, which must be there and new. -/
def enterNewPlace (places : Std.TreeMap (S × Char) Nat) (placed : Rule S × Nat) :
    Except (RuleError S) (Std.TreeMap (S × Char) Nat) :=
  match placed.1.symbol with
  | none => .error (.freeMove placed.1.source)
  | some c =>
    if (placed.1.source, c) ∈ places then .error (.ambiguousRule placed.1.source c)
    else .ok (places.insert (placed.1.source, c) placed.2)

/-- Under each key the index has the rule that stands in the place under that key. -/
def Points (rules : List (Rule S)) (places : Std.TreeMap (S × Char) Nat)
    (index : Std.TreeMap (S × Char) (Rule S)) : Prop :=
  ∀ key : S × Char, places[key]?.map (fun i => rules[i]?) = index[key]?.map some

section Points
variable {rules : List (Rule S)} {places : Std.TreeMap (S × Char) Nat}
  {index : Std.TreeMap (S × Char) (Rule S)} {rule : Rule S} {i : Nat}

theorem points_empty (rules : List (Rule S)) : Points rules ∅ ∅ := by
  intro key
  simp

theorem Points.mem_iff (points : Points rules places index) (key : S × Char) :
    key ∈ places ↔ key ∈ index := by
  have h := congrArg Option.isSome (points key)
  rwa [Option.isSome_map, Option.isSome_map, Std.TreeMap.isSome_getElem?_eq_contains,
    Std.TreeMap.isSome_getElem?_eq_contains, Bool.eq_iff_iff] at h

theorem Points.insert (points : Points rules places index) (place : rules[i]? = some rule)
    (key : S × Char) : Points rules (places.insert key i) (index.insert key rule) := by
  intro other
  rw [Std.TreeMap.getElem?_insert, Std.TreeMap.getElem?_insert]
  split
  · rw [Option.map_some, Option.map_some, place]
  · exact points other

theorem Points.enter (points : Points rules places index) (place : rules[i]? = some rule) :
    Points rules (enterPlace places (rule, i)) (RuleTable.enter index rule) := by
  unfold enterPlace RuleTable.enter
  cases rule.symbol with
  | none => exact points
  | some c =>
    intro other
    simp only [Std.TreeMap.getElem?_insertIfNew, points.mem_iff]
    split
    · rw [Option.map_some, Option.map_some, place]
    · exact points other

theorem Points.enterNew (points : Points rules places index) (place : rules[i]? = some rule) :
    (∃ e, enterNewPlace places (rule, i) = .error e ∧ RuleTable.enterNew index rule = .error e) ∨
      ∃ places' index', enterNewPlace places (rule, i) = .ok places' ∧
        RuleTable.enterNew index rule = .ok index' ∧ Points rules places' index' := by
  unfold enterNewPlace RuleTable.enterNew
  cases rule.symbol with
  | none => exact .inl ⟨_, rfl, rfl⟩
  | some c =>
    simp only [points.mem_iff]
    split
    · exact .inl ⟨_, rfl, rfl⟩
    · exact .inr ⟨_, _, rfl, rfl, points.insert place _⟩

variable {placed : List (Rule S × Nat)}

theorem Points.foldl (points : Points rules places index)
    (stand : ∀ entry ∈ placed, rules[entry.2]? = some entry.1) :
    Points rules (placed.foldl enterPlace places)
      ((placed.map Prod.fst).foldl RuleTable.enter index) := by
  induction placed generalizing places index with
  | nil => exact points
  | cons entry rest ih =>
    obtain ⟨place, hrest⟩ := List.forall_mem_cons.1 stand
    exact ih (points.enter place) hrest

theorem Points.foldlM (points : Points rules places index)
    (stand : ∀ entry ∈ placed, rules[entry.2]? = some entry.1) :
    (∃ e, placed.foldlM enterNewPlace places = .error e ∧
      (placed.map Prod.fst).foldlM RuleTable.enterNew index = .error e) ∨
    ∃ places' index', placed.foldlM enterNewPlace places = .ok places' ∧
      (placed.map Prod.fst).foldlM RuleTable.enterNew index = .ok index' ∧
      Points rules places' index' := by
  induction placed generalizing places index with
  | nil => exact .inr ⟨_, _, rfl, rfl, points⟩
  | cons entry rest ih =>
    obtain ⟨place, hrest⟩ := List.forall_mem_cons.1 stand
    rw [List.foldlM_cons, List.map_cons, List.foldlM_cons]
    obtain ⟨e, hplaces, hindex⟩ | ⟨places', index', hplaces, hindex, points'⟩ :=
      points.enterNew place
    · rw [hplaces, hindex]
      exact .inl ⟨e, rfl, rfl⟩
    · rw [hplaces, hindex]
      exact ih points' hrest

end Points

theorem points_firstMatch (rules : List (Rule S)) :
    Points rules (rules.zipIdx.foldl enterPlace ∅) (firstMatch rules).index := by
  have stand : ∀ entry ∈ rules.zipIdx, rules[entry.2]? = some entry.1 :=
    fun _ mem => List.mk_mem_zipIdx_iff_getElem?.1 mem
  have h := (points_empty rules).foldl stand
  rwa [List.zipIdx_map_fst] at h

theorem points_validate (rules : List (Rule S)) :
    (∃ e, rules.zipIdx.foldlM enterNewPlace ∅ = .error e ∧ validate rules = .error e) ∨
    ∃ places table, rules.zipIdx.foldlM enterNewPlace ∅ = .ok places ∧
      validate rules = .ok table ∧ Points rules places table.index := by
  have stand : ∀ entry ∈ rules.zipIdx, rules[entry.2]? = some entry.1 :=
    fun _ mem => List.mk_mem_zipIdx_iff_getElem?.1 mem
  have h := (points_empty rules).foldlM stand
  rw [List.zipIdx_map_fst] at h
  unfold validate
  obtain ⟨e, hplaces, hindex⟩ | ⟨places, index, hplaces, hindex, points⟩ := h
  · rw [hindex]
    exact .inl ⟨e, hplaces, rfl⟩
  · rw [hindex]
    exact .inr ⟨places, _, hplaces, rfl, points⟩

/-- What the two kinds of table make of a list of rules. -/
structure ExactTables (rules : List (Rule S)) : Prop where
  /-- Validation passes rules of which none is free and no two compete, and no others. -/
  passes : (∃ table, validate rules = .ok table) ↔ Deterministic rules
  /-- It fails with what is wrong in the first place where something is. -/
  fails : ∀ e, validate rules = .error e ↔
    ∃ i, RefusedAt rules i e ∧ ∀ j < i, ∀ other, ¬RefusedAt rules j other
  /-- The lenient table answers with the first rule that leaves the state on the symbol. -/
  answers : ∀ state c rule, (firstMatch rules).ruleFor state c = .ok rule ↔
    ∃ i, rules[i]? = some rule ∧ (rule.source = state ∧ rule.symbol = some c) ∧
      ∀ earlier ∈ rules.take i, ¬(earlier.source = state ∧ earlier.symbol = some c)
  misses : ∀ state c e, (firstMatch rules).ruleFor state c = .error e ↔
    e = .noApplicableRule state c ∧
      ∀ rule ∈ rules, ¬(rule.source = state ∧ rule.symbol = some c)
  keeps : (firstMatch rules).rules = rules ∧
    ∀ table, validate rules = .ok table → table.rules = rules
  agrees : ∀ table, validate rules = .ok table → ∀ state c,
    table.ruleFor state c = (firstMatch rules).ruleFor state c ∧
      table.nextState state c = (firstMatch rules).nextState state c
  /-- An index of places points at the rules of the lenient table. -/
  points : Points rules (rules.zipIdx.foldl enterPlace ∅) (firstMatch rules).index
  /-- If places are entered only where they are new, this fails as validation does, or gives an index
  that points at the rules of the validated table. -/
  pointsValid : (∃ e, rules.zipIdx.foldlM enterNewPlace ∅ = .error e ∧ validate rules = .error e) ∨
    ∃ places table, rules.zipIdx.foldlM enterNewPlace ∅ = .ok places ∧
      validate rules = .ok table ∧ Points rules places table.index

/-- A list of rules is validated or refused for its first fault, and the lenient table follows its
first rules. -/
theorem tables_exact (rules : List (Rule S)) : ExactTables rules where
  passes := ⟨fun ⟨_, valid⟩ => deterministic_of_validate valid, fun h => ⟨_, h.validate_eq⟩⟩
  fails _ := validate_eq_error_iff
  answers _ _ _ := ruleFor_firstMatch_eq_ok_iff.trans find?_appliesTo_eq_some_iff
  misses _ _ _ := ruleFor_firstMatch_eq_error_iff.trans (and_congr_left fun _ => eq_comm)
  keeps := by
    refine ⟨rfl, fun table valid => ?_⟩
    obtain ⟨-, rfl⟩ := validate_eq_ok_iff.1 valid
    rfl
  agrees table valid state c := by
    obtain ⟨h, rfl⟩ := validate_eq_ok_iff.1 valid
    have hrule := h.ruleFor_lastMatch state c
    exact ⟨hrule, by rw [nextState, nextState, hrule]⟩
  points := points_firstMatch rules
  pointsValid := points_validate rules

end RuleTable
end Automata
