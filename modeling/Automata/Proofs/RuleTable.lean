import Automata.RuleTable

/-! The index of a lenient table answers as a scan of its rules would: for each state and symbol
with the first rule in order that applies, and with nothing if none does. Where no rule is free and
no two compete, it makes no difference how the index is filled: validation passes, nothing is
overwritten, and the first rule that applies is the last. -/
namespace Automata
namespace RuleTable
variable {S : Type} [Ordered S]

theorem getElem?_enter (index : Std.TreeMap (S × Char) (Rule S)) (rule : Rule S) (state : S)
    (symbol : Char) :
    (enter index rule)[(state, symbol)]? =
      index[(state, symbol)]?.or
        (if rule.appliesTo state (some symbol) then some rule else none) := by
  unfold enter
  cases hsymbol : rule.symbol with
  | none => simp [Rule.appliesTo, hsymbol]
  | some c =>
    dsimp only
    rw [Std.TreeMap.getElem?_insertIfNew]
    simp only [Ordered.compare_eq_iff]
    by_cases hkey : (rule.source, c) = (state, symbol)
    · obtain ⟨rfl, rfl⟩ := Prod.mk.inj hkey
      by_cases mem : (rule.source, c) ∈ index
      · simp [mem]
      · simp [mem, Rule.appliesTo, hsymbol]
    · have happlies : rule.appliesTo state (some symbol) = false := by
        apply Bool.eq_false_iff.2
        intro h
        have h := Rule.appliesTo_eq_true.1 h
        rw [hsymbol, Option.some.injEq] at h
        exact hkey (Prod.ext h.1 h.2)
      simp [hkey, happlies]

theorem getElem?_foldl_enter (rules : List (Rule S)) (index : Std.TreeMap (S × Char) (Rule S))
    (state : S) (symbol : Char) :
    (rules.foldl enter index)[(state, symbol)]? =
      index[(state, symbol)]?.or (rules.find? (·.appliesTo state (some symbol))) := by
  induction rules generalizing index with
  | nil => simp
  | cons rule rest ih =>
    rw [List.foldl_cons, ih, getElem?_enter, List.find?_cons, Option.or_assoc]
    congr 1
    cases rule.appliesTo state (some symbol) <;> rfl

/-- The rule found is the one at the least place with a rule that leaves the state on the symbol. -/
theorem find?_appliesTo_eq_some_iff {rules : List (Rule S)} {state : S} {c : Char} {rule : Rule S} :
    rules.find? (·.appliesTo state (some c)) = some rule ↔
      ∃ i, rules[i]? = some rule ∧ (rule.source = state ∧ rule.symbol = some c) ∧
        ∀ earlier ∈ rules.take i, ¬(earlier.source = state ∧ earlier.symbol = some c) := by
  simp only [List.find?_eq_some_iff_append, Bool.not_eq_true', ← Bool.not_eq_true,
    Rule.appliesTo_eq_true]
  constructor
  · rintro ⟨leaves, before, after, rfl, first⟩
    refine ⟨before.length, by simp, leaves, fun earlier mem => first earlier ?_⟩
    rwa [List.take_left] at mem
  · rintro ⟨i, place, leaves, first⟩
    obtain ⟨hi, rfl⟩ := List.getElem?_eq_some_iff.1 place
    refine ⟨leaves, rules.take i, rules.drop (i + 1), ?_, first⟩
    rw [← List.drop_eq_getElem_cons, List.take_append_drop]

/-- The first rule in order that applies is the one that a lenient table answers with. -/
theorem ruleFor_firstMatch (rules : List (Rule S)) (state : S) (symbol : Char) :
    (firstMatch rules).ruleFor state symbol =
      match rules.find? (·.appliesTo state (some symbol)) with
      | some rule => .ok rule
      | none => .error (.noApplicableRule state symbol) := by
  have hindex : (rules.foldl enter ∅)[(state, symbol)]? =
      rules.find? (·.appliesTo state (some symbol)) := by
    rw [getElem?_foldl_enter, Std.TreeMap.getElem?_emptyc, Option.none_or]
  cases hfound : rules.find? (·.appliesTo state (some symbol)) with
  | none => simp only [ruleFor, firstMatch, hindex, hfound]
  | some rule => simp only [ruleFor, firstMatch, hindex, hfound]

theorem ruleFor_firstMatch_eq_ok_iff {rules : List (Rule S)} {state : S} {symbol : Char}
    {rule : Rule S} : (firstMatch rules).ruleFor state symbol = .ok rule ↔
      rules.find? (·.appliesTo state (some symbol)) = some rule := by
  rw [ruleFor_firstMatch]
  cases rules.find? (·.appliesTo state (some symbol)) <;> simp

theorem ruleFor_firstMatch_eq_error_iff {rules : List (Rule S)} {state : S} {symbol : Char}
    {e : RuleError S} : (firstMatch rules).ruleFor state symbol = .error e ↔
      .noApplicableRule state symbol = e ∧
        ∀ rule ∈ rules, ¬(rule.source = state ∧ rule.symbol = some symbol) := by
  simp only [← Rule.appliesTo_eq_true]
  rw [ruleFor_firstMatch, ← List.find?_eq_none]
  cases rules.find? (·.appliesTo state (some symbol)) <;> simp

/-- Enters a rule under its state and symbol, in the place of a rule that was there before. -/
def overwrite (index : Std.TreeMap (S × Char) (Rule S)) (rule : Rule S) :
    Std.TreeMap (S × Char) (Rule S) :=
  match rule.symbol with
  | none => index
  | some c => index.insert (rule.source, c) rule

/-- The table of rules of which the last in order wins. -/
def lastMatch (rules : List (Rule S)) : RuleTable S := ⟨rules, rules.foldl overwrite ∅⟩

/-- No rule is free, and no two leave one state on one symbol. -/
structure Deterministic (rules : List (Rule S)) : Prop where
  labelled : ∀ rule ∈ rules, rule.symbol ≠ none
  distinct : rules.Pairwise fun a b => a.source = b.source → a.symbol ≠ b.symbol

/-- The rules are deterministic, and the index has no place for any of them. -/
structure Admits (index : Std.TreeMap (S × Char) (Rule S)) (rules : List (Rule S)) : Prop
    extends Deterministic rules where
  unplaced : ∀ rule ∈ rules, ∀ c, rule.symbol = some c → (rule.source, c) ∉ index

section Admits
variable {index : Std.TreeMap (S × Char) (Rule S)} {rule : Rule S} {rules : List (Rule S)}

theorem Deterministic.admits (h : Deterministic rules) : Admits ∅ rules where
  toDeterministic := h
  unplaced _ _ _ _ := Std.TreeMap.not_mem_emptyc

/-- The first of the rules is new to the index, and the others still are once it is entered. -/
theorem Admits.cons (h : Admits index (rule :: rules)) : ∃ c, rule.symbol = some c ∧
    (rule.source, c) ∉ index ∧ Admits (index.insert (rule.source, c) rule) rules := by
  obtain ⟨c, hc⟩ := Option.ne_none_iff_exists'.1 (h.labelled rule List.mem_cons_self)
  obtain ⟨hrule, hrest⟩ := List.pairwise_cons.1 h.distinct
  refine ⟨c, hc, h.unplaced rule List.mem_cons_self c hc, ⟨fun other mem => ?_, hrest⟩, ?_⟩
  · exact h.labelled other (List.mem_cons_of_mem rule mem)
  · intro other mem d hd
    rw [Std.TreeMap.mem_insert, Ordered.compare_eq_iff, not_or]
    refine ⟨fun hkey => ?_, h.unplaced other (List.mem_cons_of_mem rule mem) d hd⟩
    obtain ⟨hsource, hsymbol⟩ := Prod.mk.inj hkey
    exact hrule other mem hsource (by rw [hc, hd, hsymbol])

theorem overwrite_eq_insert {c : Char} (hc : rule.symbol = some c) :
    overwrite index rule = index.insert (rule.source, c) rule := by
  unfold overwrite
  rw [hc]

/-- Entering new rules one by one never fails, and overwrites nothing. -/
theorem Admits.foldlM_enterNew (h : Admits index rules) :
    rules.foldlM enterNew index = .ok (rules.foldl overwrite index) := by
  induction rules generalizing index with
  | nil => rfl
  | cons rule rest ih =>
    obtain ⟨c, hc, hnew, hrest⟩ := h.cons
    have henter : enterNew index rule = .ok (index.insert (rule.source, c) rule) := by
      unfold enterNew
      rw [hc]
      exact if_neg hnew
    rw [List.foldlM_cons, henter, List.foldl_cons, overwrite_eq_insert hc]
    exact ih hrest

theorem Admits.size_foldl_overwrite (h : Admits index rules) :
    (rules.foldl overwrite index).size = index.size + rules.length := by
  induction rules generalizing index with
  | nil => rfl
  | cons rule rest ih =>
    obtain ⟨c, hc, hnew, hrest⟩ := h.cons
    have habsent : ¬index.contains (rule.source, c) = true := hnew
    rw [List.foldl_cons, overwrite_eq_insert hc, ih hrest, Std.TreeMap.size_insert,
      if_neg habsent, List.length_cons]
    omega

theorem Admits.getElem?_foldl_overwrite (h : Admits index rules) (state : S) (symbol : Char) :
    (rules.foldl overwrite index)[(state, symbol)]? =
      index[(state, symbol)]?.or (rules.find? (·.appliesTo state (some symbol))) := by
  induction rules generalizing index with
  | nil => simp
  | cons rule rest ih =>
    obtain ⟨c, hc, hnew, hrest⟩ := h.cons
    rw [List.foldl_cons, overwrite_eq_insert hc, ih hrest, Std.TreeMap.getElem?_insert,
      List.find?_cons]
    simp only [Ordered.compare_eq_iff]
    by_cases hkey : (rule.source, c) = (state, symbol)
    · have habsent : index[(state, symbol)]? = none := by
        rw [← hkey]
        exact Std.TreeMap.getElem?_eq_none hnew
      obtain ⟨hsource, hsymbol⟩ := Prod.mk.inj hkey
      have happlies : rule.appliesTo state (some symbol) = true :=
        Rule.appliesTo_eq_true.2 ⟨hsource, by rw [hc, hsymbol]⟩
      simp [hkey, habsent, happlies]
    · have happlies : rule.appliesTo state (some symbol) = false := by
        apply Bool.eq_false_iff.2
        intro hrule
        obtain ⟨hsource, hsymbol⟩ := Rule.appliesTo_eq_true.1 hrule
        rw [hc, Option.some.injEq] at hsymbol
        exact hkey (Prod.ext hsource hsymbol)
      simp [hkey, happlies]

theorem exists_of_enterNew {later : Std.TreeMap (S × Char) (Rule S)}
    (entered : enterNew index rule = .ok later) : ∃ c, rule.symbol = some c ∧
      (rule.source, c) ∉ index ∧ later = index.insert (rule.source, c) rule := by
  unfold enterNew at entered
  cases hc : rule.symbol with
  | none => simp [hc] at entered
  | some c =>
    by_cases taken : (rule.source, c) ∈ index
    · simp [hc, taken] at entered
    · simp only [hc, taken, if_false, Except.ok.injEq] at entered
      exact ⟨c, rfl, taken, entered.symm⟩

/-- A rule that is new to the index goes before rules that still are once it is entered. -/
theorem Admits.of_insert {c : Char} (hc : rule.symbol = some c) (hnew : (rule.source, c) ∉ index)
    (h : Admits (index.insert (rule.source, c) rule) rules) : Admits index (rule :: rules) := by
  have hother (other : Rule S) (mem : other ∈ rules) (d : Char) (hd : other.symbol = some d) :
      (rule.source, c) ≠ (other.source, d) ∧ (other.source, d) ∉ index := by
    have habsent := h.unplaced other mem d hd
    rwa [Std.TreeMap.mem_insert, Ordered.compare_eq_iff, not_or] at habsent
  refine ⟨⟨List.forall_mem_cons.2 ⟨?_, h.labelled⟩, List.pairwise_cons.2 ⟨?_, h.distinct⟩⟩, ?_⟩
  · rw [hc]
    exact Option.some_ne_none c
  · intro other mem hsource hsymbol
    exact (hother other mem c (hsymbol.symm.trans hc)).1 (by rw [hsource])
  · refine List.forall_mem_cons.2 ⟨fun d hd => ?_, fun other mem d hd => (hother other mem d hd).2⟩
    rwa [← Option.some.inj (hc.symm.trans hd)]

/-- Rules that can be entered one by one are deterministic and were new. -/
theorem admits_of_foldlM_enterNew {later : Std.TreeMap (S × Char) (Rule S)}
    (entered : rules.foldlM enterNew index = .ok later) : Admits index rules := by
  induction rules generalizing index with
  | nil => exact ⟨⟨fun _ mem => absurd mem List.not_mem_nil, .nil⟩,
      fun _ mem => absurd mem List.not_mem_nil⟩
  | cons rule rest ih =>
    rw [List.foldlM_cons] at entered
    cases hfirst : enterNew index rule with
    | error e =>
      rw [hfirst] at entered
      cases entered
    | ok next =>
      rw [hfirst] at entered
      obtain ⟨c, hc, hnew, rfl⟩ := exists_of_enterNew hfirst
      exact .of_insert hc hnew (ih entered)

end Admits

section Deterministic
variable {rules : List (Rule S)}

/-- Deterministic rules pass validation, and validation indexes them as if it had not looked. -/
theorem Deterministic.validate_eq (h : Deterministic rules) :
    validate rules = .ok (lastMatch rules) := by
  unfold validate
  rw [h.admits.foldlM_enterNew]
  rfl

/-- Only deterministic rules pass validation. -/
theorem deterministic_of_validate {table : RuleTable S} (valid : validate rules = .ok table) :
    Deterministic rules := by
  unfold validate at valid
  cases hentered : rules.foldlM enterNew ∅ with
  | error e =>
    rw [hentered] at valid
    cases valid
  | ok index => exact (admits_of_foldlM_enterNew hentered).toDeterministic

theorem validate_eq_ok_iff {table : RuleTable S} :
    validate rules = .ok table ↔ Deterministic rules ∧ lastMatch rules = table := by
  constructor
  · intro valid
    have h := deterministic_of_validate valid
    exact ⟨h, Except.ok.inj (h.validate_eq.symm.trans valid)⟩
  · rintro ⟨h, rfl⟩
    exact h.validate_eq

theorem Deterministic.size_index (h : Deterministic rules) :
    (lastMatch rules).index.size = rules.length := by
  have hsize := h.admits.size_foldl_overwrite
  rw [Std.TreeMap.size_emptyc, Nat.zero_add] at hsize
  exact hsize

/-- Of deterministic rules the first that applies is the last. -/
theorem Deterministic.ruleFor_lastMatch (h : Deterministic rules) (state : S) (symbol : Char) :
    (lastMatch rules).ruleFor state symbol = (firstMatch rules).ruleFor state symbol := by
  have hindex : (rules.foldl overwrite ∅)[(state, symbol)]? =
      (rules.foldl enter ∅)[(state, symbol)]? := by
    rw [h.admits.getElem?_foldl_overwrite, getElem?_foldl_enter]
  unfold ruleFor lastMatch firstMatch
  rw [hindex]

end Deterministic

end RuleTable
end Automata
