/-! A character property is a list of closed ranges of code points, ascending and apart. The first
range that ends at or after a character is then the only one that can hold it, so the lookup stops
there. -/
namespace Automata.Text

/-- Whether the character lies in one of the ranges, which must ascend. -/
def inRanges (ranges : List (Nat × Nat)) (c : Char) : Bool :=
  match ranges.find? fun range => c.toNat ≤ range.2 with
  | some range => range.1 ≤ c.toNat
  | none => false

/-- The first range starts at the bound or later, and each of the others after the one before it. -/
def ascendingFrom (bound : Nat) : List (Nat × Nat) → Bool
  | [] => true
  | range :: rest => bound ≤ range.1 && range.1 ≤ range.2 && ascendingFrom (range.2 + 1) rest

theorem le_of_ascendingFrom {bound : Nat} {ranges : List (Nat × Nat)}
    (ascending : ascendingFrom bound ranges = true) : ∀ range ∈ ranges, bound ≤ range.1 := by
  induction ranges generalizing bound with
  | nil => exact fun range mem => absurd mem List.not_mem_nil
  | cons first rest ih =>
    simp only [ascendingFrom, Bool.and_eq_true, decide_eq_true_eq] at ascending
    intro range mem
    rcases List.mem_cons.1 mem with rfl | mem
    · exact ascending.1.1
    · have := ih ascending.2 range mem
      omega

theorem inRanges_eq_true {bound : Nat} {ranges : List (Nat × Nat)}
    (ascending : ascendingFrom bound ranges = true) {c : Char} :
    inRanges ranges c = true ↔ ∃ range ∈ ranges, range.1 ≤ c.toNat ∧ c.toNat ≤ range.2 := by
  induction ranges generalizing bound with
  | nil => simp [inRanges]
  | cons range rest ih =>
    simp only [ascendingFrom, Bool.and_eq_true, decide_eq_true_eq] at ascending
    by_cases h : c.toNat ≤ range.2
    · simp only [inRanges, List.find?_cons, h, decide_true, decide_eq_true_eq, List.mem_cons,
        exists_eq_or_imp, and_true]
      refine ⟨.inl, fun holds => holds.resolve_right ?_⟩
      rintro ⟨later, mem, low, -⟩
      have := le_of_ascendingFrom ascending.2 later mem
      omega
    · simp only [inRanges, List.find?_cons, h, decide_false, List.mem_cons, exists_eq_or_imp,
        and_false, false_or]
      exact ih ascending.2

end Automata.Text
