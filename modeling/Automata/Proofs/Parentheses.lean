import Automata.Proofs.Scan

/-! What becomes of the parentheses of a text that was parsed when its pattern is written again.
Some of them go and nothing else does; those that stay have their partners and stand no deeper than
before. So the written text can fail to parse in one way only, by a star that has lost its operand:
an empty pair of parentheses is an operand, and it is not written. -/
namespace Automata
namespace Pattern

theorem openAtMost_iff_nesting {limit : Nat} {text : List Char} :
    OpenAtMost limit text ↔ ∀ i, nesting text i ≤ limit := by
  unfold OpenAtMost nesting
  constructor
  · intro hopen i
    have := hopen (text.take i) (List.take_prefix i text)
    omega
  · intro hnesting before hbefore
    have := hnesting before.length
    rw [← List.prefix_iff_eq_take.1 hbefore] at this
    omega

/-- Wherever a text opens parentheses, the text that it is lighter than opens as many somewhere. -/
theorem Lighter.exists_nesting_le {u t : List Char} (h : Lighter u t) (i : Nat) :
    ∃ j, nesting u i ≤ nesting t j := by
  by_contra hdeeper
  simp only [not_exists, Int.not_le] at hdeeper
  have hzero : nesting t 0 = 0 := rfl
  have hpos := hdeeper 0
  -- all of the heavier text lies below the depth reached here, and so would the lighter text
  have hlimit : OpenAtMost (nesting u i - 1).toNat t := by
    refine openAtMost_iff_nesting.2 fun j => ?_
    have := hdeeper j
    omega
  have := openAtMost_iff_nesting.1 (h.opens _ hlimit) i
  omega

/-- A well-nested text within the limit fails for a star alone. -/
theorem WellNested.eq_missingOperand {text : List Char} {e : ParseError} (h : WellNested text)
    (hopen : OpenAtMost maxDepth text) (hparse : parseChars text = .error e) :
    ∃ i, e = .missingOperand i := by
  rcases scan text with ⟨i, e', hfirst, hparse'⟩ | ⟨hfine, -⟩
  · obtain rfl : e' = e := Except.error.inj (hparse'.symm.trans hparse)
    obtain ⟨c, hc⟩ : ∃ c, text[i]? = some c :=
      ⟨_, List.getElem?_eq_getElem hfirst.fault.lt_length⟩
    obtain ⟨u, v, rfl, rfl⟩ := exists_split hc
    rcases fault_iff.1 hfirst.fault with ⟨-, -, he⟩ | ⟨rfl, hfull, -⟩ | ⟨rfl, hnone, -⟩
    · exact ⟨_, he⟩
    · have hprefix : u ++ ['('] <+: u ++ '(' :: v :=
        (List.prefix_append_right_inj u).2 (List.prefix_append ['('] v)
      have hdeep := hopen _ hprefix
      have hone : ['('].count '(' = ['('].count ')' + 1 := rfl
      rw [List.count_append, List.count_append] at hdeep
      omega
    · exact absurd hnone (Nat.ne_of_gt h.open_of_close)
  · have hbalanced := h.balanced
    unfold Balanced at hbalanced
    obtain ⟨p, hok⟩ := parseChars_of_closed hfine (by rw [nesting_length]; omega)
    rw [hok] at hparse
    cases hparse

/-- The text of a parsed pattern is the text that it was parsed from without some of its
parentheses. Those that are left are well nested and nowhere more of them are open, so parsing the
text again cannot fail for a parenthesis. -/
theorem text_stripped_of_parse {s : String} {p : Pattern} (h : parse s = .ok p) :
    Stripped p.text.toList s.toList ∧
    p.text.toList.filter (!isParenthesis ·) = s.toList.filter (!isParenthesis ·) ∧
    p.text.length ≤ s.length ∧
    WellNested p.text.toList ∧
    (∀ i, ∃ j, nesting p.text.toList i ≤ nesting s.toList j) ∧
    ∀ e, parse p.text = .error e → ∃ i, e = .missingOperand i := by
  obtain ⟨hderives, hopen⟩ := parseChars_eq_ok.1 h
  have hlighter := hderives.lighter_chars
  have hnested := hderives.plain.composed.wellNested
  have htext : p.text.toList = p.chars := String.toList_ofList
  unfold parse
  rw [← String.length_toList, ← String.length_toList, htext]
  refine ⟨hlighter.stripped, hlighter.stripped.filter_eq, hlighter.length, hnested, ?_, ?_⟩
  · exact hlighter.exists_nesting_le
  · exact fun e => hnested.eq_missingOperand (hlighter.opens maxDepth hopen)

/-- Of four pairs of parentheses two are written again. -/
theorem text_stripped_of_nested_groups :
    parse "((a)(b|()))*" =
        .ok (star (concat (literal 'a') (choice (literal 'b') empty))) ∧
      (star (concat (literal 'a') (choice (literal 'b') empty))).text = "(a(b|))*" ∧
      Stripped "(a(b|))*".toList "((a)(b|()))*".toList := by
  have hparse : parse "((a)(b|()))*" =
      .ok (star (concat (literal 'a') (choice (literal 'b') empty))) := rfl
  exact ⟨hparse, rfl, (text_stripped_of_parse hparse).1⟩

end Pattern
end Automata
