import Automata.Proofs.RegroupedWords

/-! When the text of a parsed pattern is read as a pattern with the same text and the same meaning.
Three things can go wrong, and all come from the empty pattern, which is written as nothing. A star
over nothing may find no operand, and the text is not read at all. It may find an operand that it
was not meant for, and then the words become more. And parentheses that group nothing are read but
not written again. A pattern without the empty one is safe from all three. -/
namespace Automata
namespace Pattern
open scoped Computability

/-- The text is read as a pattern with the same text and the same words. -/
def RoundTrips (p : Pattern) : Prop :=
  ∃ q, parse p.text = .ok q ∧ q.text = p.text ∧ q.language = p.language

/-- Patterns whose states can be numbered have the same words just when they match the same
strings. -/
theorem language_eq_iff {p q : Pattern} (hp : p.stateCount ≤ Fresh.limit.toNat)
    (hq : q.stateCount ≤ Fresh.limit.toNat) :
    q.language = p.language ↔ ∀ w : String, q.matchesString w = p.matchesString w := by
  constructor
  · intro hlanguage w
    obtain ⟨a, ha, hmem⟩ := p.matchesWord_eq_ok hp w.toList
    obtain ⟨b, hb, hmem'⟩ := q.matchesWord_eq_ok hq w.toList
    have hsame : b = a := by
      apply Bool.eq_iff_iff.2
      rw [hmem, hmem', hlanguage]
    unfold matchesString
    rw [ha, hb, hsame]
  · intro hmatches
    apply Language.ext
    intro word
    obtain ⟨a, ha, hmem⟩ := p.matchesWord_eq_ok hp word
    obtain ⟨b, hb, hmem'⟩ := q.matchesWord_eq_ok hq word
    have hword := hmatches (String.ofList word)
    unfold matchesString at hword
    rw [String.toList_ofList, ha, hb] at hword
    rw [← hmem, ← hmem', Except.ok.inj hword]

section Parsed
variable {s : String} {p q : Pattern}

theorem parse_text_eq_ok (h : parse s = .ok p) :
    parse p.text = .ok q ↔ p.rereads = true ∧
      ∃ alternatives, Regroups .alternative p [] alternatives ∧
        q = foldLatest choice alternatives := by
  have hderives := parseChars_eq_ok.1 h
  have hopen := hderives.1.lighter_chars.opens maxDepth hderives.2
  unfold parse text
  rw [String.toList_ofList]
  exact parseChars_chars_eq_ok hderives.1.plain hopen

theorem rereads_iff (h : parse s = .ok p) : (∃ q, parse p.text = .ok q) ↔ p.rereads = true := by
  constructor
  · intro hexists
    obtain ⟨q, hq⟩ := hexists
    exact ((parse_text_eq_ok h).1 hq).1
  · intro hrereads
    obtain ⟨alternatives, hregroups⟩ := exists_regroups hrereads
    exact ⟨_, (parse_text_eq_ok h).2 ⟨hrereads, alternatives, hregroups, rfl⟩⟩

theorem trims_text (h : parse s = .ok p) (hq : parse p.text = .ok q) :
    Trims p.lost q.chars p.chars := by
  obtain ⟨-, alternatives, hregroups, rfl⟩ := (parse_text_eq_ok h).1 hq
  exact (hregroups.trims nofun).of_alternatives hregroups.ne_nil

theorem covers_text (h : parse s = .ok p) (hq : parse p.text = .ok q) :
    Covers (p.starsEmpty = false) p.language q.language := by
  obtain ⟨-, alternatives, hregroups, rfl⟩ := (parse_text_eq_ok h).1 hq
  exact hregroups.covers.of_alternatives hregroups.ne_nil

/-- A text that fits in memory leaves numbers for the states of both patterns. -/
theorem stateCount_le_limit (h : parse s = .ok p) (hq : parse p.text = .ok q)
    (short : s.length < 2 ^ 63) :
    p.stateCount ≤ Fresh.limit.toNat ∧ q.stateCount ≤ Fresh.limit.toNat := by
  have hlimit : Fresh.limit.toNat = 18446744073709551615 := rfl
  have hderives := (parseChars_eq_ok.1 h).1
  have hcount := hderives.stateCount_le.1
  have hcount' := (parseChars_eq_ok.1 hq).1.stateCount_le.1
  have hlength := hderives.lighter_chars.length
  unfold text at hcount'
  rw [String.toList_ofList] at hcount'
  rw [← String.length_toList] at short
  omega

end Parsed

/-- Every item of the pattern is written as something. -/
def emptyFree : Pattern → Bool
  | empty => false
  | literal _ => true
  | concat l r => l.emptyFree && r.emptyFree
  | choice l r => l.emptyFree && r.emptyFree
  | star p => p.emptyFree

section EmptyFree
variable {p : Pattern}

theorem length_addKinds_of_emptyFree (h : p.emptyFree = true) (kinds : List Bool) :
    kinds.length < (p.addKinds kinds).length := by
  induction p generalizing kinds with
  | empty => cases h
  | literal c => exact Nat.lt_succ_self _
  | concat l r ihl ihr =>
    have hsplit := Bool.and_eq_true_iff.1 h
    exact (ihl hsplit.1 kinds).trans (ihr hsplit.2 _)
  | choice l r => exact Nat.lt_succ_self _
  | star p ih =>
    have hp := ih h kinds
    rw [addKinds, List.length_cons]
    split
    · exact Nat.lt_succ_self _
    · rw [List.length_tail]
      omega

theorem two_le_length_kinds_concat {l r : Pattern} (h : (concat l r).emptyFree = true) :
    2 ≤ (concat l r).kinds.length := by
  have hsplit := Bool.and_eq_true_iff.1 h
  have hl := length_addKinds_of_emptyFree hsplit.1 []
  have hr := length_addKinds_of_emptyFree hsplit.2 (l.addKinds [])
  have hkinds : (concat l r).kinds = r.addKinds (l.addKinds []) := rfl
  rw [hkinds]
  omega

theorem lostAlone_of_emptyFree (h : p.emptyFree = true) : p.lostAlone = 0 := by
  apply if_neg
  intro halone
  cases p with
  | empty => cases h
  | literal c => exact absurd (List.cons.inj halone.2).1 (by decide)
  | concat l r =>
    have htwo := two_le_length_kinds_concat h
    have hone := congrArg List.length halone.2
    rw [List.length_singleton] at hone
    omega
  | choice l r => exact absurd halone.1 (Nat.not_succ_le_zero 0)
  | star p => exact absurd (List.cons.inj halone.2).1 (by decide)

theorem lostInside_of_emptyFree (h : p.emptyFree = true) : p.lostInside = 0 := by
  induction p with
  | empty => rfl
  | literal c => rfl
  | concat l r ihl ihr =>
    have hsplit := Bool.and_eq_true_iff.1 h
    rw [lostInside, ihl hsplit.1, ihr hsplit.2]
  | choice l r ihl ihr =>
    have hsplit := Bool.and_eq_true_iff.1 h
    rw [lostInside, ihl hsplit.1, ihr hsplit.2, lostAlone_of_emptyFree hsplit.1,
      lostAlone_of_emptyFree hsplit.2]
  | star p ih =>
    rw [lostInside, ih h, Nat.zero_add]
    apply if_neg
    intro hfew
    cases p with
    | concat l r =>
      have htwo := two_le_length_kinds_concat h
      omega
    | empty => cases h
    | literal c => exact absurd hfew.1 (precedence_literal_ne c)
    | choice l r => exact absurd hfew.1 Nat.zero_ne_one
    | star p => exact absurd hfew.1 (precedence_star_ne p)

theorem starsEmpty_of_emptyFree (h : p.emptyFree = true) : p.starsEmpty = false := by
  induction p with
  | empty => rfl
  | literal c => rfl
  | concat l r ihl ihr =>
    have hsplit := Bool.and_eq_true_iff.1 h
    rw [starsEmpty, ihl hsplit.1, ihr hsplit.2, Bool.or_false]
  | choice l r ihl ihr =>
    have hsplit := Bool.and_eq_true_iff.1 h
    rw [starsEmpty, ihl hsplit.1, ihr hsplit.2, Bool.or_false]
  | star p ih =>
    rw [starsEmpty, ih h, Bool.or_false]
    apply decide_eq_false
    intro hempty
    rw [hempty] at h
    cases h

/-- The text begins with a character that needs no operand before it. -/
def Begins (text : List Char) : Prop := ∃ c rest, text = c :: rest ∧ c ≠ '*'

theorem Begins.append {u : List Char} (h : Begins u) (v : List Char) : Begins (u ++ v) := by
  obtain ⟨c, rest, rfl, hc⟩ := h
  exact ⟨c, rest ++ v, rfl, hc⟩

theorem Begins.bracket {text : List Char} (h : Begins text) (inner outer : Nat) :
    Begins (bracket inner outer text) := by
  unfold Pattern.bracket
  split
  · exact ⟨'(', text ++ [')'], rfl, by decide⟩
  · exact h

theorem Begins.dangles {text : List Char} (h : Begins text) : dangles text = false := by
  obtain ⟨c, rest, rfl, hc⟩ := h
  apply decide_eq_false
  exact fun hhead => hc (Option.some.inj hhead)

theorem operandsReread_of_emptyFree (h : p.emptyFree = true) (plain : p.Plain) :
    Begins p.chars ∧ p.operandsReread = true := by
  induction p with
  | empty => cases h
  | literal c => exact ⟨⟨c, [], rfl, (not_mem_special.1 plain).2.1⟩, rfl⟩
  | concat l r ihl ihr =>
    have hsplit := Bool.and_eq_true_iff.1 h
    have hl := ihl hsplit.1 plain.1
    have hr := ihr hsplit.2 plain.2
    refine ⟨(hl.1.bracket _ _).append _, ?_⟩
    rw [operandsReread, hl.2, hr.2, Bool.and_true]
  | choice l r ihl ihr =>
    have hsplit := Bool.and_eq_true_iff.1 h
    have hl := ihl hsplit.1 plain.1
    have hr := ihr hsplit.2 plain.2
    refine ⟨(hl.1.bracket _ _).append _, ?_⟩
    rw [operandsReread, hl.2, hr.2, hl.1.dangles, hr.1.dangles]
    rfl
  | star p ih =>
    have hp := ih h plain
    refine ⟨(hp.1.bracket _ _).append _, ?_⟩
    rw [operandsReread, hp.2, hp.1.dangles, Bool.not_false, Bool.or_true, Bool.and_true]

theorem rereads_of_emptyFree (h : p.emptyFree = true) (plain : p.Plain) : p.rereads = true := by
  have hboth := operandsReread_of_emptyFree h plain
  rw [rereads, hboth.2, hboth.1.dangles]
  rfl

end EmptyFree

/-- When the text of a parsed pattern is read again, and what becomes of its text and of its words.
It keeps its text just when no parentheses are lost, and it keeps its words if no star was over
nothing; otherwise it may only gain words. Without the empty pattern nothing goes wrong. -/
theorem roundTrips_iff_of_parse {s : String} {p : Pattern} (h : parse s = .ok p) :
    ((∃ q, parse p.text = .ok q) ↔ p.rereads = true) ∧
    (∀ q, parse p.text = .ok q →
      q.text.length + p.lost = p.text.length ∧ (q.text = p.text ↔ p.lost = 0) ∧
      p.language ≤ q.language ∧ (p.starsEmpty = false → q.language = p.language)) ∧
    (p.RoundTrips ↔ p.rereads = true ∧ p.lost = 0 ∧
      ∀ q, parse p.text = .ok q → q.language ≤ p.language) ∧
    (p.starsEmpty = false → (p.RoundTrips ↔ p.rereads = true ∧ p.lost = 0)) ∧
    (p.emptyFree = true → p.RoundTrips) ∧
    (s.length < 2 ^ 63 → (p.RoundTrips ↔ ∃ q, parse p.text = .ok q ∧ q.text = p.text ∧
      ∀ w : String, q.matchesString w = p.matchesString w)) := by
  have htext {q : Pattern} (hq : parse p.text = .ok q) : q.text = p.text ↔ p.lost = 0 := by
    rw [← (trims_text h hq).eq_iff]
    exact String.ofList_inj
  have hexact : p.RoundTrips ↔ p.rereads = true ∧ p.lost = 0 ∧
      ∀ q, parse p.text = .ok q → q.language ≤ p.language := by
    constructor
    · intro hround
      obtain ⟨q, hq, hsame, hwords⟩ := hround
      refine ⟨(rereads_iff h).1 ⟨q, hq⟩, (htext hq).1 hsame, fun other hother => ?_⟩
      rw [hq] at hother
      rw [← Except.ok.inj hother, hwords]
    · intro hcondition
      obtain ⟨q, hq⟩ := (rereads_iff h).2 hcondition.1
      have hwords := le_antisymm (hcondition.2.2 q hq) (covers_text h hq).le
      exact ⟨q, hq, (htext hq).2 hcondition.2.1, hwords⟩
  have hstars (hnone : p.starsEmpty = false) :
      p.RoundTrips ↔ p.rereads = true ∧ p.lost = 0 := by
    rw [hexact]
    refine ⟨fun hall => ⟨hall.1, hall.2.1⟩, fun hall => ⟨hall.1, hall.2, fun q hq => ?_⟩⟩
    exact ((covers_text h hq).eq hnone).ge
  refine ⟨rereads_iff h, fun q hq => ?_, hexact, hstars, fun hfree => ?_, fun short => ?_⟩
  · have hlength := (trims_text h hq).length
    have hcovers := covers_text h hq
    unfold text
    rw [String.length_ofList, String.length_ofList]
    exact ⟨hlength, htext hq, hcovers.le, fun hnone => (hcovers.eq hnone).symm⟩
  · have hplain := (parseChars_eq_ok.1 h).1.plain
    have hlost : p.lost = 0 := by
      rw [lost, lostInside_of_emptyFree hfree, lostAlone_of_emptyFree hfree]
    exact (hstars (starsEmpty_of_emptyFree hfree)).2 ⟨rereads_of_emptyFree hfree hplain, hlost⟩
  · unfold RoundTrips
    apply exists_congr
    intro q
    apply and_congr_right
    intro hq
    have hfits := stateCount_le_limit h hq short
    rw [language_eq_iff hfits.1 hfits.2]

/-- An optional letter under a star is read back as it is. -/
theorem roundTrips_optional_letter :
    parse "(a(|b))*" = .ok (star (concat (literal 'a') (choice empty (literal 'b')))) ∧
      (star (concat (literal 'a') (choice empty (literal 'b')))).RoundTrips := by
  have hparse : parse "(a(|b))*" =
      .ok (star (concat (literal 'a') (choice empty (literal 'b')))) := rfl
  have hall := roundTrips_iff_of_parse hparse
  have hcondition := (hall.2.2.2.1 (by decide)).2 ⟨by decide, by decide⟩
  exact ⟨hparse, hcondition⟩

/-- The three ways to fail: a star that finds another operand, a star that finds none, and
parentheses that are not written again. -/
theorem not_roundTrips_empty_operands :
    (parse "a()*" = .ok (concat (literal 'a') (star empty)) ∧
      ¬(concat (literal 'a') (star empty)).RoundTrips) ∧
    (parse "()*" = .ok (star empty) ∧ ¬(star empty).RoundTrips) ∧
    (parse "(()a)*" = .ok (star (concat empty (literal 'a'))) ∧
      ¬(star (concat empty (literal 'a'))).RoundTrips) := by
  refine ⟨⟨rfl, fun hround => ?_⟩, ⟨rfl, fun hround => ?_⟩, ⟨rfl, fun hround => ?_⟩⟩
  · obtain ⟨q, hq, -, hwords⟩ := hround
    have hread : parse (concat (literal 'a') (star empty)).text = .ok (star (literal 'a')) := rfl
    rw [hread] at hq
    have hpiece : ['a'] ∈ (literal 'a').language := rfl
    have hmem : ['a', 'a'] ∈ q.language := by
      rw [← Except.ok.inj hq]
      exact Language.mem_kstar.2 ⟨[['a'], ['a']], rfl, by simp [hpiece]⟩
    have hstar : (star empty).language = 1 := kstar_one
    have hconcat : (concat (literal 'a') (star empty)).language =
        (literal 'a').language * (star empty).language := rfl
    have hone : (concat (literal 'a') (star empty)).language = (literal 'a').language := by
      rw [hconcat, hstar, mul_one]
    rw [hwords, hone] at hmem
    have hshort : ['a', 'a'] = ['a'] := hmem
    exact absurd hshort (by decide)
  · obtain ⟨q, hq, -, -⟩ := hround
    have hread : parse (star empty).text = .error (.missingOperand 0) := rfl
    rw [hread] at hq
    cases hq
  · obtain ⟨q, hq, htext, -⟩ := hround
    have hread : parse (star (concat empty (literal 'a'))).text = .ok (star (literal 'a')) := rfl
    rw [hread] at hq
    rw [← Except.ok.inj hq] at htext
    exact absurd htext (by decide)

end Pattern
end Automata
