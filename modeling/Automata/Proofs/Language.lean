import Automata.Proofs.Layout
import Mathlib.Computability.Language

/-! The meaning of a pattern is a language, built from those of its operands. A layout spells the
same language on its paths from the start to the accepting states, since operands keep to state
ranges of their own: a path can leave an operand only over the free moves that the operator has laid
from its accepting states, and there it can be cut. -/
namespace Automata
namespace Pattern
open scoped Computability

/-- The words that a pattern stands for. -/
def language : Pattern → Language Char
  | empty => 1
  | literal c => {[c]}
  | concat l r => l.language * r.language
  | choice l r => l.language + r.language
  | star p => p.language∗

namespace Layout

/-- All states of the layout have numbers from `lo` on and below `hi`. -/
structure Within (part : Layout) (lo hi : Nat) : Prop where
  start : lo ≤ part.start ∧ part.start < hi
  accept : ∀ q ∈ part.accept, lo ≤ q ∧ q < hi
  source : ∀ rule ∈ part.rules, lo ≤ rule.source ∧ rule.source < hi
  target : ∀ rule ∈ part.rules, lo ≤ rule.target ∧ rule.target < hi

theorem Within.mono {part : Layout} {lo hi lo' hi' : Nat} (h : part.Within lo hi) (hlo : lo' ≤ lo)
    (hhi : hi ≤ hi') : part.Within lo' hi' where
  start := ⟨hlo.trans h.start.1, h.start.2.trans_le hhi⟩
  accept q hq := ⟨hlo.trans (h.accept q hq).1, (h.accept q hq).2.trans_le hhi⟩
  source rule hr := ⟨hlo.trans (h.source rule hr).1, (h.source rule hr).2.trans_le hhi⟩
  target rule hr := ⟨hlo.trans (h.target rule hr).1, (h.target rule hr).2.trans_le hhi⟩

theorem mem_bridges {sources : List Nat} {target : Nat} {rule : Rule Nat} :
    rule ∈ bridges sources target ↔ ∃ q ∈ sources, rule = ⟨q, none, target⟩ := by
  simp only [bridges, List.mem_map, eq_comm]

variable {l r p : Layout} {a b c : Nat}

theorem Within.concat (hl : l.Within a b) (hr : r.Within b c) : (l.concat r).Within a c := by
  have hb : a < b ∧ b < c := ⟨by have := hl.start; omega, by have := hr.start; omega⟩
  have hl' := hl.mono (Nat.le_refl a) hb.2.le
  have hr' := hr.mono hb.1.le (Nat.le_refl c)
  have hrule : ∀ rule ∈ (l.concat r).rules, (a ≤ rule.source ∧ rule.source < c) ∧
      a ≤ rule.target ∧ rule.target < c := by
    intro rule mem
    simp only [Layout.concat, List.mem_append, mem_bridges] at mem
    rcases mem with (mem | mem) | ⟨q, hq, rfl⟩
    · exact ⟨hl'.source rule mem, hl'.target rule mem⟩
    · exact ⟨hr'.source rule mem, hr'.target rule mem⟩
    · exact ⟨hl'.accept q hq, hr'.start⟩
  exact ⟨hl'.start, hr'.accept, fun rule mem => (hrule rule mem).1, fun rule mem =>
    (hrule rule mem).2⟩

theorem Within.choice (hl : l.Within a b) (hr : r.Within b c) :
    (l.choice r c).Within a (c + 1) := by
  have hb : a < b ∧ b < c := ⟨by have := hl.start; omega, by have := hr.start; omega⟩
  have hl' := hl.mono (Nat.le_refl a) (hb.2.le.trans (Nat.le_succ c))
  have hr' := hr.mono hb.1.le (Nat.le_succ c)
  have htop : a ≤ c ∧ c < c + 1 := by omega
  have hrule : ∀ rule ∈ (l.choice r c).rules, (a ≤ rule.source ∧ rule.source < c + 1) ∧
      a ≤ rule.target ∧ rule.target < c + 1 := by
    intro rule mem
    simp only [Layout.choice, List.mem_append, List.mem_cons, List.not_mem_nil, or_false] at mem
    rcases mem with (mem | mem) | rfl | rfl
    · exact ⟨hl'.source rule mem, hl'.target rule mem⟩
    · exact ⟨hr'.source rule mem, hr'.target rule mem⟩
    · exact ⟨htop, hl'.start⟩
    · exact ⟨htop, hr'.start⟩
  have haccept : ∀ q ∈ (l.choice r c).accept, a ≤ q ∧ q < c + 1 := by
    intro q hq
    rcases List.mem_append.1 hq with hq | hq
    · exact hl'.accept q hq
    · exact hr'.accept q hq
  exact ⟨htop, haccept, fun rule mem => (hrule rule mem).1, fun rule mem => (hrule rule mem).2⟩

theorem Within.star (hp : p.Within a b) : (p.star b).Within a (b + 1) := by
  have hp' := hp.mono (Nat.le_refl a) (Nat.le_succ b)
  have htop : a ≤ b ∧ b < b + 1 := ⟨by have := hp.start; omega, Nat.lt_succ_self b⟩
  have hrule : ∀ rule ∈ (p.star b).rules, (a ≤ rule.source ∧ rule.source < b + 1) ∧
      a ≤ rule.target ∧ rule.target < b + 1 := by
    intro rule mem
    simp only [Layout.star, List.mem_append, mem_bridges, List.mem_singleton] at mem
    rcases mem with (mem | ⟨q, hq, rfl⟩) | rfl
    · exact ⟨hp'.source rule mem, hp'.target rule mem⟩
    · exact ⟨hp'.accept q hq, hp'.start⟩
    · exact ⟨htop, hp'.start⟩
  have haccept : ∀ q ∈ (p.star b).accept, a ≤ q ∧ q < b + 1 := by
    intro q hq
    rcases List.mem_cons.1 hq with rfl | hq
    · exact htop
    · exact hp'.accept q hq
  exact ⟨htop, haccept, fun rule mem => (hrule rule mem).1, fun rule mem => (hrule rule mem).2⟩

/-- The words on the paths from the start of a layout to its accepting states. -/
def language (part : Layout) : Language Char :=
  {word | ∃ last ∈ part.accept, Path part.rules part.start word last}

theorem mem_language {part : Layout} {word : List Char} :
    word ∈ part.language ↔ ∃ last ∈ part.accept, Path part.rules part.start word last :=
  Iff.rfl

/-- A path from within a range stays there and takes an operand's rules only, if every rule that
leaves a state of the range is the operand's. -/
theorem path_within {part : Layout} {lo hi : Nat} (hpart : part.Within lo hi)
    {rules : List (Rule Nat)}
    (own : ∀ rule ∈ rules, lo ≤ rule.source → rule.source < hi → rule ∈ part.rules)
    {first last : Nat} {word : List Char} (path : Path rules first word last)
    (hfirst : lo ≤ first ∧ first < hi) :
    Path part.rules first word last ∧ lo ≤ last ∧ last < hi := by
  induction path with
  | refl => exact ⟨.refl _, hfirst⟩
  | step rule _ ih =>
    have hrule := own _ rule hfirst.1 hfirst.2
    have h := ih (hpart.target _ hrule)
    exact ⟨.step hrule h.1, h.2⟩

theorem path_concat_right (hl : l.Within a b) (hr : r.Within b c) {first last : Nat}
    {word : List Char} (path : Path (l.concat r).rules first word last)
    (hfirst : b ≤ first ∧ first < c) : Path r.rules first word last ∧ b ≤ last ∧ last < c := by
  apply path_within hr _ path hfirst
  intro rule mem hlo _
  simp only [Layout.concat, List.mem_append, mem_bridges] at mem
  rcases mem with (mem | mem) | ⟨q, hq, rfl⟩
  · have := hl.source rule mem
    omega
  · exact mem
  · have := hl.accept q hq
    dsimp only at hlo
    omega

/-- A path from the left operand into the right one crosses a single bridge. -/
theorem path_concat_left (hl : l.Within a b) (hr : r.Within b c) {first last : Nat}
    {word : List Char} (path : Path (l.concat r).rules first word last)
    (hfirst : a ≤ first ∧ first < b) (hlast : b ≤ last) :
    ∃ u v exit, word = u ++ v ∧ exit ∈ l.accept ∧ Path l.rules first u exit ∧
      Path r.rules r.start v last := by
  induction path with
  | refl => omega
  | @step source middle _ symbol rest rule tail ih =>
    have mem := rule
    simp only [Layout.concat, List.mem_append, mem_bridges] at mem
    rcases mem with (mem | mem) | ⟨exit, hexit, heq⟩
    · have h := ih (hl.target _ mem) hlast
      obtain ⟨u, v, exit, hword, hexit, left, right⟩ := h
      refine ⟨symbol.toList ++ u, v, exit, ?_, hexit, .step mem left, right⟩
      rw [hword, List.append_assoc]
    · have := hr.source _ mem
      dsimp only at this
      omega
    · -- the bridge itself: what follows it stays in the right operand
      injection heq with hsource hsymbol hmiddle
      subst hsource hsymbol hmiddle
      have h := path_concat_right hl hr tail hr.start
      exact ⟨[], rest, source, rfl, hexit, .refl _, h.1⟩

theorem language_concat (hl : l.Within a b) (hr : r.Within b c) :
    (l.concat r).language = l.language * r.language := by
  apply Language.ext
  intro word
  rw [mem_language, Language.mem_mul]
  constructor
  · rintro ⟨last, hlast, path⟩
    obtain ⟨u, v, exit, hword, hexit, left, right⟩ :=
      path_concat_left hl hr path hl.start (hr.accept last hlast).1
    exact ⟨u, ⟨exit, hexit, left⟩, v, ⟨last, hlast, right⟩, hword.symm⟩
  · rintro ⟨u, ⟨exit, hexit, left⟩, v, ⟨last, hlast, right⟩, rfl⟩
    have hbridge : (⟨exit, none, r.start⟩ : Rule Nat) ∈ (l.concat r).rules :=
      List.mem_append_right _ (mem_bridges.2 ⟨exit, hexit, rfl⟩)
    refine ⟨last, hlast, (left.mono ?_).trans (.free hbridge (right.mono ?_))⟩
    · exact fun rule mem => List.mem_append_left _ (List.mem_append_left _ mem)
    · exact fun rule mem => List.mem_append_left _ (List.mem_append_right _ mem)

theorem path_choice_left (hl : l.Within a b) (hr : r.Within b c) {first last : Nat}
    {word : List Char} (path : Path (l.choice r c).rules first word last)
    (hfirst : a ≤ first ∧ first < b) : Path l.rules first word last ∧ a ≤ last ∧ last < b := by
  apply path_within hl _ path hfirst
  intro rule mem _ hhi
  have hstart := hr.start
  simp only [Layout.choice, List.mem_append, List.mem_cons, List.not_mem_nil, or_false] at mem
  rcases mem with (mem | mem) | rfl | rfl
  · exact mem
  · have := hr.source rule mem
    omega
  all_goals
    dsimp only at hhi
    omega

theorem path_choice_right (hl : l.Within a b) (hr : r.Within b c) {first last : Nat}
    {word : List Char} (path : Path (l.choice r c).rules first word last)
    (hfirst : b ≤ first ∧ first < c) : Path r.rules first word last ∧ b ≤ last ∧ last < c := by
  apply path_within hr _ path hfirst
  intro rule mem hlo hhi
  simp only [Layout.choice, List.mem_append, List.mem_cons, List.not_mem_nil, or_false] at mem
  rcases mem with (mem | mem) | rfl | rfl
  · have := hl.source rule mem
    omega
  · exact mem
  all_goals
    dsimp only at hhi
    omega

/-- A path from the top of a choice takes one of the two free moves that leave it. -/
theorem path_choice_top (hl : l.Within a b) (hr : r.Within b c) {last : Nat} {word : List Char}
    (path : Path (l.choice r c).rules c word last) :
    last = c ∨ Path (l.choice r c).rules l.start word last ∨
      Path (l.choice r c).rules r.start word last := by
  cases path with
  | refl => exact .inl rfl
  | step rule tail =>
    simp only [Layout.choice, List.mem_append, List.mem_cons, List.not_mem_nil, or_false] at rule
    rcases rule with (rule | rule) | heq | heq
    · have := hl.source _ rule
      have := hr.start
      dsimp only at *
      omega
    · have := hr.source _ rule
      dsimp only at *
      omega
    · injection heq with _ hsymbol hmiddle
      subst hsymbol hmiddle
      exact .inr (.inl tail)
    · injection heq with _ hsymbol hmiddle
      subst hsymbol hmiddle
      exact .inr (.inr tail)

theorem language_choice (hl : l.Within a b) (hr : r.Within b c) :
    (l.choice r c).language = l.language + r.language := by
  apply Language.ext
  intro word
  rw [mem_language, Language.mem_add]
  constructor
  · rintro ⟨last, hlast, path⟩
    have hlast' := List.mem_append.1 hlast
    rcases path_choice_top hl hr path with rfl | path | path
    · -- the top is none of the operands' states, so it does not accept
      have := hr.start
      rcases hlast' with mem | mem
      · have := hl.accept _ mem
        omega
      · have := hr.accept _ mem
        omega
    · have h := path_choice_left hl hr path hl.start
      refine .inl ⟨last, hlast'.resolve_right fun mem => ?_, h.1⟩
      have := hr.accept _ mem
      omega
    · have h := path_choice_right hl hr path hr.start
      refine .inr ⟨last, hlast'.resolve_left fun mem => ?_, h.1⟩
      have := hl.accept _ mem
      omega
  · rintro (⟨last, hlast, path⟩ | ⟨last, hlast, path⟩)
    · refine ⟨last, List.mem_append_left _ hlast, .free (q := l.start) ?_ (path.mono ?_)⟩
      · simp [Layout.choice]
      · exact fun rule mem => List.mem_append_left _ (List.mem_append_left _ mem)
    · refine ⟨last, List.mem_append_right _ hlast, .free (q := r.start) ?_ (path.mono ?_)⟩
      · simp [Layout.choice]
      · exact fun rule mem => List.mem_append_left _ (List.mem_append_right _ mem)

/-- From a state of the operand on, a path of a star leaves an operand word unfinished and then
spells whole ones. -/
theorem path_star (hp : p.Within a b) {first last : Nat} {word : List Char}
    (path : Path (p.star b).rules first word last) (hfirst : a ≤ first ∧ first < b)
    (hlast : last ∈ (p.star b).accept) :
    ∃ u v exit, word = u ++ v ∧ exit ∈ p.accept ∧ Path p.rules first u exit ∧
      v ∈ p.language∗ := by
  induction path with
  | refl =>
    have haccept : _ ∈ p.accept := (List.mem_cons.1 hlast).resolve_left (by omega)
    exact ⟨[], [], _, rfl, haccept, .refl _, Language.nil_mem_kstar _⟩
  | @step source middle _ symbol rest rule tail ih =>
    have mem := rule
    simp only [Layout.star, List.mem_append, mem_bridges, List.mem_singleton] at mem
    rcases mem with (mem | ⟨exit, hexit, heq⟩) | heq
    · have h := ih (hp.target _ mem) hlast
      obtain ⟨u, v, exit, hword, hexit, left, right⟩ := h
      refine ⟨symbol.toList ++ u, v, exit, ?_, hexit, .step mem left, right⟩
      rw [hword, List.append_assoc]
    · -- a loop ends one operand word, and the rest begins with another
      injection heq with hsource hsymbol hmiddle
      subst hsource hsymbol hmiddle
      obtain ⟨u, v, exit, hword, hexit', left, right⟩ := ih hp.start hlast
      refine ⟨[], rest, source, rfl, hexit, .refl _, ?_⟩
      rw [hword, ← Language.one_add_self_mul_kstar_eq_kstar]
      exact .inr (Language.append_mem_mul ⟨exit, hexit', left⟩ right)
    · injection heq with hsource
      omega

/-- The accepting states of a star lead to each other over any number of operand words. -/
theorem path_star_of_mem {pieces : List (List Char)}
    (hpieces : ∀ piece ∈ pieces, piece ∈ p.language) {exit : Nat}
    (hexit : exit ∈ (p.star b).accept) :
    ∃ last ∈ (p.star b).accept, Path (p.star b).rules exit pieces.flatten last := by
  induction pieces generalizing exit with
  | nil => exact ⟨exit, hexit, .refl _⟩
  | cons piece rest ih =>
    obtain ⟨next, hnext, path⟩ := hpieces piece List.mem_cons_self
    have hrest := ih (fun q hq => hpieces q (List.mem_cons_of_mem _ hq))
      (List.mem_cons_of_mem _ hnext)
    obtain ⟨last, hlast, tail⟩ := hrest
    -- every accepting state of a star has a free move to the operand's start
    have hloop : (⟨exit, none, p.start⟩ : Rule Nat) ∈ (p.star b).rules := by
      simp only [Layout.star, List.mem_append, mem_bridges, List.mem_singleton]
      rcases List.mem_cons.1 hexit with rfl | hexit
      · exact .inr rfl
      · exact .inl (.inr ⟨exit, hexit, rfl⟩)
    have hown : p.rules ⊆ (p.star b).rules := fun rule mem =>
      List.mem_append_left _ (List.mem_append_left _ mem)
    exact ⟨last, hlast, .free hloop ((path.mono hown).trans tail)⟩

theorem language_star (hp : p.Within a b) : (p.star b).language = p.language∗ := by
  apply Language.ext
  intro word
  constructor
  · rintro ⟨last, hlast, path⟩
    cases path with
    | refl => exact Language.nil_mem_kstar _
    | step rule tail =>
      simp only [Layout.star, List.mem_append, mem_bridges, List.mem_singleton] at rule
      rcases rule with (rule | ⟨exit, hexit, heq⟩) | heq
      · have := hp.source _ rule
        dsimp only at this
        omega
      · injection heq with hsource
        have := hp.accept exit hexit
        omega
      · injection heq with _ hsymbol hmiddle
        subst hsymbol hmiddle
        obtain ⟨u, v, exit, hword, hexit, left, right⟩ := path_star hp tail hp.start hlast
        rw [← Language.one_add_self_mul_kstar_eq_kstar]
        have h := Language.append_mem_mul (l := p.language) ⟨exit, hexit, left⟩ right
        rw [← hword] at h
        exact .inr h
  · intro hword
    obtain ⟨pieces, rfl, hpieces⟩ := Language.mem_kstar.1 hword
    exact path_star_of_mem hpieces List.mem_cons_self

end Layout

theorem layout_within (p : Pattern) (n : Nat) : (p.layout n).Within n (n + p.stateCount) := by
  induction p generalizing n with
  | empty =>
    constructor <;> simp [layout, stateCount]
  | literal c =>
    constructor <;> simp [layout, stateCount]
  | concat l r hl hr =>
    have h := (hl n).concat (hr (n + l.stateCount))
    simpa only [layout, stateCount, Nat.add_assoc] using h
  | choice l r hl hr =>
    have h := (hl n).choice (hr (n + l.stateCount))
    simpa only [layout, stateCount, Nat.add_assoc] using h
  | star p hp =>
    have h := (hp n).star
    simpa only [layout, stateCount, Nat.add_assoc] using h

/-- A layout spells the words of its pattern, wherever its numbers begin. -/
theorem language_layout (p : Pattern) (n : Nat) : (p.layout n).language = p.language := by
  induction p generalizing n with
  | empty =>
    apply Language.ext
    intro word
    rw [Layout.mem_language, language, Language.mem_one]
    constructor
    · rintro ⟨last, -, path⟩
      cases path with
      | refl => rfl
      | step rule => exact absurd rule List.not_mem_nil
    · rintro rfl
      exact ⟨n, List.mem_singleton_self n, .refl n⟩
  | literal c =>
    apply Language.ext
    intro word
    rw [Layout.mem_language, language]
    constructor
    · rintro ⟨last, hlast, path⟩
      have hlast' : last = n + 1 := List.mem_singleton.1 hlast
      cases path with
      | refl =>
        dsimp only [layout] at hlast'
        omega
      | step rule tail =>
        injection List.mem_singleton.1 rule with _ hsymbol hmiddle
        subst hsymbol hmiddle
        cases tail with
        | refl => rfl
        | step rule =>
          injection List.mem_singleton.1 rule with hsource
          omega
    · intro hword
      obtain rfl : word = [c] := hword
      exact ⟨n + 1, List.mem_singleton_self _, .read (List.mem_singleton_self _) (.refl _)⟩
  | concat l r hl hr =>
    rw [layout, Layout.language_concat (l.layout_within n) (r.layout_within _), hl, hr, language]
  | choice l r hl hr =>
    rw [layout, Layout.language_choice (l.layout_within n) (r.layout_within _), hl, hr, language]
  | star p hp =>
    rw [layout, Layout.language_star (p.layout_within n), hp, language]

namespace Layout

/-- The automaton of a layout accepts what its numbers spell, as long as no number wraps. -/
theorem acceptsWord_nfa {part : Layout} {lo hi : Nat} (hpart : part.Within lo hi)
    (fits : hi ≤ Fresh.limit.toNat) (word : List Char) :
    part.nfa.acceptsWord word = true ↔ word ∈ part.language := by
  have hnumber (n : Nat) (hn : n < hi) : (State.numbered n).id.toNat = n :=
    State.toNat_id_numbered n (hn.le.trans fits)
  have hrules : part.stateRules.map (Rule.map fun q => q.id.toNat) = part.rules := by
    unfold stateRules
    rw [List.map_map, List.map_congr_left (g := id), List.map_id]
    intro rule mem
    dsimp only [Function.comp_apply, Rule.map]
    rw [hnumber _ (hpart.source rule mem).2, hnumber _ (hpart.target rule mem).2]
    rfl
  rw [Nfa.acceptsWord_iff]
  unfold nfa
  simp only [SortedSet.mem_ofList, Rulebook.rules_ofList]
  constructor
  · rintro ⟨last, hlast, path⟩
    obtain ⟨number, mem, rfl⟩ := List.mem_map.1 hlast
    have h := path.map fun q => q.id.toNat
    dsimp only [fragment] at h
    rw [hrules, hnumber _ hpart.start.2, hnumber _ (hpart.accept number mem).2] at h
    exact ⟨number, mem, h⟩
  · rintro ⟨last, hlast, path⟩
    exact ⟨State.numbered last, List.mem_map_of_mem hlast, path.map State.numbered⟩

end Layout

/-- A pattern whose states can be numbered compiles to an automaton that accepts its words. -/
theorem acceptsWord_layout (p : Pattern) (fits : p.stateCount ≤ Fresh.limit.toNat)
    (word : List Char) : (p.layout 0).nfa.acceptsWord word = true ↔ word ∈ p.language := by
  have hwithin := p.layout_within 0
  rw [Nat.zero_add] at hwithin
  rw [Layout.acceptsWord_nfa hwithin fits word, p.language_layout 0]

/-- A pattern whose states can be numbered answers every word, and says whether it is one of its
own. -/
theorem matchesWord_eq_ok (p : Pattern) (fits : p.stateCount ≤ Fresh.limit.toNat)
    (word : List Char) :
    ∃ accepted, p.matchesWord word = .ok accepted ∧ (accepted = true ↔ word ∈ p.language) := by
  refine ⟨(p.layout 0).nfa.acceptsWord word, ?_, p.acceptsWord_layout fits word⟩
  rw [matchesWord, p.compile_eq fits]
  rfl

/-- Matching decides the language of a pattern, for every pattern whose states can be numbered and
every string. -/
theorem matchesString_eq_ok_iff_mem_language (p : Pattern)
    (fits : p.stateCount ≤ Fresh.limit.toNat) (s : String) :
    ∃ accepted, p.matchesString s = .ok accepted ∧ (accepted = true ↔ s.toList ∈ p.language) :=
  p.matchesWord_eq_ok fits s.toList

/-- A star of a choice with an empty alternative, on a string that needs both alternatives. -/
theorem matchesString_optional_repeated :
    (star (concat (literal 'a') (choice empty (literal 'b')))).stateCount ≤ Fresh.limit.toNat ∧
      ∃ accepted,
        (star (concat (literal 'a') (choice empty (literal 'b')))).matchesString "abaab" =
            .ok accepted ∧
          (accepted = true ↔ "abaab".toList ∈
            (star (concat (literal 'a') (choice empty (literal 'b')))).language) :=
  ⟨by decide, matchesString_eq_ok_iff_mem_language _ (by decide) _⟩

end Pattern
end Automata
