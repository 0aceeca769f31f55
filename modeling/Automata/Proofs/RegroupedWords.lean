import Automata.Proofs.Language
import Automata.Proofs.RegroupedText
import Mathlib.Order.CompletePartialOrder

/-! The words of what a text regroups to. A star over nothing is written as a star that takes the
item before it, and repeating an item only adds words; every other text is read with the words that
it was written for. -/
namespace Automata
namespace Pattern
open scoped Computability

/-- Somewhere in the pattern a star repeats the empty pattern itself. -/
def starsEmpty : Pattern → Bool
  | empty => false
  | literal _ => false
  | concat l r => l.starsEmpty || r.starsEmpty
  | choice l r => l.starsEmpty || r.starsEmpty
  | star p => p = empty || p.starsEmpty

/-- The second language has all words of the first, and no others where it is exact. -/
structure Covers (exact : Prop) (a b : Language Char) : Prop where
  le : a ≤ b
  eq : exact → a = b

namespace Covers
variable {exact weaker : Prop} {a b c d : Language Char}

theorem of_eq (h : a = b) : Covers exact a b := ⟨h.le, fun _ => h⟩

theorem imp (h : Covers exact a b) (hexact : weaker → exact) : Covers weaker a b :=
  ⟨h.le, fun hweaker => h.eq (hexact hweaker)⟩

theorem trans (h : Covers exact a b) (h' : Covers exact b c) : Covers exact a c :=
  ⟨h.le.trans h'.le, fun hexact => (h.eq hexact).trans (h'.eq hexact)⟩

theorem mul (h : Covers exact a b) (h' : Covers exact c d) : Covers exact (a * c) (b * d) where
  le := mul_le_mul' h.le h'.le
  eq hexact := by rw [h.eq hexact, h'.eq hexact]

theorem add (h : Covers exact a b) (h' : Covers exact c d) : Covers exact (a + c) (b + d) where
  le := add_le_add h.le h'.le
  eq hexact := by rw [h.eq hexact, h'.eq hexact]

theorem kstar (h : Covers exact a b) : Covers exact a∗ b∗ where
  le := kstar_mono h.le
  eq hexact := by rw [h.eq hexact]

end Covers

namespace Place

/-- The words that a list of entries, latest first, stands for. -/
def words : Place → List Pattern → Language Char
  | item, items => (concatItems items).language
  | alternative, alternatives => (alternatives.map language).sum

def join : Place → Language Char → Language Char → Language Char
  | item, a, b => a * b
  | alternative, a, b => a + b

end Place

theorem language_foldl_concat (last : Pattern) (earlier : List Pattern) :
    (earlier.foldl (fun rest item => concat item rest) last).language =
      (concatItems earlier).language * last.language := by
  induction earlier generalizing last with
  | nil => exact (one_mul _).symm
  | cons item earlier ih =>
    have hitems : (concatItems (item :: earlier)).language =
        (concatItems earlier).language * item.language := ih item
    rw [List.foldl_cons, ih, hitems, language, mul_assoc]

theorem words_item_cons (item : Pattern) (earlier : List Pattern) :
    Place.item.words (item :: earlier) = Place.item.words earlier * item.language :=
  language_foldl_concat item earlier

theorem language_foldLatest_choice {alternatives : List Pattern} (h : alternatives ≠ []) :
    (foldLatest choice alternatives).language = Place.alternative.words alternatives := by
  cases alternatives with
  | nil => exact absurd rfl h
  | cons last earlier =>
    unfold foldLatest Place.words
    dsimp only
    rw [List.map_cons, List.sum_cons]
    induction earlier generalizing last with
    | nil => exact (add_zero _).symm
    | cons next earlier ih =>
      rw [List.foldl_cons, ih _ (List.cons_ne_nil _ _), List.map_cons, List.sum_cons, language,
        ← add_assoc, add_comm next.language]

theorem Covers.of_alternatives {exact : Prop} {a : Language Char} {alternatives : List Pattern}
    (h : Covers exact (Place.alternative.join (Place.alternative.words []) a)
      (Place.alternative.words alternatives)) (hne : alternatives ≠ []) :
    Covers exact a (foldLatest choice alternatives).language := by
  rw [language_foldLatest_choice hne]
  have hzero : Place.alternative.join (Place.alternative.words []) a = a := zero_add a
  rw [hzero] at h
  exact h

/-- A star that finds another operand: the last item before it, or one that was a star itself. -/
theorem covers_star {p last : Pattern} {items earlier : List Pattern} (tight : 2 ≤ p.precedence)
    (operand : Regroups .item p items (last :: earlier))
    (h : Covers (p.starsEmpty = false) (Place.item.words items * p.language)
      (Place.item.words earlier * last.language)) :
    Covers ((star p).starsEmpty = false) (Place.item.words items * p.language∗)
      (Place.item.words earlier * last.language∗) := by
  have hlast : Place.item.words earlier * last.language ≤
      Place.item.words earlier * last.language∗ := mul_le_mul_right le_kstar _
  cases p with
  | empty =>
    -- nothing was to be repeated, and now the last item is
    have hempty : Pattern.empty.language∗ = Pattern.empty.language := kstar_one
    refine ⟨?_, fun hexact => absurd hexact (by decide)⟩
    rw [hempty]
    exact h.le.trans hlast
  | literal c =>
    cases operand with
    | literal => exact .of_eq rfl
  | concat l r => exact absurd tight (by simp [precedence])
  | choice l r => exact absurd tight (by simp [precedence])
  | star p =>
    -- the last item is a star already, and one more adds no words
    have hidem : (star p).language∗ = (star p).language := kstar_idem p.language
    have hstar : last.language∗ = last.language := by
      cases operand with
      | star => exact kstar_idem _
      | starConcat => exact kstar_idem _
      | starGroup => exact kstar_idem _
    have hexact : (star (star p)).starsEmpty = false → (star p).starsEmpty = false :=
      fun h => (Bool.or_eq_false_iff.1 h).2
    rw [hidem, hstar]
    exact h.imp hexact

/-- What a text regroups to has all words of the pattern, and no others if no star of the pattern
was over nothing. -/
theorem Regroups.covers {place : Place} {p : Pattern} {before after : List Pattern}
    (h : Regroups place p before after) :
    Covers (p.starsEmpty = false) (place.join (place.words before) p.language)
      (place.words after) := by
  induction h with
  | empty items => exact .of_eq (mul_one _)
  | literal c items => exact .of_eq (words_item_cons _ items).symm
  | @concat l r items between later _ _ ihl ihr =>
    have hexact : (Pattern.concat l r).starsEmpty = false →
        l.starsEmpty = false ∧ r.starsEmpty = false := Bool.or_eq_false_iff.1
    have hleft := ihl.imp fun h => (hexact h).1
    have hright := ihr.imp fun h => (hexact h).2
    have hboth := (hleft.mul (.of_eq rfl)).trans hright
    unfold Place.join at hboth ⊢
    dsimp only at hboth ⊢
    rw [language, ← mul_assoc]
    exact hboth
  | @group l r items alternatives inner ih =>
    have hinside := ih.of_alternatives inner.ne_nil
    rw [words_item_cons]
    exact .mul (.of_eq rfl) hinside
  | @star p last items earlier tight operand ih =>
    rw [words_item_cons] at ih ⊢
    exact covers_star tight operand ih
  | @starConcat l r items inside inner ih =>
    have hone : Place.item.join (Place.item.words []) (Pattern.concat l r).language =
        (Pattern.concat l r).language := one_mul _
    rw [hone] at ih
    have hexact : (Pattern.star (.concat l r)).starsEmpty = false →
        (Pattern.concat l r).starsEmpty = false := fun h => (Bool.or_eq_false_iff.1 h).2
    rw [words_item_cons]
    exact .mul (.of_eq rfl) (ih.imp hexact).kstar
  | @starGroup l r items alternatives inner ih =>
    have hinside := ih.of_alternatives inner.ne_nil
    have hexact : (Pattern.star (.choice l r)).starsEmpty = false →
        (Pattern.choice l r).starsEmpty = false := fun h => (Bool.or_eq_false_iff.1 h).2
    rw [words_item_cons]
    exact .mul (.of_eq rfl) (hinside.imp hexact).kstar
  | @single p items alternatives tight inner ih =>
    have hone : Place.item.join (Place.item.words []) p.language = p.language := one_mul _
    rw [hone] at ih
    have hwords : Place.alternative.words (concatItems items :: alternatives) =
        Place.alternative.words alternatives + (concatItems items).language := by
      unfold Place.words
      dsimp only
      rw [List.map_cons, List.sum_cons, add_comm]
    rw [hwords]
    exact .add (.of_eq rfl) ih
  | @choice l r alternatives between later left right ihl ihr =>
    have hexact : (Pattern.choice l r).starsEmpty = false →
        l.starsEmpty = false ∧ r.starsEmpty = false := Bool.or_eq_false_iff.1
    have hleft := ihl.imp fun h => (hexact h).1
    have hright := ihr.imp fun h => (hexact h).2
    have hboth := (hleft.add (.of_eq rfl)).trans hright
    unfold Place.join at hboth ⊢
    dsimp only at hboth ⊢
    rw [language, ← add_assoc]
    exact hboth

end Pattern
end Automata
