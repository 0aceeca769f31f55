import Automata.Proofs.RoundTrip
import Automata.Proofs.Scan

/-! The text of a pattern that was built by hand. Its text shows the chains of concatenations and of
choices, but not how they were put together, so it is read as the same pattern with every chain
associated to the right. This needs the empty pattern to stand only where it is a whole alternative:
then each operand is written as something, and nothing is lost. -/
namespace Automata
namespace Pattern

namespace Place

/-- What joins two entries of the list. -/
def link : Place → Pattern → Pattern → Pattern
  | item => concat
  | alternative => choice

/-- The second pattern attached at the right end of the first one's chain. -/
def append : Place → Pattern → Pattern → Pattern
  | item, .concat a b, r => .concat a (item.append b r)
  | alternative, .choice a b, r => .choice a (alternative.append b r)
  | place, p, r => place.link p r

/-- The entries that the links of the pattern join, first to last. -/
def chain : Place → Pattern → List Pattern
  | item, .concat a b => item.chain a ++ item.chain b
  | alternative, .choice a b => alternative.chain a ++ alternative.chain b
  | _, p => [p]

/-- The pattern is no link, so a chain has it as one entry. -/
def Ends (place : Place) (p : Pattern) : Prop := ∀ a b, p ≠ place.link a b

variable {place : Place} {p a b r : Pattern}

theorem append_link : place.append (place.link a b) r = place.link a (place.append b r) := by
  cases place <;> rfl

theorem append_of_ends (h : place.Ends p) : place.append p r = place.link p r := by
  cases place <;> cases p <;> first | rfl | exact absurd rfl (h _ _)

theorem chain_link : place.chain (place.link a b) = place.chain a ++ place.chain b := by
  cases place <;> rfl

theorem chain_of_ends (h : place.Ends p) : place.chain p = [p] := by
  cases place <;> cases p <;> first | rfl | exact absurd rfl (h _ _)

/-- A pattern is a link of the place, or it is one entry there. -/
theorem link_induction {motive : Pattern → Prop} (place : Place) (p : Pattern)
    (link : ∀ a b, motive a → motive b → motive (place.link a b))
    (ends : ∀ p, place.Ends p → motive p) : motive p := by
  induction p with
  | empty => exact ends _ (by cases place <;> exact nofun)
  | literal c => exact ends _ (by cases place <;> exact nofun)
  | concat l r hl hr =>
    cases place with
    | item => exact link l r hl hr
    | alternative => exact ends _ nofun
  | choice l r hl hr =>
    cases place with
    | item => exact ends _ nofun
    | alternative => exact link l r hl hr
  | star p _ => exact ends _ (by cases place <;> exact nofun)

theorem chain_append (p r : Pattern) :
    place.chain (place.append p r) = place.chain p ++ place.chain r := by
  induction p using link_induction place with
  | link a b _ ih => rw [append_link, chain_link, ih, chain_link, List.append_assoc]
  | ends p h => rw [append_of_ends h, chain_link]

theorem chain_ne_nil (place : Place) (p : Pattern) : place.chain p ≠ [] := by
  induction p using link_induction place with
  | link a b _ hb =>
    rw [chain_link]
    exact List.append_ne_nil_of_right_ne_nil _ hb
  | ends p h =>
    rw [chain_of_ends h]
    exact List.cons_ne_nil p []

end Place

/-- No chain has a chain of its own kind as its first operand. -/
def RightNested : Pattern → Prop
  | empty => True
  | literal _ => True
  | concat l r => (∀ a b, l ≠ concat a b) ∧ l.RightNested ∧ r.RightNested
  | choice l r => (∀ a b, l ≠ choice a b) ∧ l.RightNested ∧ r.RightNested
  | star p => p.RightNested

/-- The pattern with every chain associated to the right. -/
def norm : Pattern → Pattern
  | empty => empty
  | literal c => literal c
  | concat l r => Place.item.append l.norm r.norm
  | choice l r => Place.alternative.append l.norm r.norm
  | star p => star p.norm

/-- The empty pattern stands only as a whole alternative. -/
def EmptyFits : Pattern → Place → Prop
  | empty, place => place = .alternative
  | literal _, _ => True
  | concat l r, _ => l.EmptyFits .item ∧ r.EmptyFits .item
  | choice l r, _ => l.EmptyFits .alternative ∧ r.EmptyFits .alternative
  | star p, _ => p.EmptyFits .item

section RightNested
variable {place : Place} {p l r : Pattern}

theorem rightNested_link :
    (place.link l r).RightNested ↔ place.Ends l ∧ l.RightNested ∧ r.RightNested := by
  cases place <;> rfl

theorem RightNested.append (hl : l.RightNested) (hr : r.RightNested) :
    (place.append l r).RightNested := by
  induction l using Place.link_induction place with
  | link a b _ ih =>
    have hlink := rightNested_link.1 hl
    rw [Place.append_link]
    exact rightNested_link.2 ⟨hlink.1, hlink.2.1, ih hlink.2.2⟩
  | ends l h =>
    rw [Place.append_of_ends h]
    exact rightNested_link.2 ⟨h, hl, hr⟩

theorem rightNested_norm (p : Pattern) : p.norm.RightNested := by
  induction p with
  | empty => trivial
  | literal c => trivial
  | concat l r hl hr => exact hl.append hr
  | choice l r hl hr => exact hl.append hr
  | star p hp => exact hp

theorem RightNested.norm_eq (h : p.RightNested) : p.norm = p := by
  induction p with
  | empty => rfl
  | literal c => rfl
  | concat l r hl hr =>
    rw [norm, hl h.2.1, hr h.2.2]
    exact @Place.append_of_ends .item l r h.1
  | choice l r hl hr =>
    rw [norm, hl h.2.1, hr h.2.2]
    exact @Place.append_of_ends .alternative l r h.1
  | star p hp => rw [norm, hp h]

theorem norm_eq_self_iff : p.norm = p ↔ p.RightNested :=
  ⟨fun h => h ▸ p.rightNested_norm, RightNested.norm_eq⟩

theorem foldLatest_concat (join : Pattern → Pattern → Pattern) {later : List Pattern}
    (h : later ≠ []) (first : Pattern) :
    foldLatest join (later ++ [first]) = join first (foldLatest join later) := by
  cases later with
  | nil => exact absurd rfl h
  | cons last earlier => exact List.foldl_concat _ last first earlier

/-- The entries of a chain that associates to the right fold to it. -/
theorem RightNested.foldLatest_chain (place : Place) (h : p.RightNested) :
    foldLatest place.link (place.chain p).reverse = p := by
  induction p using Place.link_induction place with
  | link a b _ ih =>
    have hlink := rightNested_link.1 h
    have hne : (place.chain b).reverse ≠ [] := by
      rw [ne_eq, List.reverse_eq_nil_iff]
      exact place.chain_ne_nil b
    rw [Place.chain_link, Place.chain_of_ends hlink.1, List.singleton_append, List.reverse_cons,
      foldLatest_concat _ hne, ih hlink.2.2]
  | ends p hends =>
    rw [Place.chain_of_ends hends]
    rfl

end RightNested

section Valuation
variable {α : Type} {f : Pattern → α}

/-- A value that does not tell how links associate is the same for the chain that associates to the
right. -/
theorem eq_of_reassociates
    (assoc : ∀ (place : Place) (a b c : Pattern),
      f (place.link (place.link a b) c) = f (place.link a (place.link b c)))
    (link : ∀ (place : Place) {l l' r r' : Pattern}, f l = f l' → f r = f r' →
      f (place.link l r) = f (place.link l' r'))
    (star : ∀ {p p' : Pattern}, f p = f p' → f (.star p) = f (.star p')) (p : Pattern) :
    f p.norm = f p := by
  have happend (place : Place) (l r : Pattern) : f (place.append l r) = f (place.link l r) := by
    induction l using Place.link_induction place with
    | link a b _ ih =>
      rw [Place.append_link, assoc]
      exact link place rfl ih
    | ends l h => rw [Place.append_of_ends h]
  induction p with
  | empty => rfl
  | literal c => rfl
  | concat l r hl hr => exact (happend .item _ _).trans (link .item hl hr)
  | choice l r hl hr => exact (happend .alternative _ _).trans (link .alternative hl hr)
  | star p hp => exact star hp

end Valuation

section Norm
variable (p : Pattern)

/-- The text and the strength of a pattern determine the text of every link that it is part of. -/
theorem chars_precedence_norm : (p.norm.chars, p.norm.precedence) = (p.chars, p.precedence) := by
  apply eq_of_reassociates (f := fun p : Pattern => (p.chars, p.precedence))
  · intro place a b c
    cases place with
    | item => exact congrArg (·, 1) (List.append_assoc a.itemChars b.itemChars c.itemChars)
    | alternative =>
      simp only [Place.link, chars_choice, List.append_assoc, List.cons_append]
      rfl
  · intro place l l' r r' hl hr
    obtain ⟨hl, hl'⟩ := Prod.mk.inj hl
    obtain ⟨hr, hr'⟩ := Prod.mk.inj hr
    cases place with
    | item =>
      simp only [Place.link, chars, hl, hl', hr, hr']
      rfl
    | alternative =>
      simp only [Place.link, chars_choice, hl, hr]
      rfl
  · intro p p' hp
    obtain ⟨hp, hp'⟩ := Prod.mk.inj hp
    simp only [chars, hp, hp']
    rfl

theorem text_norm : p.norm.text = p.text :=
  congrArg String.ofList (Prod.mk.inj p.chars_precedence_norm).1

theorem precedence_norm : p.norm.precedence = p.precedence :=
  (Prod.mk.inj p.chars_precedence_norm).2

theorem language_norm : p.norm.language = p.language := by
  apply eq_of_reassociates (f := language)
  · intro place a b c
    cases place with
    | item => exact mul_assoc _ _ _
    | alternative => exact add_assoc _ _ _
  · intro place l l' r r' hl hr
    cases place with
    | item => exact congrArg₂ (· * ·) hl hr
    | alternative => exact congrArg₂ (· + ·) hl hr
  · intro p p' hp
    exact congrArg KStar.kstar hp

theorem stateCount_norm : p.norm.stateCount = p.stateCount := by
  apply eq_of_reassociates (f := stateCount)
  · intro place a b c
    cases place with
    | item => exact Nat.add_assoc _ _ _
    | alternative =>
      simp only [Place.link, stateCount]
      omega
  · intro place l l' r r' hl hr
    cases place <;> simp only [Place.link, stateCount, hl, hr]
  · intro p p' hp
    simp only [stateCount, hp]

/-- Also a pattern with too many states fails alike, since as many are needed. -/
theorem matchesString_norm (w : String) : p.norm.matchesString w = p.matchesString w := by
  have hcount := p.stateCount_norm
  by_cases hfits : p.stateCount ≤ Fresh.limit.toNat
  · exact (language_eq_iff hfits (hcount ▸ hfits)).1 p.language_norm w
  · have hmany := Nat.lt_of_not_le hfits
    unfold matchesString matchesWord
    rw [p.compile_eq_error hmany, p.norm.compile_eq_error (hcount ▸ hmany)]

end Norm

section Text
variable {place : Place} {p l r : Pattern}

theorem chain_norm (h : p.precedence ≠ place.part.strength) : place.chain p.norm = [p.norm] := by
  apply Place.chain_of_ends
  intro a b hlink
  rw [← p.precedence_norm, hlink] at h
  cases place <;> exact h rfl

theorem foldLatest_chain_norm (place : Place) (p : Pattern) :
    foldLatest place.link (place.chain p.norm).reverse = p.norm :=
  p.rightNested_norm.foldLatest_chain place

theorem concatItems_chain_norm (p : Pattern) :
    concatItems (Place.item.chain p.norm).reverse = p.norm := by
  rw [concatItems_eq]
  exact foldLatest_chain_norm .item p

/-- The text of the pattern regroups to its chain, associated to the right. -/
def Place.Keeps (place : Place) (p : Pattern) : Prop :=
  ∀ before, Regroups place p before ((place.chain p.norm).reverse ++ before)

namespace Place.Keeps

/-- What is kept among items is kept as the only item of an alternative. -/
theorem alternative (h : Place.item.Keeps p) (tight : 1 ≤ p.precedence) :
    Place.alternative.Keeps p := by
  intro before
  have hends : p.precedence ≠ Place.alternative.part.strength := Nat.ne_of_gt tight
  have hitems := h []
  rw [List.append_nil] at hitems
  have hsingle : Regroups .alternative p before (concatItems _ :: before) := .single tight hitems
  rw [concatItems_chain_norm] at hsingle
  rw [chain_norm hends]
  exact hsingle

theorem concat (hl : Place.item.Keeps l) (hr : Place.item.Keeps r) :
    Place.item.Keeps (.concat l r) := by
  intro before
  rw [norm, Place.chain_append, List.reverse_append, List.append_assoc]
  exact .concat (hl before) (hr _)

theorem choice (hl : Place.alternative.Keeps l) (hr : Place.alternative.Keeps r) :
    Place.alternative.Keeps (.choice l r) := by
  intro before
  rw [norm, Place.chain_append, List.reverse_append, List.append_assoc]
  exact .choice (hl before) (hr _)

theorem group (h : Place.alternative.Keeps (.choice l r)) : Place.item.Keeps (.choice l r) := by
  intro before
  have hends : (Pattern.choice l r).precedence ≠ Place.item.part.strength := Nat.zero_ne_one
  have halternatives := h []
  rw [List.append_nil] at halternatives
  have hgroup : Regroups .item (.choice l r) before (foldLatest _ _ :: before) :=
    .group halternatives
  have hclose := foldLatest_chain_norm .alternative (.choice l r)
  unfold Place.link at hclose
  rw [hclose] at hgroup
  rw [chain_norm hends]
  exact hgroup

/-- The operand of a star is one item, or it has the parentheses of a group. -/
theorem star (hitem : Place.item.Keeps p) (halternative : Place.alternative.Keeps p)
    (hempty : p ≠ empty) : Place.item.Keeps (.star p) := by
  intro before
  have htight (tight : 2 ≤ p.precedence) :
      Regroups .item (.star p) before (.star p.norm :: before) := by
    have hends : p.precedence ≠ Place.item.part.strength := Nat.ne_of_gt tight
    have hitems := hitem before
    rw [chain_norm hends] at hitems
    exact .star tight hitems
  cases p with
  | empty => exact absurd rfl hempty
  | literal c => exact htight (Nat.le_succ 2)
  | concat l r =>
    have hitems := hitem []
    rw [List.append_nil] at hitems
    have hstar : Regroups .item (.star (.concat l r)) before (.star (concatItems _) :: before) :=
      .starConcat hitems
    rw [concatItems_chain_norm] at hstar
    exact hstar
  | choice l r =>
    have halternatives := halternative []
    rw [List.append_nil] at halternatives
    have hstar : Regroups .item (.star (.choice l r)) before (.star (foldLatest _ _) :: before) :=
      .starGroup halternatives
    have hclose := foldLatest_chain_norm .alternative (.choice l r)
    unfold Place.link at hclose
    rw [hclose] at hstar
    exact hstar
  | star p => exact htight (Nat.le_refl 2)

end Place.Keeps

/-- What fits among items fits as an alternative as well. -/
theorem EmptyFits.alternative (h : p.EmptyFits place) : p.EmptyFits .alternative := by
  cases p with
  | empty => rfl
  | literal c => trivial
  | concat l r => exact h
  | choice l r => exact h
  | star p => exact h

/-- Where the empty pattern fits, its place is kept. -/
theorem keeps_of_emptyFits (h : p.EmptyFits place) : place.Keeps p := by
  induction p generalizing place with
  | empty =>
    subst h
    intro before
    have tight : 1 ≤ empty.precedence := Nat.le_add_left 1 2
    have hsingle : Regroups .alternative empty before (concatItems [] :: before) :=
      .single tight (.empty [])
    exact hsingle
  | literal c =>
    have hitem : Place.item.Keeps (literal c) := .literal c
    cases place with
    | item => exact hitem
    | alternative => exact hitem.alternative (Nat.le_add_left 1 2)
  | concat l r hl hr =>
    have hitem := (hl h.1).concat (hr h.2)
    cases place with
    | item => exact hitem
    | alternative => exact hitem.alternative (Nat.le_refl 1)
  | choice l r hl hr =>
    have halternative := (hl h.1).choice (hr h.2)
    cases place with
    | item => exact halternative.group
    | alternative => exact halternative
  | star p hp =>
    have hinner : p.EmptyFits .item := h
    have hempty : p ≠ empty := by
      rintro rfl
      cases hinner
    have hitem := (hp hinner).star (hp hinner.alternative) hempty
    cases place with
    | item => exact hitem
    | alternative => exact hitem.alternative (Nat.le_succ 1)

theorem derives_norm (plain : p.Plain) (h : p.EmptyFits .alternative) :
    Derives .choose p.chars p.norm := by
  have hkeeps := keeps_of_emptyFits h []
  rw [List.append_nil] at hkeeps
  have hderives := (hkeeps.spelled plain .nil).choose_of_mark
  have hclose := foldLatest_chain_norm .alternative p
  unfold Place.link at hclose
  rw [hclose] at hderives
  exact hderives

end Text

/-- The text of a pattern without stray empty operands is read, as far as the limit admits it, as
the pattern with its chains associated to the right, and beyond the limit it is refused as too deep.
The chains make no difference to the text or to what is matched. -/
theorem parse_text_eq_norm (p : Pattern) (plain : p.Plain) (fits : p.EmptyFits .alternative) :
    (OpenAtMost 256 p.chars → parse p.text = .ok p.norm) ∧
    (¬OpenAtMost 256 p.chars → ∃ i, parse p.text = .error (.tooDeep i)) ∧
    p.norm.text = p.text ∧
    p.norm.language = p.language ∧
    (∀ w : String, p.norm.matchesString w = p.matchesString w) ∧
    (p.norm = p ↔ p.RightNested) := by
  have hderives := derives_norm plain fits
  have htext : p.text.toList = p.chars := String.toList_ofList
  unfold parse
  rw [htext]
  refine ⟨fun hopen => ?_, fun hdeep => ?_, p.text_norm, p.language_norm, p.matchesString_norm, ?_⟩
  · exact parseChars_eq_ok.2 ⟨hderives, hopen⟩
  · exact hderives.parseChars_of_deep hdeep
  · exact norm_eq_self_iff

/-- Two chains to the left, one of them with an empty alternative. -/
theorem parse_text_left_chains :
    (concat (concat (literal 'a') (literal 'b'))
      (choice (choice empty (literal 'a')) (literal 'b'))).Plain ∧
    (concat (concat (literal 'a') (literal 'b'))
      (choice (choice empty (literal 'a')) (literal 'b'))).EmptyFits .alternative ∧
    parse "ab(|a|b)" = .ok (concat (literal 'a') (concat (literal 'b')
      (choice empty (choice (literal 'a') (literal 'b'))))) := by
  have ha : 'a' ∉ special := by decide
  have hb : 'b' ∉ special := by decide
  have hplain : (concat (concat (literal 'a') (literal 'b'))
      (choice (choice empty (literal 'a')) (literal 'b'))).Plain :=
    ⟨⟨ha, hb⟩, ⟨trivial, ha⟩, hb⟩
  have hfits : (concat (concat (literal 'a') (literal 'b'))
      (choice (choice empty (literal 'a')) (literal 'b'))).EmptyFits .alternative :=
    ⟨⟨trivial, trivial⟩, ⟨rfl, trivial⟩, trivial⟩
  have hopen : OpenAtMost 256 "ab(|a|b)".toList := by
    intro before hbefore
    have hcount : before.count '(' ≤ before.length := List.count_le_length
    have hlength : before.length ≤ 8 := hbefore.length_le
    omega
  exact ⟨hplain, hfits, (parse_text_eq_norm _ hplain hfits).1 hopen⟩

end Pattern
end Automata
