import Automata.Proofs.Parsing
import Automata.Proofs.Rendering

/-! What becomes of a pattern when its text is read again. The text groups only where it has
parentheses, so a star takes the last item before it, whatever its operand was, and the items of
nested concatenations are those of one list. The two halves of this file meet at a relation between
what a reading holds before and after the text: a pattern whose text has an operand for every star
is related to some outcome, and every outcome is derived by the grammar. -/
namespace Automata
namespace Pattern

/-- A text is read among the items of an alternative or among the alternatives of a group. -/
inductive Place where
  | item
  | alternative

namespace Place

def part : Place → Nonterminal
  | item => .repeated
  | alternative => .concat

def mark : Place → List Char
  | item => []
  | alternative => ['|']

/-- The text of a pattern as an entry of the list. -/
def written : Place → Pattern → List Char
  | item, p => p.itemChars
  | alternative, p => p.chars ++ ['|']

end Place

/-- The text of the pattern turns the first list into the second, both latest first. -/
inductive Regroups : Place → Pattern → List Pattern → List Pattern → Prop where
  | empty (items : List Pattern) : Regroups .item .empty items items
  | literal (c : Char) (items : List Pattern) :
      Regroups .item (.literal c) items (.literal c :: items)
  | concat {l r : Pattern} {items between later : List Pattern}
      (left : Regroups .item l items between) (right : Regroups .item r between later) :
      Regroups .item (.concat l r) items later
  | group {l r : Pattern} {items alternatives : List Pattern}
      (inner : Regroups .alternative (.choice l r) [] alternatives) :
      Regroups .item (.choice l r) items (foldLatest .choice alternatives :: items)
  /-- A star after a text without parentheses repeats the last item, also an earlier one. -/
  | star {p last : Pattern} {items earlier : List Pattern} (tight : 2 ≤ p.precedence)
      (operand : Regroups .item p items (last :: earlier)) :
      Regroups .item (.star p) items (.star last :: earlier)
  | starConcat {l r : Pattern} {items inside : List Pattern}
      (inner : Regroups .item (.concat l r) [] inside) :
      Regroups .item (.star (.concat l r)) items (.star (concatItems inside) :: items)
  | starGroup {l r : Pattern} {items alternatives : List Pattern}
      (inner : Regroups .alternative (.choice l r) [] alternatives) :
      Regroups .item (.star (.choice l r)) items
        (.star (foldLatest .choice alternatives) :: items)
  | single {p : Pattern} {items alternatives : List Pattern} (tight : 1 ≤ p.precedence)
      (inner : Regroups .item p [] items) :
      Regroups .alternative p alternatives (concatItems items :: alternatives)
  | choice {l r : Pattern} {alternatives between later : List Pattern}
      (left : Regroups .alternative l alternatives between)
      (right : Regroups .alternative r between later) :
      Regroups .alternative (.choice l r) alternatives later

theorem itemChars_concat (l r : Pattern) :
    (concat l r).itemChars = l.itemChars ++ r.itemChars := rfl

/-- The operand of a star has the parentheses that it has as an item, but for a concatenation,
which has none there. -/
theorem bracket_two {p : Pattern} (h : p.precedence ≠ 1) :
    bracket p.precedence 2 p.chars = p.itemChars := by
  unfold itemChars bracket
  by_cases hzero : p.precedence < 1
  · rw [if_pos hzero, if_pos (by omega)]
  · rw [if_neg hzero, if_neg (by omega)]

theorem itemChars_star {p : Pattern} (h : p.precedence ≠ 1) :
    (star p).itemChars = p.itemChars ++ ['*'] := by
  have hstar : (star p).itemChars = bracket p.precedence 2 p.chars ++ ['*'] := rfl
  rw [hstar, bracket_two h]

theorem chars_choice (l r : Pattern) : (choice l r).chars = l.chars ++ '|' :: r.chars := by
  rw [chars, bracket_zero, bracket_zero]

theorem Spelled.choose_of_mark {alternatives : List Pattern} {text : List Char}
    (h : Spelled .concat ['|'] alternatives (text ++ ['|'])) :
    Derives .choose text (foldLatest choice alternatives) := by
  generalize hwhole : text ++ ['|'] = whole at h
  cases h with
  | nil =>
    have hlength := congrArg List.length hwhole
    rw [List.length_append] at hlength
    exact absurd hlength (by simp)
  | @cons earlier u last tree before derives =>
    rw [← List.append_assoc] at hwhole
    rw [(List.append_left_inj ['|']).1 hwhole]
    exact before.choose derives

/-- What a text regroups to is what the grammar derives for it. -/
theorem Regroups.spelled {place : Place} {p : Pattern} {before after : List Pattern}
    (h : Regroups place p before after) (plain : p.Plain) {u : List Char}
    (spelled : Spelled place.part place.mark before u) :
    Spelled place.part place.mark after (u ++ place.written p) := by
  induction h generalizing u with
  | empty items =>
    have htext : u ++ Place.written .item .empty = u := List.append_nil u
    rw [htext]
    exact spelled
  | literal c items => exact spelled.cons (.of_atom (.literal c plain))
  | concat _ _ ihl ihr =>
    have hleft := ihl plain.1 spelled
    have hright := ihr plain.2 hleft
    rw [List.append_assoc] at hright
    exact hright
  | @group l r items alternatives _ ih =>
    have hchoose := (ih plain .nil).choose_of_mark
    have hitem := spelled.cons (.of_atom (.group hchoose))
    rw [Place.mark, List.append_nil] at hitem
    exact hitem
  | @star p last items earlier tight _ ih =>
    have hoperand := ih plain spelled
    unfold Place.written at hoperand ⊢
    dsimp only at hoperand ⊢
    rw [itemChars_star (by omega), ← List.append_assoc]
    generalize u ++ p.itemChars = text at hoperand
    -- the star joins the piece of the last item, which may stand before the operand's own text
    cases hoperand with
    | @cons _ v text _ before last =>
      have hstar := before.cons last.star
      simp only [Place.mark, List.append_nil, List.append_assoc] at hstar ⊢
      exact hstar
  | @starConcat l r items inside _ ih =>
    have hchoose : Derives .choose (Pattern.concat l r).chars (concatItems inside) :=
      Spelled.nil.choose (ih plain .nil).concat
    have hitem := spelled.cons (Derives.of_atom (.group hchoose)).star
    rw [Place.mark, List.append_nil] at hitem
    exact hitem
  | @starGroup l r items alternatives _ ih =>
    have hchoose := (ih plain .nil).choose_of_mark
    have hitem := spelled.cons (Derives.of_atom (.group hchoose)).star
    rw [Place.mark, List.append_nil] at hitem
    exact hitem
  | @single p items alternatives tight _ ih =>
    have hitems := (ih plain .nil).concat
    have halternative := spelled.cons hitems
    unfold Place.written at halternative
    dsimp only at halternative
    rw [itemChars_of_pos tight] at halternative
    exact halternative
  | @choice l r alternatives between later _ _ ihl ihr =>
    have hleft := ihl plain.1 spelled
    have hright := ihr plain.2 hleft
    unfold Place.written at hright ⊢
    dsimp only at hright ⊢
    rw [chars_choice]
    simp only [List.append_assoc, List.cons_append, List.nil_append] at hright ⊢
    exact hright

/-- The text begins with a star, which has no operand there. -/
def dangles (text : List Char) : Bool := text.head? = some '*'

/-- No alternative and no parenthesized concatenation inside the text begins with a star. -/
def operandsReread : Pattern → Bool
  | empty => true
  | literal _ => true
  | concat l r => l.operandsReread && r.operandsReread
  | choice l r =>
    l.operandsReread && !dangles l.chars && (r.operandsReread && !dangles r.chars)
  | star p => p.operandsReread && (p.precedence ≠ 1 || !dangles p.chars)

/-- The text of the pattern is read again without a failure. -/
def rereads (p : Pattern) : Bool := p.operandsReread && !dangles p.chars

theorem dangles_append {u v : List Char} (h : dangles (u ++ v) = false) :
    dangles u = false ∧ (u = [] → dangles v = false) := by
  cases u with
  | nil => exact ⟨rfl, fun _ => h⟩
  | cons c rest => exact ⟨h, fun hnil => absurd hnil (List.cons_ne_nil c rest)⟩

theorem not_dangles_choice {l r : Pattern} (h : (choice l r).operandsReread = true) :
    dangles (choice l r).chars = false := by
  simp only [operandsReread, Bool.and_eq_true, Bool.not_eq_true'] at h
  have hl := h.1.2
  rw [chars_choice]
  cases hchars : l.chars with
  | nil => rfl
  | cons c rest =>
    rw [hchars] at hl
    exact hl

theorem Regroups.eq_nil {p : Pattern} {items later : List Pattern}
    (h : Regroups .item p items later) (hlater : later = []) : items = [] ∧ p.itemChars = [] := by
  generalize hplace : Place.item = place at h
  induction h with
  | empty items => exact ⟨hlater, rfl⟩
  | concat _ _ ihl ihr =>
    have hright := ihr hlater rfl
    have hleft := ihl hright.1 rfl
    rw [itemChars_concat, hleft.2, hright.2]
    exact ⟨hleft.1, rfl⟩
  | single => cases hplace
  | choice => cases hplace
  | literal => cases hlater
  | group => cases hlater
  | star => cases hlater
  | starConcat => cases hlater
  | starGroup => cases hlater

/-- The text of the pattern regroups to something wherever its first character has what it needs. -/
def Place.Admits (p : Pattern) : Place → Prop
  | item => ∀ items, (items = [] → dangles p.itemChars = false) →
    ∃ later, Regroups .item p items later
  | alternative => ∀ alternatives, dangles p.chars = false →
    ∃ later, Regroups .alternative p alternatives later

theorem admits_alternative {p : Pattern} (tight : 1 ≤ p.precedence)
    (hitem : Place.item.Admits p) : Place.alternative.Admits p := by
  intro alternatives h
  rw [← itemChars_of_pos tight] at h
  obtain ⟨items, hitems⟩ := hitem [] fun _ => h
  exact ⟨_, .single tight hitems⟩

theorem admits_star {p : Pattern} (tight : 2 ≤ p.precedence) (hitem : Place.item.Admits p) :
    Place.item.Admits (star p) := by
  intro items h
  rw [itemChars_star (by omega)] at h
  obtain ⟨between, hoperand⟩ := hitem items fun hnil => (dangles_append (h hnil)).1
  cases between with
  | nil =>
    have hempty := hoperand.eq_nil rfl
    have hstar := (dangles_append (h hempty.1)).2 hempty.2
    exact absurd hstar (by decide)
  | cons last earlier => exact ⟨_, .star tight hoperand⟩

/-- Every text that has an operand for each of its stars regroups to something. -/
theorem admits_of_operandsReread {p : Pattern} (h : p.operandsReread = true) :
    Place.item.Admits p ∧ Place.alternative.Admits p := by
  induction p with
  | empty =>
    have hitem : Place.item.Admits empty := fun items _ => ⟨items, .empty items⟩
    exact ⟨hitem, admits_alternative (Nat.le_add_left 1 2) hitem⟩
  | literal c =>
    have hitem : Place.item.Admits (literal c) := fun items _ => ⟨_, .literal c items⟩
    exact ⟨hitem, admits_alternative (Nat.le_add_left 1 2) hitem⟩
  | concat l r ihl ihr =>
    rw [operandsReread, Bool.and_eq_true] at h
    have hitem : Place.item.Admits (concat l r) := by
      intro items hd
      rw [itemChars_concat] at hd
      obtain ⟨between, hleft⟩ := (ihl h.1).1 items fun hnil => (dangles_append (hd hnil)).1
      have hnext (hnil : between = []) : dangles r.itemChars = false := by
        have hempty := hleft.eq_nil hnil
        exact (dangles_append (hd hempty.1)).2 hempty.2
      obtain ⟨later, hright⟩ := (ihr h.2).1 between hnext
      exact ⟨later, .concat hleft hright⟩
    exact ⟨hitem, admits_alternative (Nat.le_refl 1) hitem⟩
  | choice l r ihl ihr =>
    have hd := not_dangles_choice h
    simp only [operandsReread, Bool.and_eq_true, Bool.not_eq_true'] at h
    have halternative : Place.alternative.Admits (choice l r) := by
      intro alternatives _
      obtain ⟨between, hleft⟩ := (ihl h.1.1).2 alternatives h.1.2
      obtain ⟨later, hright⟩ := (ihr h.2.1).2 between h.2.2
      exact ⟨later, .choice hleft hright⟩
    obtain ⟨inside, hinside⟩ := halternative [] hd
    exact ⟨fun items _ => ⟨_, .group hinside⟩, halternative⟩
  | star p ih =>
    rw [operandsReread, Bool.and_eq_true] at h
    have hoperand := ih h.1
    have hitem : Place.item.Admits (star p) := by
      -- the text of the operand stands in parentheses of its own only if it binds less
      cases p with
      | concat l r =>
        have hinside : dangles (Pattern.concat l r).chars = false := by
          simpa [precedence] using h.2
        obtain ⟨inside, hinner⟩ := hoperand.1 [] fun _ => hinside
        exact fun items _ => ⟨_, .starConcat hinner⟩
      | choice l r =>
        obtain ⟨alternatives, hinner⟩ := hoperand.2 [] (not_dangles_choice h.1)
        exact fun items _ => ⟨_, .starGroup hinner⟩
      | empty =>
        have tight : 2 ≤ empty.precedence := Nat.le_succ 2
        exact admits_star tight hoperand.1
      | literal c =>
        have tight : 2 ≤ (literal c).precedence := Nat.le_succ 2
        exact admits_star tight hoperand.1
      | star p =>
        have tight : 2 ≤ (star p).precedence := Nat.le_refl 2
        exact admits_star tight hoperand.1
    exact ⟨hitem, admits_alternative (Nat.le_succ 1) hitem⟩

theorem exists_regroups {p : Pattern} (h : p.rereads = true) :
    ∃ alternatives, Regroups .alternative p [] alternatives := by
  rw [rereads, Bool.and_eq_true, Bool.not_eq_true'] at h
  exact (admits_of_operandsReread h.1).2 [] h.2

section Failure
variable {u v text : List Char}

theorem readAll_append_error {reading : Reading} {position : Nat}
    (h : (∃ e, reading.readAll position u = .error e) ∨
      ∀ (reading : Reading) position, ∃ e, reading.readAll position v = .error e) :
    ∃ e, reading.readAll position (u ++ v) = .error e := by
  rw [Reading.readAll_append]
  cases hu : reading.readAll position u with
  | error e => exact ⟨e, rfl⟩
  | ok next =>
    cases h with
    | inl h =>
      obtain ⟨e, he⟩ := h
      rw [he] at hu
      cases hu
    | inr h => exact h next _

theorem readAll_parenthesize_error
    (h : ∀ enclosing position, ∃ e, Reading.readAll ⟨.start, enclosing⟩ position text = .error e)
    (reading : Reading) (position : Nat) :
    ∃ e, reading.readAll position (parenthesize text) = .error e := by
  obtain ⟨group, enclosing⟩ := reading
  unfold parenthesize
  rw [Reading.readAll]
  by_cases hdepth : enclosing.length < maxDepth
  · rw [Reading.read_open hdepth]
    exact readAll_append_error (.inl (h _ _))
  · have hopen : Reading.read ⟨group, enclosing⟩ position '(' = .error (.tooDeep position) :=
      if_neg hdepth
    rw [hopen]
    exact ⟨_, rfl⟩

/-- A text that fails wherever it may begin a group fails in brackets anywhere. -/
theorem readAll_bracket_error {inner outer : Nat} (houter : 1 ≤ outer)
    (h : ∀ (reading : Reading) position, (inner = 0 → reading.group.items = []) →
      ∃ e, reading.readAll position text = .error e) (reading : Reading) (position : Nat) :
    ∃ e, reading.readAll position (bracket inner outer text) = .error e := by
  unfold bracket
  split
  · exact readAll_parenthesize_error (fun enclosing position => h _ position fun _ => rfl) _ _
  · exact h reading position fun hinner => by omega

theorem readAll_dangles_error (h : dangles text = true) {reading : Reading}
    (hstart : reading.group.items = []) (position : Nat) :
    ∃ e, reading.readAll position text = .error e := by
  cases text with
  | nil => exact absurd h (by decide)
  | cons c rest =>
    have hc : c = '*' := by simpa [dangles] using h
    obtain ⟨⟨alternatives, items⟩, enclosing⟩ := reading
    dsimp only at hstart
    rw [hc, hstart]
    exact ⟨_, rfl⟩

/-- A text with a star that has no operand is read nowhere. -/
theorem readAll_error {p : Pattern} (h : p.operandsReread = false) (reading : Reading)
    (position : Nat) (hstart : p.precedence = 0 → reading.group.items = []) :
    ∃ e, reading.readAll position p.chars = .error e := by
  induction p generalizing reading position with
  | empty => cases h
  | literal c => cases h
  | concat l r ihl ihr =>
    rw [operandsReread, Bool.and_eq_false_iff] at h
    apply readAll_append_error
    cases h with
    | inl h => exact .inl (readAll_bracket_error (Nat.le_refl 1) (ihl h) _ _)
    | inr h => exact .inr (readAll_bracket_error (Nat.le_refl 1) (ihr h))
  | choice l r ihl ihr =>
    simp only [operandsReread, Bool.and_eq_false_iff, Bool.not_eq_false'] at h
    have hitems := hstart rfl
    rw [chars_choice]
    apply readAll_append_error
    cases h with
    | inl h =>
      cases h with
      | inl h => exact .inl (ihl h reading position fun _ => hitems)
      | inr h => exact .inl (readAll_dangles_error h hitems position)
    | inr h =>
      apply Or.inr
      intro next position
      -- the bar leaves no item, whatever the first alternative was
      cases h with
      | inl h => exact ihr h ⟨next.group.bar, next.enclosing⟩ (position + 1) fun _ => rfl
      | inr h =>
        have hbar : (Reading.mk next.group.bar next.enclosing).group.items = [] := rfl
        exact readAll_dangles_error h hbar (position + 1)
  | star p ih =>
    simp only [operandsReread, Bool.and_eq_false_iff, Bool.or_eq_false_iff, Bool.not_eq_false'] at h
    rw [chars]
    apply readAll_append_error
    apply Or.inl
    cases h with
    | inl h => exact readAll_bracket_error (Nat.le_succ 1) (ih h) _ _
    | inr h =>
      have hprecedence : p.precedence = 1 := by simpa using h.1
      have hbracket : bracket p.precedence 2 p.chars = parenthesize p.chars :=
        if_pos (by omega)
      rw [hbracket]
      apply readAll_parenthesize_error
      intro enclosing position
      exact readAll_dangles_error h.2 rfl position

end Failure

/-- Where the limit admits the text, it is read again just when its stars have operands, and as
what it regroups to. -/
theorem parseChars_chars_eq_ok {p q : Pattern} (plain : p.Plain)
    (hopen : OpenAtMost maxDepth p.chars) :
    parseChars p.chars = .ok q ↔ p.rereads = true ∧
      ∃ alternatives, Regroups .alternative p [] alternatives ∧
        q = foldLatest choice alternatives := by
  have hread {alternatives : List Pattern} (h : Regroups .alternative p [] alternatives) :
      parseChars p.chars = .ok (foldLatest choice alternatives) :=
    parseChars_eq_ok.2 ⟨(h.spelled plain .nil).choose_of_mark, hopen⟩
  constructor
  · intro hparse
    have hrereads : p.rereads = true := by
      by_contra hnot
      have herror : ∃ e, Reading.start.readAll 0 p.chars = .error e := by
        rw [rereads, Bool.not_eq_true, Bool.and_eq_false_iff, Bool.not_eq_false'] at hnot
        cases hnot with
        | inl h => exact readAll_error h _ _ fun _ => rfl
        | inr h => exact readAll_dangles_error h rfl _
      obtain ⟨e, he⟩ := herror
      rw [parseChars, he] at hparse
      cases hparse
    obtain ⟨alternatives, h⟩ := exists_regroups hrereads
    rw [hread h] at hparse
    exact ⟨hrereads, alternatives, h, (Except.ok.inj hparse).symm⟩
  · rintro ⟨-, alternatives, h, rfl⟩
    exact hread h

end Pattern
end Automata
