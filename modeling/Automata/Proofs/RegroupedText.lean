import Automata.Proofs.Regrouping

/-! The text of what a text regroups to. Parentheses around less than two items, or around a choice
that stands alone, are read but not written again, and nothing else is lost. Which parentheses these
are shows in the kinds of the items in an alternative, so the loss is counted on the pattern, and
the text is kept just when nothing is lost. -/
namespace Automata
namespace Pattern

/-- Whether the pattern is written with parentheses among other items. -/
def isChoice (p : Pattern) : Bool := p.precedence = 0

/-- The items that the text of the pattern adds to those before it, latest first, each as whether
it is a choice in parentheses; a star without parentheses changes the last item. -/
def addKinds : Pattern → List Bool → List Bool
  | empty, kinds => kinds
  | literal _, kinds => false :: kinds
  | concat l r, kinds => r.addKinds (l.addKinds kinds)
  | choice _ _, kinds => true :: kinds
  | star p, kinds => false :: (if p.precedence < 2 then kinds else (p.addKinds kinds).tail)

/-- The items that the text of the pattern shows when it stands alone. -/
def kinds (p : Pattern) : List Bool := p.addKinds []

/-- The parentheses around a choice that is the only item of an alternative, in characters. -/
def lostAlone (p : Pattern) : Nat := if 1 ≤ p.precedence ∧ p.kinds = [true] then 2 else 0

/-- The characters inside the text that are read but not written again. -/
def lostInside : Pattern → Nat
  | empty => 0
  | literal _ => 0
  | concat l r => l.lostInside + r.lostInside
  | choice l r => l.lostInside + l.lostAlone + (r.lostInside + r.lostAlone)
  | star p => p.lostInside + if p.precedence = 1 ∧ p.kinds.length < 2 then 2 else 0

/-- The characters of the text that are read but not written again. -/
def lost (p : Pattern) : Nat := p.lostInside + p.lostAlone

/-- The first text is the second without some of its characters, as many as the number says. -/
structure Trims (count : Nat) (u t : List Char) : Prop where
  sublist : u.Sublist t
  length : u.length + count = t.length

namespace Trims
variable {m n : Nat} {t u v w : List Char}

theorem refl (t : List Char) : Trims 0 t t := ⟨List.Sublist.refl t, rfl⟩

theorem trans (h : Trims m u v) (h' : Trims n v w) : Trims (n + m) u w where
  sublist := h.sublist.trans h'.sublist
  length := by
    have := h.length
    have := h'.length
    omega

theorem append (h : Trims m u t) (h' : Trims n v w) : Trims (m + n) (u ++ v) (t ++ w) where
  sublist := h.sublist.append h'.sublist
  length := by
    have := h.length
    have := h'.length
    rw [List.length_append, List.length_append]
    omega

theorem append_right (h : Trims m u t) (v : List Char) : Trims m (u ++ v) (t ++ v) :=
  h.append (refl v)

theorem append_left (h : Trims m u t) (v : List Char) : Trims m (v ++ u) (v ++ t) := by
  have happend := (refl v).append h
  rw [Nat.zero_add] at happend
  exact happend

theorem of_append_right (h : Trims m (u ++ v) (t ++ v)) : Trims m u t where
  sublist := (List.append_sublist_append_right v).1 h.sublist
  length := by
    have := h.length
    rw [List.length_append, List.length_append] at this
    omega

theorem parenthesize (h : Trims m u t) : Trims m (parenthesize u) (parenthesize t) :=
  (h.append_right [')']).append_left ['(']

theorem unwrap (h : Trims m u t) : Trims (m + 2) u (Pattern.parenthesize t) where
  sublist := by
    apply h.sublist.trans
    apply List.Sublist.cons
    exact List.sublist_append_left t [')']
  length := by
    have := h.length
    unfold Pattern.parenthesize
    simp only [List.length_cons, List.length_append, List.length_nil]
    omega

theorem eq_iff (h : Trims m u t) : u = t ↔ m = 0 := by
  have hlength := h.length
  constructor
  · intro heq
    rw [heq] at hlength
    omega
  · intro hzero
    exact h.sublist.eq_of_length (by omega)

end Trims

namespace Place

/-- The text that a list of entries, latest first, stands for. -/
def shown (place : Place) (entries : List Pattern) : List Char :=
  entries.reverse.flatMap place.written

theorem shown_cons (place : Place) (entry : Pattern) (earlier : List Pattern) :
    place.shown (entry :: earlier) = place.shown earlier ++ place.written entry := by
  unfold shown
  rw [List.reverse_cons, List.flatMap_append, List.flatMap_singleton]

def lost : Place → Pattern → Nat
  | item, p => p.lostInside
  | alternative, p => p.lost

end Place

theorem itemChars_concatItems (items : List Pattern) :
    (concatItems items).itemChars = Place.item.shown items := by
  rw [← List.reverse_reverse items, concatItems_reverse, Place.shown, List.reverse_reverse]
  cases items.reverse with
  | nil => rfl
  | cons first rest => exact itemChars_foldRight_concat first rest

theorem exists_first {trees : List Pattern} (h : trees ≠ []) :
    ∃ (first : Pattern) (rest : List Pattern), trees = rest.reverse ++ [first] := by
  refine ⟨trees.getLast h, trees.dropLast.reverse, ?_⟩
  rw [List.reverse_reverse]
  exact (List.dropLast_concat_getLast h).symm

theorem precedence_foldLatest (join : Pattern → Pattern → Pattern) {strength : Nat}
    (hjoin : ∀ l r, (join l r).precedence = strength) {trees : List Pattern}
    (hlength : 2 ≤ trees.length) : (foldLatest join trees).precedence = strength := by
  have hne : trees ≠ [] := List.ne_nil_of_length_pos (Nat.lt_of_lt_of_le Nat.two_pos hlength)
  obtain ⟨first, rest, htrees⟩ := exists_first hne
  rw [htrees, foldLatest_reverse]
  cases rest with
  | nil =>
    rw [htrees] at hlength
    exact absurd hlength (by simp)
  | cons next rest => exact hjoin _ _

theorem trims_itemChars (p : Pattern) :
    Trims (if p.precedence = 0 then 2 else 0) p.chars p.itemChars := by
  split
  · next hzero =>
    have hitem : p.itemChars = parenthesize p.chars := if_pos (by omega)
    rw [hitem]
    exact (Trims.refl _).unwrap
  · next hpos =>
    rw [itemChars_of_pos (by omega)]
    exact .refl _

/-- The number of alternatives that the text of the pattern shows when it stands alone. -/
def breadth : Pattern → Nat
  | choice l r => l.breadth + r.breadth
  | _ => 1

theorem breadth_of_pos {p : Pattern} (h : 1 ≤ p.precedence) : p.breadth = 1 := by
  cases p with
  | choice l r => exact absurd h (Nat.not_succ_le_zero 0)
  | _ => rfl

theorem breadth_pos (p : Pattern) : 1 ≤ p.breadth := by
  induction p with
  | choice l r ihl ihr =>
    rw [breadth]
    omega
  | _ => exact Nat.le_refl 1

theorem Regroups.length_alternatives {p : Pattern} {before after : List Pattern}
    (h : Regroups .alternative p before after) : after.length = before.length + p.breadth := by
  generalize hplace : Place.alternative = place at h
  induction h with
  | single tight =>
    rw [breadth_of_pos tight]
    rfl
  | choice _ _ ihl ihr => rw [ihr rfl, ihl rfl, breadth, Nat.add_assoc]
  | _ => cases hplace

theorem Regroups.ne_nil {p : Pattern} {before after : List Pattern}
    (h : Regroups .alternative p before after) : after ≠ [] := by
  have hlength := h.length_alternatives
  have hpos := p.breadth_pos
  apply List.ne_nil_of_length_pos
  omega

theorem precedence_group {l r : Pattern} {alternatives : List Pattern}
    (inner : Regroups .alternative (choice l r) [] alternatives) :
    (foldLatest choice alternatives).precedence = 0 := by
  apply precedence_foldLatest choice fun _ _ => rfl
  have hlength := inner.length_alternatives
  have hl := l.breadth_pos
  have hr := r.breadth_pos
  rw [breadth, List.length_nil] at hlength
  omega

theorem precedence_star_ne (p : Pattern) : (star p).precedence ≠ 1 := Nat.succ_ne_self 1

theorem precedence_literal_ne (c : Char) : (literal c).precedence ≠ 1 :=
  Nat.succ_succ_ne_one 1

/-- No concatenation becomes an item, since its own items are taken one by one, and of the items
the pattern alone decides which are choices. -/
theorem Regroups.kinds_items {p : Pattern} {before after : List Pattern}
    (h : Regroups .item p before after) (hbefore : ∀ q ∈ before, q.precedence ≠ 1) :
    (∀ q ∈ after, q.precedence ≠ 1) ∧ after.map isChoice = p.addKinds (before.map isChoice) := by
  generalize hplace : Place.item = place at h
  induction h with
  | empty items => exact ⟨hbefore, rfl⟩
  | literal c items => exact ⟨List.forall_mem_cons.2 ⟨precedence_literal_ne c, hbefore⟩, rfl⟩
  | concat _ _ ihl ihr =>
    have hleft := ihl hbefore rfl
    have hright := ihr hleft.1 rfl
    rw [hleft.2] at hright
    exact hright
  | @group l r items alternatives inner =>
    have hprecedence := precedence_group inner
    refine ⟨List.forall_mem_cons.2 ⟨by omega, hbefore⟩, ?_⟩
    rw [List.map_cons, isChoice, hprecedence]
    rfl
  | @star p last items earlier tight _ ih =>
    have hoperand := ih hbefore rfl
    have hearlier := (List.forall_mem_cons.1 hoperand.1).2
    refine ⟨List.forall_mem_cons.2 ⟨precedence_star_ne last, hearlier⟩, ?_⟩
    rw [addKinds, if_neg (by omega), ← hoperand.2]
    rfl
  | starConcat => exact ⟨List.forall_mem_cons.2 ⟨precedence_star_ne _, hbefore⟩, rfl⟩
  | starGroup => exact ⟨List.forall_mem_cons.2 ⟨precedence_star_ne _, hbefore⟩, rfl⟩
  | single => cases hplace
  | choice => cases hplace

/-- The items of an alternative decide what it is: a choice if it has only that, a concatenation
if it has more than one. -/
theorem precedence_concatItems {items : List Pattern} (hitems : ∀ q ∈ items, q.precedence ≠ 1) :
    ((concatItems items).precedence = 0 ↔ items.map isChoice = [true]) ∧
      ((concatItems items).precedence = 1 ↔ 2 ≤ items.length) := by
  match items with
  | [] => decide
  | [only] =>
    have honly := hitems only List.mem_cons_self
    simp [concatItems, isChoice, honly]
  | last :: next :: earlier =>
    have hprecedence : (concatItems (last :: next :: earlier)).precedence = 1 := by
      rw [concatItems_eq]
      exact precedence_foldLatest concat (fun _ _ => rfl) (Nat.le_add_left 2 earlier.length)
    simp [hprecedence]

theorem shown_alternatives {alternatives : List Pattern} (h : alternatives ≠ []) :
    Place.alternative.shown alternatives = (foldLatest choice alternatives).chars ++ ['|'] := by
  obtain ⟨first, rest, hfirst⟩ := exists_first h
  unfold Place.shown
  rw [hfirst, foldLatest_reverse, chars_foldRight_choice, List.reverse_append,
    List.reverse_reverse, List.reverse_singleton, List.singleton_append, List.flatMap_cons,
    List.append_assoc, ← flatMap_bars, List.append_nil]
  simp only [Place.written, List.append_assoc, List.cons_append, List.nil_append]
  rfl

theorem Trims.of_alternatives {alternatives : List Pattern} {count : Nat} {text : List Char}
    (h : Trims count (Place.alternative.shown alternatives) (text ++ ['|']))
    (hne : alternatives ≠ []) : Trims count (foldLatest choice alternatives).chars text := by
  rw [shown_alternatives hne] at h
  exact h.of_append_right

theorem trims_group {l r : Pattern} {alternatives : List Pattern}
    (inner : Regroups .alternative (choice l r) [] alternatives)
    (hinside : Trims (choice l r).lost (Place.alternative.shown alternatives)
      ((choice l r).chars ++ ['|'])) {outer : Nat} (houter : 1 ≤ outer) :
    Trims (choice l r).lost
      (bracket (foldLatest choice alternatives).precedence outer
        (foldLatest choice alternatives).chars)
      (parenthesize (choice l r).chars) := by
  have hprecedence := precedence_group inner
  have hbracket : bracket (foldLatest choice alternatives).precedence outer
      (foldLatest choice alternatives).chars =
        parenthesize (foldLatest choice alternatives).chars := if_pos (by omega)
  rw [hbracket]
  exact (hinside.of_alternatives inner.ne_nil).parenthesize

theorem trims_starConcat {l r : Pattern} {inside : List Pattern}
    (inner : Regroups .item (concat l r) [] inside)
    (hinside : Trims (concat l r).lostInside (Place.item.shown inside) (concat l r).chars) :
    Trims (star (concat l r)).lostInside
      (bracket (concatItems inside).precedence 2 (concatItems inside).chars)
      (parenthesize (concat l r).chars) := by
  have hkinds := inner.kinds_items nofun
  have hprecedence := precedence_concatItems hkinds.1
  have hlength : (concat l r).kinds.length = inside.length := by
    have hmap : (inside.map isChoice).length = inside.length := List.length_map isChoice
    rw [← hmap, hkinds.2]
    rfl
  rw [← itemChars_concatItems] at hinside
  rw [lostInside, hlength]
  by_cases hmany : 2 ≤ inside.length
  -- two items keep the parentheses, and fewer let go of them
  · have hone := hprecedence.2.2 hmany
    have hbracket : bracket (concatItems inside).precedence 2 (concatItems inside).chars =
        parenthesize (concatItems inside).chars := if_pos (by omega)
    rw [if_neg (by omega), hbracket]
    rw [itemChars_of_pos (by omega)] at hinside
    exact hinside.parenthesize
  · have hone := mt hprecedence.2.1 hmany
    rw [if_pos ⟨rfl, by omega⟩, bracket_two hone]
    exact hinside.unwrap

theorem trims_single {p : Pattern} {items : List Pattern} (tight : 1 ≤ p.precedence)
    (inner : Regroups .item p [] items)
    (hinside : Trims p.lostInside (Place.item.shown items) p.itemChars) :
    Trims p.lost (concatItems items).chars p.chars := by
  have hkinds := inner.kinds_items nofun
  have hprecedence := precedence_concatItems hkinds.1
  rw [← itemChars_concatItems, itemChars_of_pos tight] at hinside
  have halone : p.lostAlone = if (concatItems items).precedence = 0 then 2 else 0 := by
    have hown : p.kinds = items.map isChoice := hkinds.2.symm
    unfold lostAlone
    simp only [hown, hprecedence.1, tight, true_and]
  have htrims := (trims_itemChars (concatItems items)).trans hinside
  rw [← halone] at htrims
  exact htrims

/-- What a text regroups to is written as the text, less what is lost. -/
theorem Regroups.trims {place : Place} {p : Pattern} {before after : List Pattern}
    (h : Regroups place p before after) (hbefore : place = .item → ∀ q ∈ before, q.precedence ≠ 1) :
    Trims (place.lost p) (place.shown after) (place.shown before ++ place.written p) := by
  induction h with
  | empty items =>
    have htext : Place.item.shown items ++ Place.item.written .empty = Place.item.shown items :=
      List.append_nil _
    rw [htext]
    exact .refl _
  | literal c items =>
    rw [Place.shown_cons]
    exact .refl _
  | @concat l r items between later left right ihl ihr =>
    have hbetween := (left.kinds_items (hbefore rfl)).1
    have hleft := (ihl hbefore).append_right r.itemChars
    have hright := ihr fun _ => hbetween
    rw [List.append_assoc] at hleft
    exact hright.trans hleft
  | @group l r items alternatives inner ih =>
    rw [Place.shown_cons]
    apply Trims.append_left
    exact trims_group inner (ih nofun) (Nat.le_refl 1)
  | @star p last items earlier tight operand ih =>
    -- the last item is no concatenation, so the star adds no parentheses around it
    have hlast := (operand.kinds_items (hbefore rfl)).1 last List.mem_cons_self
    have hoperand := (ih hbefore).append_right ['*']
    have hstar : Place.item.written (.star last) = last.itemChars ++ ['*'] :=
      itemChars_star hlast
    have htext : Place.item.written (.star p) = p.itemChars ++ ['*'] :=
      itemChars_star (by omega)
    have hlost : Place.item.lost (.star p) = Place.item.lost p := by
      have hprecedence : ¬(p.precedence = 1 ∧ p.kinds.length < 2) := by omega
      unfold Place.lost
      dsimp only
      rw [lostInside, if_neg hprecedence]
      rfl
    rw [Place.shown_cons, hstar, htext, hlost]
    rw [Place.shown_cons] at hoperand
    simp only [List.append_assoc] at hoperand ⊢
    exact hoperand
  | @starConcat l r items inside inner ih =>
    have hinside := ih fun _ _ mem => absurd mem List.not_mem_nil
    rw [Place.shown_cons]
    apply Trims.append_left
    exact (trims_starConcat inner hinside).append_right ['*']
  | @starGroup l r items alternatives inner ih =>
    rw [Place.shown_cons]
    apply Trims.append_left
    exact (trims_group inner (ih nofun) (Nat.le_succ 1)).append_right ['*']
  | @single p items alternatives tight inner ih =>
    have hinside := ih fun _ _ mem => absurd mem List.not_mem_nil
    rw [Place.shown_cons]
    apply Trims.append_left
    exact (trims_single tight inner hinside).append_right ['|']
  | @choice l r alternatives between later left right ihl ihr =>
    have hleft := (ihl nofun).append_right (r.chars ++ ['|'])
    have hboth := (ihr nofun).trans hleft
    have htext : Place.alternative.written (.choice l r) =
        Place.alternative.written l ++ (r.chars ++ ['|']) := by
      simp only [Place.written, chars_choice, List.append_assoc, List.cons_append,
        List.nil_append]
    rw [htext, ← List.append_assoc]
    exact hboth

end Pattern
end Automata
