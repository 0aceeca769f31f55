import Automata.Proofs.Parsing
import Automata.Proofs.Rendering
import Mathlib.Data.List.Basic

/-! Where reading a text fails shows on the characters alone. A scan from left to right looks at a
character, at the one before it and at the number of parentheses open so far, and the first offset
where one of three things is wrong is where reading stops. If there is none, reading stops at the
end only, for the parenthesis that was left open last. The reader keeps what the scan looks at: it
has an item just when a star may follow, and one waiting group for every open parenthesis. A text
that the grammar derives has nothing wrong but its depth. -/
namespace Automata
namespace Pattern

/-- The parentheses opened among the first `i` characters, less those closed. -/
def nesting (text : List Char) (i : Nat) : Int :=
  (text.take i).count '(' - (text.take i).count ')'

/-- What is wrong at an offset. -/
inductive Fault (text : List Char) (i : Nat) : ParseError → Prop where
  /-- A star that begins the text, an alternative or a group. -/
  | bareStar (star : text[i]? = some '*')
      (bare : i = 0 ∨ text[i - 1]? = some '|' ∨ text[i - 1]? = some '(') :
      Fault text i (.missingOperand i)
  | tooDeep (opens : text[i]? = some '(') (full : nesting text i = 256) :
      Fault text i (.tooDeep i)
  | trailing (closes : text[i]? = some ')') (none : nesting text i = 0) :
      Fault text i (.trailingParen i)

/-- Each parenthesis of the text has its partner in the text. -/
structure WellNested (text : List Char) : Prop where
  balanced : Balanced text
  above : ∀ before, before <+: text → before.count ')' ≤ before.count '('

/-- The parenthesis at an offset has its partner, with a well-nested text in between. -/
def Closed (text : List Char) (i : Nat) : Prop :=
  ∃ u w v, text = u ++ parenthesize w ++ v ∧ u.length = i ∧ WellNested w

/-- The last parenthesis that is opened and has no partner. -/
structure LastUnclosed (text : List Char) (i : Nat) : Prop where
  opens : text[i]? = some '('
  unclosed : ¬Closed text i
  last : ∀ j, i < j → text[j]? = some '(' → Closed text j

namespace WellNested
variable {u v text : List Char}

theorem of_not_mem (hopen : '(' ∉ text) (hclose : ')' ∉ text) : WellNested text where
  balanced := .of_not_mem hopen hclose
  above before hbefore := by
    have hnone : before.count ')' = 0 := List.count_eq_zero.2 fun mem => hclose (hbefore.subset mem)
    omega

theorem nil : WellNested [] := of_not_mem List.not_mem_nil List.not_mem_nil

theorem singleton {c : Char} (hopen : c ≠ '(') (hclose : c ≠ ')') : WellNested [c] :=
  of_not_mem (fun mem => hopen (List.mem_singleton.1 mem).symm)
    fun mem => hclose (List.mem_singleton.1 mem).symm

theorem append (hu : WellNested u) (hv : WellNested v) : WellNested (u ++ v) where
  balanced := hu.balanced.append hv.balanced
  above before hbefore := by
    cases List.prefix_or_prefix_of_prefix hbefore (List.prefix_append u v) with
    | inl hinside => exact hu.above before hinside
    | inr hbeyond =>
      obtain ⟨w, rfl⟩ := hbeyond
      have hw := hv.above w ((List.prefix_append_right_inj u).1 hbefore)
      have hbalanced := hu.balanced
      unfold Balanced at hbalanced
      rw [List.count_append, List.count_append]
      omega

theorem parenthesize (h : WellNested text) : WellNested (parenthesize text) where
  balanced := h.balanced.parenthesize
  above before hbefore := by
    cases before with
    | nil => exact Nat.le_refl _
    | cons c before =>
      obtain ⟨rfl, hrest⟩ := List.cons_prefix_cons.1 hbefore
      have hopen : ('(' :: before).count '(' = before.count '(' + 1 := List.count_cons_self
      have hclose : ('(' :: before).count ')' = before.count ')' :=
        List.count_cons_of_ne (by decide)
      rcases List.prefix_concat_iff.1 hrest with rfl | hinside
      · have hbalanced := h.balanced
        unfold Balanced at hbalanced
        simp only [List.count_append, List.count_cons, List.count_nil] at hopen hclose ⊢
        simp [hbalanced]
      · have := h.above before hinside
        omega

/-- Something is open wherever a well-nested text closes. -/
theorem open_of_close (h : WellNested (u ++ ')' :: v)) : u.count ')' < u.count '(' := by
  have hprefix : u ++ [')'] <+: u ++ ')' :: v :=
    (List.prefix_append_right_inj u).2 (List.prefix_append [')'] v)
  have habove := h.above _ hprefix
  have hone : [')'].count '(' + 1 = [')'].count ')' := rfl
  rw [List.count_append, List.count_append] at habove
  omega

/-- A text that closes more than it opens has a first parenthesis without a partner. -/
theorem exists_first_close (h : text.count '(' < text.count ')') :
    ∃ w rest, text = w ++ ')' :: rest ∧ WellNested w := by
  generalize hlength : text.length = length
  induction length using Nat.strongRecOn generalizing text with
  | ind length ih =>
    cases text with
    | nil => exact absurd h (Nat.lt_irrefl 0)
    | cons c text =>
      rw [List.length_cons] at hlength
      by_cases hclose : c = ')'
      · exact ⟨[], text, by rw [hclose]; rfl, nil⟩
      by_cases hopen : c = '('
      · -- what is opened here is closed first, and then the rest still closes too much
        subst hopen
        rw [List.count_cons_self, List.count_cons_of_ne (by decide)] at h
        obtain ⟨w, middle, rfl, hw⟩ := ih text.length (by omega) (by omega) rfl
        have hbalanced := hw.balanced
        unfold Balanced at hbalanced
        simp only [List.count_append, List.count_cons, List.length_append, List.length_cons]
          at h hlength
        simp only [beq_iff_eq, Char.reduceEq, if_false, if_true] at h
        obtain ⟨w', rest, rfl, hw'⟩ := ih middle.length (by omega) (by omega) rfl
        refine ⟨Pattern.parenthesize w ++ w', rest, ?_, hw.parenthesize.append hw'⟩
        simp only [Pattern.parenthesize, List.cons_append, List.append_assoc, List.nil_append]
      · rw [List.count_cons_of_ne hopen, List.count_cons_of_ne hclose] at h
        obtain ⟨w, rest, rfl, hw⟩ := ih text.length (by omega) h rfl
        exact ⟨c :: w, rest, rfl, (singleton hopen hclose).append hw⟩

end WellNested

theorem Composed.wellNested {text : List Char} (h : Composed text) : WellNested text := by
  induction h with
  | nil => exact .nil
  | single hopen hclose => exact .singleton hopen hclose
  | append _ _ hu hv => exact hu.append hv
  | parenthesize _ hinner => exact hinner.parenthesize

/-- A star after this text has no operand. -/
def Bare (before : List Char) : Prop :=
  before = [] ∨ before.getLast? = some '|' ∨ before.getLast? = some '('

theorem bare_concat {before : List Char} {c : Char} :
    Bare (before ++ [c]) ↔ c = '|' ∨ c = '(' := by
  unfold Bare
  rw [List.getLast?_concat, Option.some.injEq, Option.some.injEq]
  simp

theorem not_bare_concat {before : List Char} {c : Char} (hbar : c ≠ '|') (hopen : c ≠ '(') :
    ¬Bare (before ++ [c]) := by
  rw [bare_concat]
  exact not_or.2 ⟨hbar, hopen⟩

/-- What makes an offset wrong, said of the text before it. -/
theorem fault_iff {u v : List Char} {c : Char} {e : ParseError} :
    Fault (u ++ c :: v) u.length e ↔
      (c = '*' ∧ Bare u ∧ e = .missingOperand u.length) ∨
      (c = '(' ∧ u.count '(' = u.count ')' + maxDepth ∧ e = .tooDeep u.length) ∨
      (c = ')' ∧ u.count '(' = u.count ')' ∧ e = .trailingParen u.length) := by
  have hlimit : maxDepth = 256 := rfl
  have hc : (u ++ c :: v)[u.length]? = some c := by simp
  have hnesting : nesting (u ++ c :: v) u.length = u.count '(' - u.count ')' := by
    rw [nesting, List.take_left]
  have hbare : (u.length = 0 ∨ (u ++ c :: v)[u.length - 1]? = some '|' ∨
      (u ++ c :: v)[u.length - 1]? = some '(') ↔ Bare u := by
    unfold Bare
    rw [List.getLast?_eq_getElem?, List.length_eq_zero_iff]
    by_cases hu : u = []
    · simp [hu]
    · have hlast : u.length - 1 < u.length := Nat.sub_one_lt (mt List.length_eq_zero_iff.1 hu)
      rw [List.getElem?_append_left hlast]
  constructor
  · intro h
    cases h with
    | bareStar star bare =>
      exact .inl ⟨Option.some.inj (hc.symm.trans star), hbare.1 bare, rfl⟩
    | tooDeep opens full =>
      rw [hnesting] at full
      exact .inr (.inl ⟨Option.some.inj (hc.symm.trans opens), by omega, rfl⟩)
    | trailing closes none =>
      rw [hnesting] at none
      exact .inr (.inr ⟨Option.some.inj (hc.symm.trans closes), by omega, rfl⟩)
  · rintro (⟨rfl, bare, rfl⟩ | ⟨rfl, full, rfl⟩ | ⟨rfl, none, rfl⟩)
    · exact .bareStar hc (hbare.2 bare)
    · exact .tooDeep hc (by rw [hnesting]; omega)
    · exact .trailing hc (by rw [hnesting]; omega)

/-- The offsets of the parentheses that the text leaves open, innermost first. -/
inductive LeavesOpen : List Char → List Nat → Prop where
  | nested {u : List Char} (h : WellNested u) : LeavesOpen u []
  | opened {u v : List Char} {offsets : List Nat} (outer : LeavesOpen u offsets)
      (inner : WellNested v) : LeavesOpen (u ++ '(' :: v) (u.length :: offsets)

namespace LeavesOpen
variable {u v : List Char} {offsets : List Nat}

theorem append (h : LeavesOpen u offsets) (hv : WellNested v) : LeavesOpen (u ++ v) offsets := by
  cases h with
  | nested hu => exact .nested (hu.append hv)
  | opened outer inner =>
    rw [List.append_assoc, List.cons_append]
    exact .opened outer (inner.append hv)

theorem opening (h : LeavesOpen u offsets) : LeavesOpen (u ++ ['(']) (u.length :: offsets) :=
  .opened h .nil

/-- A closing parenthesis is the partner of the one opened last. -/
theorem closing {i : Nat} (h : LeavesOpen u (i :: offsets)) : LeavesOpen (u ++ [')']) offsets := by
  cases h with
  | @opened u v _ outer inner =>
    have h := outer.append inner.parenthesize
    rw [List.append_assoc, List.cons_append]
    exact h

theorem count_eq (h : LeavesOpen u offsets) : u.count '(' = u.count ')' + offsets.length := by
  induction h with
  | nested hu => exact hu.balanced
  | opened _ inner ih =>
    have hinner := inner.balanced
    unfold Balanced at hinner
    rw [List.count_append, List.count_append, List.count_cons_self,
      List.count_cons_of_ne (by decide), List.length_cons]
    omega

end LeavesOpen

/-- What reading a character comes to, inside a group and the groups around it. -/
inductive Reading.Outcome (group : Group) (enclosing : List (Nat × Group)) (position : Nat) :
    Char → Except ParseError Reading → Prop where
  | opens (h : enclosing.length < maxDepth) :
      Outcome group enclosing position '(' (.ok ⟨.start, (position, group) :: enclosing⟩)
  | tooDeep (h : maxDepth ≤ enclosing.length) :
      Outcome group enclosing position '(' (.error (.tooDeep position))
  | closes {opened : Nat} {outer : Group} {rest : List (Nat × Group)}
      (h : enclosing = (opened, outer) :: rest) :
      Outcome group enclosing position ')' (.ok ⟨outer.push group.close, rest⟩)
  | trailing (h : enclosing = []) :
      Outcome group enclosing position ')' (.error (.trailingParen position))
  | bar : Outcome group enclosing position '|' (.ok ⟨group.bar, enclosing⟩)
  | star {item : Pattern} {earlier : List Pattern} (h : group.items = item :: earlier) :
      Outcome group enclosing position '*'
        (.ok ⟨⟨group.alternatives, .star item :: earlier⟩, enclosing⟩)
  | bareStar (h : group.items = []) :
      Outcome group enclosing position '*' (.error (.missingOperand position))
  | literal {c : Char} (plain : c ∉ special) :
      Outcome group enclosing position c (.ok ⟨group.push (.literal c), enclosing⟩)

theorem Reading.outcome (group : Group) (enclosing : List (Nat × Group)) (position : Nat)
    (c : Char) : Outcome group enclosing position c (read ⟨group, enclosing⟩ position c) := by
  unfold read
  dsimp only
  split
  · split
    · next hlimit => exact .opens hlimit
    · next hlimit => exact .tooDeep (Nat.le_of_not_lt hlimit)
  · split
    · exact .trailing rfl
    · exact .closes rfl
  · exact .bar
  · split
    · next hitems => exact .bareStar hitems
    · next hitems => exact .star hitems
  · next hopen hclose hbar hstar => exact .literal (not_mem_special.2 ⟨hbar, hstar, hopen, hclose⟩)

/-- What the reader holds after a text that it could read. -/
structure Scanned (before : List Char) (reading : Reading) : Prop where
  items : reading.group.items = [] ↔ Bare before
  enclosing : LeavesOpen before (reading.enclosing.map Prod.fst)
  depth : reading.enclosing.length ≤ maxDepth

namespace Scanned
variable {reading next : Reading} {u v rest : List Char} {c : Char} {e : ParseError}

theorem start : Scanned [] .start where
  items := iff_of_true rfl (.inl rfl)
  enclosing := .nested .nil
  depth := Nat.zero_le _

theorem count_eq (h : Scanned u reading) :
    u.count '(' = u.count ')' + reading.enclosing.length := by
  have hcount := h.enclosing.count_eq
  rw [List.length_map] at hcount
  exact hcount

/-- A character that is read leaves the reader with what it should hold. -/
theorem read_of_ok (h : Scanned u reading) (hread : reading.read u.length c = .ok next) :
    Scanned (u ++ [c]) next := by
  obtain ⟨group, enclosing⟩ := reading
  obtain ⟨-, henclosing, hdepth⟩ := h
  have houtcome := Reading.outcome group enclosing u.length c
  rw [hread] at houtcome
  cases houtcome with
  | opens hlimit => exact ⟨iff_of_true rfl (bare_concat.2 (.inr rfl)), henclosing.opening, hlimit⟩
  | @closes opened outer rest hsplit =>
    subst hsplit
    have hbare : ¬Bare (u ++ [')']) := not_bare_concat (by decide) (by decide)
    exact ⟨iff_of_false (List.cons_ne_nil _ _) hbare, henclosing.closing, Nat.le_of_succ_le hdepth⟩
  | bar =>
    have hbar : WellNested ['|'] := .of_not_mem (by decide) (by decide)
    exact ⟨iff_of_true rfl (bare_concat.2 (.inl rfl)), henclosing.append hbar, hdepth⟩
  | star hitems =>
    have hbare : ¬Bare (u ++ ['*']) := not_bare_concat (by decide) (by decide)
    have hstar : WellNested ['*'] := .of_not_mem (by decide) (by decide)
    exact ⟨iff_of_false (List.cons_ne_nil _ _) hbare, henclosing.append hstar, hdepth⟩
  | literal plain =>
    obtain ⟨hbar, -, hopen, hclose⟩ := not_mem_special.1 plain
    exact ⟨iff_of_false (List.cons_ne_nil _ _) (not_bare_concat hbar hopen),
      henclosing.append (.singleton hopen hclose), hdepth⟩

/-- What the reader answers shows whether the character is at fault, and how. -/
theorem fault_iff_read (h : Scanned u reading) :
    Fault (u ++ c :: v) u.length e ↔ reading.read u.length c = .error e := by
  have hcount := h.count_eq
  have hitems := h.items
  obtain ⟨group, enclosing⟩ := reading
  have hdepth : enclosing.length ≤ maxDepth := h.depth
  have houtcome := Reading.outcome group enclosing u.length c
  rw [fault_iff]
  generalize Reading.read ⟨group, enclosing⟩ u.length c = result at houtcome
  dsimp only at hcount hitems
  cases houtcome with
  | opens hlimit =>
    have hroom : u.count '(' ≠ u.count ')' + maxDepth := by omega
    simp [hroom]
  | tooDeep hfull =>
    have hroom : u.count '(' = u.count ')' + maxDepth := by omega
    simp [hroom, eq_comm]
  | closes hsplit =>
    rw [hsplit, List.length_cons] at hcount
    have hopen : u.count '(' ≠ u.count ')' := by omega
    simp [hopen]
  | trailing hnone =>
    rw [hnone, List.length_nil] at hcount
    have hopen : u.count '(' = u.count ')' := by omega
    simp [hopen, eq_comm]
  | bar => simp
  | star hsplit =>
    have hbare : ¬Bare u := by simp [← hitems, hsplit]
    simp [hbare]
  | bareStar hnone =>
    have hbare : Bare u := hitems.1 hnone
    simp [hbare, eq_comm]
  | literal plain =>
    obtain ⟨-, hstar, hopen, hclose⟩ := not_mem_special.1 plain
    simp [hstar, hopen, hclose]

end Scanned

theorem exists_split {i : Nat} {text : List Char} {c : Char} (h : text[i]? = some c) :
    ∃ u v, text = u ++ c :: v ∧ u.length = i := by
  obtain ⟨hlength, rfl⟩ := List.getElem?_eq_some_iff.1 h
  refine ⟨text.take i, text.drop (i + 1), ?_, List.length_take_of_le (Nat.le_of_lt hlength)⟩
  rw [← List.drop_eq_getElem_cons hlength, List.take_append_drop]

theorem Fault.lt_length {text : List Char} {i : Nat} {e : ParseError} (h : Fault text i e) :
    i < text.length := by
  cases h with
  | bareStar star _ => exact (List.getElem?_eq_some_iff.1 star).1
  | tooDeep opens _ => exact (List.getElem?_eq_some_iff.1 opens).1
  | trailing closes _ => exact (List.getElem?_eq_some_iff.1 closes).1

theorem Fault.position_eq {text : List Char} {i : Nat} {e : ParseError} (h : Fault text i e) :
    e.position = i := by
  cases h <;> rfl

/-- The character at an offset has one failure at most. -/
theorem Fault.unique {text : List Char} {i : Nat} {e e' : ParseError} (h : Fault text i e)
    (h' : Fault text i e') : e = e' := by
  cases h <;> cases h' <;> simp_all

/-- The first offset that is at fault. -/
structure FirstFault (text : List Char) (i : Nat) (e : ParseError) : Prop where
  fault : Fault text i e
  first : ∀ j < i, ∀ e', ¬Fault text j e'

theorem FirstFault.unique {text : List Char} {i j : Nat} {e e' : ParseError}
    (h : FirstFault text i e) (h' : FirstFault text j e') : e = e' := by
  rcases Nat.lt_trichotomy i j with hlt | rfl | hgt
  · exact absurd h.fault (h'.first i hlt e)
  · exact h.fault.unique h'.fault
  · exact absurd h'.fault (h.first j hgt e')

/-- A run of the reader stops at the first fault, or there is none. -/
theorem Scanned.readAll {reading : Reading} {u : List Char} (h : Scanned u reading)
    (rest : List Char) (hfine : ∀ j < u.length, ∀ e, ¬Fault (u ++ rest) j e) :
    (∃ next, reading.readAll u.length rest = .ok next ∧ Scanned (u ++ rest) next ∧
      ∀ i e, ¬Fault (u ++ rest) i e) ∨
    ∃ i e, reading.readAll u.length rest = .error e ∧ FirstFault (u ++ rest) i e := by
  induction rest generalizing u reading with
  | nil =>
    rw [List.append_nil] at hfine ⊢
    exact .inl ⟨reading, rfl, h, fun i e hfault => hfine i hfault.lt_length e hfault⟩
  | cons c rest ih =>
    rw [Reading.readAll]
    cases hread : reading.read u.length c with
    | error e => exact .inr ⟨u.length, e, rfl, h.fault_iff_read.2 hread, hfine⟩
    | ok next =>
      have hnext := h.read_of_ok hread
      have hsplit : u ++ c :: rest = u ++ [c] ++ rest := by
        rw [List.append_assoc, List.singleton_append]
      have hlength : (u ++ [c]).length = u.length + 1 := by
        rw [List.length_append, List.length_singleton]
      rw [hsplit] at hfine ⊢
      have hrest := ih hnext fun j hj e => by
        rcases Nat.lt_succ_iff_lt_or_eq.1 (hlength ▸ hj) with hbefore | rfl
        · exact hfine j hbefore e
        · rw [← hsplit, h.fault_iff_read, hread]
          exact fun h => by cases h
      rw [hlength] at hrest
      exact hrest

/-- The innermost parenthesis that a text leaves open is the last without a partner. -/
theorem LeavesOpen.lastUnclosed {text : List Char} {i : Nat} {offsets : List Nat}
    (h : LeavesOpen text (i :: offsets)) : LastUnclosed text i := by
  cases h with
  | @opened u v _ _ inner =>
    refine ⟨by simp, ?_, fun j hj hopens => ?_⟩
    · rintro ⟨u', w, v', hsplit, hlength, hw⟩
      -- the partner would close more inside than was opened there
      rw [List.append_assoc] at hsplit
      have hinside := (List.append_inj hsplit hlength.symm).2
      simp only [parenthesize, List.cons_append, List.append_assoc, List.nil_append,
        List.cons.injEq, true_and] at hinside
      have habove := inner.above (w ++ [')']) (by
        rw [hinside, List.prefix_append_right_inj]
        exact List.prefix_append [')'] v')
      have hbalanced := hw.balanced
      unfold Balanced at hbalanced
      have hone : [')'].count '(' + 1 = [')'].count ')' := rfl
      rw [List.count_append, List.count_append] at habove
      omega
    · obtain ⟨k, rfl⟩ : ∃ k, j = u.length + (k + 1) := ⟨j - u.length - 1, by omega⟩
      rw [List.getElem?_append_right (Nat.le_add_right _ _), Nat.add_sub_cancel_left,
        List.getElem?_cons_succ] at hopens
      obtain ⟨x, y, rfl, hx⟩ := exists_split hopens
      have hbalanced := inner.balanced
      have habove := inner.above x (List.prefix_append x _)
      unfold Balanced at hbalanced
      rw [List.count_append, List.count_append, List.count_cons_self,
        List.count_cons_of_ne (by decide)] at hbalanced
      have hclose : y.count '(' < y.count ')' := by omega
      obtain ⟨w, rest, rfl, hw⟩ := WellNested.exists_first_close hclose
      refine ⟨u ++ '(' :: x, w, rest, ?_, ?_, hw⟩
      · simp only [parenthesize, List.cons_append, List.append_assoc, List.nil_append]
      · rw [List.length_append, List.length_cons, hx]

section Outcome
variable {text : List Char} {i : Nat} {e : ParseError}

/-- Without a fault the whole text is read, and only its end can fail. -/
theorem scan (text : List Char) :
    (∃ i e, FirstFault text i e ∧ parseChars text = .error e) ∨
    (∀ i e, ¬Fault text i e) ∧
      ∃ reading, Scanned text reading ∧ parseChars text = reading.finish := by
  unfold parseChars
  rcases Scanned.start.readAll text (fun j hj => absurd hj (Nat.not_lt_zero j)) with
    ⟨reading, hread, hscanned, hfine⟩ | ⟨i, e, hread, hfirst⟩
  · refine .inr ⟨hfine, reading, hscanned, ?_⟩
    rw [List.length_nil] at hread
    rw [hread]
    rfl
  · refine .inl ⟨i, e, hfirst, ?_⟩
    rw [List.length_nil] at hread
    rw [hread]
    rfl

theorem parseChars_of_firstFault (h : FirstFault text i e) : parseChars text = .error e := by
  rcases scan text with ⟨j, e', hfirst, hparse⟩ | ⟨hfine, _⟩
  · rw [h.unique hfirst]
    exact hparse
  · exact absurd h.fault (hfine i e)

theorem exists_scanned (h : ∀ i e, ¬Fault text i e) :
    ∃ reading, Scanned text reading ∧ parseChars text = reading.finish := by
  rcases scan text with ⟨i, e, hfirst, _⟩ | ⟨_, hscanned⟩
  · exact absurd hfirst.fault (h i e)
  · exact hscanned

theorem nesting_length (text : List Char) :
    nesting text text.length = text.count '(' - text.count ')' := by
  rw [nesting, List.take_length]

theorem parseChars_of_open (h : ∀ i e, ¬Fault text i e) (hopen : 0 < nesting text text.length) :
    ∃ j, LastUnclosed text j ∧ parseChars text = .error (.unclosedParen j) := by
  obtain ⟨⟨group, enclosing⟩, hscanned, hparse⟩ := exists_scanned h
  have hcount := hscanned.count_eq
  have henclosing := hscanned.enclosing
  rw [nesting_length] at hopen
  cases enclosing with
  | nil =>
    rw [List.length_nil] at hcount
    omega
  | cons opened enclosing => exact ⟨opened.1, henclosing.lastUnclosed, hparse⟩

theorem parseChars_of_closed (h : ∀ i e, ¬Fault text i e)
    (hclosed : nesting text text.length ≤ 0) : ∃ p, parseChars text = .ok p := by
  obtain ⟨⟨group, enclosing⟩, hscanned, hparse⟩ := exists_scanned h
  have hcount := hscanned.count_eq
  rw [nesting_length] at hclosed
  cases enclosing with
  | nil => exact ⟨_, hparse⟩
  | cons opened enclosing =>
    rw [List.length_cons] at hcount
    omega

/-- Every failure names a character of the text. -/
theorem position_lt_of_parseChars (h : parseChars text = .error e) : e.position < text.length := by
  rcases scan text with ⟨i, e', hfirst, hparse⟩ | ⟨_, ⟨group, enclosing⟩, hscanned, hparse⟩
  · rw [Except.error.inj (h.symm.trans hparse), hfirst.fault.position_eq]
    exact hfirst.fault.lt_length
  · rw [hparse] at h
    have henclosing := hscanned.enclosing
    cases enclosing with
    | nil => cases h
    | cons opened enclosing =>
      cases h
      exact (List.getElem?_eq_some_iff.1 henclosing.lastUnclosed.opens).1

end Outcome

/-- Every star of the text has an operand. -/
def Operands (text : List Char) : Prop := ∀ u v, text = u ++ '*' :: v → ¬Bare u

theorem Bare.of_append {u v : List Char} (h : Bare (u ++ v)) : Bare v := by
  rcases List.eq_nil_or_concat' v with rfl | ⟨v, c, rfl⟩
  · exact .inl rfl
  · rw [← List.append_assoc] at h
    exact bare_concat.2 (bare_concat.1 h)

namespace Operands
variable {u v text : List Char}

theorem of_not_mem (h : '*' ∉ text) : Operands text := by
  rintro u v rfl
  exact absurd (List.mem_append_right u List.mem_cons_self) h

theorem append (hu : Operands u) (hv : Operands v) : Operands (u ++ v) := by
  intro x y hsplit hbare
  rcases List.append_eq_append_iff.1 hsplit with ⟨a, rfl, hright⟩ | ⟨a, hleft, hright⟩
  · exact hv a y hright hbare.of_append
  · cases a with
    | nil => exact hv [] y hright.symm (.inl rfl)
    | cons c a =>
      obtain ⟨rfl, rfl⟩ := List.cons.inj hright
      exact hu x a hleft hbare

theorem star (h : Operands text) (hbare : ¬Bare text) : Operands (text ++ ['*']) := by
  intro x y hsplit
  rcases List.eq_nil_or_concat' y with rfl | ⟨y, c, rfl⟩
  · rw [← (List.append_left_inj ['*']).1 hsplit]
    exact hbare
  · rw [← List.cons_append, ← List.append_assoc] at hsplit
    exact h x y (List.append_inj' hsplit rfl).1

end Operands

section Derived
variable {n : Nonterminal} {text : List Char} {tree : Pattern} {i : Nat} {e : ParseError}

theorem Derives.wellNested (h : Derives n text tree) : WellNested text := h.composed.wellNested

/-- An item ends in a character that a star may follow. -/
theorem Derives.operands (h : Derives n text tree) :
    Operands text ∧ (1 ≤ n.strength → ¬Bare text) := by
  have hnil : Operands [] := .of_not_mem List.not_mem_nil
  induction h with
  | choose first others _ _ hfirst hothers =>
    refine ⟨hfirst.1.append ?_, fun hstrength => absurd hstrength (by decide)⟩
    apply forall_flatMap hnil .append
    intro piece mem
    have hbar : Operands ['|'] := .of_not_mem (by decide)
    exact hbar.append (hothers piece mem).1
  | concat pieces _ hpieces =>
    refine ⟨forall_flatMap hnil .append fun piece mem => (hpieces piece mem).1, ?_⟩
    exact fun hstrength => absurd hstrength (by decide)
  | @repeated stars text tree _ hatom =>
    have hstars : Operands (text ++ List.replicate stars '*') ∧
        ¬Bare (text ++ List.replicate stars '*') := by
      induction stars with
      | zero =>
        rw [List.replicate_zero, List.append_nil]
        exact ⟨hatom.1, hatom.2 (Nat.le_succ 1)⟩
      | succ stars ih =>
        rw [List.replicate_succ', ← List.append_assoc]
        exact ⟨ih.1.star ih.2, not_bare_concat (by decide) (by decide)⟩
    exact ⟨hstars.1, fun _ => hstars.2⟩
  | @group text tree _ hinner =>
    have hopen : Operands ['('] := .of_not_mem (by decide)
    have hclose : Operands [')'] := .of_not_mem (by decide)
    have hbare : ¬Bare (('(' :: text) ++ [')']) := not_bare_concat (by decide) (by decide)
    exact ⟨hopen.append (hinner.1.append hclose), fun _ => hbare⟩
  | literal c plain =>
    rw [not_mem_special] at plain
    have hbare : ¬Bare ([] ++ [c]) := not_bare_concat plain.1 plain.2.2.1
    exact ⟨.of_not_mem fun mem => plain.2.1 (List.mem_singleton.1 mem).symm, fun _ => hbare⟩

/-- All that can be wrong with a text of the grammar is its depth. -/
theorem Derives.eq_tooDeep (h : Derives n text tree) (hfault : Fault text i e) :
    e = .tooDeep i := by
  obtain ⟨c, hc⟩ : ∃ c, text[i]? = some c := ⟨_, List.getElem?_eq_getElem hfault.lt_length⟩
  obtain ⟨u, v, rfl, rfl⟩ := exists_split hc
  rcases fault_iff.1 hfault with ⟨rfl, hbare, -⟩ | ⟨-, -, rfl⟩ | ⟨rfl, hnone, -⟩
  · exact absurd hbare (h.operands.1 u v rfl)
  · rfl
  · exact absurd hnone (Nat.ne_of_gt h.wellNested.open_of_close)

/-- A text of the grammar that is read fails only for its depth. -/
theorem Derives.parseChars_of_deep (h : Derives .choose text tree)
    (hdeep : ¬OpenAtMost maxDepth text) : ∃ i, parseChars text = .error (.tooDeep i) := by
  rcases scan text with ⟨i, e, hfirst, hparse⟩ | ⟨hfine, -⟩
  · rw [h.eq_tooDeep hfirst.fault] at hparse
    exact ⟨i, hparse⟩
  · have hbalanced := h.wellNested.balanced
    unfold Balanced at hbalanced
    obtain ⟨p, hparse⟩ := parseChars_of_closed hfine (by rw [nesting_length]; omega)
    exact absurd (parseChars_eq_ok.1 hparse).2 hdeep

end Derived

end Pattern
end Automata
