import Automata.Pattern.Parser
import Mathlib.Logic.Function.Iterate

/-! The grammar of patterns: which texts derive which trees. Lists of alternatives and of items are
folded to the right, an empty list of items is the empty pattern, and parentheses leave no trace.
Derived texts are balanced, since no literal is a parenthesis, so what a text opens at any point can
be counted on the characters alone. -/
namespace Automata
namespace Pattern

/-- The parts of the grammar, from the loosest to the tightest. -/
inductive Nonterminal where
  | choose
  | concat
  | repeated
  | atom

/-- The characters that are no literals. -/
def special : List Char := ['|', '*', '(', ')']

theorem not_mem_special {c : Char} :
    c ∉ special ↔ c ≠ '|' ∧ c ≠ '*' ∧ c ≠ '(' ∧ c ≠ ')' := by
  simp only [special, List.mem_cons, List.not_mem_nil, or_false, not_or]

/-- The first of the patterns joined to the rest, which associate to the right. -/
def foldRight (join : Pattern → Pattern → Pattern) (first : Pattern) : List Pattern → Pattern
  | [] => first
  | next :: rest => join first (foldRight join next rest)

/-- The tree of the items of an alternative; without items it is the empty pattern. -/
def sequence : List Pattern → Pattern
  | [] => empty
  | first :: rest => foldRight concat first rest

/-- A text derives a tree. The pieces of a list are paired with the trees that they derive. -/
inductive Derives : Nonterminal → List Char → Pattern → Prop where
  /-- Alternatives with bars between them. -/
  | choose (first : List Char × Pattern) (others : List (List Char × Pattern))
      (hfirst : Derives .concat first.1 first.2)
      (hothers : ∀ piece ∈ others, Derives .concat piece.1 piece.2) :
      Derives .choose (first.1 ++ others.flatMap fun piece => '|' :: piece.1)
        (foldRight .choice first.2 (others.map Prod.snd))
  /-- Items side by side, or none. -/
  | concat (pieces : List (List Char × Pattern))
      (hpieces : ∀ piece ∈ pieces, Derives .repeated piece.1 piece.2) :
      Derives .concat (pieces.flatMap Prod.fst) (sequence (pieces.map Prod.snd))
  /-- An atom with any number of stars. -/
  | repeated (stars : Nat) {text : List Char} {tree : Pattern} (atom : Derives .atom text tree) :
      Derives .repeated (text ++ List.replicate stars '*') (star^[stars] tree)
  /-- Parentheses, which leave no trace in the tree. -/
  | group {text : List Char} {tree : Pattern} (inner : Derives .choose text tree) :
      Derives .atom (parenthesize text) tree
  | literal (c : Char) (plain : c ∉ special) : Derives .atom [c] (.literal c)

/-- Nowhere in the text are more parentheses open than the limit allows. -/
def OpenAtMost (limit : Nat) (text : List Char) : Prop :=
  ∀ before, before <+: text → before.count '(' ≤ before.count ')' + limit

section Folding
variable (join : Pattern → Pattern → Pattern)

def foldLatest : List Pattern → Pattern
  | [] => empty
  | last :: earlier => earlier.foldl (fun rest item => join item rest) last

theorem foldLatest_append (x : Pattern) (later earlier : List Pattern) :
    foldLatest join (later.reverse ++ x :: earlier) =
      earlier.foldl (fun rest item => join item rest) (foldRight join x later) := by
  induction later generalizing x earlier with
  | nil => rfl
  | cons y later ih =>
    rw [List.reverse_cons, List.append_assoc, List.singleton_append, ih]
    rfl

theorem foldLatest_reverse (first : Pattern) (rest : List Pattern) :
    foldLatest join (rest.reverse ++ [first]) = foldRight join first rest :=
  foldLatest_append join first rest []

end Folding

theorem concatItems_eq (items : List Pattern) : concatItems items = foldLatest concat items := by
  cases items <;> rfl

theorem concatItems_reverse (items : List Pattern) :
    concatItems items.reverse = sequence items := by
  rw [concatItems_eq]
  cases items with
  | nil => rfl
  | cons first rest =>
    rw [List.reverse_cons, foldLatest_reverse]
    rfl

namespace Derives
variable {text : List Char} {tree : Pattern}

theorem of_atom (atom : Derives .atom text tree) : Derives .repeated text tree := by
  have h := repeated 0 atom
  rw [List.replicate_zero, List.append_nil] at h
  exact h

theorem star (h : Derives .repeated text tree) :
    Derives .repeated (text ++ ['*']) (.star tree) := by
  cases h with
  | @repeated stars text tree atom =>
    have h := repeated (stars + 1) atom
    rw [List.replicate_succ', Function.iterate_succ_apply', ← List.append_assoc] at h
    exact h

end Derives

/-- The text closes as many parentheses as it opens. -/
def Balanced (text : List Char) : Prop := text.count '(' = text.count ')'

theorem Balanced.append {u v : List Char} (hu : Balanced u) (hv : Balanced v) :
    Balanced (u ++ v) := by
  unfold Balanced at *
  rw [List.count_append, List.count_append, hu, hv]

theorem Balanced.of_not_mem {text : List Char} (hopen : '(' ∉ text) (hclose : ')' ∉ text) :
    Balanced text := by
  unfold Balanced
  rw [List.count_eq_zero.2 hopen, List.count_eq_zero.2 hclose]

theorem Balanced.singleton {c : Char} (hopen : c ≠ '(') (hclose : c ≠ ')') : Balanced [c] :=
  of_not_mem (fun mem => hopen (List.mem_singleton.1 mem).symm)
    fun mem => hclose (List.mem_singleton.1 mem).symm

theorem Balanced.parenthesize {text : List Char} (h : Balanced text) :
    Balanced (parenthesize text) := by
  unfold Balanced Pattern.parenthesize at *
  simp [h]

theorem forall_flatMap {P : List Char → Prop} (nil : P [])
    (append : ∀ {u v}, P u → P v → P (u ++ v)) {α : Type} {f : α → List Char} {pieces : List α}
    (h : ∀ piece ∈ pieces, P (f piece)) : P (pieces.flatMap f) := by
  induction pieces with
  | nil => exact nil
  | cons piece rest ih =>
    have hrest := ih fun other mem => h other (List.mem_cons_of_mem piece mem)
    exact append (h piece List.mem_cons_self) hrest

/-- Texts put together from single characters, side by side and in parentheses. -/
inductive Composed : List Char → Prop where
  | nil : Composed []
  | single {c : Char} (hopen : c ≠ '(') (hclose : c ≠ ')') : Composed [c]
  | append {u v : List Char} (left : Composed u) (right : Composed v) : Composed (u ++ v)
  | parenthesize {text : List Char} (inner : Composed text) : Composed (parenthesize text)

theorem Composed.balanced {text : List Char} (h : Composed text) : Balanced text := by
  induction h with
  | nil => rfl
  | single hopen hclose => exact .singleton hopen hclose
  | append _ _ hu hv => exact hu.append hv
  | parenthesize _ hinner => exact hinner.parenthesize

theorem Derives.composed {n : Nonterminal} {text : List Char} {tree : Pattern}
    (h : Derives n text tree) : Composed text := by
  induction h with
  | choose first others _ _ hfirst hothers =>
    have hbar : Composed ['|'] := .single (by decide) (by decide)
    apply hfirst.append
    apply forall_flatMap .nil .append
    exact fun piece mem => hbar.append (hothers piece mem)
  | concat pieces _ hpieces => exact forall_flatMap .nil .append hpieces
  | repeated stars _ hatom =>
    have hstar : Composed ['*'] := .single (by decide) (by decide)
    apply hatom.append
    induction stars with
    | zero => exact .nil
    | succ stars ih => exact hstar.append ih
  | group _ hinner => exact hinner.parenthesize
  | literal c plain =>
    obtain ⟨-, -, hopen, hclose⟩ := not_mem_special.1 plain
    exact .single hopen hclose

theorem Derives.balanced {n : Nonterminal} {text : List Char} {tree : Pattern}
    (h : Derives n text tree) : Balanced text :=
  h.composed.balanced

namespace OpenAtMost
variable {limit : Nat} {c : Char} {text u v : List Char}

theorem nil : OpenAtMost limit [] := by
  intro before h
  rw [List.prefix_nil.1 h]
  exact Nat.zero_le _

/-- What one character adds to the open parentheses it takes from the limit. -/
theorem cons_iff {later : Nat} (h : limit + [c].count ')' = later + [c].count '(') :
    OpenAtMost limit (c :: text) ↔ OpenAtMost later text := by
  constructor
  · intro hopen before hbefore
    have h' := hopen (c :: before) (List.cons_prefix_cons.2 ⟨rfl, hbefore⟩)
    rw [← List.singleton_append, List.count_append, List.count_append] at h'
    omega
  · intro hopen before hbefore
    cases before with
    | nil => exact Nat.zero_le _
    | cons d before =>
      obtain ⟨rfl, hrest⟩ := List.cons_prefix_cons.1 hbefore
      have h' := hopen before hrest
      rw [← List.singleton_append, List.count_append, List.count_append]
      omega

theorem not_cons_zero : ¬OpenAtMost 0 ('(' :: text) := by
  intro h
  have h' := h ['('] (List.cons_prefix_cons.2 ⟨rfl, List.nil_prefix⟩)
  exact absurd h' (by decide)

theorem of_append (h : OpenAtMost limit (u ++ v)) : OpenAtMost limit u :=
  fun before hbefore => h before (hbefore.trans (List.prefix_append u v))

theorem of_append_balanced (hu : Balanced u) (h : OpenAtMost limit (u ++ v)) :
    OpenAtMost limit v := by
  intro before hbefore
  have h' := h (u ++ before) ((List.prefix_append_right_inj u).2 hbefore)
  unfold Balanced at hu
  rw [List.count_append, List.count_append] at h'
  omega

end OpenAtMost

/-- The trees, latest first, of texts that follow each other, each closed by the mark. -/
inductive Spelled (n : Nonterminal) (mark : List Char) : List Pattern → List Char → Prop where
  | nil : Spelled n mark [] []
  | cons {earlier : List Pattern} {u text : List Char} {tree : Pattern}
      (before : Spelled n mark earlier u) (last : Derives n text tree) :
      Spelled n mark (tree :: earlier) (u ++ (text ++ mark))

section Spelled
variable {n : Nonterminal} {mark u v text : List Char} {trees : List Pattern} {tree : Pattern}

theorem Spelled.pieces (h : Spelled n mark trees u) : ∃ pieces : List (List Char × Pattern),
    (∀ piece ∈ pieces, Derives n piece.1 piece.2) ∧ trees = (pieces.map Prod.snd).reverse ∧
      u = pieces.flatMap fun piece => piece.1 ++ mark := by
  induction h with
  | nil => exact ⟨[], fun _ mem => absurd mem List.not_mem_nil, rfl, rfl⟩
  | @cons earlier u text tree _ last ih =>
    obtain ⟨pieces, hpieces, htrees, htext⟩ := ih
    refine ⟨pieces ++ [(text, tree)], fun piece mem => ?_, ?_, ?_⟩
    · rw [List.mem_append, List.mem_singleton] at mem
      cases mem with
      | inl mem => exact hpieces piece mem
      | inr mem => exact mem ▸ last
    · rw [List.map_append, List.reverse_append, htrees]
      rfl
    · rw [List.flatMap_append, List.flatMap_singleton, htext]

theorem Spelled.concat (h : Spelled .repeated [] trees u) :
    Derives .concat u (concatItems trees) := by
  obtain ⟨pieces, hpieces, htrees, htext⟩ := h.pieces
  simp only [List.append_nil] at htext
  rw [htrees, htext, concatItems_reverse]
  exact .concat pieces hpieces

/-- A bar closes every alternative but the last, or opens every one but the first. -/
theorem flatMap_bars {α : Type} (f : α → List Char) (pieces : List α) (v : List Char) :
    '|' :: ((pieces.flatMap fun piece => f piece ++ ['|']) ++ v) =
      (pieces.flatMap fun piece => '|' :: f piece) ++ '|' :: v := by
  induction pieces with
  | nil => rfl
  | cons piece rest ih =>
    simp only [List.flatMap_cons, List.cons_append, List.append_assoc, List.nil_append]
    rw [ih]

theorem Spelled.choose (h : Spelled .concat ['|'] trees u) (last : Derives .concat v tree) :
    Derives .choose (u ++ v) (foldLatest choice (tree :: trees)) := by
  obtain ⟨pieces, hpieces, htrees, htext⟩ := h.pieces
  rw [htrees, htext]
  cases pieces with
  | nil =>
    have h := Derives.choose (v, tree) [] last fun _ mem => absurd mem List.not_mem_nil
    rw [List.flatMap_nil, List.append_nil] at h
    exact h
  | cons first rest =>
    have hothers : ∀ piece ∈ rest ++ [(v, tree)], Derives .concat piece.1 piece.2 := by
      intro piece mem
      rw [List.mem_append, List.mem_singleton] at mem
      cases mem with
      | inl mem => exact hpieces piece (List.mem_cons_of_mem first mem)
      | inr mem => exact mem ▸ last
    have h := Derives.choose first _ (hpieces first List.mem_cons_self) hothers
    rw [List.flatMap_append, List.flatMap_singleton, ← flatMap_bars Prod.fst] at h
    rw [← foldLatest_reverse, List.map_append, List.reverse_append] at h
    rw [List.flatMap_cons, List.map_cons, List.reverse_cons, List.append_assoc, List.append_assoc]
    exact h

end Spelled

end Pattern
end Automata
