import Automata.Proofs.Grammar
import Automata.Proofs.Layout

/-! The text of a derived tree is what remains of the text it was derived from when the parentheses
that it does not write are taken away. So it is no longer, opens no more parentheses at any point,
and has no literal that would be read as anything else. The states that the tree needs are bounded
by the text as well: two for a character, and one for an empty text. -/
namespace Automata
namespace Pattern

namespace OpenAtMost
variable {limit more : Nat} {text u v : List Char}

theorem mono (hle : limit ≤ more) (h : OpenAtMost limit text) : OpenAtMost more text := by
  intro before hbefore
  have h' := h before hbefore
  omega

theorem append (hu : Balanced u) (hopen : OpenAtMost limit u) (hopen' : OpenAtMost limit v) :
    OpenAtMost limit (u ++ v) := by
  intro before hbefore
  cases List.prefix_or_prefix_of_prefix hbefore (List.prefix_append u v) with
  | inl hinside => exact hopen before hinside
  | inr hbeyond =>
    -- the first text closes all that it opens, so only the rest of the prefix counts
    obtain ⟨w, rfl⟩ := hbeyond
    have h := hopen' w ((List.prefix_append_right_inj u).1 hbefore)
    unfold Balanced at hu
    rw [List.count_append, List.count_append]
    omega

theorem parenthesize_iff (htext : Balanced text) :
    OpenAtMost (limit + 1) (parenthesize text) ↔ OpenAtMost limit text := by
  have hclose : OpenAtMost limit [')'] := by
    have hcount : limit + [')'].count ')' = limit + 1 + [')'].count '(' := rfl
    exact (cons_iff hcount).2 nil
  have hcount : limit + 1 + ['('].count ')' = limit + ['('].count '(' := rfl
  unfold parenthesize
  rw [cons_iff hcount]
  exact ⟨of_append, fun h => append htext h hclose⟩

end OpenAtMost

def isParenthesis (c : Char) : Bool := c = '(' || c = ')'

/-- The first text is the second without some of its parentheses. -/
inductive Stripped : List Char → List Char → Prop where
  | nil : Stripped [] []
  | keep (c : Char) {u t : List Char} (rest : Stripped u t) : Stripped (c :: u) (c :: t)
  | drop {c : Char} (parenthesis : isParenthesis c = true) {u t : List Char}
      (rest : Stripped u t) : Stripped u (c :: t)

namespace Stripped
variable {t u v w : List Char}

theorem refl (t : List Char) : Stripped t t := by
  induction t with
  | nil => exact .nil
  | cons c t ih => exact .keep c ih

theorem trans (h : Stripped u v) (h' : Stripped v w) : Stripped u w := by
  induction h' generalizing u with
  | nil => exact h
  | keep c _ ih =>
    cases h with
    | keep _ rest => exact .keep c (ih rest)
    | drop parenthesis rest => exact .drop parenthesis (ih rest)
  | drop parenthesis _ ih => exact .drop parenthesis (ih h)

theorem append (h : Stripped u t) (h' : Stripped v w) : Stripped (u ++ v) (t ++ w) := by
  induction h with
  | nil => exact h'
  | keep c _ ih => exact .keep c ih
  | drop parenthesis _ ih => exact .drop parenthesis ih

theorem parenthesize (h : Stripped u t) : Stripped (parenthesize u) (parenthesize t) :=
  .keep '(' (h.append (refl [')']))

theorem unwrap (t : List Char) : Stripped t (Pattern.parenthesize t) := by
  have hclose : Stripped [] [')'] := .drop rfl .nil
  have happend := (refl t).append hclose
  rw [List.append_nil] at happend
  exact .drop rfl happend

theorem length_le (h : Stripped u t) : u.length ≤ t.length := by
  induction h with
  | nil => exact Nat.le_refl 0
  | keep _ _ ih => exact Nat.succ_le_succ ih
  | drop _ _ ih => exact Nat.le_succ_of_le ih

/-- The other characters are all there, in order. -/
theorem filter_eq (h : Stripped u t) :
    u.filter (!isParenthesis ·) = t.filter (!isParenthesis ·) := by
  induction h with
  | nil => rfl
  | keep c _ ih => simp only [List.filter_cons, ih]
  | drop parenthesis _ ih => simp [parenthesis, ih]

end Stripped

/-- The first text is the second without some of its parentheses, and opens no more of them at any
point. -/
structure Lighter (u t : List Char) : Prop where
  left : Balanced u
  right : Balanced t
  stripped : Stripped u t
  opens : ∀ limit, OpenAtMost limit t → OpenAtMost limit u

namespace Lighter
variable {t u v w : List Char}

theorem length (h : Lighter u t) : u.length ≤ t.length := h.stripped.length_le

theorem refl (h : Balanced t) : Lighter t t := ⟨h, h, .refl t, fun _ => id⟩

theorem trans (h : Lighter u v) (h' : Lighter v w) : Lighter u w where
  left := h.left
  right := h'.right
  stripped := h.stripped.trans h'.stripped
  opens limit hopen := h.opens limit (h'.opens limit hopen)

theorem append (h : Lighter u t) (h' : Lighter v w) : Lighter (u ++ v) (t ++ w) where
  left := h.left.append h'.left
  right := h.right.append h'.right
  stripped := h.stripped.append h'.stripped
  opens limit hopen := by
    have hu := h.opens limit hopen.of_append
    have hv := h'.opens limit (hopen.of_append_balanced h.right)
    exact .append h.left hu hv

theorem parenthesize (h : Lighter u t) : Lighter (parenthesize u) (parenthesize t) where
  left := h.left.parenthesize
  right := h.right.parenthesize
  stripped := h.stripped.parenthesize
  opens limit hopen := by
    cases limit with
    | zero => exact absurd hopen OpenAtMost.not_cons_zero
    | succ limit =>
      rw [OpenAtMost.parenthesize_iff h.right] at hopen
      rw [OpenAtMost.parenthesize_iff h.left]
      exact h.opens limit hopen

theorem unwrap (h : Balanced t) : Lighter t (Pattern.parenthesize t) where
  left := h
  right := h.parenthesize
  stripped := .unwrap t
  opens limit hopen := by
    cases limit with
    | zero => exact absurd hopen OpenAtMost.not_cons_zero
    | succ limit =>
      rw [OpenAtMost.parenthesize_iff h] at hopen
      exact hopen.mono (Nat.le_succ limit)

theorem flatMap {α : Type} {f g : α → List Char} {pieces : List α}
    (h : ∀ piece ∈ pieces, Lighter (f piece) (g piece)) :
    Lighter (pieces.flatMap f) (pieces.flatMap g) := by
  induction pieces with
  | nil => exact refl rfl
  | cons piece rest ih =>
    have hrest := ih fun other mem => h other (List.mem_cons_of_mem piece mem)
    exact (h piece List.mem_cons_self).append hrest

theorem bracket {inner weak strong : Nat} (hle : weak ≤ strong) (h : Balanced t) :
    Lighter (bracket inner weak t) (bracket inner strong t) := by
  unfold Pattern.bracket
  by_cases hweak : inner < weak
  · rw [if_pos hweak, if_pos (by omega)]
    exact refl h.parenthesize
  · rw [if_neg hweak]
    by_cases hstrong : inner < strong
    · rw [if_pos hstrong]
      exact unwrap h
    · rw [if_neg hstrong]
      exact refl h

end Lighter

/-- The text of a pattern as an item of an alternative. -/
def itemChars (p : Pattern) : List Char := bracket p.precedence 1 p.chars

theorem bracket_zero (inner : Nat) (text : List Char) : bracket inner 0 text = text :=
  if_neg (Nat.not_lt_zero inner)

theorem itemChars_of_pos {p : Pattern} (h : 1 ≤ p.precedence) : p.itemChars = p.chars :=
  if_neg (Nat.not_lt_of_ge h)

theorem chars_foldRight_choice (first : Pattern) (rest : List Pattern) :
    (foldRight choice first rest).chars = first.chars ++ rest.flatMap fun p => '|' :: p.chars := by
  induction rest generalizing first with
  | nil => rw [List.flatMap_nil, List.append_nil, foldRight]
  | cons next rest ih =>
    rw [foldRight, chars, bracket_zero, bracket_zero, ih, List.flatMap_cons]
    rfl

theorem itemChars_foldRight_concat (first : Pattern) (rest : List Pattern) :
    (foldRight concat first rest).itemChars = (first :: rest).flatMap itemChars := by
  induction rest generalizing first with
  | nil => rw [foldRight, List.flatMap_singleton]
  | cons next rest ih =>
    have h := ih next
    rw [List.flatMap_cons, ← h]
    rfl

/-- No literal is a character that the syntax takes for itself. -/
def Plain : Pattern → Prop
  | empty => True
  | literal c => c ∉ special
  | concat l r => l.Plain ∧ r.Plain
  | choice l r => l.Plain ∧ r.Plain
  | star p => p.Plain

theorem plain_foldRight {join : Pattern → Pattern → Pattern}
    (hjoin : ∀ l r, l.Plain → r.Plain → (join l r).Plain) {first : Pattern} {rest : List Pattern}
    (hfirst : first.Plain) (hrest : ∀ p ∈ rest, p.Plain) : (foldRight join first rest).Plain := by
  induction rest generalizing first with
  | nil => exact hfirst
  | cons next rest ih =>
    have htail := ih (hrest next List.mem_cons_self) fun p mem =>
      hrest p (List.mem_cons_of_mem next mem)
    exact hjoin first _ hfirst htail

theorem Derives.plain {n : Nonterminal} {text : List Char} {tree : Pattern}
    (h : Derives n text tree) : tree.Plain := by
  induction h with
  | choose first others _ _ ihfirst ihothers =>
    apply plain_foldRight (fun _ _ => And.intro) ihfirst
    intro p mem
    obtain ⟨piece, hpiece, rfl⟩ := List.mem_map.1 mem
    exact ihothers piece hpiece
  | concat pieces _ ih =>
    cases pieces with
    | nil => trivial
    | cons first rest =>
      apply plain_foldRight (fun _ _ => And.intro) (ih first List.mem_cons_self)
      intro p mem
      obtain ⟨piece, hpiece, rfl⟩ := List.mem_map.1 mem
      exact ih piece (List.mem_cons_of_mem first hpiece)
  | repeated stars _ ih =>
    induction stars with
    | zero => exact ih
    | succ stars ihstars =>
      rw [Function.iterate_succ_apply']
      exact ihstars
  | group _ ih => exact ih
  | literal c plain => exact plain

theorem Composed.bracket {inner outer : Nat} {text : List Char} (h : Composed text) :
    Composed (bracket inner outer text) := by
  unfold Pattern.bracket
  split
  · exact h.parenthesize
  · exact h

theorem Plain.composed {p : Pattern} (h : p.Plain) : Composed p.chars := by
  induction p with
  | empty => exact .nil
  | literal c =>
    obtain ⟨-, -, hopen, hclose⟩ := not_mem_special.1 h
    exact .single hopen hclose
  | concat l r ihl ihr => exact (ihl h.1).bracket.append (ihr h.2).bracket
  | choice l r ihl ihr =>
    have hbar : Composed ['|'] := .single (by decide) (by decide)
    exact (ihl h.1).bracket.append (hbar.append (ihr h.2).bracket)
  | star p ih =>
    have hstar : Composed ['*'] := .single (by decide) (by decide)
    exact (ih h).bracket.append hstar

theorem Plain.balanced {p : Pattern} (h : p.Plain) : Balanced p.chars := h.composed.balanced

/-- The operator strength at which a part of the grammar is written. -/
def Nonterminal.strength : Nonterminal → Nat
  | choose => 0
  | concat => 0
  | repeated => 1
  | atom => 2

theorem lighter_stars {text : List Char} {tree : Pattern}
    (h : Lighter (bracket tree.precedence 2 tree.chars) text) (stars : Nat) :
    Lighter (bracket (star^[stars] tree).precedence 2 (star^[stars] tree).chars)
      (text ++ List.replicate stars '*') := by
  induction stars with
  | zero =>
    rw [List.replicate_zero, List.append_nil]
    exact h
  | succ stars ih =>
    have hstar : Balanced ['*'] := .of_not_mem (by decide) (by decide)
    have hmore := ih.append (.refl hstar)
    rw [List.append_assoc, ← List.replicate_succ'] at hmore
    rw [Function.iterate_succ_apply']
    exact hmore

/-- A derived tree is written with no more than it was read from. -/
theorem Derives.lighter {n : Nonterminal} {text : List Char} {tree : Pattern}
    (h : Derives n text tree) : Lighter (bracket tree.precedence n.strength tree.chars) text := by
  have hbalanced := h.plain.balanced
  induction h with
  | choose first others hfirst hothers ihfirst ihothers =>
    have hhead := ihfirst hfirst.plain.balanced
    rw [Nonterminal.strength, bracket_zero] at hhead
    rw [Nonterminal.strength, bracket_zero, chars_foldRight_choice, List.flatMap_map]
    apply hhead.append
    apply Lighter.flatMap
    intro piece mem
    have hbar : Balanced ['|'] := .of_not_mem (by decide) (by decide)
    have hpiece := ihothers piece mem (hothers piece mem).plain.balanced
    rw [Nonterminal.strength, bracket_zero] at hpiece
    exact (Lighter.refl hbar).append hpiece
  | concat pieces hpieces ih =>
    cases pieces with
    | nil => exact .refl rfl
    | cons first rest =>
      have hitems : Lighter ((first :: rest).flatMap fun piece => piece.2.itemChars)
          ((first :: rest).flatMap Prod.fst) := by
        apply Lighter.flatMap
        intro piece mem
        exact ih piece mem (hpieces piece mem).plain.balanced
      have htree := itemChars_foldRight_concat first.2 (rest.map Prod.snd)
      rw [← List.map_cons, List.flatMap_map] at htree
      rw [← htree] at hitems
      -- a lone item is written without the parentheses that it has among others
      exact (Lighter.bracket (Nat.zero_le 1) hbalanced).trans hitems
  | repeated stars hatom ih =>
    have hstars := lighter_stars (ih hatom.plain.balanced) stars
    exact (Lighter.bracket (Nat.le_succ 1) hbalanced).trans hstars
  | group inner ih =>
    have h := ih hbalanced
    rw [Nonterminal.strength, bracket_zero] at h
    unfold bracket
    split
    · exact h.parenthesize
    · exact h.trans (.unwrap inner.balanced)
  | literal c plain => exact .refl hbalanced

theorem Derives.lighter_chars {text : List Char} {tree : Pattern}
    (h : Derives .choose text tree) : Lighter tree.chars text := by
  have hlighter := h.lighter
  rw [Nonterminal.strength, bracket_zero] at hlighter
  exact hlighter

theorem stateCount_foldRight_le {join : Pattern → Pattern → Pattern} {cost : Nat}
    (hjoin : ∀ l r, (join l r).stateCount ≤ l.stateCount + r.stateCount + cost)
    {f : List Char × Pattern → List Char} {rest : List (List Char × Pattern)}
    (hrest : ∀ piece ∈ rest, piece.2.stateCount + cost ≤ 2 * (f piece).length)
    (first : Pattern) :
    (foldRight join first (rest.map Prod.snd)).stateCount ≤
      first.stateCount + 2 * (rest.flatMap f).length := by
  induction rest generalizing first with
  | nil => exact Nat.le_refl _
  | cons next rest ih =>
    have hnext := hrest next List.mem_cons_self
    have htail := ih (fun piece mem => hrest piece (List.mem_cons_of_mem next mem)) next.2
    have hstep := hjoin first (foldRight join next.2 (rest.map Prod.snd))
    rw [List.map_cons, foldRight, List.flatMap_cons, List.length_append]
    omega

theorem stateCount_stars (stars : Nat) (tree : Pattern) :
    (star^[stars] tree).stateCount = tree.stateCount + stars := by
  induction stars with
  | zero => rfl
  | succ stars ih => rw [Function.iterate_succ_apply', stateCount, ih, Nat.add_assoc]

/-- A tree needs two states for each character of its text at most, and one for no text. -/
theorem Derives.stateCount_le {n : Nonterminal} {text : List Char} {tree : Pattern}
    (h : Derives n text tree) :
    tree.stateCount ≤ 2 * text.length + 1 ∧
      (1 ≤ n.strength → tree.stateCount ≤ 2 * text.length) := by
  induction h with
  | choose first others _ _ ihfirst ihothers =>
    have hothers : ∀ piece ∈ others, piece.2.stateCount + 1 ≤ 2 * ('|' :: piece.1).length := by
      intro piece mem
      have hpiece := ihothers piece mem
      rw [List.length_cons]
      omega
    have hfold := stateCount_foldRight_le
      (fun l r => Nat.le_refl (Pattern.choice l r).stateCount) hothers first.2
    rw [List.length_append]
    refine ⟨by omega, fun hstrength => absurd hstrength (by decide)⟩
  | concat pieces _ ih =>
    refine ⟨?_, fun hstrength => absurd hstrength (by decide)⟩
    cases pieces with
    | nil => exact Nat.le_refl 1
    | cons first rest =>
      have hrest : ∀ piece ∈ rest, piece.2.stateCount + 0 ≤ 2 * piece.1.length := fun piece mem =>
        (ih piece (List.mem_cons_of_mem first mem)).2 (Nat.le_refl 1)
      have hfold := stateCount_foldRight_le
        (fun l r => Nat.le_refl (Pattern.concat l r).stateCount) hrest first.2
      have hfirst := (ih first List.mem_cons_self).2 (Nat.le_refl 1)
      rw [List.map_cons, sequence, List.flatMap_cons, List.length_append]
      omega
  | repeated stars _ ih =>
    have hatom := ih.2 (Nat.le_succ 1)
    rw [stateCount_stars, List.length_append, List.length_replicate]
    omega
  | group inner ih =>
    unfold parenthesize
    simp only [List.length_cons, List.length_append]
    omega
  | literal c plain =>
    unfold stateCount
    rw [List.length_singleton]
    omega

end Pattern
end Automata
