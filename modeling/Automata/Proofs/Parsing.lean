import Automata.Proofs.Grammar

/-! The one pass of the reader and the grammar agree. A derivation is read piece by piece: whatever
a reading holds before the text of a piece, it holds one item more after it. Back from a reading to
the grammar, what was read always falls into the pieces that its groups stand for, with one open
parenthesis for every group that waits. -/
namespace Automata
namespace Pattern

theorem Group.close_eq (group : Group) :
    group.close = foldLatest choice (concatItems group.items :: group.alternatives) := rfl

namespace Reading
variable {reading next : Reading} {group : Group} {enclosing : List (Nat × Group)}

theorem readAll_append (reading : Reading) (position : Nat) (u v : List Char) :
    reading.readAll position (u ++ v) =
      (reading.readAll position u).bind fun next => next.readAll (position + u.length) v := by
  induction u generalizing reading position with
  | nil => rfl
  | cons c rest ih =>
    rw [List.cons_append, readAll, readAll]
    cases reading.read position c with
    | error e => rfl
    | ok next =>
      have hlength : position + (c :: rest).length = position + 1 + rest.length := by
        rw [List.length_cons]
        omega
      rw [hlength]
      exact ih next (position + 1)

theorem readAll_append_of_ok {position : Nat} {u : List Char}
    (h : reading.readAll position u = .ok next) (v : List Char) :
    reading.readAll position (u ++ v) = next.readAll (position + u.length) v := by
  rw [readAll_append, h]
  rfl

theorem readAll_singleton (reading : Reading) (position : Nat) (c : Char) :
    reading.readAll position [c] = reading.read position c := by
  rw [readAll]
  cases reading.read position c <;> rfl

theorem read_open (h : enclosing.length < maxDepth) (position : Nat) :
    read ⟨group, enclosing⟩ position '(' = .ok ⟨.start, (position, group) :: enclosing⟩ := by
  unfold read
  exact if_pos h

theorem read_literal {c : Char} (plain : c ∉ special) (position : Nat) :
    read ⟨group, enclosing⟩ position c = .ok ⟨group.push (.literal c), enclosing⟩ := by
  rw [not_mem_special] at plain
  unfold read
  dsimp only
  split
  · exact absurd rfl plain.2.2.1
  · exact absurd rfl plain.2.2.2
  · exact absurd rfl plain.1
  · exact absurd rfl plain.2.1
  · rfl

theorem readAll_stars (item : Pattern) (stars position : Nat) :
    readAll ⟨group.push item, enclosing⟩ position (List.replicate stars '*') =
      .ok ⟨group.push (star^[stars] item), enclosing⟩ := by
  induction stars generalizing item position with
  | zero => rfl
  | succ stars ih =>
    rw [List.replicate_succ, Function.iterate_succ_apply]
    exact ih (.star item) (position + 1)

end Reading

/-- What a group holds after the text of a tree, beside what it held before. -/
def Nonterminal.Adds (tree : Pattern) (before after : Group) : Nonterminal → Prop
  | choose => before = .start → after.close = tree
  | concat => before.items = [] →
    after.alternatives = before.alternatives ∧ concatItems after.items = tree
  | repeated => after = before.push tree
  | atom => after = before.push tree

/-- Inside any open parentheses the text is read, so far as the limit allows, as the tree. -/
def Nonterminal.Reads (n : Nonterminal) (text : List Char) (tree : Pattern) : Prop :=
  ∀ (limit : Nat) (enclosing : List (Nat × Group)) (group : Group),
    enclosing.length + limit = maxDepth → OpenAtMost limit text →
    ∃ after, n.Adds tree group after ∧
      ∀ position, Reading.readAll ⟨group, enclosing⟩ position text = .ok ⟨after, enclosing⟩

section Completeness
variable {pieces : List (List Char × Pattern)} {limit : Nat} {enclosing : List (Nat × Group)}

theorem readAll_items (hreads : ∀ piece ∈ pieces, Nonterminal.Reads .repeated piece.1 piece.2)
    (hbalanced : ∀ piece ∈ pieces, Balanced piece.1) (group : Group)
    (hlimit : enclosing.length + limit = maxDepth)
    (hopen : OpenAtMost limit (pieces.flatMap Prod.fst)) (position : Nat) :
    Reading.readAll ⟨group, enclosing⟩ position (pieces.flatMap Prod.fst) =
      .ok ⟨⟨group.alternatives, (pieces.map Prod.snd).reverse ++ group.items⟩, enclosing⟩ := by
  induction pieces generalizing group position with
  | nil => rfl
  | cons piece rest ih =>
    rw [List.flatMap_cons] at hopen ⊢
    have hpiece := hreads piece List.mem_cons_self
    obtain ⟨after, hafter, hread⟩ := hpiece limit enclosing group hlimit hopen.of_append
    have hrest := hopen.of_append_balanced (hbalanced piece List.mem_cons_self)
    rw [Reading.readAll_append_of_ok (hread position)]
    rw [ih (fun other mem => hreads other (List.mem_cons_of_mem piece mem))
      (fun other mem => hbalanced other (List.mem_cons_of_mem piece mem)) after hrest]
    unfold Nonterminal.Adds at hafter
    rw [hafter, List.map_cons, List.reverse_cons, List.append_assoc]
    rfl

/-- The latest alternative of a group is the one in progress. -/
theorem readAll_alternatives
    (hreads : ∀ piece ∈ pieces, Nonterminal.Reads .concat piece.1 piece.2)
    (hbalanced : ∀ piece ∈ pieces, Balanced piece.1) (group : Group)
    (hlimit : enclosing.length + limit = maxDepth)
    (hopen : OpenAtMost limit (pieces.flatMap fun piece => '|' :: piece.1)) :
    ∃ after : Group,
      concatItems after.items :: after.alternatives =
        (pieces.map Prod.snd).reverse ++ concatItems group.items :: group.alternatives ∧
      ∀ position, Reading.readAll ⟨group, enclosing⟩ position
        (pieces.flatMap fun piece => '|' :: piece.1) = .ok ⟨after, enclosing⟩ := by
  induction pieces generalizing group with
  | nil => exact ⟨group, rfl, fun _ => rfl⟩
  | cons piece rest ih =>
    rw [List.flatMap_cons, List.cons_append] at hopen ⊢
    have hpiece := hreads piece List.mem_cons_self
    have hbar : OpenAtMost limit (piece.1 ++ rest.flatMap fun piece => '|' :: piece.1) :=
      (OpenAtMost.cons_iff rfl).1 hopen
    obtain ⟨between, hbetween, hread⟩ :=
      hpiece limit enclosing group.bar hlimit hbar.of_append
    have hsplit := hbetween rfl
    obtain ⟨after, hafter, hreadRest⟩ :=
      ih (fun other mem => hreads other (List.mem_cons_of_mem piece mem))
        (fun other mem => hbalanced other (List.mem_cons_of_mem piece mem)) between
        (hbar.of_append_balanced (hbalanced piece List.mem_cons_self))
    refine ⟨after, ?_, fun position => ?_⟩
    · rw [hafter, hsplit.1, hsplit.2, List.map_cons, List.reverse_cons, List.append_assoc]
      rfl
    · have hstep := Reading.readAll_append_of_ok (hread (position + 1))
        (rest.flatMap fun piece => '|' :: piece.1)
      rw [hreadRest] at hstep
      exact hstep

theorem Derives.reads {n : Nonterminal} {text : List Char} {tree : Pattern}
    (h : Derives n text tree) : n.Reads text tree := by
  induction h with
  | choose first others hfirst hothers ihfirst ihothers =>
    intro limit enclosing group hlimit hopen
    obtain ⟨between, hbetween, hread⟩ :=
      ihfirst limit enclosing group hlimit hopen.of_append
    obtain ⟨after, hafter, hreadOthers⟩ :=
      readAll_alternatives ihothers (fun piece mem => (hothers piece mem).balanced) between hlimit
        (hopen.of_append_balanced hfirst.balanced)
    refine ⟨after, fun hstart => ?_, fun position => ?_⟩
    · have hsplit := hbetween (hstart ▸ rfl)
      rw [hstart] at hsplit
      rw [Group.close_eq, hafter, hsplit.1, hsplit.2]
      exact foldLatest_reverse choice first.2 (others.map Prod.snd)
    · rw [Reading.readAll_append_of_ok (hread position), hreadOthers]
  | concat pieces hpieces ih =>
    intro limit enclosing group hlimit hopen
    have hbalanced : ∀ piece ∈ pieces, Balanced piece.1 :=
      fun piece mem => (hpieces piece mem).balanced
    refine ⟨_, ?_, readAll_items ih hbalanced group hlimit hopen⟩
    intro hempty
    rw [hempty, List.append_nil]
    exact ⟨rfl, concatItems_reverse _⟩
  | repeated stars _ ih =>
    intro limit enclosing group hlimit hopen
    obtain ⟨after, hafter, hread⟩ := ih limit enclosing group hlimit hopen.of_append
    refine ⟨_, rfl, fun position => ?_⟩
    rw [Reading.readAll_append_of_ok (hread position), hafter]
    exact Reading.readAll_stars _ _ _
  | @group text tree _ ih =>
    intro limit enclosing group hlimit hopen
    unfold parenthesize at hopen ⊢
    cases limit with
    | zero => exact absurd hopen OpenAtMost.not_cons_zero
    | succ limit =>
      -- the parenthesis takes one of the limit for the group that waits, so the sum is kept
      have hinner : OpenAtMost limit (text ++ [')']) := (OpenAtMost.cons_iff rfl).1 hopen
      refine ⟨_, rfl, fun position => ?_⟩
      obtain ⟨after, hafter, hread⟩ :=
        ih limit ((position, group) :: enclosing) .start
          (by rw [List.length_cons]; omega) hinner.of_append
      have hstep := Reading.readAll_append_of_ok (hread (position + 1)) [')']
      rw [Reading.readAll_singleton] at hstep
      rw [Reading.readAll, Reading.read_open (by omega)]
      have hclose := hafter rfl
      rw [← hclose]
      exact hstep
  | literal c plain =>
    intro limit enclosing group hlimit hopen
    refine ⟨_, rfl, fun position => ?_⟩
    rw [Reading.readAll_singleton]
    exact Reading.read_literal plain position

end Completeness

section Soundness
variable {u v text : List Char} {trees : List Pattern} {tree : Pattern}

/-- The text falls into the alternatives and the items that the group holds. -/
def Group.Spells (group : Group) (text : List Char) : Prop :=
  ∃ u v, text = u ++ v ∧ Spelled .concat ['|'] group.alternatives u ∧
    Spelled .repeated [] group.items v

namespace Group.Spells
variable {group : Group}

theorem start : Group.start.Spells [] := ⟨[], [], rfl, .nil, .nil⟩

theorem push (h : group.Spells u) (item : Derives .repeated v tree) :
    (group.push tree).Spells (u ++ v) := by
  obtain ⟨alternatives, items, rfl, halternatives, hitems⟩ := h
  have hitems := hitems.cons item
  rw [List.append_nil] at hitems
  exact ⟨alternatives, items ++ v, List.append_assoc _ _ _, halternatives, hitems⟩

theorem bar (h : group.Spells u) : group.bar.Spells (u ++ ['|']) := by
  obtain ⟨alternatives, items, rfl, halternatives, hitems⟩ := h
  refine ⟨alternatives ++ (items ++ ['|']), [], ?_, halternatives.cons hitems.concat, .nil⟩
  rw [List.append_nil, List.append_assoc]

theorem star {earlier : List Pattern} (h : Spells ⟨trees, tree :: earlier⟩ u) :
    Spells ⟨trees, .star tree :: earlier⟩ (u ++ ['*']) := by
  obtain ⟨alternatives, _, rfl, halternatives, hitems⟩ := h
  cases hitems with
  | @cons _ items text _ before last =>
    refine ⟨alternatives, _, ?_, halternatives, before.cons last.star⟩
    simp only [List.append_assoc, List.append_nil]

theorem close (h : group.Spells u) : Derives .choose u group.close := by
  obtain ⟨alternatives, items, rfl, halternatives, hitems⟩ := h
  exact halternatives.choose hitems.concat

end Group.Spells

/-- The text before the innermost open parenthesis falls into what the waiting groups hold, each
interrupted by a parenthesis. -/
inductive Interrupted : List (Nat × Group) → List Char → Prop where
  | nil : Interrupted [] []
  | cons {position : Nat} {group : Group} {enclosing : List (Nat × Group)} {u v : List Char}
      (outer : Interrupted enclosing u) (inner : group.Spells v) :
      Interrupted ((position, group) :: enclosing) (u ++ (v ++ ['(']))

def Reading.Spells (reading : Reading) (text : List Char) : Prop :=
  ∃ u v, text = u ++ v ∧ Interrupted reading.enclosing u ∧ reading.group.Spells v

theorem Reading.Spells.read {reading next : Reading} {position : Nat} {c : Char}
    (h : reading.Spells text) (hread : reading.read position c = .ok next) :
    next.Spells (text ++ [c]) := by
  obtain ⟨group, enclosing⟩ := reading
  obtain ⟨u, v, rfl, houter, hgroup⟩ := h
  rw [List.append_assoc]
  unfold Reading.read at hread
  dsimp only at houter hgroup hread
  split at hread
  · split at hread
    · cases hread
      refine ⟨u ++ (v ++ ['(']), [], ?_, houter.cons hgroup, .start⟩
      rw [List.append_nil]
    · cases hread
  · split at hread
    · cases hread
    · cases hread
      -- the group that is closed becomes an item of the one that it interrupted
      cases houter with
      | @cons _ _ _ u w houter hinner =>
        refine ⟨u, w ++ parenthesize v, ?_, houter, hinner.push (.of_atom (.group hgroup.close))⟩
        simp only [parenthesize, List.append_assoc, List.cons_append, List.nil_append]
  · cases hread
    exact ⟨u, v ++ ['|'], rfl, houter, hgroup.bar⟩
  · split at hread
    · cases hread
    · next hitems =>
      cases hread
      obtain ⟨alternatives, items⟩ := group
      dsimp only at hitems
      subst hitems
      exact ⟨u, v ++ ['*'], rfl, houter, hgroup.star⟩
  · next hopen hclose hbar hstar =>
    cases hread
    have plain := not_mem_special.2 ⟨hbar, hstar, hopen, hclose⟩
    exact ⟨u, v ++ [c], rfl, houter, hgroup.push (.of_atom (.literal c plain))⟩

theorem Reading.Spells.readAll {reading final : Reading} {position : Nat} {u rest : List Char}
    (h : reading.Spells u) (hread : reading.readAll position rest = .ok final) :
    final.Spells (u ++ rest) := by
  induction rest generalizing reading position u with
  | nil =>
    cases hread
    rw [List.append_nil]
    exact h
  | cons c rest ih =>
    rw [Reading.readAll] at hread
    cases hnext : reading.read position c with
    | error e =>
      rw [hnext] at hread
      cases hread
    | ok next =>
      rw [hnext] at hread
      have hrest := ih (h.read hnext) hread
      rw [List.append_assoc] at hrest
      exact hrest

theorem Reading.limit_read {reading next : Reading} {position limit : Nat} {c : Char}
    (hlimit : reading.enclosing.length + limit = maxDepth)
    (hread : reading.read position c = .ok next) :
    ∃ later, next.enclosing.length + later = maxDepth ∧
      limit + [c].count ')' = later + [c].count '(' := by
  obtain ⟨group, enclosing⟩ := reading
  unfold Reading.read at hread
  dsimp only at hlimit hread
  split at hread
  · split at hread
    · cases hread
      have hcount : limit = limit - 1 + 1 := by omega
      refine ⟨limit - 1, ?_, hcount⟩
      rw [List.length_cons]
      omega
    · cases hread
  · split at hread
    · cases hread
    · cases hread
      rw [List.length_cons] at hlimit
      refine ⟨limit + 1, ?_, rfl⟩
      dsimp only
      omega
  · cases hread
    exact ⟨limit, hlimit, rfl⟩
  · split at hread
    · cases hread
    · cases hread
      exact ⟨limit, hlimit, rfl⟩
  · next hopen hclose _ _ =>
    cases hread
    refine ⟨limit, hlimit, ?_⟩
    rw [List.count_singleton, List.count_singleton]
    simp only [beq_iff_eq]
    rw [if_neg hopen, if_neg hclose]

theorem Reading.openAtMost_of_readAll {reading final : Reading} {position limit : Nat}
    (hlimit : reading.enclosing.length + limit = maxDepth)
    (hread : reading.readAll position text = .ok final) : OpenAtMost limit text := by
  induction text generalizing reading position limit with
  | nil => exact .nil
  | cons c rest ih =>
    rw [Reading.readAll] at hread
    cases hnext : reading.read position c with
    | error e =>
      rw [hnext] at hread
      cases hread
    | ok next =>
      rw [hnext] at hread
      obtain ⟨later, hlater, hcount⟩ := Reading.limit_read hlimit hnext
      exact (OpenAtMost.cons_iff hcount).2 (ih hlater hread)

end Soundness

/-- Reading succeeds on the derivations of the grammar, within the limit, and on nothing else. -/
theorem parseChars_eq_ok {text : List Char} {tree : Pattern} :
    parseChars text = .ok tree ↔ Derives .choose text tree ∧ OpenAtMost maxDepth text := by
  constructor
  · intro h
    unfold parseChars at h
    cases hread : Reading.start.readAll 0 text with
    | error e =>
      rw [hread] at h
      cases h
    | ok final =>
      rw [hread] at h
      have hfinish : final.finish = .ok tree := h
      have hstart : Reading.start.Spells [] := ⟨[], [], rfl, .nil, .start⟩
      obtain ⟨u, v, htext, houter, hgroup⟩ := hstart.readAll hread
      obtain ⟨group, enclosing⟩ := final
      cases houter with
      | nil =>
        cases hfinish
        rw [List.nil_append, List.nil_append] at htext
        rw [htext]
        refine ⟨hgroup.close, ?_⟩
        rw [← htext]
        exact Reading.openAtMost_of_readAll (Nat.zero_add _) hread
      | cons _ _ => cases hfinish
  · rintro ⟨derives, hopen⟩
    obtain ⟨after, hafter, hread⟩ := derives.reads maxDepth [] .start (Nat.zero_add _) hopen
    unfold parseChars Reading.start
    rw [hread 0]
    exact congrArg Except.ok (hafter rfl)

/-- Parsing yields the tree that the text derives, and no text derives two. -/
theorem parse_eq_ok_iff_derives (s : String) :
    (∀ p, parse s = .ok p ↔ Derives .choose s.toList p ∧ OpenAtMost 256 s.toList) ∧
    ∀ p q, Derives .choose s.toList p ∧ OpenAtMost 256 s.toList →
      Derives .choose s.toList q ∧ OpenAtMost 256 s.toList → p = q := by
  refine ⟨fun p => parseChars_eq_ok, fun p q hp hq => ?_⟩
  have h := parseChars_eq_ok.2 hp
  rw [parseChars_eq_ok.2 hq] at h
  exact (Except.ok.inj h).symm

end Pattern
end Automata
