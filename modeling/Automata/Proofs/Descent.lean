import Automata.Proofs.Scan

/-! The grammar read by recursive descent: every part of it is a function that takes its text off
the input, and the loops keep what they have taken, latest first. The descent says so where it
believes that it cannot come, and nothing in its definition makes it end. It answers what the one
pass answers, on every text, so it always ends and never comes there: whatever group the pass is
in, a part of the descent takes what the pass adds to that group, or is refused as the pass is. -/
namespace Automata
namespace Pattern
namespace Descent

/-- What is left to read, the position where it starts, and how many parentheses are open there. -/
structure Input where
  position : Nat
  rest : List Char
  depth : Nat

/-- The input after its first character. -/
def Input.next (input : Input) (rest : List Char) : Input :=
  { input with position := input.position + 1, rest }

/-- Takes the character if it comes next. -/
def Input.eat? (input : Input) (c : Char) : Option Input :=
  match input.rest with
  | [] => none
  | d :: rest => if d = c then some (input.next rest) else none

inductive Stop where
  | refused (e : ParseError)
  /-- A place where the descent should never come. -/
  | impossible

/-- A run of the descent, which need not end. -/
abbrev Result (α : Type) : Type := ExceptT Stop Option α

/-- Joins patterns, given latest first, to the right; there has to be one. -/
def fold (join : Pattern → Pattern → Pattern) : List Pattern → Result Pattern
  | [] => throw .impossible
  | last :: earlier => pure (earlier.foldl (fun rest item => join item rest) last)

def foldItems (items : List Pattern) : Result Pattern :=
  if items = [] then pure empty else fold concat items

/-- Takes the partner of the parenthesis that was opened at a position. -/
def Input.close (input : Input) (opened : Nat) : Result Input :=
  match Input.eat? { input with depth := input.depth - 1 } ')' with
  | some next => pure next
  | none => throw (.refused (.unclosedParen opened))

def stars (item : Pattern) (depth position : Nat) : List Char → Pattern × Input
  | '*' :: rest => stars (.star item) depth (position + 1) rest
  | rest => (item, ⟨position, rest, depth⟩)

mutual
/-- Alternatives with bars between them. -/
def Input.choose (input : Input) : Result (Pattern × Input) := do
  let (first, input) ← input |>.items []
  input |>.alternatives [first]
partial_fixpoint

def Input.alternatives (input : Input) (done : List Pattern) : Result (Pattern × Input) :=
  match input.eat? '|' with
  | some input => do
    let (next, input) ← input |>.items []
    input |>.alternatives (next :: done)
  | none => do return (← fold choice done, input)
partial_fixpoint

/-- Items side by side, up to a bar, a closing parenthesis or the end. -/
def Input.items (input : Input) (done : List Pattern) : Result (Pattern × Input) :=
  match input.rest with
  | [] => do return (← foldItems done, input)
  | c :: _ =>
    if c = '|' ∨ c = ')' then do return (← foldItems done, input)
    else do
      let (item, input) ← input |>.repeated
      input |>.items (item :: done)
partial_fixpoint

def Input.repeated (input : Input) : Result (Pattern × Input) := do
  let (item, input) ← input |>.atom
  return stars item input.depth input.position input.rest
partial_fixpoint

def Input.atom (input : Input) : Result (Pattern × Input) :=
  match input.rest with
  | [] => throw .impossible
  | '(' :: rest =>
    if maxDepth ≤ input.depth then throw (.refused (.tooDeep input.position))
    else do
      let (inner, last) ← { input.next rest with depth := input.depth + 1 } |>.choose
      return (inner, ← last.close input.position)
  | '*' :: _ => throw (.refused (.missingOperand input.position))
  | '|' :: _ => throw .impossible
  | ')' :: _ => throw .impossible
  | c :: rest => return (literal c, input.next rest)
partial_fixpoint
end

/-- Reads a whole text. -/
def descend (text : String) : Result Pattern := do
  let (tree, input) ← Input.choose ⟨0, text.toList, 0⟩
  match input.rest with
  | [] => return tree
  | ')' :: _ => throw (.refused (.trailingParen input.position))
  | _ :: _ => throw .impossible

/-- What the one pass answers that holds a reading before the rest of a text. -/
def answer (reading : Reading) (input : Input) : Except ParseError Pattern := do
  (← reading.readAll input.position input.rest).finish

/-- A part of the descent does what the pass does from a group on: both are refused alike, or the
pass goes on from what the part has taken. -/
inductive Follows (enclosing : List (Nat × Group)) (group : Group) (input : Input)
    (adds : Pattern → Group → Input → Prop) : Result (Pattern × Input) → Prop where
  | refused {e : ParseError} (h : answer ⟨group, enclosing⟩ input = .error e) :
      Follows enclosing group input adds (throw (.refused e))
  | took {tree : Pattern} {after : Group} {next : Input} (added : adds tree after next)
      (depth : next.depth = input.depth) (length : next.rest.length ≤ input.rest.length)
      (h : answer ⟨group, enclosing⟩ input = answer ⟨after, enclosing⟩ next) :
      Follows enclosing group input adds (pure (tree, next))

section Follows
variable {enclosing : List (Nat × Group)} {group between : Group} {input middle : Input}
  {adds adds' : Pattern → Group → Input → Prop} {x : Result (Pattern × Input)}

theorem Follows.of_answer (h : Follows enclosing between middle adds x)
    (depth : middle.depth = input.depth) (length : middle.rest.length ≤ input.rest.length)
    (hanswer : answer ⟨group, enclosing⟩ input = answer ⟨between, enclosing⟩ middle) :
    Follows enclosing group input adds x := by
  cases h with
  | refused herror => exact .refused (hanswer.trans herror)
  | took added depth' length' hanswer' =>
    exact .took added (depth'.trans depth) (Nat.le_trans length' length) (hanswer.trans hanswer')

/-- A part that takes nothing leaves the pass where it is. -/
theorem Follows.here {tree : Pattern} (added : adds tree group input) :
    Follows enclosing group input adds (pure (tree, input)) :=
  .took added rfl (Nat.le_refl _) rfl

theorem Follows.bind {f : Pattern × Input → Result (Pattern × Input)}
    (h : Follows enclosing group input adds x)
    (hf : ∀ tree after next, adds tree after next → next.depth = input.depth →
      next.rest.length ≤ input.rest.length → Follows enclosing after next adds' (f (tree, next))) :
    Follows enclosing group input adds' (x >>= f) := by
  cases h with
  | refused herror => exact .refused herror
  | @took tree after next added depth length hanswer =>
    rw [pure_bind]
    exact (hf tree after next added depth length).of_answer depth length hanswer

theorem Follows.mono (h : Follows enclosing group input adds x)
    (himp : ∀ tree after next, adds tree after next → next.rest.length ≤ input.rest.length →
      adds' tree after next) : Follows enclosing group input adds' x := by
  cases h with
  | refused herror => exact .refused herror
  | took added depth length hanswer => exact .took (himp _ _ _ added length) depth length hanswer

end Follows

section Agreement
variable {enclosing : List (Nat × Group)} {group next : Group} {reading after : Reading}
  {position depth : Nat} {rest : List Char} {c : Char} {e : ParseError}

theorem answer_of_read (rest : List Char) (depth depth' : Nat)
    (h : reading.read position c = .ok after) :
    answer reading ⟨position, c :: rest, depth⟩ = answer after ⟨position + 1, rest, depth'⟩ := by
  unfold answer
  rw [Reading.readAll, h]
  rfl

theorem answer_of_refused (h : reading.read position c = .error e) :
    answer reading ⟨position, c :: rest, depth⟩ = .error e := by
  unfold answer
  rw [Reading.readAll, h]
  rfl

/-- A part may take a character first that the pass reads into the group. -/
theorem Follows.of_read {adds : Pattern → Group → Input → Prop} {x : Result (Pattern × Input)}
    (hread : Reading.read ⟨group, enclosing⟩ position c = .ok ⟨next, enclosing⟩)
    (h : Follows enclosing next ⟨position + 1, rest, depth⟩ adds x) :
    Follows enclosing group ⟨position, c :: rest, depth⟩ adds x :=
  h.of_answer rfl (Nat.le_succ _) (answer_of_read rest depth depth hread)

theorem atom_open (position depth : Nat) (rest : List Char) :
    Input.atom ⟨position, '(' :: rest, depth⟩ =
      if maxDepth ≤ depth then throw (.refused (.tooDeep position))
      else do
        let (inner, last) ← Input.choose ⟨position + 1, rest, depth + 1⟩
        return (inner, ← last.close position) := by
  rw [Input.atom]
  rfl

theorem atom_star (position depth : Nat) (rest : List Char) :
    Input.atom ⟨position, '*' :: rest, depth⟩ =
      throw (.refused (.missingOperand position)) := by
  rw [Input.atom]
  rfl

theorem atom_literal (plain : c ∉ special) (position depth : Nat) (rest : List Char) :
    Input.atom ⟨position, c :: rest, depth⟩ =
      pure (literal c, ⟨position + 1, rest, depth⟩) := by
  obtain ⟨hbar, hstar, hopen, hclose⟩ := not_mem_special.1 plain
  rw [Input.atom]
  dsimp only
  split
  · next h => cases h
  · next h => exact absurd (List.cons.inj h).1 hopen
  · next h => exact absurd (List.cons.inj h).1 hstar
  · next h => exact absurd (List.cons.inj h).1 hbar
  · next h => exact absurd (List.cons.inj h).1 hclose
  · next h =>
    cases h
    rfl

theorem foldItems_eq (items : List Pattern) : foldItems items = pure (concatItems items) := by
  cases items <;> rfl

/-- The next character, if there is one, is among the marks. -/
def Halts (marks rest : List Char) : Prop := ∀ c ∈ rest.head?, c ∈ marks

theorem halts_nil (marks : List Char) : Halts marks [] := fun _ h => nomatch h

theorem halts_cons {marks : List Char} : Halts marks (c :: rest) ↔ c ∈ marks := by
  unfold Halts
  rw [List.head?_cons]
  exact ⟨fun h => h c rfl, fun h d hd => Option.some.inj hd ▸ h⟩

/-- An item is added to a group. -/
def AddsItem (input : Input) (group : Group) (tree : Pattern) (after : Group) (next : Input) :
    Prop :=
  after = group.push tree ∧ next.rest.length < input.rest.length

/-- The rest of the alternative in progress is added. -/
def AddsItems (group : Group) (tree : Pattern) (after : Group) (next : Input) : Prop :=
  after.alternatives = group.alternatives ∧ concatItems after.items = tree ∧
    Halts ['|', ')'] next.rest

/-- The rest of the group is added. -/
def AddsAlternatives (tree : Pattern) (after : Group) (next : Input) : Prop :=
  after.close = tree ∧ Halts [')'] next.rest

/-- The descent goes the way of the pass on all shorter texts. -/
def FollowsBelow (length : Nat) : Prop :=
  ∀ (input : Input) (enclosing : List (Nat × Group)), input.rest.length < length →
    input.depth = enclosing.length →
    Follows enclosing .start input AddsAlternatives input.choose

variable (enclosing : List (Nat × Group)) (group : Group)

/-- The group inside a parenthesis is followed by its partner, or the text is at its end. -/
theorem close_follows {tree : Pattern} {after : Group} {last : Input} (opened : Nat)
    (hadded : AddsAlternatives tree after last) (hdepth : last.depth = enclosing.length + 1) :
    (last.close opened = throw (.refused (.unclosedParen opened)) ∧
      answer ⟨after, (opened, group) :: enclosing⟩ last = .error (.unclosedParen opened)) ∨
    ∃ next, last.close opened = pure next ∧ next.depth = enclosing.length ∧
      next.rest.length < last.rest.length ∧
      answer ⟨after, (opened, group) :: enclosing⟩ last =
        answer ⟨group.push tree, enclosing⟩ next := by
  obtain ⟨position, rest, depth⟩ := last
  obtain ⟨rfl, hhalts⟩ := hadded
  cases hdepth
  cases rest with
  | nil => exact .inl ⟨rfl, rfl⟩
  | cons c rest =>
    have hc : c = ')' := List.mem_singleton.1 (halts_cons.1 hhalts)
    subst hc
    have hread : Reading.read ⟨after, (opened, group) :: enclosing⟩ position ')' =
      .ok ⟨group.push after.close, enclosing⟩ := rfl
    exact .inr ⟨_, rfl, rfl, Nat.lt_succ_self _, answer_of_read _ _ _ hread⟩

/-- A group in parentheses is followed as a whole, since a shorter text is left inside. -/
theorem group_follows (position : Nat) (hbelow : FollowsBelow ('(' :: rest).length)
    (hread : Reading.read ⟨group, enclosing⟩ position '(' =
      .ok ⟨.start, (position, group) :: enclosing⟩) :
    Follows enclosing group ⟨position, '(' :: rest, enclosing.length⟩
      (AddsItem ⟨position, '(' :: rest, enclosing.length⟩ group)
      (do
        let (inner, last) ← Input.choose ⟨position + 1, rest, enclosing.length + 1⟩
        return (inner, ← last.close position)) := by
  have hopen := answer_of_read rest enclosing.length (enclosing.length + 1) hread
  have hinner := hbelow ⟨position + 1, rest, enclosing.length + 1⟩ ((position, group) :: enclosing)
    (Nat.lt_succ_self _) rfl
  generalize Input.choose _ = result at hinner
  cases hinner with
  | refused herror => exact .refused (hopen.trans herror)
  | @took tree after last hadded hdepth hlength hanswer =>
    have hinside := hopen.trans hanswer
    rw [pure_bind]
    dsimp only
    rcases close_follows enclosing group position hadded hdepth with
      ⟨hclose, herror⟩ | ⟨next, hclose, hdepth', hshorter, hnext⟩
    · rw [hclose]
      exact .refused (hinside.trans herror)
    · rw [hclose]
      have hlength' : next.rest.length < ('(' :: rest).length :=
        Nat.lt_succ_of_lt (Nat.lt_of_lt_of_le hshorter hlength)
      exact .took ⟨rfl, hlength'⟩ hdepth' (Nat.le_of_lt hlength') (hinside.trans hnext)

theorem atom_follows (position : Nat) (hbelow : FollowsBelow (c :: rest).length) (hbar : c ≠ '|')
    (hclose : c ≠ ')') (hstar : c = '*' → group.items = []) :
    Follows enclosing group ⟨position, c :: rest, enclosing.length⟩
      (AddsItem ⟨position, c :: rest, enclosing.length⟩ group)
      (Input.atom ⟨position, c :: rest, enclosing.length⟩) := by
  have houtcome := Reading.outcome group enclosing position c
  generalize hread : Reading.read ⟨group, enclosing⟩ position c = result at houtcome
  cases houtcome with
  | opens hroom =>
    rw [atom_open, if_neg (Nat.not_le_of_gt hroom)]
    exact group_follows enclosing group position hbelow hread
  | tooDeep hdeep =>
    rw [atom_open, if_pos hdeep]
    exact .refused (answer_of_refused hread)
  | closes => exact absurd rfl hclose
  | trailing => exact absurd rfl hclose
  | bar => exact absurd rfl hbar
  | star hitems =>
    rw [hstar rfl] at hitems
    cases hitems
  | bareStar =>
    rw [atom_star]
    exact .refused (answer_of_refused hread)
  | literal plain =>
    rw [atom_literal plain]
    exact .took ⟨rfl, Nat.lt_succ_self _⟩ rfl (Nat.le_succ _) (answer_of_read _ _ _ hread)

theorem stars_follows (item : Pattern) (depth position : Nat) (rest : List Char) :
    Follows enclosing (group.push item) ⟨position, rest, depth⟩
      (fun tree after next => after = group.push tree ∧ '*' ∉ next.rest.head?)
      (pure (stars item depth position rest)) := by
  induction rest generalizing item position with
  | nil => exact .here ⟨rfl, fun h => nomatch h⟩
  | cons c rest ih =>
    by_cases hc : c = '*'
    · subst hc
      have hread : Reading.read ⟨group.push item, enclosing⟩ position '*' =
        .ok ⟨group.push (.star item), enclosing⟩ := rfl
      exact .of_read hread (ih (.star item) (position + 1))
    · have hstars : stars item depth position (c :: rest) =
          (item, ⟨position, c :: rest, depth⟩) := by
        unfold stars
        split
        · next h => exact absurd (List.cons.inj h).1 hc
        · rfl
      rw [hstars]
      exact .here ⟨rfl, fun h => hc (Option.some.inj h)⟩

theorem repeated_follows (position : Nat) (hbelow : FollowsBelow (c :: rest).length)
    (hbar : c ≠ '|') (hclose : c ≠ ')') (hstar : c = '*' → group.items = []) :
    Follows enclosing group ⟨position, c :: rest, enclosing.length⟩
      (fun tree after next =>
        AddsItem ⟨position, c :: rest, enclosing.length⟩ group tree after next ∧
          '*' ∉ next.rest.head?)
      (Input.repeated ⟨position, c :: rest, enclosing.length⟩) := by
  rw [Input.repeated]
  have hatom := atom_follows enclosing group position hbelow hbar hclose hstar
  refine hatom.bind fun tree after next hadded hdepth hlength => ?_
  obtain ⟨rfl, hshorter⟩ := hadded
  refine (stars_follows enclosing group tree next.depth next.position next.rest).mono ?_
  rintro tree' after' next' ⟨hafter, hstops⟩ hlength'
  exact ⟨⟨hafter, Nat.lt_of_le_of_lt hlength' hshorter⟩, hstops⟩

theorem FollowsBelow.mono {length length' : Nat} (h : FollowsBelow length)
    (hle : length' ≤ length) : FollowsBelow length' :=
  fun input enclosing hlength => h input enclosing (Nat.lt_of_lt_of_le hlength hle)

/-- After an item there is no star left, so a star that comes first has no operand. -/
theorem items_follows {length : Nat} (hbelow : FollowsBelow length) (input : Input)
    (hlength : input.rest.length ≤ length) (hdepth : input.depth = enclosing.length)
    (hstar : '*' ∈ input.rest.head? → group.items = []) :
    Follows enclosing group input (AddsItems group) (input.items group.items) := by
  generalize hsize : input.rest.length = size
  induction size using Nat.strongRecOn generalizing input group with
  | ind size ih =>
    obtain ⟨position, rest, depth⟩ := input
    cases hdepth
    rw [Input.items]
    cases rest with
    | nil =>
      rw [foldItems_eq]
      exact .here ⟨rfl, rfl, halts_nil _⟩
    | cons c rest =>
      dsimp only
      split
      · next hmark =>
        rw [foldItems_eq]
        refine .here ⟨rfl, rfl, halts_cons.2 ?_⟩
        rw [List.mem_cons, List.mem_singleton]
        exact hmark
      · next hmark =>
        obtain ⟨hbar, hclose⟩ := not_or.1 hmark
        have hitem := repeated_follows enclosing group position (hbelow.mono hlength) hbar hclose
          fun h => hstar (h ▸ rfl)
        refine hitem.bind fun tree after next hadded hdepth' hlength' => ?_
        obtain ⟨⟨rfl, hshorter⟩, hstops⟩ := hadded
        exact ih next.rest.length (hsize ▸ hshorter) _ next (Nat.le_trans hlength' hlength) hdepth'
          (fun h => absurd h hstops) rfl

theorem alternatives_follows {length : Nat} (hbelow : FollowsBelow length) (input : Input)
    (hlength : input.rest.length ≤ length) (hdepth : input.depth = enclosing.length)
    (hhalts : Halts ['|', ')'] input.rest) :
    Follows enclosing group input AddsAlternatives
      (input.alternatives (concatItems group.items :: group.alternatives)) := by
  generalize hsize : input.rest.length = size
  induction size using Nat.strongRecOn generalizing input group with
  | ind size ih =>
    obtain ⟨position, rest, depth⟩ := input
    cases hdepth
    rw [Input.alternatives]
    cases rest with
    | nil => exact .here ⟨rfl, halts_nil _⟩
    | cons c rest =>
      have hc := halts_cons.1 hhalts
      rw [List.mem_cons, List.mem_singleton] at hc
      cases hc with
      | inl hbar =>
        subst hbar
        have hread : Reading.read ⟨group, enclosing⟩ position '|' =
          .ok ⟨group.bar, enclosing⟩ := rfl
        have hitems := items_follows enclosing group.bar hbelow
          ⟨position + 1, rest, enclosing.length⟩ (Nat.le_of_succ_le hlength) rfl fun _ => rfl
        refine .of_read hread (hitems.bind fun tree after next hadded hdepth' hlength' => ?_)
        obtain ⟨halternatives, rfl, hhalts'⟩ := hadded
        have hnext := ih next.rest.length (hsize ▸ Nat.lt_succ_of_le hlength') after next
          (Nat.le_trans hlength' (Nat.le_of_succ_le hlength)) hdepth' hhalts' rfl
        rw [halternatives] at hnext
        exact hnext
      | inr hclose =>
        subst hclose
        exact .here ⟨rfl, halts_cons.2 (List.mem_singleton.2 rfl)⟩

theorem followsBelow (length : Nat) : FollowsBelow length := by
  induction length with
  | zero => exact fun _ _ h => absurd h (Nat.not_lt_zero _)
  | succ length ih =>
    intro input enclosing hlength hdepth
    have hlength := Nat.le_of_lt_succ hlength
    rw [Input.choose]
    have hitems := items_follows enclosing .start ih input hlength hdepth fun _ => rfl
    refine hitems.bind fun tree after next hadded hdepth' hlength' => ?_
    obtain ⟨halternatives, rfl, hhalts⟩ := hadded
    have halts := alternatives_follows enclosing after ih next (Nat.le_trans hlength' hlength)
      (hdepth'.trans hdepth) hhalts
    rw [halternatives] at halts
    exact halts

/-- The answer of the pass as a run of the descent. -/
def answered : Except ParseError Pattern → Result Pattern
  | .ok tree => pure tree
  | .error e => throw (.refused e)

theorem answered_ne_impossible (result : Except ParseError Pattern) :
    answered result ≠ throw .impossible := by
  cases result with
  | ok tree => exact fun h => nomatch Option.some.inj h
  | error e => exact fun h => nomatch Option.some.inj h

/-- The descent ends on every text, and with the answer of the one pass. -/
theorem descend_eq (text : String) : descend text = answered (parse text) := by
  have hchoose := followsBelow (text.toList.length + 1) ⟨0, text.toList, 0⟩ []
    (Nat.lt_succ_self _) rfl
  have hparse : parse text = answer .start ⟨0, text.toList, 0⟩ := rfl
  unfold descend
  generalize Input.choose _ = result at hchoose
  cases hchoose with
  | refused herror =>
    rw [hparse]
    unfold Reading.start
    rw [herror]
    rfl
  | @took tree after next added hdepth hlength hanswer =>
    obtain ⟨position, rest, depth⟩ := next
    obtain ⟨rfl, hhalts⟩ := added
    rw [pure_bind, hparse]
    unfold Reading.start
    rw [hanswer]
    cases rest with
    | nil => rfl
    | cons c rest =>
      have hc : c = ')' := List.mem_singleton.1 (halts_cons.1 hhalts)
      subst hc
      rfl

end Agreement

end Descent

/-- Reading fails where the scan says and with the failure that it says, and the recursive descent
never comes where it believes that it cannot. -/
theorem parse_scans (s : String) :
    (∀ i e, FirstFault s.toList i e → parse s = .error e) ∧
    ((∀ i e, ¬Fault s.toList i e) →
      (0 < nesting s.toList s.length →
        ∃ j, LastUnclosed s.toList j ∧ parse s = .error (.unclosedParen j)) ∧
      (nesting s.toList s.length ≤ 0 → ∃ p, parse s = .ok p)) ∧
    (∀ e, parse s = .error e → e.position < s.length) ∧
    Descent.descend s = Descent.answered (parse s) ∧
    Descent.descend s ≠ throw .impossible := by
  rw [← String.length_toList]
  refine ⟨fun i e => parseChars_of_firstFault, fun hfine => ⟨?_, ?_⟩, fun e => ?_, ?_, ?_⟩
  · exact parseChars_of_open hfine
  · exact parseChars_of_closed hfine
  · exact position_lt_of_parseChars
  · exact Descent.descend_eq s
  · rw [Descent.descend_eq s]
    exact Descent.answered_ne_impossible (parse s)

end Pattern
end Automata
