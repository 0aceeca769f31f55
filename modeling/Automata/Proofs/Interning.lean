import Automata.Nfa.Subset
import Automata.Proofs.Reachability
import Mathlib.Data.List.Basic

/-! The sets of the subset construction may also get their numbers as soon as they are met. One
worklist then holds numbers instead of sets, and it lays down a rule with each set that it meets.
The sets that have a number are those which the search has seen, followed by those that wait in its
queue, each where it stands first; so the worklist is the last stretch of the numbers, no set waits
twice, and the target of a rule has its number for good. The worklist ends as the search does, with
the same sets and with their rules in order. -/
namespace Automata

namespace Roster
variable {α : Type} [Ordered α] {roster : Roster α} {x y : α}

/-- Adds an element at the end unless it is there. -/
def intern (roster : Roster α) (x : α) : Roster α :=
  if mem : x ∈ roster then roster else roster.push x mem

def internAll (roster : Roster α) (l : List α) : Roster α := l.foldl intern roster

theorem intern_of_mem (mem : x ∈ roster) : roster.intern x = roster := dif_pos mem

theorem intern_of_not_mem (new : x ∉ roster) : roster.intern x = roster.push x new := dif_neg new

theorem mem_intern_self (roster : Roster α) (x : α) : x ∈ roster.intern x := by
  by_cases mem : x ∈ roster
  · rw [intern_of_mem mem]
    exact mem
  · rw [intern_of_not_mem mem]
    exact (mem_push mem).2 (.inl rfl)

theorem prefix_intern (roster : Roster α) (x : α) :
    roster.toList <+: (roster.intern x).toList := by
  by_cases mem : x ∈ roster
  · exact (intern_of_mem mem).symm ▸ List.prefix_rfl
  · rw [intern_of_not_mem mem, toList_push]
    exact List.prefix_append _ _

theorem prefix_internAll (roster : Roster α) (l : List α) :
    roster.toList <+: (roster.internAll l).toList := by
  induction l generalizing roster with
  | nil => exact List.prefix_rfl
  | cons x rest ih => exact (prefix_intern roster x).trans (ih (roster.intern x))

theorem internAll_cons (roster : Roster α) (x : α) (rest : List α) :
    roster.internAll (x :: rest) = (roster.intern x).internAll rest := rfl

theorem internAll_append (roster : Roster α) (l m : List α) :
    roster.internAll (l ++ m) = (roster.internAll l).internAll m := List.foldl_append

theorem idxOf_push (new : x ∉ roster) : (roster.push x new).idxOf x = roster.toList.length := by
  rw [idxOf_eq, toList_push, List.idxOf_append_of_notMem (mt mem_toList.1 new),
    List.idxOf_cons_self, Nat.add_zero]

/-- An element keeps its place when others join. -/
theorem idxOf_of_prefix {later : Roster α} (hgrown : roster.toList <+: later.toList)
    (mem : x ∈ roster) : later.idxOf x = roster.idxOf x := by
  obtain ⟨rest, hrest⟩ := hgrown
  rw [idxOf_eq, idxOf_eq, ← hrest]
  exact List.idxOf_append_of_mem (mem_toList.2 mem)

end Roster

namespace Nfa
variable {S : Type} [Ordered S]

/-- A numbering in progress: the sets that have a number, the numbers whose sets are still to be
expanded, next first, and the rules laid down. -/
structure Interning (S : Type) [Ordered S] where
  sets : Roster (SortedSet S)
  queue : List Nat
  rules : List (Rule Nat)

namespace Interning

def start (nfa : Nfa S) : Interning S := ⟨Roster.intern ∅ nfa.startSet, [0], []⟩

/-- Gives the set a number, unless it has one, and lays down a rule that leads to it. -/
def meet (interning : Interning S) (source : Nat) (symbol : Char) (states : SortedSet S) :
    Interning S :=
  let sets := interning.sets.intern states
  let target := sets.idxOf states
  ⟨sets, if states ∈ interning.sets then interning.queue else interning.queue ++ [target],
    interning.rules ++ [⟨source, some symbol, target⟩]⟩

/-- Meets all sets that are one symbol away from a set that has a number. -/
def expand (interning : Interning S) (nfa : Nfa S) (source : Nat) (states : SortedSet S) :
    Interning S :=
  nfa.rulebook.alphabet.toList.foldl
    (fun interning symbol => interning.meet source symbol (nfa.step states symbol)) interning

/-- Expands until the worklist is empty. Neither that it gets there nor that every number in the
worklist has a set is part of the definition. -/
def exhaust (interning : Interning S) (nfa : Nfa S) : Option (Interning S) :=
  match interning.queue with
  | [] => some interning
  | source :: rest =>
    match interning.sets.toList[source]? with
    | none => none
    | some states => expand { interning with queue := rest } nfa source states |>.exhaust nfa
partial_fixpoint

/-- The numbers from the first on. -/
def pending (sets : Roster (SortedSet S)) (first : Nat) : List Nat :=
  List.range' first (sets.toList.length - first)

section Meet
variable {sets later : Roster (SortedSet S)} {first : Nat} {rules : List (Rule Nat)}

/-- Meeting a set keeps the worklist the last stretch of the numbers. -/
theorem meet_eq (hfirst : first ≤ sets.toList.length) (source : Nat) (symbol : Char)
    (states : SortedSet S) :
    meet ⟨sets, pending sets first, rules⟩ source symbol states =
      ⟨sets.intern states, pending (sets.intern states) first,
        rules ++ [⟨source, some symbol, (sets.intern states).idxOf states⟩]⟩ := by
  unfold meet
  dsimp only
  by_cases mem : states ∈ sets
  · rw [if_pos mem, Roster.intern_of_mem mem]
  · have hlength : (sets.toList ++ [states]).length - first =
        sets.toList.length - first + 1 := by
      rw [List.length_append, List.length_singleton]
      omega
    have hlast : first + (sets.toList.length - first) = sets.toList.length := by omega
    rw [if_neg mem, Roster.intern_of_not_mem mem, Roster.idxOf_push mem]
    unfold pending
    rw [Roster.toList_push, hlength, List.range'_1_concat, hlast]

/-- Expanding lays down the rules of one source, whose targets have the numbers that they keep. -/
theorem foldl_meet (hfirst : first ≤ sets.toList.length) (source : Nat) (f : Char → SortedSet S)
    {symbols : List Char}
    (hlater : (sets.internAll (symbols.map f)).toList <+: later.toList) :
    symbols.foldl (fun interning symbol => meet interning source symbol (f symbol))
        (mk sets (pending sets first) rules) =
      mk (sets.internAll (symbols.map f)) (pending (sets.internAll (symbols.map f)) first)
        (rules ++ symbols.map fun symbol => ⟨source, some symbol, later.idxOf (f symbol)⟩) := by
  induction symbols generalizing sets rules with
  | nil =>
    rw [List.map_nil, List.map_nil, List.append_nil]
    rfl
  | cons symbol rest ih =>
    have hgrown := (Roster.prefix_intern sets (f symbol)).length_le
    rw [List.map_cons, Roster.internAll_cons] at hlater ⊢
    have htarget := Roster.idxOf_of_prefix ((Roster.prefix_internAll _ _).trans hlater)
      (Roster.mem_intern_self sets (f symbol))
    rw [List.foldl_cons, meet_eq hfirst, ih (Nat.le_trans hfirst hgrown) hlater, List.map_cons,
      List.append_assoc, htarget]
    rfl

end Meet

section Exhaust
variable {nfa : Nfa S}

/-- What waits in a search is numbered before anything that is found later. -/
theorem prefix_exhaust {search : Search (SortedSet S)} {next : SortedSet S → List (SortedSet S)}
    (halts : Search.Halts next search) :
    (search.seen.internAll search.queue).toList <+: (Search.exhaust next search halts).toList := by
  induction search, halts using Search.Halts.induct next with
  | nil seen halts =>
    rw [Search.exhaust_nil]
    exact List.prefix_rfl
  | drop seen x rest halts halts' mem ih =>
    rw [Search.exhaust_of_draw? next halts (Search.draw?_of_mem next mem)]
    dsimp only
    rw [Roster.internAll_cons, Roster.intern_of_mem mem]
    exact ih
  | expand seen x rest halts new halts' ih =>
    rw [Search.exhaust_of_draw? next halts (Search.draw?_of_not_mem next new)]
    dsimp only at ih ⊢
    rw [Roster.internAll_append] at ih
    rw [Roster.internAll_cons, Roster.intern_of_not_mem new]
    exact (Roster.prefix_internAll _ _).trans ih

theorem getElem?_of_prefix {α : Type} {l m : List α} {x : α} (h : l ++ [x] <+: m) :
    m[l.length]? = some x := by
  obtain ⟨rest, rfl⟩ := h
  rw [List.append_assoc, List.getElem?_append_right (Nat.le_refl _), Nat.sub_self]
  rfl

theorem drop_zipIdx {α : Type} {l : List α} {i : Nat} {x : α} (h : l[i]? = some x) :
    l.zipIdx.drop i = (x, i) :: l.zipIdx.drop (i + 1) := by
  obtain ⟨hi, rfl⟩ := List.getElem?_eq_some_iff.1 h
  have hi' : i < l.zipIdx.length := by rwa [List.length_zipIdx]
  rw [List.drop_eq_getElem_cons hi', List.getElem_zipIdx, Nat.zero_add]

/-- One turn of the worklist. -/
theorem exhaust_of_place {sets later : Roster (SortedSet S)} {first : Nat} {states : SortedSet S}
    (rules : List (Rule Nat)) (place : sets.toList[first]? = some states)
    (hlater : (sets.internAll (nfa.successors nfa.rulebook.alphabet.toList states)).toList <+:
      later.toList) :
    exhaust (mk sets (pending sets first) rules) nfa =
      exhaust (mk (sets.internAll (nfa.successors nfa.rulebook.alphabet.toList states))
        (pending (sets.internAll (nfa.successors nfa.rulebook.alphabet.toList states)) (first + 1))
        (rules ++ nfa.subsetRules later nfa.rulebook.alphabet.toList (states, first))) nfa := by
  have hfirst : first + 1 ≤ sets.toList.length := (List.getElem?_eq_some_iff.1 place).1
  have hlength : sets.toList.length - first = sets.toList.length - (first + 1) + 1 := by omega
  have hqueue : pending sets first = first :: pending sets (first + 1) := by
    unfold pending
    rw [hlength, List.range'_succ]
  rw [hqueue, exhaust]
  dsimp only
  rw [place]
  dsimp only
  rw [expand, foldl_meet hfirst first (nfa.step states) hlater]
  rfl

/-- A worklist whose sets are the seen and the waiting ones of a search, with the waiting numbers
last, ends with the sets that the search ends with and with the rules of those still to expand. -/
theorem exhaust_eq (nfa : Nfa S) {search : Search (SortedSet S)}
    (halts : Search.Halts (nfa.successors nfa.rulebook.alphabet.toList) search)
    (rules : List (Rule Nat)) :
    exhaust (mk (search.seen.internAll search.queue)
        (pending (search.seen.internAll search.queue) search.seen.toList.length) rules) nfa =
      some (mk (Search.exhaust _ search halts) [] (rules ++
        ((Search.exhaust _ search halts).toList.zipIdx.drop search.seen.toList.length).flatMap
          (nfa.subsetRules (Search.exhaust _ search halts) nfa.rulebook.alphabet.toList))) := by
  induction search, halts using Search.Halts.induct (nfa.successors nfa.rulebook.alphabet.toList)
    generalizing rules with
  | nil seen halts =>
    have hqueue : pending (seen.internAll []) seen.toList.length = [] := by
      have hlength : (seen.internAll []).toList.length - seen.toList.length = 0 := Nat.sub_self _
      unfold pending
      rw [hlength, List.range'_zero]
    have hdrop : seen.toList.zipIdx.drop seen.toList.length = [] :=
      List.drop_of_length_le (Nat.le_of_eq List.length_zipIdx)
    rw [Search.exhaust_nil, hqueue, exhaust, hdrop, List.flatMap_nil, List.append_nil]
    rfl
  | drop seen x rest halts halts' mem ih =>
    rw [Search.exhaust_of_draw? _ halts (Search.draw?_of_mem _ mem)]
    dsimp only
    rw [Roster.internAll_cons, Roster.intern_of_mem mem]
    exact ih rules
  | expand seen x rest halts new halts' ih =>
    rw [Search.exhaust_of_draw? _ halts (Search.draw?_of_not_mem _ new)]
    dsimp only at ih ⊢
    have hlater := prefix_exhaust halts'
    have hrest := ih (rules ++ nfa.subsetRules (Search.exhaust _ _ halts')
      nfa.rulebook.alphabet.toList (x, seen.toList.length))
    dsimp only at hlater
    generalize Search.exhaust _ _ halts' = later at hlater hrest ⊢
    rw [Roster.internAll_append] at hlater hrest
    rw [Roster.internAll_cons, Roster.intern_of_not_mem new]
    have hpush := Roster.prefix_internAll (seen.push x new) rest
    rw [Roster.toList_push] at hpush hrest
    rw [List.length_append, List.length_singleton] at hrest
    generalize (seen.push x new).internAll rest = sets at hlater hpush hrest ⊢
    -- the number that comes next is that of the set which the search draws, now and in the end
    have hx := getElem?_of_prefix hpush
    have hx' := getElem?_of_prefix (hpush.trans ((Roster.prefix_internAll sets _).trans hlater))
    rw [exhaust_of_place rules hx hlater, hrest, drop_zipIdx hx', List.flatMap_cons,
      List.append_assoc]

/-- From the start set on the worklist ends, with the numbered sets and all their rules. -/
theorem exhaust_start (nfa : Nfa S) :
    (start nfa).exhaust nfa = some ⟨nfa.stateSets, [], nfa.toDfa.table.rules⟩ := by
  have hqueue : pending (Roster.intern ∅ nfa.startSet) 0 = [0] := by
    unfold pending
    rw [Roster.intern_of_not_mem (Roster.not_mem_empty _), Roster.toList_push, Roster.toList_empty]
    rfl
  have hexhaust := exhaust_eq nfa (nfa.confined_successors nfa.rulebook.alphabet.toList).halts []
  rw [List.nil_append] at hexhaust
  unfold start
  rw [← hqueue]
  exact hexhaust

end Exhaust

end Interning
end Nfa
end Automata
