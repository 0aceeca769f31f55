import Automata.Proofs.Numbering

/-! A map that carries the successors of each point to the successors of its image, and keeps
points apart, carries a whole search: both searches draw in step, so the points of the one are the
images of the points of the other, in the same order. For the subset construction this means that
only the sets and the symbols between them count. Two automata whose sets mirror each other in this
way get the same numbers, hence one and the same deterministic automaton. -/
namespace Automata

namespace Search
variable {α β : Type} [Ordered α] [Ordered β]

/-- The map carries the points that have the property, which successors keep, to points whose
successors are the images of theirs, and no two of them to one. -/
structure Carries (P : α → Prop) (next : α → List α) (next' : β → List β) (h : α → β) : Prop where
  closed : ∀ x, P x → ∀ y ∈ next x, P y
  injective : ∀ x y, P x → P y → h x = h y → x = y
  successors : ∀ x, P x → next' (h x) = (next x).map h

variable {P : α → Prop} {next : α → List α} {next' : β → List β} {h : α → β}

theorem Carries.mem_seen (carries : Carries P next next' h) {seen : Roster α} {seen' : Roster β}
    (image : seen'.toList = seen.toList.map h) (own : ∀ x ∈ seen, P x) {x : α} (hx : P x) :
    h x ∈ seen' ↔ x ∈ seen := by
  rw [← Roster.mem_toList, image, List.mem_map]
  constructor
  · rintro ⟨y, mem, same⟩
    have hy := Roster.mem_toList.1 mem
    rwa [← carries.injective y x (own y hy) hx same]
  · intro mem
    exact ⟨x, Roster.mem_toList.2 mem, rfl⟩

/-- Of two searches of which one is the image of the other, the one finds the images of what the
other finds, in the same order. -/
theorem Carries.toList_exhaust (carries : Carries P next next' h) {search : Search α}
    {search' : Search β} (halts : Halts next search) (halts' : Halts next' search')
    (seen : search'.seen.toList = search.seen.toList.map h)
    (queue : search'.queue = search.queue.map h)
    (ownSeen : ∀ x ∈ search.seen, P x) (ownQueue : ∀ x ∈ search.queue, P x) :
    (exhaust next' search' halts').toList = (exhaust next search halts).toList.map h := by
  -- on the draws of the one search; the other keeps to the image of what it has seen and queued
  induction search, halts using Halts.induct next generalizing search' with
  | nil roster halts =>
    obtain ⟨roster', queue'⟩ := search'
    obtain rfl : queue' = [] := queue
    rw [exhaust_nil, exhaust_nil]
    exact seen
  | drop roster x rest halts later mem ih =>
    obtain ⟨roster', queue'⟩ := search'
    obtain rfl : queue' = h x :: rest.map h := queue
    have mem' := (carries.mem_seen seen ownSeen (ownSeen x mem)).2 mem
    rw [exhaust_of_draw? next halts (draw?_of_mem next mem),
      exhaust_of_draw? next' halts' (draw?_of_mem next' mem')]
    exact ih _ seen rfl ownSeen fun y hy => ownQueue y (List.mem_cons_of_mem x hy)
  | expand roster x rest halts new later ih =>
    obtain ⟨roster', queue'⟩ := search'
    obtain rfl : queue' = h x :: rest.map h := queue
    have hx := ownQueue x List.mem_cons_self
    have new' : h x ∉ roster' := mt (carries.mem_seen seen ownSeen hx).1 new
    rw [exhaust_of_draw? next halts (draw?_of_not_mem next new),
      exhaust_of_draw? next' halts' (draw?_of_not_mem next' new')]
    refine ih _ ?_ ?_ (fun y hy => ?_) (fun y hy => ?_)
    · dsimp only at seen ⊢
      rw [Roster.toList_push, Roster.toList_push, seen, List.map_append, List.map_singleton]
    · dsimp only
      rw [carries.successors x hx, List.map_append]
    · rcases (Roster.mem_push new).1 hy with rfl | hy
      · exact hx
      · exact ownSeen y hy
    · rcases List.mem_append.1 hy with hy | hy
      · exact ownQueue y (List.mem_cons_of_mem x hy)
      · exact carries.closed x hx y hy

theorem Carries.toList_discover (carries : Carries P next next' h) {seeds : List α}
    (own : ∀ x ∈ seeds, P x) (halts : Halts next ⟨∅, seeds⟩)
    (halts' : Halts next' ⟨∅, seeds.map h⟩) :
    (discover next' (seeds.map h) halts').toList = (discover next seeds halts).toList.map h :=
  carries.toList_exhaust halts halts' rfl rfl (fun x mem => absurd mem (Roster.not_mem_empty x)) own

end Search

namespace Nfa
variable {S T : Type} [Ordered S] [Ordered T]

/-- The sets of the one automaton are mirrored by sets of the other, which lie as far apart over
the same symbols and accept alike. -/
structure Mirrors (h : SortedSet S → SortedSet T) (nfa : Nfa S) (other : Nfa T) : Prop where
  alphabet : other.rulebook.alphabet = nfa.rulebook.alphabet
  start : other.startSet = h nfa.startSet
  step : ∀ states ∈ nfa.stateSets, ∀ c ∈ nfa.rulebook.alphabet,
    other.step (h states) c = h (nfa.step states c)
  injective : ∀ states ∈ nfa.stateSets, ∀ others ∈ nfa.stateSets, h states = h others →
    states = others
  accept : ∀ states ∈ nfa.stateSets, (h states).meets other.accept = states.meets nfa.accept

theorem startSet_mem_stateSets (nfa : Nfa S) : nfa.startSet ∈ nfa.stateSets :=
  Roster.mem_toList.1 (List.mem_of_getElem? nfa.getElem?_stateSets_zero)

theorem step_mem_stateSets {nfa : Nfa S} {states : SortedSet S} (mem : states ∈ nfa.stateSets)
    {c : Char} (hc : c ∈ nfa.rulebook.alphabet) : nfa.step states c ∈ nfa.stateSets := by
  have place := getElem?_stateSets_step (Roster.getElem?_idxOf mem) hc
  exact (Roster.getElem?_eq_some_iff.1 place).1

namespace Mirrors
variable {h : SortedSet S → SortedSet T} {nfa : Nfa S} {other : Nfa T}

theorem carries (mirrors : Mirrors h nfa other) :
    Search.Carries (· ∈ nfa.stateSets) (nfa.successors nfa.rulebook.alphabet.toList)
      (other.successors nfa.rulebook.alphabet.toList) h where
  closed states mem others hothers := by
    obtain ⟨c, hc, rfl⟩ := List.mem_map.1 hothers
    exact step_mem_stateSets mem (SortedSet.mem_def.2 hc)
  injective states others hstates hothers := mirrors.injective states hstates others hothers
  successors states mem := by
    unfold successors
    rw [List.map_map]
    exact List.map_congr_left fun c hc => mirrors.step states mem c (SortedSet.mem_def.2 hc)

/-- Mirrored sets are found in the same order. -/
theorem toList_stateSets (mirrors : Mirrors h nfa other) :
    other.stateSets.toList = nfa.stateSets.toList.map h := by
  have halts' : Search.Halts (other.successors nfa.rulebook.alphabet.toList)
      ⟨∅, [nfa.startSet].map h⟩ := by
    rw [List.map_singleton, ← mirrors.start]
    exact (other.confined_successors _).halts
  have hseed : ∀ states ∈ [nfa.startSet], states ∈ nfa.stateSets := by
    intro states mem
    rw [List.mem_singleton.1 mem]
    exact nfa.startSet_mem_stateSets
  have hmap := mirrors.carries.toList_discover hseed (nfa.confined_successors _).halts halts'
  unfold stateSets
  dsimp only
  simp only [mirrors.alphabet, mirrors.start]
  exact hmap

theorem idxOf_eq (mirrors : Mirrors h nfa other) {states : SortedSet S}
    (mem : states ∈ nfa.stateSets) :
    other.stateSets.idxOf (h states) = nfa.stateSets.idxOf states := by
  have place : other.stateSets.toList[nfa.stateSets.idxOf states]? = some (h states) := by
    rw [mirrors.toList_stateSets, List.getElem?_map, Roster.getElem?_idxOf mem, Option.map_some]
  exact (Roster.getElem?_eq_some_iff.1 place).2.symm

theorem subsetRules_eq (mirrors : Mirrors h nfa other) {states : SortedSet S}
    (mem : states ∈ nfa.stateSets) (i : Nat) :
    other.subsetRules other.stateSets nfa.rulebook.alphabet.toList (h states, i) =
      nfa.subsetRules nfa.stateSets nfa.rulebook.alphabet.toList (states, i) := by
  refine List.map_congr_left fun c hc => ?_
  have hc' : c ∈ nfa.rulebook.alphabet := SortedSet.mem_def.2 hc
  dsimp only
  rw [mirrors.step states mem c hc', mirrors.idxOf_eq (step_mem_stateSets mem hc')]

theorem accept_toDfa (mirrors : Mirrors h nfa other) : other.toDfa.accept = nfa.toDfa.accept := by
  refine SortedSet.ext fun i => ?_
  rw [mem_accept_toDfa, mem_accept_toDfa]
  simp only [mirrors.toList_stateSets, List.getElem?_map, Option.map_eq_some_iff]
  constructor
  · rintro ⟨_, ⟨states, place, rfl⟩, accepting⟩
    have mem := Roster.mem_toList.1 (List.mem_of_getElem? place)
    exact ⟨states, place, (mirrors.accept states mem).symm.trans accepting⟩
  · rintro ⟨states, place, accepting⟩
    have mem := Roster.mem_toList.1 (List.mem_of_getElem? place)
    exact ⟨h states, ⟨states, place, rfl⟩, (mirrors.accept states mem).trans accepting⟩

theorem rules_toDfa (mirrors : Mirrors h nfa other) :
    other.toDfa.table.rules = nfa.toDfa.table.rules := by
  have hrules (numbered : SortedSet S × Nat) (mem : numbered ∈ nfa.stateSets.toList.zipIdx) :
      other.subsetRules other.stateSets nfa.rulebook.alphabet.toList
          (h numbered.1, numbered.2) =
        nfa.subsetRules nfa.stateSets nfa.rulebook.alphabet.toList numbered :=
    mirrors.subsetRules_eq (Roster.mem_toList.1 (List.fst_mem_of_mem_zipIdx mem)) numbered.2
  calc
    other.toDfa.table.rules
      = (nfa.stateSets.toList.map h).zipIdx.flatMap
          (other.subsetRules other.stateSets nfa.rulebook.alphabet.toList) := by
        rw [← mirrors.toList_stateSets, ← mirrors.alphabet]
        rfl
    _ = nfa.stateSets.toList.zipIdx.flatMap fun numbered =>
          other.subsetRules other.stateSets nfa.rulebook.alphabet.toList
            (h numbered.1, numbered.2) := by
        rw [List.zipIdx_map, List.flatMap_map]
        rfl
    _ = nfa.toDfa.table.rules := List.flatMap_congr hrules

/-- Automata that mirror each other have one and the same deterministic automaton. -/
theorem toDfa_eq (mirrors : Mirrors h nfa other) : other.toDfa = nfa.toDfa := by
  have htable : other.toDfa.table = nfa.toDfa.table :=
    congrArg RuleTable.firstMatch mirrors.rules_toDfa
  calc
    other.toDfa = ⟨0, other.toDfa.accept, other.toDfa.table⟩ := rfl
    _ = ⟨0, nfa.toDfa.accept, nfa.toDfa.table⟩ := by rw [mirrors.accept_toDfa, htable]
    _ = nfa.toDfa := rfl

end Mirrors
end Nfa
end Automata
