import Automata.Rulebook
import Mathlib.Logic.Relation

/-! A search finds exactly the points that its seeds reach. Nothing else is ever queued, and each
draw keeps the successors of what was seen either seen or queued, so that the empty queue leaves a
set closed under successors. The closure of a rulebook inherits this: it holds the states that free
moves lead to, and no others. -/
namespace Automata

namespace Search
variable {α : Type} [Ordered α] (next : α → List α)

/-- Some number of moves to a successor leads from the first point to the second. -/
def Reaches : α → α → Prop := Relation.ReflTransGen fun x y => y ∈ next x

/-- The successors of every seen point are seen or queued. -/
def Saturated (search : Search α) : Prop :=
  ∀ x ∈ search.seen, ∀ y ∈ next x, y ∈ search.seen ∨ y ∈ search.queue

theorem Saturated.draw {search later : Search α} (saturated : Saturated next search)
    (drawn : draw? next search = some later) : Saturated next later := by
  obtain ⟨seen, queue⟩ := search
  cases queue with
  | nil => simp [draw?] at drawn
  | cons x rest =>
    intro y hy z hz
    by_cases mem : x ∈ seen
    · rw [draw?_of_mem next mem, Option.some.injEq] at drawn
      subst drawn
      have h := saturated y hy z hz
      simp only [List.mem_cons] at h
      -- the dropped point was seen before, so it need not wait any longer
      rcases h with h | rfl | h
      · exact .inl h
      · exact .inl mem
      · exact .inr h
    · rw [draw?_of_not_mem next mem, Option.some.injEq] at drawn
      subst drawn
      simp only [Roster.mem_push, List.mem_append] at hy ⊢
      rcases hy with rfl | hy
      · exact .inr (.inr hz)
      · have h := saturated y hy z hz
        simp only [List.mem_cons] at h
        rcases h with h | h | h
        · exact .inl (.inr h)
        · exact .inl (.inl h)
        · exact .inr (.inl h)

/-- What is seen keeps its place to the end of the search. -/
theorem prefix_exhaust {search : Search α} (halts : Halts next search) :
    search.seen.toList <+: (exhaust next search halts).toList := by
  induction search, halts using Halts.induct next with
  | nil seen halts => exact (exhaust_nil next seen halts).symm ▸ List.prefix_rfl
  | drop seen x rest halts halts' mem ih =>
    rw [exhaust_of_draw? next halts (draw?_of_mem next mem)]
    exact ih
  | expand seen x rest halts new halts' ih =>
    rw [exhaust_of_draw? next halts (draw?_of_not_mem next new)]
    have h : seen.toList <+: (seen.push x new).toList := by
      rw [Roster.toList_push]
      exact List.prefix_append _ _
    exact h.trans ih

theorem mem_exhaust_of_mem_seen {search : Search α} (halts : Halts next search) {x : α}
    (mem : x ∈ search.seen) : x ∈ exhaust next search halts :=
  Roster.mem_toList.1 ((prefix_exhaust next halts).subset (Roster.mem_toList.2 mem))

theorem mem_exhaust_of_mem_queue {search : Search α} (halts : Halts next search) {x : α}
    (mem : x ∈ search.queue) : x ∈ exhaust next search halts := by
  induction search, halts using Halts.induct next with
  | nil seen halts => exact absurd mem List.not_mem_nil
  | drop seen y rest halts halts' old ih =>
    rw [exhaust_of_draw? next halts (draw?_of_mem next old)]
    rcases List.mem_cons.1 mem with rfl | mem
    · exact mem_exhaust_of_mem_seen next _ old
    · exact ih mem
  | expand seen y rest halts new halts' ih =>
    rw [exhaust_of_draw? next halts (draw?_of_not_mem next new)]
    rcases List.mem_cons.1 mem with rfl | mem
    · exact mem_exhaust_of_mem_seen next _ ((Roster.mem_push new).2 (.inl rfl))
    · exact ih (List.mem_append_left _ mem)

theorem exhaust_closed {search : Search α} (halts : Halts next search)
    (saturated : Saturated next search) {x y : α} (hx : x ∈ exhaust next search halts)
    (hy : y ∈ next x) : y ∈ exhaust next search halts := by
  induction search, halts using Halts.induct next with
  | nil seen halts =>
    rw [exhaust_nil] at hx ⊢
    exact (saturated x hx y hy).resolve_right List.not_mem_nil
  | drop seen z rest halts halts' mem ih =>
    have drawn := @draw?_of_mem α _ next seen rest z mem
    rw [exhaust_of_draw? next halts drawn] at hx ⊢
    exact ih (saturated.draw next drawn) hx
  | expand seen z rest halts new halts' ih =>
    have drawn := @draw?_of_not_mem α _ next seen rest z new
    rw [exhaust_of_draw? next halts drawn] at hx ⊢
    exact ih (saturated.draw next drawn) hx

theorem saturated_start (seeds : List α) : Saturated next ⟨∅, seeds⟩ :=
  fun x mem => absurd mem (Roster.not_mem_empty x)

theorem discover_closed {seeds : List α} (halts : Halts next ⟨∅, seeds⟩) {x y : α}
    (hx : x ∈ discover next seeds halts) (hy : y ∈ next x) : y ∈ discover next seeds halts :=
  exhaust_closed next halts (saturated_start next seeds) hx hy

theorem mem_discover_iff {seeds : List α} (halts : Halts next ⟨∅, seeds⟩) {x : α} :
    x ∈ discover next seeds halts ↔ ∃ seed ∈ seeds, Reaches next seed x := by
  constructor
  · intro hx
    refine forall_mem_discover next (P := fun x => ∃ seed ∈ seeds, Reaches next seed x)
      (fun y hy z hz => ?_) halts (fun seed mem => ⟨seed, mem, .refl⟩) x hx
    obtain ⟨seed, mem, reaches⟩ := hy
    exact ⟨seed, mem, reaches.tail hz⟩
  · rintro ⟨seed, mem, reaches⟩
    induction reaches with
    | refl => exact mem_exhaust_of_mem_queue next halts mem
    | tail _ hz ih => exact discover_closed next halts ih hz

/-- A single seed is the first point found. -/
theorem getElem?_discover_zero (seed : α) (halts : Halts next ⟨∅, [seed]⟩) :
    (discover next [seed] halts).toList[0]? = some seed := by
  have drawn := @draw?_of_not_mem α _ next ∅ [] seed (Roster.not_mem_empty seed)
  have h := prefix_exhaust next (halts.draw next drawn)
  rw [discover, exhaust_of_draw? next halts drawn]
  rw [Roster.toList_push, Roster.toList_empty, List.nil_append] at h
  obtain ⟨rest, h⟩ := h
  rw [← h]
  rfl

end Search

namespace Rulebook
variable {S : Type} [Ordered S]

/-- The closure holds the states that any number of free moves lead to, and no others. -/
theorem mem_closure {book : Rulebook S} {seeds : List S} {state : S} :
    state ∈ book.closure seeds ↔ ∃ seed ∈ seeds,
      Relation.ReflTransGen (fun p q => ⟨p, none, q⟩ ∈ book.rules) seed state := by
  have h : Search.Reaches book.freeMoves =
      Relation.ReflTransGen fun p q => ⟨p, none, q⟩ ∈ book.rules := by
    unfold Search.Reaches
    congr
    funext p q
    exact propext mem_freeMoves
  rw [closure, SortedSet.mem_ofList, Roster.mem_toList, Search.mem_discover_iff, h]

/-- Without free rules nothing is added to the seeds. -/
theorem closure_of_labelled {book : Rulebook S}
    (labelled : ∀ rule ∈ book.rules, rule.symbol ≠ none) (seeds : List S) :
    book.closure seeds = SortedSet.ofList seeds := by
  refine SortedSet.ext fun state => ?_
  rw [mem_closure, SortedSet.mem_ofList]
  constructor
  · rintro ⟨seed, mem, reaches⟩
    rcases reaches.cases_head with rfl | ⟨other, free, -⟩
    · exact mem
    · exact absurd rfl (labelled _ free)
  · intro mem
    exact ⟨state, mem, .refl⟩

end Rulebook
end Automata
