import Automata.Proofs.Reachability
import Mathlib.Algebra.Ring.Nat
import Mathlib.Data.Set.Finite.Basic

/-! A search that starts with seen points finds what the queue reaches around them: a seen point is
never expanded, so nothing is found through it alone. The search ends just when finitely many points
are within reach. How much work it is shows on record: written as a loop that takes points off the
queue and asks for successors, and that nothing in its definition makes end, the search asks once
for each point that it adds, and takes off the queue what was there and all that it was told. -/
namespace Automata
namespace Search
variable {α : Type} [Ordered α] (next : α → List α)

/-- The points that the queue leads to over unseen points alone, the first and the last included. -/
def reach (search : Search α) : Set α :=
  {x | ∃ first ∈ search.queue, first ∉ search.seen ∧
    Relation.ReflTransGen (fun x y => y ∈ next x ∧ y ∉ search.seen) first x}

theorem not_mem_seen_of_mem_reach {search : Search α} {x : α} (mem : x ∈ reach next search) :
    x ∉ search.seen := by
  obtain ⟨first, -, new, steps⟩ := mem
  rcases steps.cases_tail with rfl | ⟨y, -, -, new'⟩
  · exact new
  · exact new'

theorem mem_reach_of_mem_queue {search : Search α} {x : α} (mem : x ∈ search.queue)
    (new : x ∉ search.seen) : x ∈ reach next search :=
  ⟨x, mem, new, .refl⟩

theorem mem_reach_of_mem_next {search : Search α} {x y : α} (mem : x ∈ reach next search)
    (succ : y ∈ next x) (new : y ∉ search.seen) : y ∈ reach next search := by
  obtain ⟨first, queued, new', steps⟩ := mem
  exact ⟨first, queued, new', steps.tail ⟨succ, new⟩⟩

theorem reach_drop {seen : Roster α} {x : α} {rest : List α} :
    reach next ⟨seen, rest⟩ ⊆ reach next ⟨seen, x :: rest⟩ := by
  rintro y ⟨first, queued, new, steps⟩
  exact ⟨first, List.mem_cons_of_mem x queued, new, steps⟩

/-- What is within reach after an expansion was so before. -/
theorem reach_expand {seen : Roster α} {x : α} {rest : List α} (new : x ∉ seen) :
    reach next ⟨seen.push x new, rest ++ next x⟩ ⊆ reach next ⟨seen, x :: rest⟩ := by
  rintro y ⟨first, queued, new', steps⟩
  have unseen {z : α} (h : z ∉ seen.push x new) : z ∉ seen :=
    fun mem => h ((Roster.mem_push new).2 (.inr mem))
  have hfirst : first ∈ reach next ⟨seen, x :: rest⟩ := by
    rcases List.mem_append.1 queued with mem | mem
    · exact mem_reach_of_mem_queue next (List.mem_cons_of_mem x mem) (unseen new')
    · exact mem_reach_of_mem_next next (mem_reach_of_mem_queue next List.mem_cons_self new) mem
        (unseen new')
  induction steps with
  | refl => exact hfirst
  | tail _ step ih => exact mem_reach_of_mem_next next ih step.1 (unseen step.2)

/-- The successors of a point that the search has added are found. -/
theorem mem_exhaust_of_mem_next {search : Search α} (halts : Halts next search) {x y : α}
    (found : x ∈ exhaust next search halts) (new : x ∉ search.seen) (mem : y ∈ next x) :
    y ∈ exhaust next search halts := by
  induction search, halts using Halts.induct next with
  | nil seen halts =>
    rw [exhaust_nil] at found
    exact absurd found new
  | drop seen z rest halts halts' old ih =>
    rw [exhaust_of_draw? next halts (draw?_of_mem next old)] at found ⊢
    exact ih found new
  | expand seen z rest halts hz halts' ih =>
    rw [exhaust_of_draw? next halts (draw?_of_not_mem next hz)] at found ⊢
    by_cases same : x = z
    · subst same
      exact mem_exhaust_of_mem_queue next halts' (List.mem_append_right rest mem)
    · exact ih found fun h => ((Roster.mem_push hz).1 h).elim same new

theorem mem_exhaust_iff {search : Search α} (halts : Halts next search) {x : α} :
    x ∈ exhaust next search halts ↔ x ∈ search.seen ∨ x ∈ reach next search := by
  constructor
  · intro found
    induction search, halts using Halts.induct next with
    | nil seen halts =>
      rw [exhaust_nil] at found
      exact .inl found
    | drop seen z rest halts halts' old ih =>
      rw [exhaust_of_draw? next halts (draw?_of_mem next old)] at found
      exact (ih found).imp_right fun mem => reach_drop next mem
    | expand seen z rest halts hz halts' ih =>
      rw [exhaust_of_draw? next halts (draw?_of_not_mem next hz)] at found
      rcases ih found with mem | mem
      · rcases (Roster.mem_push hz).1 mem with rfl | mem
        · exact .inr (mem_reach_of_mem_queue next List.mem_cons_self hz)
        · exact .inl mem
      · exact .inr (reach_expand next hz mem)
  · rintro (mem | ⟨first, queued, new, steps⟩)
    · exact mem_exhaust_of_mem_seen next halts mem
    · induction steps with
      | refl => exact mem_exhaust_of_mem_queue next halts queued
      | tail before step ih =>
        have unseen := not_mem_seen_of_mem_reach next ⟨first, queued, new, before⟩
        exact mem_exhaust_of_mem_next next halts ih unseen step.1

theorem halts_iff_finite {search : Search α} :
    Halts next search ↔ (reach next search).Finite := by
  constructor
  · intro halts
    refine (List.finite_toSet (exhaust next search halts).toList).subset fun x mem => ?_
    exact Roster.mem_toList.2 ((mem_exhaust_iff next halts).2 (.inr mem))
  · intro finite
    obtain ⟨points, hpoints⟩ := finite.exists_finset
    let confines := search.queue ++ points.toList ++ points.toList.flatMap next
    refine Confined.halts next ⟨confines, fun x mem => ?_, fun x mem new y succ => ?_⟩
    · exact List.mem_append_left _ (List.mem_append_left _ mem)
    · have hx : x ∈ reach next search := by
        simp only [confines, List.mem_append, List.mem_flatMap, Finset.mem_toList, hpoints] at mem
        rcases mem with (mem | mem) | ⟨z, hz, mem⟩
        · exact mem_reach_of_mem_queue next mem new
        · exact mem
        · exact mem_reach_of_mem_next next hz mem new
      refine List.mem_append_right _ (List.mem_flatMap.2 ⟨x, ?_, succ⟩)
      rwa [Finset.mem_toList, hpoints]

/-- What a search has done: the points that it took off the queue, and those whose successors it
asked for, both in order. -/
structure Record (α : Type) where
  popped : List α
  asked : List α

/-- A part of a search that goes on record, and that need not end. -/
abbrev Recorded (α β : Type) : Type := StateT (Record α) Option β

/-- Takes the front off the queue, if there is one. -/
def pop : List α → Recorded α (Option α × List α)
  | [] => return (none, [])
  | x :: rest => do
    modify fun record => { record with popped := record.popped ++ [x] }
    return (some x, rest)

/-- Asks for the successors of a point. -/
def ask (x : α) : Recorded α (List α) := do
  modify fun record => { record with asked := record.asked ++ [x] }
  return next x

/-- Takes points off the queue as long as there are any. -/
def drain (search : Search α) : Recorded α (Search α) := do
  match ← pop search.queue with
  | (none, rest) => return ⟨search.seen, rest⟩
  | (some x, rest) =>
    if mem : x ∈ search.seen then (⟨search.seen, rest⟩ : Search α) |>.drain
    else
      let more ← ask next x
      (⟨search.seen.push x mem, rest ++ more⟩ : Search α) |>.drain
partial_fixpoint

theorem drain_nil (seen : Roster α) (record : Record α) :
    (drain next ⟨seen, []⟩).run record = some (⟨seen, []⟩, record) := by
  rw [drain]
  rfl

theorem drain_of_mem {seen : Roster α} {x : α} (rest : List α) (record : Record α)
    (mem : x ∈ seen) : (drain next ⟨seen, x :: rest⟩).run record =
      (drain next ⟨seen, rest⟩).run ⟨record.popped ++ [x], record.asked⟩ := by
  rw [drain]
  simp only [pop, bind_assoc, pure_bind, dif_pos mem]
  rfl

theorem drain_of_not_mem {seen : Roster α} {x : α} (rest : List α) (record : Record α)
    (new : x ∉ seen) : (drain next ⟨seen, x :: rest⟩).run record =
      (drain next ⟨seen.push x new, rest ++ next x⟩).run
        ⟨record.popped ++ [x], record.asked ++ [x]⟩ := by
  rw [drain]
  simp only [pop, ask, bind_assoc, pure_bind, dif_neg new]
  rfl

/-- The loop ends with what the search finds. It asks for the points that it adds, and takes off the
queue what was there and then, in order, what it was told. -/
theorem exists_drain_eq {search : Search α} (halts : Halts next search) (record : Record α) :
    ∃ asked, (exhaust next search halts).toList = search.seen.toList ++ asked ∧
      (drain next search).run record =
        some (⟨exhaust next search halts, []⟩,
          ⟨record.popped ++ (search.queue ++ asked.flatMap next), record.asked ++ asked⟩) := by
  induction search, halts using Halts.induct next generalizing record with
  | nil seen halts =>
    refine ⟨[], ?_, ?_⟩
    · rw [exhaust_nil, List.append_nil]
    · rw [exhaust_nil, drain_nil]
      simp
  | drop seen x rest halts halts' mem ih =>
    obtain ⟨asked, hfound, hdrain⟩ := ih ⟨record.popped ++ [x], record.asked⟩
    rw [exhaust_of_draw? next halts (draw?_of_mem next mem)]
    refine ⟨asked, hfound, ?_⟩
    rw [drain_of_mem next rest record mem, hdrain]
    simp
  | expand seen x rest halts new halts' ih =>
    obtain ⟨asked, hfound, hdrain⟩ := ih ⟨record.popped ++ [x], record.asked ++ [x]⟩
    rw [exhaust_of_draw? next halts (draw?_of_not_mem next new)]
    refine ⟨x :: asked, ?_, ?_⟩
    · rw [hfound, Roster.toList_push, List.append_assoc, List.singleton_append]
    · rw [drain_of_not_mem next rest record new, hdrain]
      simp

/-- What it means that a search is done, and what it took. -/
structure Drained (search done : Search α) (record : Record α) : Prop where
  queue : done.queue = []
  found : ∀ x, x ∈ done.seen ↔ x ∈ search.seen ∨ x ∈ reach next search
  /-- A point is asked for once if the search has added it, and never otherwise. -/
  asked : ∀ x, record.asked.count x = if x ∈ done.seen ∧ x ∉ search.seen then 1 else 0
  popped : record.popped.length =
    search.queue.length + (record.asked.map fun x => (next x).length).sum

/-- If finitely many points are within reach, the search ends and is drained. How many others could
be reached through seen points does not matter. -/
theorem search_drained (search : Search α) (finite : (reach next search).Finite) :
    ∃ (halts : Halts next search) (done : Search α) (record : Record α),
      (drain next search).run ⟨[], []⟩ = some (done, record) ∧
      done.seen = exhaust next search halts ∧ Drained next search done record := by
  have halts := (halts_iff_finite next).2 finite
  obtain ⟨asked, hfound, hdrain⟩ := exists_drain_eq next halts ⟨[], []⟩
  simp only [List.nil_append] at hdrain
  refine ⟨halts, _, _, hdrain, rfl, rfl, fun x => mem_exhaust_iff next halts, fun x => ?_, ?_⟩
  · have hdistinct := (exhaust next search halts).nodup_toList
    rw [hfound, List.nodup_append] at hdistinct
    obtain ⟨-, hasked, hapart⟩ := hdistinct
    have hmem : x ∈ asked ↔ x ∈ exhaust next search halts ∧ x ∉ search.seen := by
      rw [← Roster.mem_toList, hfound, List.mem_append, Roster.mem_toList]
      constructor
      · intro mem
        exact ⟨.inr mem, fun old => hapart x (Roster.mem_toList.2 old) x mem rfl⟩
      · exact fun h => h.1.resolve_left h.2
    rw [hasked.count]
    simp only [hmem]
  · simp only [List.length_append, List.length_flatMap]

/-- Five points in a ring. -/
def ring (n : Nat) : List Nat := [(n + 1) % 5]

/-- One point of the ring is seen, and the queue names the others from both sides of it. -/
def ringSearch : Search Nat := ⟨(∅ : Roster Nat).push 2 (Roster.not_mem_empty 2), [0, 3, 0]⟩

theorem search_drained_ring :
    (reach ring ringSearch).Finite ∧
      ∃ (halts : Halts ring ringSearch) (done : Search Nat) (record : Record Nat),
        (drain ring ringSearch).run ⟨[], []⟩ = some (done, record) ∧
        done.seen = exhaust ring ringSearch halts ∧ Drained ring ringSearch done record := by
  have finite : (reach ring ringSearch).Finite := by
    refine (Set.finite_lt_nat 5).subset ?_
    rintro x ⟨first, queued, -, steps⟩
    induction steps with
    | refl => exact (by decide : ∀ first ∈ ringSearch.queue, first < 5) first queued
    | tail _ step _ =>
      obtain rfl := List.mem_singleton.1 step.1
      exact Nat.mod_lt _ (by decide)
  exact ⟨finite, search_drained ring ringSearch finite⟩

end Search
end Automata
