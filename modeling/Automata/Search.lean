import Automata.Roster

/-! One worklist serves both closures of this library: following free moves, and discovering the
state sets of a subset construction. A draw takes the front of the queue and expands it unless it
was expanded before, so no point is expanded twice, and the points come out in the order in which
they first joined the queue. Whether a search ends depends on the graph, so the exhausted search
takes a proof that it does; a finite list of points that holds the queue and is closed under
successors gives one, and that list is never computed. -/
namespace Automata

/-- A search in progress: what was expanded, and what waits, next first. -/
structure Search (α : Type) [Ordered α] where
  seen : Roster α
  queue : List α

namespace Search
variable {α : Type} [Ordered α] (next : α → List α)

/-- Takes the front of the queue. A point seen before is dropped; any other one is marked as seen,
and its successors join the back of the queue. -/
def draw? (search : Search α) : Option (Search α) :=
  match search.queue with
  | [] => none
  | x :: rest =>
    if mem : x ∈ search.seen then some ⟨search.seen, rest⟩
    else some ⟨search.seen.push x mem, rest ++ next x⟩

theorem draw?_of_mem {seen : Roster α} {rest : List α} {x : α} (mem : x ∈ seen) :
    draw? next ⟨seen, x :: rest⟩ = some ⟨seen, rest⟩ := by
  simp [draw?, mem]

theorem draw?_of_not_mem {seen : Roster α} {rest : List α} {x : α} (new : x ∉ seen) :
    draw? next ⟨seen, x :: rest⟩ = some ⟨seen.push x new, rest ++ next x⟩ := by
  simp [draw?, new]

/-- Every chain of draws ends. -/
inductive Halts : Search α → Prop where
  | intro (search : Search α) (later : ∀ later, draw? next search = some later → Halts later) :
      Halts search

theorem Halts.draw {search later : Search α} (halts : Halts next search)
    (drawn : draw? next search = some later) : Halts next later := by
  cases halts with
  | intro _ ends => exact ends later drawn

instance : WellFoundedRelation {search : Search α // Halts next search} where
  rel later earlier := draw? next earlier.1 = some later.1
  wf := ⟨fun ⟨search, halts⟩ => by
    induction halts with
    | intro search _ ih => exact Acc.intro _ fun later drawn => ih later.1 drawn⟩

/-- Draws until the queue is empty, and returns all that was seen. -/
def exhaust (search : Search α) (halts : Halts next search) : Roster α :=
  match drawn : draw? next search with
  | none => search.seen
  | some later => exhaust later (halts.draw next drawn)
termination_by (⟨search, halts⟩ : {search : Search α // Halts next search})
decreasing_by exact drawn

/-- The points reached from the seeds, each once, in the order of their first draw. -/
def discover (seeds : List α) (halts : Halts next ⟨∅, seeds⟩) : Roster α :=
  exhaust next ⟨∅, seeds⟩ halts

theorem exhaust_of_draw? {search later : Search α} (halts : Halts next search)
    (drawn : draw? next search = some later) :
    exhaust next search halts = exhaust next later (halts.draw next drawn) := by
  rw [exhaust]
  split
  · next none => simp [none] at drawn
  · next other some =>
    obtain rfl : other = later := Option.some.inj (some.symm.trans drawn)
    rfl

theorem exhaust_nil (seen : Roster α) (halts : Halts next ⟨seen, []⟩) :
    exhaust next ⟨seen, []⟩ halts = seen := by
  rw [exhaust]
  rfl

/-- To prove a property of every search that halts, prove it for the empty queue and carry it back
over a draw that drops a point and over a draw that expands one. -/
theorem Halts.induct {motive : ∀ search, Halts next search → Prop}
    (nil : ∀ seen halts, motive ⟨seen, []⟩ halts)
    (drop : ∀ seen x rest halts halts', x ∈ seen → motive ⟨seen, rest⟩ halts' →
      motive ⟨seen, x :: rest⟩ halts)
    (expand : ∀ seen x rest halts (new : x ∉ seen) halts',
      motive ⟨seen.push x new, rest ++ next x⟩ halts' → motive ⟨seen, x :: rest⟩ halts)
    (search : Search α) (halts : Halts next search) : motive search halts := by
  induction halts with
  | intro search ends ih =>
    obtain ⟨seen, queue⟩ := search
    cases queue with
    | nil => exact nil seen _
    | cons x rest =>
      by_cases mem : x ∈ seen
      · have drawn := @draw?_of_mem α _ next seen rest x mem
        exact drop seen x rest _ (ends _ drawn) mem (ih _ drawn)
      · have drawn := @draw?_of_not_mem α _ next seen rest x mem
        exact expand seen x rest _ mem (ends _ drawn) (ih _ drawn)

/-- A property of the seen and queued points that successors keep holds of all that is found. -/
theorem forall_mem_exhaust {P : α → Prop} (closed : ∀ x, P x → ∀ y ∈ next x, P y)
    {search : Search α} (halts : Halts next search) (seen : ∀ x ∈ search.seen, P x)
    (queued : ∀ x ∈ search.queue, P x) : ∀ x ∈ exhaust next search halts, P x := by
  induction search, halts using Halts.induct next with
  | nil roster halts =>
    rw [exhaust_nil]
    exact seen
  | drop roster x rest halts halts' mem ih =>
    rw [exhaust_of_draw? next halts (draw?_of_mem next mem)]
    exact ih seen fun y hy => queued y (List.mem_cons_of_mem x hy)
  | expand roster x rest halts new halts' ih =>
    rw [exhaust_of_draw? next halts (draw?_of_not_mem next new)]
    have hx := queued x List.mem_cons_self
    refine ih (fun y hy => ?_) fun y hy => ?_
    · rcases (Roster.mem_push new).1 hy with rfl | hy
      · exact hx
      · exact seen y hy
    · rcases List.mem_append.1 hy with hy | hy
      · exact queued y (List.mem_cons_of_mem x hy)
      · exact closed x hx y hy

theorem forall_mem_discover {P : α → Prop} (closed : ∀ x, P x → ∀ y ∈ next x, P y)
    {seeds : List α} (halts : Halts next ⟨∅, seeds⟩) (holds : ∀ x ∈ seeds, P x) :
    ∀ x ∈ discover next seeds halts, P x :=
  forall_mem_exhaust next closed halts (fun x h => absurd h (Roster.not_mem_empty x)) holds

/-- Finitely many points hold the queue and the successors of all of them that are still unseen. -/
def Confined (search : Search α) : Prop :=
  ∃ points : List α, (∀ x ∈ search.queue, x ∈ points) ∧
    ∀ x ∈ points, x ∉ search.seen → ∀ y ∈ next x, y ∈ points

/-- Seeing one of the points leaves fewer of them unseen. -/
theorem countP_unseen_lt {points : List α} {seen : Roster α} {x : α} (mem : x ∈ points)
    (new : x ∉ seen) : points.countP (· ∉ seen.push x new) < points.countP (· ∉ seen) := by
  have fewer (y : α) (h : decide (y ∉ seen.push x new) = true) : decide (y ∉ seen) = true := by
    simp only [Roster.mem_push, not_or, decide_eq_true_eq] at h ⊢
    exact h.2
  obtain ⟨before, after, rfl⟩ := List.append_of_mem mem
  have hb := List.countP_mono_left (l := before) fun y _ => fewer y
  have ha := List.countP_mono_left (l := after) fun y _ => fewer y
  have hx : decide (x ∉ seen.push x new) = false := by simp
  have hx' : decide (x ∉ seen) = true := decide_eq_true new
  simp only [List.countP_append, List.countP_cons, hx, hx', if_true, Bool.false_eq_true, if_false]
  omega

/-- Each draw lowers the number of unseen points, or keeps it and shortens the queue. -/
theorem Confined.halts {search : Search α} (confined : Confined next search) :
    Halts next search := by
  obtain ⟨points, queued, closed⟩ := confined
  generalize hu : points.countP (· ∉ search.seen) = unseen
  induction unseen using Nat.strongRecOn generalizing search with
  | ind unseen ih =>
    obtain ⟨seen, queue⟩ := search
    induction queue with
    | nil => exact .intro _ fun later drawn => by simp [draw?] at drawn
    | cons x rest ihq =>
      refine .intro _ fun later drawn => ?_
      by_cases mem : x ∈ seen
      · rw [draw?_of_mem next mem, Option.some.injEq] at drawn
        subst drawn
        exact ihq (fun y hy => queued y (List.mem_cons_of_mem x hy)) closed hu
      · rw [draw?_of_not_mem next mem, Option.some.injEq] at drawn
        subst drawn
        have hx : x ∈ points := queued x List.mem_cons_self
        refine ih _ ?_ ?_ (fun y hy new => ?_) rfl
        · rw [← hu]
          exact countP_unseen_lt hx mem
        · intro y hy
          rcases List.mem_append.1 hy with hy | hy
          · exact queued y (List.mem_cons_of_mem x hy)
          · exact closed x hx mem y hy
        · exact closed y hy fun h => new ((Roster.mem_push mem).2 (.inr h))

end Search
end Automata
