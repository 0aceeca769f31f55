import Automata.Proofs.Reachability
import Mathlib.Order.Bounds.Basic

/-! The closure of a rulebook is the least set that holds the seeds and that no free move leaves.
This pins it down without a word on how it was searched, so neither the order nor the number of the
rules and of the seeds can show in it, and neither can a cycle of free moves. What one expects of a
closure follows from leastness alone. -/
namespace Automata
namespace Rulebook
variable {S : Type} [Ordered S]

/-- No free move leads out of the states. -/
def FreeClosed (book : Rulebook S) (states : Set S) : Prop :=
  ∀ p ∈ states, ∀ q, ⟨p, none, q⟩ ∈ book.rules → q ∈ states

variable {book other : Rulebook S} {seeds more : List S} {state : S}

theorem mem_closure_of_mem (mem : state ∈ seeds) : state ∈ book.closure seeds :=
  mem_closure.2 ⟨state, mem, .refl⟩

theorem freeClosed_closure (book : Rulebook S) (seeds : List S) :
    book.FreeClosed {state | state ∈ book.closure seeds} := by
  intro p hp q free
  simp only [Set.mem_ofPred_eq, mem_closure] at hp ⊢
  obtain ⟨seed, mem, reaches⟩ := hp
  exact ⟨seed, mem, reaches.tail free⟩

/-- A set that no free move leaves holds the closure of all that it holds. -/
theorem FreeClosed.closure_subset {states : Set S} (closed : book.FreeClosed states)
    (holds : ∀ seed ∈ seeds, seed ∈ states) (mem : state ∈ book.closure seeds) :
    state ∈ states := by
  obtain ⟨seed, hseed, reaches⟩ := mem_closure.1 mem
  induction reaches with
  | refl => exact holds seed hseed
  | tail before free ih => exact closed _ (ih (mem_closure.2 ⟨seed, hseed, before⟩)) _ free

theorem closure_isLeast (book : Rulebook S) (seeds : List S) :
    IsLeast {states : Set S | (∀ seed ∈ seeds, seed ∈ states) ∧ book.FreeClosed states}
      {state | state ∈ book.closure seeds} := by
  constructor
  · exact ⟨fun seed mem => mem_closure_of_mem mem, book.freeClosed_closure seeds⟩
  · rintro states ⟨holds, closed⟩ state mem
    exact closed.closure_subset holds mem

/-- More seeds and more rules reach no less. -/
theorem closure_mono (rules : book.rules ⊆ other.rules) (subset : seeds ⊆ more)
    (mem : state ∈ book.closure seeds) : state ∈ other.closure more := by
  have closed : book.FreeClosed {state | state ∈ other.closure more} :=
    fun p hp q free => other.freeClosed_closure more p hp q (rules free)
  exact closed.closure_subset (fun seed hseed => mem_closure_of_mem (subset hseed)) mem

theorem closure_closure (book : Rulebook S) (seeds : List S) :
    book.closure (book.closure seeds).toList = book.closure seeds := by
  refine SortedSet.ext fun state => ⟨fun mem => ?_, fun mem => ?_⟩
  · exact (book.freeClosed_closure seeds).closure_subset (fun _ => SortedSet.mem_def.2) mem
  · exact mem_closure_of_mem (SortedSet.mem_def.1 mem)

theorem mem_closure_append :
    state ∈ book.closure (seeds ++ more) ↔
      state ∈ book.closure seeds ∨ state ∈ book.closure more := by
  constructor
  · have closed : book.FreeClosed
        {state | state ∈ book.closure seeds ∨ state ∈ book.closure more} := by
      rintro p (hp | hp) q free
      · exact .inl (book.freeClosed_closure seeds p hp q free)
      · exact .inr (book.freeClosed_closure more p hp q free)
    refine closed.closure_subset fun seed mem => ?_
    rcases List.mem_append.1 mem with mem | mem
    · exact .inl (mem_closure_of_mem mem)
    · exact .inr (mem_closure_of_mem mem)
  · rintro (mem | mem)
    · exact closure_mono (List.Subset.refl _) (List.subset_append_left seeds more) mem
    · exact closure_mono (List.Subset.refl _) (List.subset_append_right seeds more) mem

/-- What it means that the free moves from the seeds are followed to the end and no further. -/
structure ExactClosure (book : Rulebook S) (seeds : List S) : Prop where
  /-- The search comes to an end. -/
  halts : Search.Halts book.freeMoves ⟨∅, seeds⟩
  /-- The free moves are those of the rules. -/
  moves : ∀ p, book.follow p none = .ofList ((book.rulesFor p none).map Rule.target) ∧
    ∀ q, q ∈ book.freeMoves p ↔ ⟨p, none, q⟩ ∈ book.rules
  reached : ∀ state, state ∈ book.closure seeds ↔ ∃ seed ∈ seeds,
    Relation.ReflTransGen (fun p q => ⟨p, none, q⟩ ∈ book.rules) seed state
  least : IsLeast {states : Set S | (∀ seed ∈ seeds, seed ∈ states) ∧ book.FreeClosed states}
    {state | state ∈ book.closure seeds}
  /-- The same rules and the same seeds, in any order and number, have the same closure. -/
  unordered : ∀ (other : Rulebook S) (again : List S),
    (∀ rule, rule ∈ other.rules ↔ rule ∈ book.rules) → (∀ seed, seed ∈ again ↔ seed ∈ seeds) →
    other.closure again = book.closure seeds
  inflationary : ∀ seed ∈ seeds, seed ∈ book.closure seeds
  idempotent : book.closure (book.closure seeds).toList = book.closure seeds
  monotone : ∀ more, seeds ⊆ more → ∀ state ∈ book.closure seeds, state ∈ book.closure more
  union : ∀ more state, state ∈ book.closure (seeds ++ more) ↔
    state ∈ book.closure seeds ∨ state ∈ book.closure more

/-- From any seeds, free moves are followed to the end and no further. -/
theorem closure_exact (book : Rulebook S) (seeds : List S) : book.ExactClosure seeds where
  halts := (book.confined_freeMoves seeds).halts
  moves p := ⟨book.follow_eq p none, fun q => mem_freeMoves⟩
  reached _ := mem_closure
  least := book.closure_isLeast seeds
  unordered other again rules same := by
    refine SortedSet.ext fun state => ⟨fun mem => ?_, fun mem => ?_⟩
    · exact closure_mono (fun rule => (rules rule).1) (fun seed => (same seed).1) mem
    · exact closure_mono (fun rule => (rules rule).2) (fun seed => (same seed).2) mem
  inflationary _ := mem_closure_of_mem
  idempotent := book.closure_closure seeds
  monotone _ subset _ := closure_mono (List.Subset.refl _) subset
  union _ _ := mem_closure_append

end Rulebook
end Automata
